import DerCodec.ErrorKind
import DerCodec.Tag

/-!
# Causes of a schema mismatch
-/

namespace DerCodec

inductive SchemaError where
  | missingField (schema field : String)
  | fieldTag (schema field : String) (expected actual : Tag)
  | unexpectedField (schema : String) (tag : Tag)
  | duplicateField (schema : String) (tag : Tag)
  | unknownField (schema : String) (tag : Tag)
deriving DecidableEq, Repr

namespace SchemaError

def kind : SchemaError → ErrorKind
  | unknownField .. => .encoding
  | _ => .shape

def message : SchemaError → String
  | missingField schema field => s!"{schema}: missing mandatory field {field}"
  | fieldTag schema field expected actual =>
    s!"{schema}: field {field} expected tag {expected.text}, got {actual.text}"
  | unexpectedField schema tag => s!"{schema}: unexpected element with tag {tag.text}"
  | duplicateField schema tag => s!"{schema}: element with tag {tag.text} appears more than once"
  | unknownField schema tag => s!"{schema}: no field with tag {tag.text}"

instance : Cause SchemaError := ⟨kind, message⟩

end SchemaError

end DerCodec
