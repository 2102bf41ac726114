import DerCodec.Element.Error

/-!
# Causes of failure in an extended operation value
-/

namespace DerCodec

inductive ExtendedValueError where
  | missingValue (name : String)
  | tooLarge (name : String) (length limit : Nat)
  /-- A failure inside the value with the given name. -/
  | inValue (name : String) (cause : ElementError)
  | unknownConfigurationType (text : String)
  | element (cause : ElementError)
deriving DecidableEq, Repr

namespace ExtendedValueError

def kind : ExtendedValueError → ErrorKind
  | missingValue _ => .shape
  | tooLarge .. => .framing
  | inValue _ cause => cause.kind
  | unknownConfigurationType _ => .value
  | element cause => cause.kind

def message : ExtendedValueError → String
  | missingValue name => s!"{name}: a value is required"
  | tooLarge name length limit => s!"{name}: value is {length} bytes, limit is {limit}"
  | inValue name cause => s!"{name}: {cause.message}"
  | unknownConfigurationType text => s!"unknown configuration type {text}"
  | element cause => cause.message

instance : Cause ExtendedValueError := ⟨kind, message⟩

end ExtendedValueError

end DerCodec
