import DerCodec.BitString
import DerCodec.Framing
import DerCodec.Integer
import DerCodec.Oid
import DerCodec.Schema.Error
import DerCodec.TimeString

/-!
# Causes of failure in an element
-/

namespace DerCodec

inductive ElementError where
  | framing (cause : FramingError)
  | unexpectedTag (expected actual : Tag)
  | unexpectedElement (expected : String) (actual : Tag)
  | elementCount (what : String) (expected actual : Nat)
  | constructedOverride (tag : Tag)
  | nestingTooDeep (limit : Nat)
  | booleanContent
  | integerEmpty
  | integerRange (range : WordRange)
  | nullContent (octets : Nat)
  | oid (cause : OidError)
  | bitString (cause : BitStringError)
  | notUtf8 (what : String)
  | notAscii (what : String)
  | time (cause : TimeError)
  | schema (cause : SchemaError)
deriving DecidableEq, Repr

namespace ElementError

def kind : ElementError → ErrorKind
  | framing cause => cause.kind
  | oid cause => cause.kind
  | bitString cause => cause.kind
  | time cause => cause.kind
  | schema cause => cause.kind
  | unexpectedTag .. => .shape
  | unexpectedElement .. => .shape
  | elementCount .. => .shape
  | nestingTooDeep _ => .shape
  | constructedOverride _ => .encoding
  | _ => .value

def message : ElementError → String
  | framing cause => s!"invalid BER framing: {cause.message}"
  | unexpectedTag expected actual => s!"expected tag {expected.text}, got {actual.text}"
  | unexpectedElement expected actual =>
    s!"expected {expected}, got element with tag {actual.text}"
  | elementCount what expected actual => s!"{what}: expected {expected} elements, got {actual}"
  | constructedOverride tag => s!"override tag {tag.text} must be primitive"
  | nestingTooDeep limit => s!"nesting deeper than {limit} levels"
  | booleanContent => "BOOLEAN: content must be a single 0x00 or 0xff octet"
  | integerEmpty => "INTEGER: no data"
  | integerRange range => s!"INTEGER: value out of range for {range.label}"
  | nullContent octets => s!"NULL: content must be empty, got {octets} bytes"
  | oid cause => cause.message
  | bitString cause => cause.message
  | notUtf8 what => s!"{what}: invalid UTF-8"
  | notAscii what => s!"{what}: non-ASCII character"
  | time cause => cause.message
  | schema cause => cause.message

instance : Cause ElementError := ⟨kind, message⟩

end ElementError

end DerCodec
