import DerCodec.Integer
import DerCodec.Json
import DerCodec.OctetString
import DerCodec.Universal

/-!
# JSON forms of primitive values

Octet strings, integers and object identifiers are texts, and so are times. A bit string is its
length and its octets. What is written for an octet string, an integer or an identifier can be read
again; the readers also take other spellings of the same value.
-/

namespace DerCodec

inductive JsonError where
  /-- A JSON value of another form than the type is written in. -/
  | form
  | integerText
  | octets (cause : HexError)
  | oid (cause : OidError)
deriving DecidableEq, Repr

namespace Json

def asText : Json → Except JsonError String
  | text value => .ok value
  | _ => .error .form

/-- The name of an alternative without content: a text, or an object with that one member. -/
def asVariant : Json → Except JsonError String
  | text name => .ok name
  | object [(name, null)] => .ok name
  | _ => .error .form

end Json

namespace OctetString

def toJson (octets : Bytes) : Json :=
  .text (toText octets)

def ofJson (json : Json) : Except JsonError Bytes := do
  let text ← json.asText
  (ofText text).mapError .octets

end OctetString

namespace Integer

def toJson (n : Int) : Json :=
  .text (text n)

def ofJson (json : Json) : Except JsonError Int := do
  let text ← json.asText
  match ofText? text with
  | some n => .ok n
  | none => .error .integerText

end Integer

namespace Oid

def toJson (oid : Oid) : Json :=
  .text oid.text

def ofJson (json : Json) : Except JsonError Oid := do
  let text ← json.asText
  (ofText text).mapError .oid

end Oid

namespace BitString

def toJson (b : BitString) : Json :=
  .object [("bit_length", .nat b.bitLength), ("bits", .text (Hex.encodeSeparated ':' b.octets))]

end BitString

namespace DateTime

def toJson (t : DateTime) : Json :=
  .text (t.text 'T')

end DateTime

end DerCodec
