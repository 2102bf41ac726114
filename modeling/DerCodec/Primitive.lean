import DerCodec.Element.Error
import DerCodec.Tlv
import DerCodec.Universal

/-!
# Content of the primitive types

Every primitive type has a reader and a writer of content octets. A value is framed under the tag
of its type, or under another primitive tag, which is how implicitly tagged fields are written. An
ENUMERATED has the content of an INTEGER. A PrintableString may hold any ASCII text, since
characters outside its alphabet are common in practice.
-/

namespace DerCodec

namespace Boolean

def decode : Bytes → Except ElementError Bool
  | [0x00] => .ok false
  | [0xff] => .ok true
  | _ => .error .booleanContent

def encode (value : Bool) : Bytes :=
  [if value then 0xff else 0x00]

end Boolean

namespace Integer

def decode (content : Bytes) : Except ElementError Int :=
  if content.isEmpty then .error .integerEmpty else .ok (TwosComplement.value content)

/-- As `narrow?`, with an error for an integer outside the range. -/
def narrow (range : WordRange) (n : Int) : Except ElementError Int :=
  match narrow? range n with
  | some n => .ok n
  | none => .error (.integerRange range)

end Integer

namespace AsciiString

def decode (what : String) (content : Bytes) : Except ElementError String :=
  if content.all (· < 128) then
    match Utf8.decode? content with
    | some text => .ok text
    | none => .error (.notUtf8 what)
  else .error (.notAscii what)

def encode (what text : String) : Except ElementError Bytes :=
  if Utf8.isAscii text then .ok (Utf8.encode text) else .error (.notAscii what)

end AsciiString

/-- The octets as text; `what` names them in the error. -/
def Utf8.decode (what : String) (content : Bytes) : Except ElementError String :=
  match Utf8.decode? content with
  | some text => .ok text
  | none => .error (.notUtf8 what)

namespace Primitive

def decode (type : Primitive) (content : Bytes) : Except ElementError type.Value :=
  match type with
  | boolean => Boolean.decode content
  | integer => Integer.decode content
  | bitString => (BitString.decode content).mapError .bitString
  | octetString => .ok content
  | null => if content.isEmpty then .ok () else .error (.nullContent content.length)
  | oid => (Oid.decode content).mapError .oid
  | enumerated => Integer.decode content
  | utf8String => Utf8.decode utf8String.label content
  | printableString => AsciiString.decode printableString.label content
  | ia5String => AsciiString.decode ia5String.label content
  | utcTime => (UtcTime.decode content).mapError .time
  | generalizedTime => (GeneralizedTime.decode content).mapError .time

def encode (type : Primitive) (value : type.Value) : Except ElementError Bytes :=
  match type, value with
  | boolean, value => .ok (Boolean.encode value)
  | integer, value => .ok (TwosComplement.encode value)
  | bitString, value => .ok value.encode
  | octetString, value => .ok value
  | null, _ => .ok []
  | oid, value => (Oid.encode value).mapError .oid
  | enumerated, value => .ok (TwosComplement.encode value)
  | utf8String, value => .ok (Utf8.encode value)
  | printableString, value => AsciiString.encode printableString.label value
  | ia5String, value => AsciiString.encode ia5String.label value
  | utcTime, value => (UtcTime.encode value).mapError .time
  | generalizedTime, value => (GeneralizedTime.encode value).mapError .time

/-- The value framed under exactly `tag`. -/
def decodeAs (type : Primitive) (tag : Tag) (tlv : Tlv) : Except ElementError type.Value :=
  if tlv.tag = tag then type.decode tlv.content else .error (.unexpectedTag tag tlv.tag)

def encodeAs (type : Primitive) (tag : Tag) (value : type.Value) : Except ElementError Tlv :=
  if tag.constructed then .error (.constructedOverride tag)
  else do
    let content ← type.encode value
    return ⟨tag, content⟩

end Primitive

end DerCodec
