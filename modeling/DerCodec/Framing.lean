import DerCodec.ErrorKind
import DerCodec.Tag

/-!
# Tag and length octets

Readers accept any valid form, also a length in more octets than it needs; writers emit the
shortest one. The indefinite length form is refused.
-/

namespace DerCodec

inductive FramingError where
  | endOfInput
  | truncated (declared available : Nat)
  | indefiniteLength
  | lengthTooWide (octets : Nat)
  | tagNumberTooLarge
  | trailing (octets : Nat)
  | notConstructed (tag : Tag)
deriving DecidableEq, Repr

namespace FramingError

def kind : FramingError → ErrorKind
  | notConstructed _ => .shape
  | _ => .framing

def message : FramingError → String
  | endOfInput => "unexpected end of input"
  | truncated declared available =>
    s!"element declares {declared} content bytes but only {available} remain"
  | indefiniteLength => "indefinite length form is not supported"
  | lengthTooWide octets => s!"length is encoded in {octets} bytes which does not fit in usize"
  | tagNumberTooLarge => "tag number does not fit in u32"
  | trailing octets => s!"{octets} trailing bytes after element"
  | notConstructed tag => s!"element with tag {tag.text} is primitive and has no children"

instance : Cause FramingError := ⟨kind, message⟩

end FramingError

/-- The base-128 number at the front, with the digits of `n` before it. -/
def Tag.readNumber (n : Nat) : Bytes → Except FramingError (Nat × Bytes)
  | [] => .error .endOfInput
  | octet :: rest =>
    match Base128.push? UInt32.size n octet with
    | none => .error .tagNumberTooLarge
    | some n => if Base128.continues octet then readNumber n rest else .ok (n, rest)

def Tag.read : Bytes → Except FramingError (Tag × Bytes)
  | [] => .error .endOfInput
  | first :: rest =>
    let tagClass := TagClass.ofOctet first
    let constructed := first / 32 % 2 == 1
    let low := first % 32
    if low < 31 then .ok (⟨tagClass, constructed, low.toUInt32⟩, rest)
    else do
      let (number, rest) ← Tag.readNumber 0 rest
      return (⟨tagClass, constructed, UInt32.ofNat number⟩, rest)

namespace Length

/-- One octet below 128, else the count of the octets that follow and the shortest of those. -/
def encode (n : Nat) : Bytes :=
  if n < 128 then [UInt8.ofNat n]
  else UInt8.ofNat (128 + (BigEndian.digits n).length) :: BigEndian.digits n

def read : Bytes → Except FramingError (Nat × Bytes)
  | [] => .error .endOfInput
  | first :: rest =>
    if first < 128 then .ok (first.toNat, rest)
    else
      let count := first.toNat - 128
      if count = 0 then .error .indefiniteLength
      else if 8 < count then .error (.lengthTooWide count)
      else if rest.length < count then .error (.truncated count rest.length)
      else .ok (BigEndian.value (rest.take count), rest.drop count)

end Length

end DerCodec
