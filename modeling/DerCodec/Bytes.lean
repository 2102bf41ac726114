/-!
# Octets and big-endian numbers

Encodings are lists of octets. A reader takes the octets in front of it and returns the rest.
`BigEndian.digits` writes a number in as few octets as possible, none for zero, and
`BigEndian.value` reads any number of octets.
-/

namespace DerCodec

abbrev Bytes := List UInt8

namespace BigEndian

def value (bytes : Bytes) : Nat :=
  bytes.foldl (fun n octet => n * 256 + octet.toNat) 0

def digits (n : Nat) : Bytes :=
  if n = 0 then [] else digits (n / 256) ++ [UInt8.ofNat (n % 256)]
termination_by n

/-- Exactly `width` octets; the leading digits of a number too large for them are cut off. -/
def padded (width n : Nat) : Bytes :=
  match width with
  | 0 => []
  | width + 1 => padded width (n / 256) ++ [UInt8.ofNat (n % 256)]

end BigEndian

end DerCodec
