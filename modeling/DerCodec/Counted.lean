import DerCodec.BitString

/-!
# Counted octets

A compact form for storage: octets after their number, which takes eight octets, least significant
first. A bit string has its count of unused bits before that.
-/

namespace DerCodec.Counted

def encode (bytes : Bytes) : Bytes :=
  (BigEndian.padded 8 bytes.length).reverse ++ bytes

/-- The counted octets at the front, whatever follows them; refuses a count of more octets than there
are. -/
def decode? (bytes : Bytes) : Option Bytes :=
  let count := bytes.take 8
  let content := bytes.drop 8
  let length := BigEndian.value count.reverse
  if count.length = 8 ∧ length ≤ content.length then some (content.take length) else none

def encodeBits (b : BitString) : Bytes :=
  b.unused :: encode b.octets

end DerCodec.Counted
