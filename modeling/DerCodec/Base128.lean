import DerCodec.Bytes

/-!
# Base-128 numbers

Large tag numbers and the components of an object identifier are written seven bits to an octet,
most significant first, every octet but the last with its high bit set. The written form has no
leading zero digit.
-/

namespace DerCodec.Base128

/-- The digits that stand before the last one, none for zero. -/
def leading (n : Nat) : Bytes :=
  if n = 0 then [] else leading (n / 128) ++ [UInt8.ofNat (n % 128 + 128)]
termination_by n

def encode (n : Nat) : Bytes :=
  leading (n / 128) ++ [UInt8.ofNat (n % 128)]

/-- Whether the octet says that more digits follow. -/
def continues (octet : UInt8) : Bool :=
  128 ≤ octet

/-- The number so far with one more digit, if it stays below `limit`. -/
def push? (limit n : Nat) (octet : UInt8) : Option Nat :=
  let longer := n * 128 + octet.toNat % 128
  if longer < limit then some longer else none

end DerCodec.Base128
