import DerCodec.Bytes
import DerCodec.Text.Decimal

/-!
# Integers on the wire

Content octets are two's complement of any size, most significant octet first. Superfluous sign
octets are read and never written: `TwosComplement.encode` gives the shortest content.
-/

namespace DerCodec

namespace TwosComplement

/-- The first octet has the sign: a negative number continues minus one. -/
def value (content : Bytes) : Int :=
  content.foldl (fun n octet => n * 256 + octet.toNat)
    (if content.head?.any (128 ≤ ·) then -1 else 0)

def encode (n : Int) : Bytes :=
  if -128 ≤ n ∧ n < 128 then [UInt8.ofNat (n % 256).toNat]
  else encode (n / 256) ++ [UInt8.ofNat (n % 256).toNat]
termination_by n.natAbs
decreasing_by omega

end TwosComplement

/-- Ranges of the fixed-width integers that a consumer may ask for. -/
inductive WordRange where
  | signed32
  | signed64
  | unsigned32
  | unsigned64
deriving DecidableEq, Repr

namespace WordRange

def low : WordRange → Int
  | signed32 => -2147483648
  | signed64 => -9223372036854775808
  | unsigned32 => 0
  | unsigned64 => 0

/-- The least number above the range. -/
def high : WordRange → Int
  | signed32 => 2147483648
  | signed64 => 9223372036854775808
  | unsigned32 => 4294967296
  | unsigned64 => 18446744073709551616

def label : WordRange → String
  | signed32 => "i32"
  | signed64 => "i64"
  | unsigned32 => "u32"
  | unsigned64 => "u64"

def contains (range : WordRange) (n : Int) : Bool :=
  range.low ≤ n && n < range.high

end WordRange

namespace Integer

def text (n : Int) : String :=
  String.ofList (Decimal.ofInt n)

def ofText? (text : String) : Option Int :=
  Decimal.int? text.toList

/-- The integer itself when it lies in `range`. -/
def narrow? (range : WordRange) (n : Int) : Option Int :=
  if range.contains n then some n else none

end Integer

end DerCodec
