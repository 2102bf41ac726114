/-!
# Decimal text

Numbers are written with ASCII digits and without leading zeros, or padded to a least width. Two
readers differ in what they let through besides digits: the one for naturals takes one plus sign,
the one for integers a sign and underscores after the first digit.
-/

namespace DerCodec.Decimal

def isDigit (c : Char) : Bool :=
  '0' ≤ c && c ≤ '9'

def ofNat (n : Nat) : List Char :=
  Nat.toDigits 10 n

def ofInt (n : Int) : List Char :=
  if n < 0 then '-' :: ofNat n.natAbs else ofNat n.natAbs

/-- At least `width` digits, with zeros in front. -/
def padded (width n : Nat) : List Char :=
  List.replicate (width - (ofNat n).length) '0' ++ ofNat n

def value (digits : List Char) : Nat :=
  Nat.ofDigitChars 10 digits 0

/-- One or more digits after at most one plus sign. -/
def nat? (text : List Char) : Option Nat :=
  let digits := if text.head? = some '+' then text.tail else text
  if digits.isEmpty || !digits.all isDigit then none else some (value digits)

/-- A digit, then digits and underscores. -/
def groupedNat? (text : List Char) : Option Nat :=
  if (text.head?.map isDigit).getD false && text.all (fun c => isDigit c || c == '_') then
    some (value (text.filter isDigit))
  else none

/-- One sign at most, then grouped digits. -/
def int? : List Char → Option Int
  | '-' :: text => (groupedNat? text).map fun n => -(n : Int)
  | '+' :: text => (groupedNat? text).map fun n => (n : Int)
  | text => (groupedNat? text).map fun n => (n : Int)

end DerCodec.Decimal
