import DerCodec.Bytes

/-!
# Hexadecimal text

Octets are written as two lower-case digits each; both cases are read.
-/

namespace DerCodec.Hex

/-- The digit for a number below 16. -/
def digit (n : Nat) : Char :=
  if n < 10 then Char.ofNat (48 + n) else Char.ofNat (87 + n)

def digitValue? (c : Char) : Option Nat :=
  if '0' ≤ c ∧ c ≤ '9' then some (c.toNat - 48)
  else if 'a' ≤ c ∧ c ≤ 'f' then some (c.toNat - 87)
  else if 'A' ≤ c ∧ c ≤ 'F' then some (c.toNat - 55)
  else none

def ofOctet (octet : UInt8) : List Char :=
  [digit (octet.toNat / 16), digit (octet.toNat % 16)]

def encode (bytes : Bytes) : String :=
  String.ofList (bytes.flatMap ofOctet)

/-- The octets with a separator between neighbours. -/
def encodeSeparated (separator : Char) (bytes : Bytes) : String :=
  String.ofList (List.intercalate [separator] (bytes.map ofOctet))

/-- Pairs of digits and nothing else. -/
def decode? : List Char → Option Bytes
  | [] => some []
  | high :: low :: rest => do
    let high ← digitValue? high
    let low ← digitValue? low
    let bytes ← decode? rest
    return UInt8.ofNat (high * 16 + low) :: bytes
  | [_] => none

/-- A number without leading zeros. -/
def ofNat (n : Nat) : String :=
  String.ofList (Nat.toDigits 16 n)

end DerCodec.Hex
