import DerCodec.Text.Decimal
import DerCodec.Text.Hex

/-!
# IP addresses

An address is four or sixteen octets. The long form is shown as groups of hexadecimal digits with
the first longest run of two or more zero groups left out. An address that maps a short one shows
it in dotted form.
-/

namespace DerCodec

structure IpAddress where
  octets : Bytes
  length_octets : octets.length = 4 ∨ octets.length = 16
deriving DecidableEq

namespace IpAddress

def ofOctets? (octets : Bytes) : Option IpAddress :=
  if h : octets.length = 4 ∨ octets.length = 16 then some ⟨octets, h⟩ else none

def dotted (octets : Bytes) : List Char :=
  List.intercalate ['.'] (octets.map fun octet => Decimal.ofNat octet.toNat)

/-- Pairs of octets as numbers. -/
def groups : Bytes → List Nat
  | high :: low :: rest => (high.toNat * 256 + low.toNat) :: groups rest
  | _ => []

def joinGroups (groups : List Nat) : List Char :=
  List.intercalate [':'] (groups.map fun group => Nat.toDigits 16 group)

/-- Start and length of the first longest run of zeros. -/
def zeroRun (groups : List Nat) : Nat × Nat :=
  (List.range groups.length).foldl (fun best start =>
    let length := ((groups.drop start).takeWhile (· == 0)).length
    if best.2 < length then (start, length) else best) (0, 0)

def grouped (octets : Bytes) : List Char :=
  let groups := groups octets
  let (start, length) := zeroRun groups
  if 1 < length then
    joinGroups (groups.take start) ++ [':', ':'] ++ joinGroups (groups.drop (start + length))
  else joinGroups groups

/-- The twelve octets that come before a short address in its mapped form. -/
def mappedLead : Bytes := List.replicate 10 0 ++ [0xff, 0xff]

def text (address : IpAddress) : String :=
  String.ofList <|
    if address.octets.length = 4 then dotted address.octets
    else if address.octets.take 12 = mappedLead then
      "::ffff:".toList ++ dotted (address.octets.drop 12)
    else grouped address.octets

end IpAddress

end DerCodec
