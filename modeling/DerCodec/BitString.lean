import DerCodec.ErrorKind
import DerCodec.Text.Hex

/-!
# Bit strings

Bits are packed most significant first, with the count of the unused bits at the end of the last
octet. The unused bits may hold anything and are kept as they are, so that a bit string is written
back as it was read. A named bit list carries no zero bits at its end.
-/

namespace DerCodec

inductive BitStringError where
  | noOctets
  | unusedTooLarge (unused : UInt8)
  | unusedWithoutOctets (unused : UInt8)
deriving DecidableEq, Repr

namespace BitStringError

def kind (_ : BitStringError) : ErrorKind := .value

def message : BitStringError → String
  | noOctets => "BIT STRING: no data"
  | unusedTooLarge unused =>
    s!"BIT STRING: unused bits {unused.toNat} out of range (must be 0-7)"
  | unusedWithoutOctets unused =>
    s!"BIT STRING: {unused.toNat} unused bits declared without data"

instance : Cause BitStringError := ⟨kind, message⟩

end BitStringError

structure BitString where
  unused : UInt8
  octets : Bytes
  unused_le : unused ≤ 7
  unused_of_nil : octets = [] → unused = 0
deriving DecidableEq

namespace BitString

def ofOctets (unused : UInt8) (octets : Bytes) : Except BitStringError BitString :=
  if small : unused ≤ 7 then
    if covered : octets = [] → unused = 0 then .ok ⟨unused, octets, small, covered⟩
    else .error (.unusedWithoutOctets unused)
  else .error (.unusedTooLarge unused)

/-- Up to eight bits as one octet, with zeros after them. -/
def packOctet (bits : List Bool) : UInt8 :=
  UInt8.ofNat ((List.range 8).foldl (fun n i => 2 * n + (bits.getD i false).toNat) 0)

def pack : List Bool → Bytes
  | [] => []
  | bit :: rest => packOctet (bit :: rest.take 7) :: pack (rest.drop 7)
termination_by bits => bits.length
decreasing_by simp only [List.length_drop, List.length_cons]; omega

def unpackOctet (octet : UInt8) : List Bool :=
  (List.range 8).map fun i => octet.toNat.testBit (7 - i)

def unpack (octets : Bytes) : List Bool :=
  octets.flatMap unpackOctet

/-- How many bits are left over in the last octet of `n` bits. -/
def spare (n : Nat) : Nat :=
  (8 - n % 8) % 8

theorem spare_lt (n : Nat) : spare n < 8 :=
  Nat.mod_lt _ (by decide)

theorem pack_eq_nil {bits : List Bool} (h : pack bits = []) : bits = [] := by
  cases bits with
  | nil => rfl
  | cons bit rest => simp [pack] at h

/-- The bits as they are, with zeros in the unused ones. -/
def ofBits (bits : List Bool) : BitString where
  unused := UInt8.ofNat (spare bits.length)
  octets := pack bits
  unused_le := by
    have small := spare_lt bits.length
    have fits : spare bits.length < 256 := Nat.lt_trans small (by decide)
    rw [UInt8.le_iff_toNat_le, UInt8.toNat_ofNat_of_lt' fits]
    exact Nat.le_of_lt_succ small
  unused_of_nil h := by rw [pack_eq_nil h]; rfl

/-- The shortest bit string in which every bit of `bits` that is set has its place. -/
def ofNamedBits (bits : List Bool) : BitString :=
  ofBits (bits.reverse.dropWhile (!·)).reverse

def bitLength (b : BitString) : Nat :=
  b.octets.length * 8 - b.unused.toNat

/-- The bit at `index`, unset past the end. -/
def bit (b : BitString) (index : Nat) : Bool :=
  if index < b.bitLength then
    ((b.octets.getD (index / 8) 0).toNat).testBit (7 - index % 8)
  else false

def toBits (b : BitString) : List Bool :=
  (unpack b.octets).take b.bitLength

def decode : Bytes → Except BitStringError BitString
  | [] => .error .noOctets
  | unused :: octets => ofOctets unused octets

def encode (b : BitString) : Bytes :=
  b.unused :: b.octets

def text (b : BitString) : String :=
  String.ofList (b.toBits.map fun bit => if bit then '1' else '0')

end BitString

end DerCodec
