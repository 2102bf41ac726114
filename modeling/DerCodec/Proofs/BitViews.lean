import DerCodec.Proofs.Access
import DerCodec.Proofs.NamedBits
import Mathlib.Data.List.GetD

/-!
# Views of a bit string

A bit string is seen as a count of bits, as bits by their index and as a list. The three agree, and
an index below the count always falls into an octet. Packing the list again keeps every bit and
clears the unused ones.
-/

namespace DerCodec.BitString

/-! ## Bits of octets -/

/-- The bit at `index` of a run of octets, most significant first, unset past the end. -/
def octetsBit (octets : Bytes) (index : Nat) : Bool :=
  (octets.getD (index / 8) 0).toNat.testBit (7 - index % 8)

section octets

variable {octet : UInt8} {octets : Bytes} {index : Nat}

theorem octetsBit_cons_of_lt (inside : index < 8) :
    octetsBit (octet :: octets) index = octet.toNat.testBit (7 - index) := by
  rw [octetsBit, Nat.div_eq_of_lt inside, Nat.mod_eq_of_lt inside, List.getD_cons_zero]

theorem octetsBit_cons_add : octetsBit (octet :: octets) (index + 8) = octetsBit octets index := by
  rw [octetsBit, Nat.add_div_right index (by decide), Nat.add_mod_right, List.getD_cons_succ,
    octetsBit]

theorem octetsBit_of_le (beyond : 8 * octets.length ≤ index) : octetsBit octets index = false := by
  have past : octets.length ≤ index / 8 := by omega
  rw [octetsBit, List.getD_eq_default _ _ past]
  exact Nat.zero_testBit _

theorem length_unpackOctet (octet : UInt8) : (unpackOctet octet).length = 8 := rfl

theorem length_unpack (octets : Bytes) : (unpack octets).length = 8 * octets.length := by
  induction octets with
  | nil => rfl
  | cons octet octets ih =>
    rw [unpack, List.flatMap_cons, ← unpack, List.length_append, ih, length_unpackOctet,
      List.length_cons]
    omega

theorem getD_unpackOctet (inside : index < 8) :
    (unpackOctet octet).getD index false = octet.toNat.testBit (7 - index) := by
  simp [unpackOctet, inside]

theorem getD_unpack (octets : Bytes) (index : Nat) :
    (unpack octets).getD index false = octetsBit octets index := by
  induction octets generalizing index with
  | nil => simp [unpack, octetsBit]
  | cons octet octets ih =>
    rw [unpack, List.flatMap_cons, ← unpack]
    by_cases inside : index < 8
    · rw [List.getD_append _ _ _ _ inside, getD_unpackOctet inside, octetsBit_cons_of_lt inside]
    · obtain ⟨later, rfl⟩ := Nat.exists_eq_add_of_le' (Nat.not_lt.mp inside)
      rw [List.getD_append_right _ _ _ _ (Nat.not_lt.mp inside), length_unpackOctet,
        Nat.add_sub_cancel, ih, octetsBit_cons_add]

theorem octet_ext {a b : UInt8} (h : ∀ index < 8, a.toNat.testBit index = b.toNat.testBit index) :
    a = b := by
  refine UInt8.toNat_inj.mp (Nat.eq_of_testBit_eq fun index => ?_)
  by_cases inside : index < 8
  · exact h index inside
  · have high : 2 ^ 8 ≤ 2 ^ index := Nat.pow_le_pow_right (by decide) (Nat.not_lt.mp inside)
    rw [Nat.testBit_lt_two_pow (Nat.lt_of_lt_of_le a.toNat_lt high),
      Nat.testBit_lt_two_pow (Nat.lt_of_lt_of_le b.toNat_lt high)]

/-- Runs of octets are equal when they are as long as each other and have the same bits. -/
theorem octets_ext {as bs : Bytes} (length : as.length = bs.length)
    (h : ∀ index, octetsBit as index = octetsBit bs index) : as = bs := by
  induction as generalizing bs with
  | nil => exact (List.eq_nil_of_length_eq_zero length.symm).symm
  | cons a as ih =>
    obtain ⟨b, bs, rfl⟩ := List.exists_cons_of_length_eq_add_one length.symm
    have first : a = b := by
      refine octet_ext fun index inside => ?_
      have mirrored : 7 - (7 - index) = index := by omega
      have same := h (7 - index)
      rwa [octetsBit_cons_of_lt (by omega), octetsBit_cons_of_lt (by omega), mirrored] at same
    have rest : as = bs := by
      refine ih (Nat.succ.inj length) fun index => ?_
      have same := h (index + 8)
      rwa [octetsBit_cons_add, octetsBit_cons_add] at same
    rw [first, rest]

end octets

/-! ## The views of one bit string -/

/-- The unused bits are there to be left out, so the count of bits never falls below zero. -/
theorem bitLength_add_unused (b : BitString) :
    b.bitLength + b.unused.toNat = 8 * b.octets.length := by
  have small : b.unused.toNat ≤ 7 := UInt8.le_iff_toNat_le.mp b.unused_le
  by_cases empty : b.octets = []
  · have none := b.unused_of_nil empty
    rw [bitLength, empty, none]
    rfl
  · have some := List.length_pos_iff.mpr empty
    rw [bitLength]
    omega

theorem octet_of_lt_bitLength (b : BitString) {index : Nat} (h : index < b.bitLength) :
    index / 8 < b.octets.length := by
  have count := b.bitLength_add_unused
  omega

theorem bit_eq (b : BitString) (index : Nat) :
    b.bit index = (decide (index < b.bitLength) && octetsBit b.octets index) := by
  rw [bit, octetsBit]
  split_ifs with inside <;> simp [inside]

theorem length_toBits (b : BitString) : b.toBits.length = b.bitLength := by
  have count := b.bitLength_add_unused
  rw [toBits, List.length_take, length_unpack]
  omega

theorem getD_toBits (b : BitString) (index : Nat) : b.toBits.getD index false = b.bit index := by
  rw [bit_eq, ← getD_unpack, toBits]
  by_cases inside : index < b.bitLength <;> simp [inside]

/-! ## From a list and back -/

theorem eq_of_parts {a b : BitString} (unused : a.unused = b.unused)
    (octets : a.octets = b.octets) : a = b := by
  cases a
  cases b
  cases unused
  cases octets
  rfl

theorem toBits_ofBits (bits : List Bool) : (ofBits bits).toBits = bits := by
  have length : (ofBits bits).toBits.length = bits.length := by
    rw [length_toBits, bitLength_ofBits]
  refine List.ext_getElem length fun index inside inside' => ?_
  rw [← List.getD_eq_getElem _ false inside, ← List.getD_eq_getElem _ false inside', getD_toBits,
    bit_ofBits]

/-- The bit string with zeros in the unused bits of its last octet. -/
def clearPadding (b : BitString) : BitString where
  unused := b.unused
  octets := b.octets.modify (b.octets.length - 1) fun last => last >>> b.unused <<< b.unused
  unused_le := b.unused_le
  unused_of_nil h := b.unused_of_nil (by simpa using h)

theorem octets_clearPadding (b : BitString) : b.clearPadding.octets =
    b.octets.modify (b.octets.length - 1) fun last => last >>> b.unused <<< b.unused := rfl

theorem testBit_clearLow {octet unused : UInt8} (small : unused ≤ 7) {place : Nat}
    (inside : place < 8) : (octet >>> unused <<< unused).toNat.testBit place =
      (decide (unused.toNat ≤ place) && octet.toNat.testBit place) := by
  have bound : unused.toNat ≤ 7 := UInt8.le_iff_toNat_le.mp small
  rw [UInt8.toNat_shiftLeft, UInt8.toNat_shiftRight, Nat.mod_eq_of_lt (by omega : _ < 8)]
  simp only [Nat.testBit_mod_two_pow, Nat.testBit_shiftLeft, Nat.testBit_shiftRight, inside]
  by_cases kept : unused.toNat ≤ place <;> simp [kept]

/-- A bit is cleared exactly when it is past the end. -/
theorem octetsBit_clearPadding (b : BitString) (index : Nat) :
    octetsBit b.clearPadding.octets index = b.bit index := by
  have count := b.bitLength_add_unused
  rw [bit_eq]
  by_cases present : index / 8 < b.octets.length
  · by_cases last : b.octets.length - 1 = index / 8
    · have cleared : b.clearPadding.octets.getD (index / 8) 0 =
          b.octets.getD (index / 8) 0 >>> b.unused <<< b.unused := by
        simp [octets_clearPadding, last, present]
      have boundary : b.unused.toNat ≤ 7 - index % 8 ↔ index < b.bitLength := by omega
      rw [octetsBit, cleared, testBit_clearLow b.unused_le (by omega), octetsBit]
      simp only [boundary]
    · have kept : b.clearPadding.octets.getD (index / 8) 0 = b.octets.getD (index / 8) 0 := by
        simp [octets_clearPadding, last]
      have inside : index < b.bitLength := by
        have small : b.unused.toNat ≤ 7 := UInt8.le_iff_toNat_le.mp b.unused_le
        omega
      rw [octetsBit, kept, decide_eq_true inside, Bool.true_and, octetsBit]
  · have outside : ¬index < b.bitLength := fun inside => present (b.octet_of_lt_bitLength inside)
    have beyond : 8 * b.octets.length ≤ index := by omega
    rw [octetsBit_of_le (by simpa [octets_clearPadding] using beyond), decide_eq_false outside,
      Bool.false_and]

theorem ofBits_toBits (b : BitString) : ofBits b.toBits = b.clearPadding := by
  have count := b.bitLength_add_unused
  have small : b.unused.toNat ≤ 7 := UInt8.le_iff_toNat_le.mp b.unused_le
  have left : spare b.toBits.length = b.unused.toNat := by
    rw [length_toBits, spare]
    omega
  have octets : pack b.toBits = b.clearPadding.octets := by
    refine octets_ext ?_ fun index => ?_
    · have packed := length_pack b.toBits
      rw [left, length_toBits] at packed
      rw [octets_clearPadding, List.length_modify]
      omega
    · rw [octetsBit_clearPadding, octetsBit, testBit_pack, getD_toBits]
  have unused : UInt8.ofNat (spare b.toBits.length) = b.unused := by
    rw [left, UInt8.ofNat_toNat]
  exact eq_of_parts unused octets

/-- A named bit list ends in a bit that is set. -/
theorem getLast?_toBits_ofNamedBits (bits : List Bool) :
    ∀ last ∈ (ofNamedBits bits).toBits.getLast?, last = true := by
  intro last found
  rw [ofNamedBits, toBits_ofBits, List.getLast?_reverse] at found
  have kept := List.head?_dropWhile_not (!·) bits.reverse
  rw [Option.mem_def.mp found] at kept
  simpa using kept

/-! ## Reading -/

theorem ofOctets_eq_ok {unused : UInt8} {octets : Bytes} {b : BitString} :
    ofOctets unused octets = .ok b ↔
      unused ≤ 7 ∧ (octets = [] → unused = 0) ∧ b.unused = unused ∧ b.octets = octets := by
  unfold ofOctets
  constructor
  · intro h
    split_ifs at h with small covered
    obtain rfl := Except.ok.inj h
    exact ⟨small, covered, rfl, rfl⟩
  · rintro ⟨small, covered, rfl, rfl⟩
    rw [dif_pos small, dif_pos covered]

theorem decode_eq_ok {content : Bytes} {b : BitString} :
    decode content = .ok b ↔ content = b.unused :: b.octets := by
  constructor
  · intro h
    exact (encode_of_decode h).symm
  · rintro rfl
    exact decode_encode b

/-- Octets and a count of unused bits make a bit string when at most seven bits are unused, and none
without octets. Then the count of bits, the bit at an index and the list of bits agree, and packing
gives every list of bits back. Packing the bits of a bit string again clears the unused ones. -/
theorem views_agree :
    (∀ unused octets b, ofOctets unused octets = .ok b ↔
      unused ≤ 7 ∧ (octets = [] → unused = 0) ∧ b.unused = unused ∧ b.octets = octets) ∧
    (∀ content b, decode content = .ok b ↔ content = b.unused :: b.octets) ∧
    (∀ b : BitString, b.unused ≤ 7 ∧ (b.octets = [] → b.unused = 0) ∧
      b.bitLength + b.unused.toNat = 8 * b.octets.length ∧
      (∀ index < b.bitLength, index / 8 < b.octets.length) ∧
      b.toBits.length = b.bitLength ∧ (∀ index, b.bit index = b.toBits.getD index false) ∧
      ofBits b.toBits = b.clearPadding) ∧
    ∀ bits : List Bool, (ofBits bits).toBits = bits ∧ (ofBits bits).bitLength = bits.length ∧
      (∀ index, (ofNamedBits bits).bit index = bits.getD index false) ∧
      ∀ last ∈ (ofNamedBits bits).toBits.getLast?, last = true := by
  refine ⟨fun _ _ _ => ofOctets_eq_ok, fun _ _ => decode_eq_ok, fun b => ?_, fun bits => ?_⟩
  · exact ⟨b.unused_le, b.unused_of_nil, b.bitLength_add_unused,
      fun _ inside => b.octet_of_lt_bitLength inside, b.length_toBits,
      fun index => (b.getD_toBits index).symm, b.ofBits_toBits⟩
  · exact ⟨toBits_ofBits bits, bitLength_ofBits bits, bit_ofNamedBits bits,
      getLast?_toBits_ofNamedBits bits⟩

/-- Five bits with ones in the three unused ones, and a named bit list with a zero at its end. -/
theorem views_agree_unclean :
    (∃ b : BitString, decode [0x03, 0xaf] = .ok b ∧ b.bitLength = 5 ∧ 4 / 8 < b.octets.length ∧
      b.bit 4 = b.toBits.getD 4 false ∧ ofBits b.toBits = b.clearPadding ∧
      b.clearPadding.octets = [0xa8]) ∧
    ∃ last ∈ (ofNamedBits [true, false]).toBits.getLast?, last = true := by
  obtain ⟨accepted, read, views, lists⟩ := views_agree
  constructor
  · have made : (decode [0x03, 0xaf]).toOption.isSome = true := by decide +kernel
    obtain ⟨b, found⟩ := Option.isSome_iff_exists.mp made
    have parsed : decode [0x03, 0xaf] = .ok b := Except.toOption_eq_some.mp found
    obtain ⟨unused, octets⟩ := List.cons.inj ((read _ b).mp parsed)
    obtain ⟨-, -, count, inside, -, bits, packed⟩ := views b
    rw [← unused, ← octets] at count
    have five : b.bitLength = 5 := Nat.add_right_cancel count
    refine ⟨b, parsed, five, inside 4 (by omega), bits 4, packed, ?_⟩
    rw [octets_clearPadding, ← unused, ← octets]
    decide
  · have last : (ofNamedBits [true, false]).toBits.getLast? = some true := by decide +kernel
    exact ⟨true, last, (lists [true, false]).2.2.2 true last⟩

end DerCodec.BitString
