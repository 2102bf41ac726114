import DerCodec.BitString
import DerCodec.Proofs.Numerals

/-!
# Packed bits

A list of bits keeps its length and every bit when it is packed. A named bit list drops the zeros
at its end, and since bits past the end read as unset it keeps every bit too.
-/

namespace DerCodec.BitString

/-! ## One octet -/

/-- The number whose binary digits, most significant first, are the first `count` ones. -/
theorem testBit_foldl (digit : Nat → Bool) (count place : Nat) :
    ((List.range count).foldl (fun n i => 2 * n + (digit i).toNat) 0).testBit place =
      (decide (place < count) && digit (count - 1 - place)) := by
  induction count generalizing place with
  | zero => simp
  | succ count ih =>
    rw [List.range_succ, List.foldl_append, List.foldl_cons, List.foldl_nil]
    cases place with
    | zero => cases bit : digit count <;> simp [bit]
    | succ place =>
      have half (n : Nat) : (2 * n + (digit count).toNat) / 2 = n := by
        have bit := Bool.toNat_lt (digit count)
        omega
      have index : count + 1 - 1 - (place + 1) = count - 1 - place := by omega
      rw [Nat.testBit_succ, half, ih, index]
      simp

theorem testBit_packOctet {bits : List Bool} {index : Nat} (inside : index < 8) :
    (packOctet bits).toNat.testBit (7 - index) = bits.getD index false := by
  have small : (List.range 8).foldl (fun n i => 2 * n + (bits.getD i false).toNat) 0 < 2 ^ 8 := by
    refine Nat.lt_pow_two_of_testBit _ fun place beyond => ?_
    rw [testBit_foldl, decide_eq_false (Nat.not_lt.mpr beyond), Bool.false_and]
  have place : 8 - 1 - (7 - index) = index := by omega
  rw [packOctet, toNat_octet small, testBit_foldl, place, decide_eq_true (by omega), Bool.true_and]

/-! ## Any number of bits -/

theorem length_pack (bits : List Bool) :
    (pack bits).length * 8 = bits.length + spare bits.length := by
  induction bits using pack.induct with
  | case1 => simp [pack, spare]
  | case2 bit rest ih =>
    simp only [pack, List.length_cons, List.length_drop, spare] at ih ⊢
    omega

theorem testBit_pack (bits : List Bool) (index : Nat) :
    ((pack bits).getD (index / 8) 0).toNat.testBit (7 - index % 8) = bits.getD index false := by
  induction bits using pack.induct generalizing index with
  | case1 => simp [pack]
  | case2 bit rest ih =>
    rw [pack]
    by_cases first : index < 8
    · rw [Nat.div_eq_of_lt first, Nat.mod_eq_of_lt first, List.getD_cons_zero,
        testBit_packOctet first]
      cases index with
      | zero => rfl
      | succ index => simp [Nat.lt_of_succ_lt_succ first]
    · obtain ⟨later, rfl⟩ := Nat.exists_eq_add_of_le' (Nat.not_lt.mp first)
      rw [Nat.add_div_right later (by decide), Nat.add_mod_right, List.getD_cons_succ, ih later]
      simp [List.getElem?_drop, Nat.add_comm]

@[simp] theorem bitLength_ofBits (bits : List Bool) : (ofBits bits).bitLength = bits.length := by
  have small : spare bits.length < 256 := Nat.lt_trans (spare_lt _) (by decide)
  rw [bitLength, ofBits, toNat_octet small, length_pack]
  omega

@[simp] theorem bit_ofBits (bits : List Bool) (index : Nat) :
    (ofBits bits).bit index = bits.getD index false := by
  rw [bit, bitLength_ofBits]
  split
  · exact testBit_pack bits index
  · rename_i beyond
    simp [Nat.not_lt.mp beyond]

/-! ## Named bits -/

/-- Dropping the zeros at the end of a list changes no bit. -/
theorem getD_dropZeros (bits : List Bool) (index : Nat) :
    (bits.reverse.dropWhile (!·)).reverse.getD index false = bits.getD index false := by
  induction bits using List.reverseRecOn with
  | nil => rfl
  | append_singleton bits bit ih =>
    cases bit with
    | true => simp
    | false =>
      rw [List.reverse_append, List.reverse_singleton, List.singleton_append,
        List.dropWhile_cons_of_pos rfl, ih]
      by_cases inside : index < bits.length
      · simp [List.getElem?_append_left inside]
      · have beyond := Nat.not_lt.mp inside
        cases last : index - bits.length <;> simp [List.getElem?_append_right beyond, beyond, last]

@[simp] theorem bit_ofNamedBits (bits : List Bool) (index : Nat) :
    (ofNamedBits bits).bit index = bits.getD index false := by
  rw [ofNamedBits, bit_ofBits, getD_dropZeros]

end DerCodec.BitString
