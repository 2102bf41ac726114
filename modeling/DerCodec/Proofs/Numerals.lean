import DerCodec.Base128
import DerCodec.Integer
import Mathlib.Data.List.Induction
import Mathlib.Tactic.Ring

/-!
# Numbers and their octets

Writing a number and reading its octets gives the number back, in base 256, in base 128 and in
two's complement. Readers fold from the most significant octet, so each law is an induction on the
number that takes off its last digit.
-/

namespace DerCodec

theorem toNat_octet {n : Nat} (h : n < 256) : (UInt8.ofNat n).toNat = n :=
  UInt8.toNat_ofNat_of_lt' h

/-! ## Base 256 -/

namespace BigEndian

theorem value_concat (bytes : Bytes) (octet : UInt8) :
    value (bytes ++ [octet]) = value bytes * 256 + octet.toNat := by
  simp [value]

theorem value_digits (n : Nat) : value (digits n) = n := by
  induction n using Nat.strongRecOn with
  | ind n ih =>
    rw [digits]
    split
    · rename_i zero
      simp [value, zero]
    · rw [value_concat, ih (n / 256) (by omega), toNat_octet (by omega)]
      omega

/-- A number takes no more digits than the power of 256 above it says. -/
theorem length_digits_le {n width : Nat} (h : n < 256 ^ width) :
    (digits n).length ≤ width := by
  induction width generalizing n with
  | zero =>
    have zero : n = 0 := by simpa using h
    simp [digits, zero]
  | succ width ih =>
    rw [digits]
    split
    · simp
    · have shorter : n / 256 < 256 ^ width := by
        rw [pow_succ] at h
        exact Nat.div_lt_of_lt_mul (by omega)
      simpa using ih shorter

theorem lt_pow_length_digits (n : Nat) : n < 256 ^ (digits n).length := by
  induction n using Nat.strongRecOn with
  | ind n ih =>
    rw [digits]
    split
    · rename_i zero
      simp [zero]
    · have shorter := ih (n / 256) (by omega)
      rw [List.length_append, List.length_singleton, pow_succ]
      omega

/-- The number in some octets has those as its digits, or fewer digits. -/
theorem digits_value (bytes : Bytes) :
    digits (value bytes) = bytes ∨ (digits (value bytes)).length < bytes.length := by
  induction bytes using List.reverseRecOn with
  | nil => simp [value, digits]
  | append_singleton bytes octet ih =>
    have small := octet.toNat_lt
    rw [value_concat, digits]
    split
    · simp
    · rw [show (value bytes * 256 + octet.toNat) / 256 = value bytes by omega,
        show (value bytes * 256 + octet.toNat) % 256 = octet.toNat by omega, UInt8.ofNat_toNat]
      rcases ih with same | shorter
      · exact .inl (by rw [same])
      · exact .inr (by simpa using shorter)

theorem value_lt (bytes : Bytes) : value bytes < 256 ^ bytes.length := by
  induction bytes using List.reverseRecOn with
  | nil => simp [value]
  | append_singleton bytes octet ih =>
    have small := octet.toNat_lt
    rw [value_concat, List.length_append, List.length_singleton, pow_succ]
    omega

theorem length_padded (width n : Nat) : (padded width n).length = width := by
  induction width generalizing n with
  | zero => rfl
  | succ width ih => rw [padded, List.length_append, ih, List.length_singleton]

/-- A number that fits the width is read back from it. -/
theorem value_padded {width n : Nat} (h : n < 256 ^ width) : value (padded width n) = n := by
  induction width generalizing n with
  | zero =>
    rw [pow_zero] at h
    rw [Nat.lt_one_iff.mp h]
    rfl
  | succ width ih =>
    have shorter : n / 256 < 256 ^ width := by
      rw [pow_succ] at h
      exact Nat.div_lt_of_lt_mul (by omega)
    rw [padded, value_concat, ih shorter, toNat_octet (by omega)]
    omega

/-- The octets of a number at their own width are those octets. -/
theorem padded_value (bytes : Bytes) : padded bytes.length (value bytes) = bytes := by
  induction bytes using List.reverseRecOn with
  | nil => rfl
  | append_singleton bytes octet ih =>
    have small := octet.toNat_lt
    rw [value_concat, List.length_append, List.length_singleton, padded,
      show (value bytes * 256 + octet.toNat) / 256 = value bytes by omega,
      show (value bytes * 256 + octet.toNat) % 256 = octet.toNat by omega, UInt8.ofNat_toNat, ih]

end BigEndian

/-! ## Base 128 -/

namespace Base128

theorem leading_zero : leading 0 = [] := by
  rw [leading, if_pos rfl]

theorem leading_pos {n : Nat} (h : n ≠ 0) :
    leading n = leading (n / 128) ++ [UInt8.ofNat (n % 128 + 128)] := by
  rw [leading, if_neg h]

theorem toNat_leadingDigit (n : Nat) : (UInt8.ofNat (n % 128 + 128)).toNat = n % 128 + 128 :=
  toNat_octet (by omega)

theorem toNat_lastDigit (n : Nat) : (UInt8.ofNat (n % 128)).toNat = n % 128 :=
  toNat_octet (by omega)

theorem continues_leadingDigit (n : Nat) : continues (UInt8.ofNat (n % 128 + 128)) = true := by
  simp only [continues, decide_eq_true_eq, UInt8.le_iff_toNat_le, toNat_leadingDigit]
  exact Nat.le_add_left 128 _

theorem continues_lastDigit (n : Nat) : continues (UInt8.ofNat (n % 128)) = false := by
  simp only [continues, decide_eq_false_iff_not, UInt8.le_iff_toNat_le, toNat_lastDigit]
  exact Nat.not_le.mpr (Nat.mod_lt _ (by decide))

theorem push?_leadingDigit {limit n : Nat} (h : n < limit) :
    push? limit (n / 128) (UInt8.ofNat (n % 128 + 128)) = some n := by
  have whole : n / 128 * 128 + (n % 128 + 128) % 128 = n := by omega
  simp only [push?, toNat_leadingDigit, whole, if_pos h]

theorem push?_lastDigit {limit n : Nat} (h : n < limit) :
    push? limit (n / 128) (UInt8.ofNat (n % 128)) = some n := by
  have whole : n / 128 * 128 + n % 128 % 128 = n := by omega
  simp only [push?, toNat_lastDigit, whole, if_pos h]

theorem lt_of_push? {limit n longer : Nat} {octet : UInt8}
    (h : push? limit n octet = some longer) : longer < limit := by
  simp only [push?] at h
  split at h
  · rename_i small
    simpa [← Option.some.inj h] using small
  · simp at h

theorem eq_of_push? {limit n longer : Nat} {octet : UInt8}
    (h : push? limit n octet = some longer) : longer = n * 128 + octet.toNat % 128 := by
  simp only [push?] at h
  split at h
  · exact (Option.some.inj h).symm
  · simp at h

/-- A digit that is not the last one stands after the digits before it, unless all are zero. -/
theorem leading_push {n : Nat} {octet : UInt8} (more : continues octet = true)
    (h : n * 128 + octet.toNat % 128 ≠ 0) :
    leading (n * 128 + octet.toNat % 128) = leading n ++ [octet] := by
  have small := octet.toNat_lt
  have high : 128 ≤ octet.toNat := by simpa [continues, UInt8.le_iff_toNat_le] using more
  rw [leading_pos h, show (n * 128 + octet.toNat % 128) / 128 = n by omega,
    show (n * 128 + octet.toNat % 128) % 128 + 128 = octet.toNat by omega, UInt8.ofNat_toNat]

/-- The last digit stands after the digits before it. -/
theorem encode_push {n : Nat} {octet : UInt8} (last : continues octet = false) :
    encode (n * 128 + octet.toNat % 128) = leading n ++ [octet] := by
  have low : octet.toNat < 128 := by
    simpa [continues, UInt8.lt_iff_toNat_lt] using last
  rw [encode, show (n * 128 + octet.toNat % 128) / 128 = n by omega,
    show (n * 128 + octet.toNat % 128) % 128 = octet.toNat by omega, UInt8.ofNat_toNat]

/-- The number that the digits stand for, wherever they end. -/
def value (octets : Bytes) : Nat :=
  octets.foldl (fun n octet => n * 128 + octet.toNat % 128) 0

theorem value_concat (octets : Bytes) (octet : UInt8) :
    value (octets ++ [octet]) = value octets * 128 + octet.toNat % 128 := by
  simp [value]

theorem value_leading (n : Nat) : value (leading n) = n := by
  induction n using Nat.strongRecOn with
  | ind n ih =>
    by_cases zero : n = 0
    · rw [zero, leading_zero]
      rfl
    · rw [leading_pos zero, value_concat, ih (n / 128) (by omega), toNat_leadingDigit]
      omega

theorem value_encode (n : Nat) : value (encode n) = n := by
  rw [encode, value_concat, value_leading, toNat_lastDigit]
  omega

theorem continues_of_mem_leading {n : Nat} {octet : UInt8} (h : octet ∈ leading n) :
    continues octet = true := by
  induction n using Nat.strongRecOn with
  | ind n ih =>
    by_cases zero : n = 0
    · rw [zero, leading_zero] at h
      exact nomatch h
    · rw [leading_pos zero, List.mem_append, List.mem_singleton] at h
      rcases h with before | rfl
      · exact ih (n / 128) (by omega) before
      · exact continues_leadingDigit n

/-- The first digit of a number is never an idle zero. -/
theorem head?_leading (n : Nat) : (leading n).head? ≠ some 0x80 := by
  induction n using Nat.strongRecOn with
  | ind n ih =>
    by_cases zero : n = 0
    · simp [zero, leading_zero]
    · rw [leading_pos zero]
      by_cases first : n / 128 = 0
      · rw [first, leading_zero, List.nil_append, List.head?_cons, ne_eq, Option.some.injEq,
          ← UInt8.toNat_inj, toNat_leadingDigit]
        change ¬n % 128 + 128 = 128
        omega
      · have digits : leading (n / 128) ≠ [] := by simp [leading_pos first]
        obtain ⟨digit, rest, shape⟩ := List.exists_cons_of_ne_nil digits
        have front := ih (n / 128) (by omega)
        rw [shape] at front ⊢
        exact front

/-- Digits that are not the last ones of a number, with no idle zero in front, are its leading
digits. -/
theorem leading_value {octets : Bytes} (more : ∀ octet ∈ octets, continues octet = true)
    (unpadded : octets.head? ≠ some 0x80) : leading (value octets) = octets := by
  induction octets using List.reverseRecOn with
  | nil => exact leading_zero
  | append_singleton octets octet ih =>
    have last : continues octet = true := more octet (by simp)
    have before : leading (value octets) = octets := by
      refine ih (fun o member => more o (by simp [member])) fun padded => unpadded ?_
      rw [List.head?_append, padded, Option.some_or]
    have some : value octets * 128 + octet.toNat % 128 ≠ 0 := by
      intro zero
      have small := octet.toNat_lt
      have high : 128 ≤ octet.toNat := by simpa [continues, UInt8.le_iff_toNat_le] using last
      have nothing : octets = [] := by
        rw [← before, show value octets = 0 by omega, leading_zero]
      have padding : octet = 0x80 := UInt8.toNat_inj.mp (by change _ = 128; omega)
      exact unpadded (by rw [nothing, padding]; rfl)
    rw [value_concat, leading_push last some, before]

end Base128

/-! ## Two's complement -/

namespace TwosComplement

theorem value_concat {content : Bytes} (octet : UInt8) (h : content ≠ []) :
    value (content ++ [octet]) = value content * 256 + octet.toNat := by
  obtain ⟨first, rest, rfl⟩ := List.exists_cons_of_ne_nil h
  simp [value]

theorem encode_ne_nil (n : Int) : encode n ≠ [] := by
  rw [encode]
  split <;> simp

theorem value_octet (octet : UInt8) :
    value [octet] = if 128 ≤ octet.toNat then (octet.toNat : Int) - 256 else octet.toNat := by
  have sign : (128 : UInt8) ≤ octet ↔ 128 ≤ octet.toNat := UInt8.le_iff_toNat_le
  simp only [value, List.head?_cons, Option.any_some, decide_eq_true_eq, sign, List.foldl_cons,
    List.foldl_nil]
  split <;> omega

/-- One octet stands for the numbers from -128 to 127. -/
theorem value_singleton {n : Int} (low : -128 ≤ n) (high : n < 128) :
    value [UInt8.ofNat (n % 256).toNat] = n := by
  rw [value_octet, toNat_octet (by omega)]
  split <;> omega

theorem value_octet_range (octet : UInt8) : -128 ≤ value [octet] ∧ value [octet] < 128 := by
  have small := octet.toNat_lt
  rw [value_octet]
  split <;> omega

theorem value_encode (n : Int) : value (encode n) = n := by
  induction n using encode.induct with
  | case1 n small =>
    rw [encode, if_pos small, value_singleton small.1 small.2]
  | case2 n large ih =>
    rw [encode, if_neg large, value_concat _ (encode_ne_nil _), ih, toNat_octet (by omega)]
    omega

/-- The number in some content is never written in more octets than those. -/
theorem length_encode_value_le {content : Bytes} (h : content ≠ []) :
    (encode (value content)).length ≤ content.length := by
  induction content using List.reverseRecOn with
  | nil => exact absurd rfl h
  | append_singleton content octet ih =>
    by_cases first : content = []
    · subst first
      rw [List.nil_append, encode, if_pos (value_octet_range octet)]
      exact Nat.le_refl 1
    · have small := octet.toNat_lt
      rw [value_concat octet first, encode]
      split
      · simp
      · -- The last octet is taken off again, and the ones before it are content of their own.
        rw [show (value content * 256 + octet.toNat : Int) / 256 = value content by omega,
          List.length_append, List.length_append]
        exact Nat.add_le_add_right (ih first) 1

end TwosComplement

end DerCodec
