import DerCodec.Proofs.Primitive
import DerCodec.Proofs.ShortestForm

/-!
# Content of integers

INTEGER and ENUMERATED content is a number in two's complement at the width of the content, whatever
that width is. Every number has one shortest content, and the others put octets of its sign in front
of that.
-/

namespace DerCodec

namespace TwosComplement

/-! ## The number that content stands for -/

/-- The content as an unsigned number, less the power of 256 above it when its top bit is set. -/
theorem value_eq_unsigned (content : Bytes) :
    value content = if 2 * BigEndian.value content < 256 ^ content.length then
      (BigEndian.value content : Int)
    else BigEndian.value content - (256 ^ content.length : Nat) := by
  induction content using List.reverseRecOn with
  | nil => rfl
  | append_singleton content octet ih =>
    have small := octet.toNat_lt
    rw [BigEndian.value_concat, List.length_append, List.length_singleton, pow_succ]
    by_cases first : content = []
    · have nothing : BigEndian.value [] = 0 := rfl
      rw [first, List.nil_append, value_octet, nothing, List.length_nil, pow_zero]
      split_ifs <;> omega
    · -- The octets before the last one fix the sign, as the power of 256 above them is even.
      obtain ⟨half, even⟩ : ∃ half, 256 ^ content.length = 2 * half := by
        rw [← Nat.succ_pred_eq_of_pos (List.length_pos_iff.mpr first), pow_succ]
        exact ⟨256 ^ _ * 128, by ring⟩
      rw [value_concat octet first, ih, even]
      split_ifs <;> push_cast <;> omega

theorem value_eq_toInt (content : Bytes) :
    value content =
      (BitVec.ofNat (8 * content.length) (BigEndian.value content)).toInt := by
  have power : 2 ^ (8 * content.length) = 256 ^ content.length := pow_mul 2 8 content.length
  have fits : BigEndian.value content < 2 ^ (8 * content.length) := by
    rw [power]
    exact BigEndian.value_lt content
  rw [value_eq_unsigned, BitVec.toInt_eq_toNat_cond, BitVec.toNat_ofNat, Nat.mod_eq_of_lt fits,
    power]

/-! ## Octets of the sign -/

/-- The octet that may stand in front of the content of a number any number of times. -/
def signOctet (n : Int) : UInt8 :=
  if n < 0 then 0xff else 0x00

/-- The first octet tells the sign. -/
theorem value_cons_neg_iff (first : UInt8) (rest : Bytes) :
    value (first :: rest) < 0 ↔ 128 ≤ first := by
  induction rest using List.reverseRecOn with
  | nil =>
    have small := first.toNat_lt
    rw [value_octet, UInt8.le_iff_toNat_le]
    change _ ↔ 128 ≤ first.toNat
    split_ifs <;> omega
  | append_singleton rest octet ih =>
    have small := octet.toNat_lt
    rw [← ih, ← List.cons_append, value_concat octet (List.cons_ne_nil first rest)]
    omega

theorem value_cons_signOctet {content : Bytes} (h : content ≠ []) :
    value (signOctet (value content) :: content) = value content := by
  obtain ⟨first, rest, rfl⟩ := List.exists_cons_of_ne_nil h
  unfold signOctet
  have sign := value_cons_neg_iff first rest
  split_ifs with negative
  · have high : (128 : UInt8) ≤ first := sign.mp negative
    simp [value, high]
  · have low : ¬(128 : UInt8) ≤ first := fun high => negative (sign.mpr high)
    simp [value, low]

theorem value_replicate_append (count : Nat) (n : Int) :
    value (List.replicate count (signOctet n) ++ encode n) = n := by
  induction count with
  | zero => exact value_encode n
  | succ count ih =>
    have filled : List.replicate count (signOctet n) ++ encode n ≠ [] :=
      List.append_ne_nil_of_right_ne_nil _ (encode_ne_nil n)
    have longer := value_cons_signOctet filled
    rw [ih] at longer
    rw [List.replicate_succ, List.cons_append, longer]

theorem encode_small {n : Int} (h : -128 ≤ n ∧ n < 128) :
    encode n = [UInt8.ofNat (n % 256).toNat] := by
  rw [encode, if_pos h]

theorem encode_value_octet (octet : UInt8) : encode (value [octet]) = [octet] := by
  have small := octet.toNat_lt
  have same : (value [octet] % 256).toNat = octet.toNat := by
    rw [value_octet]
    split_ifs <;> omega
  rw [encode_small (value_octet_range octet), same, UInt8.ofNat_toNat]

/-- Zero and minus one are written as their sign. -/
theorem encode_sign {n : Int} (h : n = 0 ∨ n = -1) : encode n = [signOctet n] := by
  rw [encode_small (by omega)]
  rcases h with rfl | rfl <;> rfl

section concat

variable {n : Int} {octet : UInt8}

theorem signOctet_concat : signOctet (n * 256 + octet.toNat) = signOctet n := by
  have small := octet.toNat_lt
  have sign : n * 256 + octet.toNat < 0 ↔ n < 0 := by omega
  simp only [signOctet, sign]

theorem encode_concat_small (h : -128 ≤ n * 256 + octet.toNat ∧ n * 256 + octet.toNat < 128) :
    encode (n * 256 + octet.toNat) = [octet] := by
  have small := octet.toNat_lt
  rw [encode_small h, show ((n * 256 + octet.toNat) % 256).toNat = octet.toNat by omega,
    UInt8.ofNat_toNat]

theorem encode_concat (h : ¬(-128 ≤ n * 256 + octet.toNat ∧ n * 256 + octet.toNat < 128)) :
    encode (n * 256 + octet.toNat) = encode n ++ [octet] := by
  have small := octet.toNat_lt
  rw [encode, if_neg h, show (n * 256 + octet.toNat : Int) / 256 = n by omega,
    show ((n * 256 + octet.toNat) % 256).toNat = octet.toNat by omega, UInt8.ofNat_toNat]

end concat

/-- Any content is the shortest one of its number with octets of the sign in front. -/
theorem exists_eq_replicate_append {content : Bytes} (h : content ≠ []) :
    ∃ count, content =
      List.replicate count (signOctet (value content)) ++ encode (value content) := by
  induction content using List.reverseRecOn with
  | nil => exact absurd rfl h
  | append_singleton content octet ih =>
    have small := octet.toNat_lt
    by_cases first : content = []
    · rw [first, List.nil_append]
      exact ⟨0, (encode_value_octet octet).symm⟩
    · obtain ⟨count, before⟩ := ih first
      rw [value_concat octet first, signOctet_concat]
      by_cases fits : -128 ≤ value content * 256 + octet.toNat ∧
          value content * 256 + octet.toNat < 128
      · -- One octet is enough, so the ones before it only repeat the sign.
        rw [encode_sign (by omega)] at before
        refine ⟨count + 1, ?_⟩
        rw [encode_concat_small fits, List.replicate_succ', ← before]
      · refine ⟨count, ?_⟩
        rw [encode_concat fits, ← List.append_assoc, ← before]

theorem value_eq_iff {content : Bytes} (h : content ≠ []) {n : Int} :
    value content = n ↔ ∃ count, content = List.replicate count (signOctet n) ++ encode n := by
  constructor
  · rintro rfl
    exact exists_eq_replicate_append h
  · rintro ⟨count, rfl⟩
    exact value_replicate_append count n

end TwosComplement

/-! ## Reading and writing content -/

namespace Integer

open TwosComplement

theorem decode_eq_ok {content : Bytes} {n : Int} :
    decode content = .ok n ↔ content ≠ [] ∧ value content = n := by
  cases content <;> simp [decode]

/-- Content is read as a number when it is that of the number with octets of its sign in front. -/
theorem decode_eq_ok_iff_padded {content : Bytes} {n : Int} :
    decode content = .ok n ↔
      ∃ count, content = List.replicate count (signOctet n) ++ encode n := by
  rw [decode_eq_ok]
  constructor
  · rintro ⟨filled, same⟩
    exact (value_eq_iff filled).mp same
  · rintro ⟨count, rfl⟩
    exact ⟨List.append_ne_nil_of_right_ne_nil _ (encode_ne_nil n), value_replicate_append count n⟩

theorem condenses_of_decode {content : Bytes} {n : Int} (h : decode content = .ok n) :
    Condenses (encode n) content := by
  obtain ⟨count, rfl⟩ := decode_eq_ok_iff_padded.mp h
  cases count with
  | zero => exact .refl _
  | succ count =>
    right
    rw [List.length_append, List.length_replicate]
    omega

/-- Any content with octets is read as its value in two's complement at its own width. A number is
written in the one shortest content that is read as it, and the others repeat its sign in front of
that. An ENUMERATED has the content of an INTEGER. -/
theorem content_padded_shortest (content : Bytes) (n : Int) :
    Primitive.enumerated.decode content = Primitive.integer.decode content ∧
    Primitive.enumerated.encode n = Primitive.integer.encode n ∧
    Primitive.integer.decode [] = .error .integerEmpty ∧
    (content ≠ [] → Primitive.integer.decode content =
      .ok (BitVec.ofNat (8 * content.length) (BigEndian.value content)).toInt) ∧
    ∃ shortest, Primitive.integer.encode n = .ok shortest ∧
      Primitive.integer.decode shortest = .ok n ∧
      (Primitive.integer.decode content = .ok n ↔
        ∃ count, content = List.replicate count (if n < 0 then 0xff else 0x00) ++ shortest) ∧
      (Primitive.integer.decode content = .ok n →
        content = shortest ∨ shortest.length < content.length) := by
  refine ⟨rfl, rfl, rfl, ?_, TwosComplement.encode n, rfl, decode_encode n, ?_, ?_⟩
  · intro filled
    exact decode_eq_ok.mpr ⟨filled, value_eq_toInt content⟩
  · exact decode_eq_ok_iff_padded
  · intro read
    exact (condenses_of_decode read).imp_left Eq.symm

/-- The least number of one octet behind two octets of its sign. -/
theorem content_padded_shortest_negative :
    Primitive.integer.decode [0xff, 0xff, 0x80] = .ok (-128) ∧
      ∃ shortest, Primitive.integer.encode (-128) = .ok shortest ∧
        shortest.length < [0xff, 0xff, (0x80 : UInt8)].length := by
  have number : (BitVec.ofNat 24 (BigEndian.value [0xff, 0xff, 0x80])).toInt = -128 := by decide
  obtain ⟨-, -, -, read, shortest, written, -, -, shorter⟩ :=
    content_padded_shortest [0xff, 0xff, 0x80] (-128)
  have found : Primitive.integer.decode [0xff, 0xff, 0x80] = .ok (-128) :=
    (read (by decide)).trans (congrArg Except.ok number)
  have octets : shortest = [0x80] :=
    (Except.ok.inj written).symm.trans (TwosComplement.encode_value_octet 0x80)
  refine ⟨found, shortest, written, ?_⟩
  rcases shorter found with same | less
  · exact absurd (same.trans octets) (by decide)
  · exact less

end Integer

end DerCodec
