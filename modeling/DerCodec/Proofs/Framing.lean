import DerCodec.Proofs.Numerals
import DerCodec.Proofs.Result
import DerCodec.Tlv
import Mathlib.Algebra.Order.BigOperators.Group.List

/-!
# Framing round trip

What is written in front of any octets is read back as it was, and those octets are left over. Tags
have no bound; the content of an element must be countable in eight length octets, which
`Tlv.Countable` says.
-/

namespace DerCodec

/-! ## Tags -/

namespace Tag

/-- The first octet holds the class, the flag and five more bits apart from each other. -/
theorem leadingOctet_parts (tag : Tag) {low : UInt8} (h : low < 32) :
    TagClass.ofOctet (tag.leadingBits + low) = tag.tagClass ∧
      ((tag.leadingBits + low) / 32 % 2 == 1) = tag.constructed ∧
      (tag.leadingBits + low) % 32 = low := by
  obtain ⟨tagClass, constructed, number⟩ := tag
  cases tagClass <;> cases constructed <;>
    simp only [leadingBits, TagClass.bits, TagClass.ofOctet] <;>
    refine ⟨?_, ?_, ?_⟩ <;>
    grind

/-- A digit that continues stands in front of the others of its number, and any other one ends it. -/
theorem readNumber_cons_eq_ok {n number : Nat} {octet : UInt8} {tail rest : Bytes} :
    readNumber n (octet :: tail) = .ok (number, rest) ↔
      ∃ longer, Base128.push? UInt32.size n octet = some longer ∧
        (Base128.continues octet = true ∧ readNumber longer tail = .ok (number, rest) ∨
          Base128.continues octet = false ∧ longer = number ∧ tail = rest) := by
  rw [readNumber]
  cases Base128.push? UInt32.size n octet with
  | none => simp
  | some longer => cases Base128.continues octet <;> simp

theorem readNumber_leading {n : Nat} (h : n < UInt32.size) (rest : Bytes) :
    readNumber 0 (Base128.leading n ++ rest) = readNumber n rest := by
  induction n using Nat.strongRecOn generalizing rest with
  | ind n ih =>
    by_cases zero : n = 0
    · simp [zero, Base128.leading]
    · rw [Base128.leading_pos zero, List.append_assoc, ih (n / 128) (by omega) (by omega)]
      simp only [List.cons_append, List.nil_append, readNumber, Base128.push?_leadingDigit h,
        Base128.continues_leadingDigit, if_true]

theorem readNumber_encode {n : Nat} (h : n < UInt32.size) (rest : Bytes) :
    readNumber 0 (Base128.encode n ++ rest) = .ok (n, rest) := by
  have shorter : n / 128 < UInt32.size := by omega
  rw [Base128.encode, List.append_assoc, readNumber_leading shorter]
  simp [readNumber, Base128.push?_lastDigit h, Base128.continues_lastDigit]

/-- Every tag is read back from its octets, in one octet or in several. -/
theorem read_encode (tag : Tag) (rest : Bytes) : read (tag.encode ++ rest) = .ok (tag, rest) := by
  by_cases short : tag.number < 31
  · have number : tag.number.toUInt8 < 31 := by
      have small : tag.number.toNat < 31 := short
      rw [UInt8.lt_iff_toNat_lt, UInt32.toNat_toUInt8]
      change tag.number.toNat % 256 < 31
      omega
    have restored : tag.number.toUInt8.toUInt32 = tag.number := by
      have small : tag.number.toNat < 31 := short
      apply UInt32.toNat_inj.mp
      rw [UInt8.toNat_toUInt32, UInt32.toNat_toUInt8]
      omega
    obtain ⟨tagClass, flag, low⟩ := tag.leadingOctet_parts (UInt8.lt_trans number (by decide))
    simp only [encode, identifierOctet?, if_pos short, List.cons_append, List.nil_append, read,
      tagClass, flag, low, if_pos number, restored]
  · obtain ⟨tagClass, flag, low⟩ := tag.leadingOctet_parts (show (31 : UInt8) < 32 by decide)
    have long : ¬(31 : UInt8) < 31 := by decide
    simp only [encode, identifierOctet?, if_neg short, List.cons_append, read, tagClass, flag, low,
      if_neg long, readNumber_encode (UInt32.toNat_lt_size _), Except.ok_bind, Except.pure_def,
      UInt32.ofNat_toNat]

end Tag

/-! ## Lengths -/

namespace Length

/-- A length is one octet, or it stands in as many octets as the one in front of them says. -/
theorem cases_of_read {n : Nat} {bytes rest : Bytes} (h : read bytes = .ok (n, rest)) :
    (∃ first : UInt8, bytes = first :: rest ∧ first.toNat < 128 ∧ n = first.toNat) ∨
      ∃ (first : UInt8) (octets : Bytes), bytes = first :: (octets ++ rest) ∧
        first.toNat = 128 + octets.length ∧ 0 < octets.length ∧ octets.length ≤ 8 ∧
        n = BigEndian.value octets := by
  cases bytes with
  | nil => simp [read] at h
  | cons first tail =>
    simp only [read, UInt8.lt_iff_toNat_lt] at h
    split_ifs at h with short indefinite wide missing
    · obtain ⟨rfl, rfl⟩ := Prod.mk.inj (Except.ok.inj h)
      exact .inl ⟨first, rfl, short, rfl⟩
    · obtain ⟨rfl, rfl⟩ := Prod.mk.inj (Except.ok.inj h)
      have count : (tail.take (first.toNat - 128)).length = first.toNat - 128 :=
        List.length_take_of_le (Nat.not_lt.mp missing)
      refine .inr ⟨first, tail.take (first.toNat - 128), ?_, ?_, ?_, ?_, rfl⟩
      · rw [List.take_append_drop]
      all_goals
        change ¬first.toNat < 128 at short
        omega

theorem read_encode {n : Nat} (h : n < UInt64.size) (rest : Bytes) :
    read (encode n ++ rest) = .ok (n, rest) := by
  by_cases short : n < 128
  · have octet : (UInt8.ofNat n).toNat = n := toNat_octet (by omega)
    have low : UInt8.ofNat n < 128 := by
      rw [UInt8.lt_iff_toNat_lt, octet]
      exact short
    simp [encode, read, short, low, octet]
  · have width : (BigEndian.digits n).length ≤ 8 := BigEndian.length_digits_le h
    have some : (BigEndian.digits n).length ≠ 0 := by
      rw [BigEndian.digits, if_neg (by omega)]
      simp
    have octet : (UInt8.ofNat (128 + (BigEndian.digits n).length)).toNat =
        128 + (BigEndian.digits n).length := toNat_octet (by omega)
    have high : ¬UInt8.ofNat (128 + (BigEndian.digits n).length) < 128 := by
      rw [UInt8.lt_iff_toNat_lt, octet]
      exact Nat.not_lt.mpr (Nat.le_add_right 128 _)
    have count : 128 + (BigEndian.digits n).length - 128 = (BigEndian.digits n).length := by omega
    simp only [encode, if_neg short, List.cons_append, read, if_neg high, octet, count,
      if_neg some, if_neg (Nat.not_lt.mpr width), List.length_append,
      if_neg (Nat.not_lt.mpr (Nat.le_add_right _ _)), List.take_left, List.drop_left,
      BigEndian.value_digits]

end Length

/-! ## Elements and runs of them -/

namespace Tlv

/-- The length of the content fits in eight octets. -/
def Countable (tlv : Tlv) : Prop :=
  tlv.content.length < UInt64.size

theorem read_encode {tlv : Tlv} (h : tlv.Countable) (rest : Bytes) :
    read (tlv.encode ++ rest) = .ok (tlv, rest) := by
  have enough : ¬(tlv.content ++ rest).length < tlv.content.length := by simp
  simp only [read, encode, List.append_assoc, Tag.read_encode, Length.read_encode h,
    Except.ok_bind, if_neg enough, List.take_left, List.drop_left]

theorem decode_encode {tlv : Tlv} (h : tlv.Countable) : decode tlv.encode = .ok tlv := by
  have whole := read_encode h []
  rw [List.append_nil] at whole
  simp [decode, decodeFront, whole]

theorem encode_ne_nil (tlv : Tlv) : tlv.encode ≠ [] := by
  intro nil
  have tag := tlv.tag.read_encode []
  simp only [encode, List.append_eq_nil_iff] at nil
  rw [nil.1.1] at tag
  simp [Tag.read] at tag

theorem decodeAll_encodeAll {tlvs : List Tlv} (h : ∀ tlv ∈ tlvs, tlv.Countable) :
    decodeAll (encodeAll tlvs) = .ok tlvs := by
  induction tlvs with
  | nil => simp [encodeAll, decodeAll]
  | cons tlv tlvs ih =>
    have first := read_encode (h tlv (by simp)) (encodeAll tlvs)
    have rest := ih fun t ht => h t (by simp [ht])
    have nonempty : (tlv.encode ++ encodeAll tlvs).isEmpty = false := by
      simp [List.isEmpty_eq_false_iff, encode_ne_nil]
    rw [encodeAll, List.flatMap_cons, decodeAll, ← encodeAll, nonempty]
    simp only [Bool.false_eq_true, if_false]
    split
    · rename_i failed
      simp [first] at failed
    · rename_i found
      rw [first] at found
      simp only [Except.ok.injEq, Prod.mk.injEq] at found
      obtain ⟨rfl, rfl⟩ := found
      rw [rest]
      rfl

theorem children_eq_ok {tlv : Tlv} {tlvs : List Tlv} :
    tlv.children = .ok tlvs ↔ tlv.tag.constructed = true ∧ decodeAll tlv.content = .ok tlvs := by
  cases flag : tlv.tag.constructed <;> simp [children, flag]

theorem length_content_le (tlv : Tlv) : tlv.content.length ≤ tlv.encode.length := by
  simp only [encode, List.length_append]
  omega

theorem length_encode_le_encodeAll {tlv : Tlv} {tlvs : List Tlv} (h : tlv ∈ tlvs) :
    tlv.encode.length ≤ (encodeAll tlvs).length := by
  rw [encodeAll, List.length_flatMap]
  exact List.single_le_sum (by simp) _ (List.mem_map_of_mem h)

theorem countable_of_encode {tlv : Tlv} (h : tlv.encode.length < UInt64.size) :
    tlv.Countable :=
  Nat.lt_of_le_of_lt tlv.length_content_le h

/-- An element that can be counted has children that can be counted. -/
theorem Countable.child {tag : Tag} {tlv : Tlv} {tlvs : List Tlv}
    (h : (constructed tag tlvs).Countable) (member : tlv ∈ tlvs) : tlv.Countable :=
  countable_of_encode (Nat.lt_of_le_of_lt (length_encode_le_encodeAll member) h)

theorem children_constructed {tag : Tag} {tlvs : List Tlv}
    (h : (constructed tag tlvs).Countable) : (constructed tag tlvs).children = .ok tlvs := by
  simp only [children, constructed, Tag.withConstructed, if_true]
  exact decodeAll_encodeAll fun tlv member => h.child member

end Tlv

end DerCodec
