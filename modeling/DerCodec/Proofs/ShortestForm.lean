import DerCodec.Proofs.Framing

/-!
# The one shortest form

Tags and lengths have many forms on the wire and are written in the shortest one. Each reader obeys
one balance: what it returns, written again in front of the octets it leaves, is its input or
shorter than that. So an element and a run of elements are written in fewer octets than they were
read from, or in the same ones.
-/

namespace DerCodec

/-- The same octets as the others, or fewer. -/
def Condenses (written bytes : Bytes) : Prop :=
  written = bytes ∨ written.length < bytes.length

namespace Condenses

variable {a b c d : Bytes}

theorem refl (bytes : Bytes) : Condenses bytes bytes :=
  .inl rfl

theorem trans (first : Condenses a b) (second : Condenses b c) : Condenses a c := by
  unfold Condenses at *
  grind

theorem length_le (h : Condenses a b) : a.length ≤ b.length := by
  unfold Condenses at h
  grind

theorem append_left (front : Bytes) (h : Condenses a b) : Condenses (front ++ a) (front ++ b) := by
  rcases h with rfl | shorter
  · exact refl _
  · exact .inr (by simpa using shorter)

theorem append (first : Condenses a b) (second : Condenses c d) :
    Condenses (a ++ c) (b ++ d) := by
  rcases first with rfl | shorter
  · exact second.append_left a
  · have bound := second.length_le
    exact .inr (by simp only [List.length_append]; omega)

theorem length_eq_iff (h : Condenses a b) : a.length = b.length ↔ b = a := by
  unfold Condenses at h
  grind

end Condenses

namespace Tag

theorem lt_of_readNumber {n number : Nat} {bytes rest : Bytes}
    (h : readNumber n bytes = .ok (number, rest)) : number < UInt32.size := by
  induction bytes generalizing n with
  | nil => simp [readNumber] at h
  | cons octet tail ih =>
    obtain ⟨longer, pushed, ⟨-, later⟩ | ⟨-, rfl, -⟩⟩ := readNumber_cons_eq_ok.mp h
    · exact ih later
    · exact Base128.lt_of_push? pushed

/-- The digits so far are written in front of those still to be read. -/
theorem condenses_of_readNumber {n number : Nat} {bytes rest : Bytes}
    (h : readNumber n bytes = .ok (number, rest)) :
    Condenses (Base128.encode number ++ rest) (Base128.leading n ++ bytes) := by
  induction bytes generalizing n with
  | nil => simp [readNumber] at h
  | cons octet tail ih =>
    obtain ⟨longer, pushed, step⟩ := readNumber_cons_eq_ok.mp h
    obtain rfl := Base128.eq_of_push? pushed
    rcases step with ⟨more, later⟩ | ⟨last, rfl, rfl⟩
    · refine (ih later).trans ?_
      -- Only a digit that leaves the number at zero is not written again.
      by_cases zero : n * 128 + octet.toNat % 128 = 0
      · right
        simp only [zero, Base128.leading_zero, List.nil_append, List.length_append,
          List.length_cons]
        omega
      · left
        rw [Base128.leading_push more zero, List.append_assoc, List.singleton_append]
    · left
      rw [Base128.encode_push last, List.append_assoc, List.singleton_append]

/-- The first octet is put together again from its class, its flag and its five low bits. -/
theorem leadingBits_add_low (first : UInt8) (number : UInt32) :
    (⟨TagClass.ofOctet first, first / 32 % 2 == 1, number⟩ : Tag).leadingBits + first % 32 =
      first := by
  simp only [leadingBits, TagClass.ofOctet]
  split_ifs <;> simp only [TagClass.bits] <;> grind

theorem condenses_of_read {tag : Tag} {bytes rest : Bytes}
    (h : read bytes = .ok (tag, rest)) : Condenses (tag.encode ++ rest) bytes := by
  cases bytes with
  | nil => simp [read] at h
  | cons first tail =>
    simp only [read] at h
    split at h
    · rename_i short
      obtain ⟨rfl, rfl⟩ := Prod.mk.inj (Except.ok.inj h)
      have low : (first % 32).toUInt32 < 31 := by
        rw [UInt32.lt_iff_toNat_lt, UInt8.toNat_toUInt32]
        exact UInt8.lt_iff_toNat_lt.mp short
      left
      simp only [encode, identifierOctet?, if_pos low, UInt8.toUInt8_toUInt32, leadingBits_add_low,
        List.singleton_append]
    · rename_i long
      obtain ⟨⟨number, left⟩, found, same⟩ := Except.bind_eq_ok.mp h
      obtain ⟨rfl, rfl⟩ := Prod.mk.inj (Except.ok.inj same)
      have digits := condenses_of_readNumber found
      rw [Base128.leading_zero, List.nil_append] at digits
      by_cases low : UInt32.ofNat number < 31
      · -- A small number in the long form is written without any of its digits.
        have some : 0 < (Base128.encode number).length := by simp [Base128.encode]
        have shorter := digits.length_le
        rw [List.length_append] at shorter
        right
        simp only [encode, identifierOctet?, if_pos low, List.length_append, List.length_cons,
          List.length_nil]
        omega
      · have value : (UInt32.ofNat number).toNat = number :=
          UInt32.toNat_ofNat_of_lt' (lt_of_readNumber found)
        have all : first % 32 = 31 := by grind
        have front := leadingBits_add_low first (UInt32.ofNat number)
        rw [all] at front
        simp only [encode, identifierOctet?, if_neg low, value, front]
        exact digits.append_left [first]

end Tag

namespace Length

theorem condenses_of_read {n : Nat} {bytes rest : Bytes} (h : read bytes = .ok (n, rest)) :
    Condenses (encode n ++ rest) bytes := by
  obtain ⟨first, rfl, small, rfl⟩ | ⟨first, octets, rfl, count, some, -, rfl⟩ := cases_of_read h
  · left
    rw [encode, if_pos small, UInt8.ofNat_toNat, List.singleton_append]
  · by_cases small : BigEndian.value octets < 128
    · right
      simp only [encode, if_pos small, List.length_append, List.length_cons, List.length_nil]
      omega
    · rw [encode, if_neg small]
      rcases BigEndian.digits_value octets with same | shorter
      · left
        rw [same, ← count, UInt8.ofNat_toNat, List.cons_append]
      · right
        simp only [List.length_append, List.length_cons]
        omega

theorem lt_of_read {n : Nat} {bytes rest : Bytes} (h : read bytes = .ok (n, rest)) :
    n < UInt64.size := by
  obtain ⟨first, -, -, rfl⟩ | ⟨-, octets, -, -, -, eight, rfl⟩ := cases_of_read h
  · exact Nat.lt_trans first.toNat_lt (by decide)
  · calc
      BigEndian.value octets < 256 ^ octets.length := BigEndian.value_lt octets
      _ ≤ 256 ^ 8 := Nat.pow_le_pow_right (by decide) eight

theorem length_encode_mono {n m : Nat} (h : m ≤ n) : (encode m).length ≤ (encode n).length := by
  have digits : (BigEndian.digits m).length ≤ (BigEndian.digits n).length :=
    BigEndian.length_digits_le (Nat.lt_of_le_of_lt h (BigEndian.lt_pow_length_digits n))
  unfold encode
  split_ifs <;> simp only [List.length_cons, List.length_nil] <;> omega

end Length

namespace Tlv

theorem length_encode_mono {tlv written : Tlv} (tag : written.tag = tlv.tag)
    (content : written.content.length ≤ tlv.content.length) :
    written.encode.length ≤ tlv.encode.length := by
  have lengths := Length.length_encode_mono content
  simp only [encode, tag, List.length_append]
  omega

theorem length_encode_lt {tlv written : Tlv} (tag : written.tag = tlv.tag)
    (content : written.content.length < tlv.content.length) :
    written.encode.length < tlv.encode.length := by
  have lengths := Length.length_encode_mono (Nat.le_of_lt content)
  simp only [encode, tag, List.length_append]
  omega

theorem condenses_encode {tlv written : Tlv} (tag : written.tag = tlv.tag)
    (content : Condenses written.content tlv.content) : Condenses written.encode tlv.encode := by
  rcases content with same | shorter
  · left
    rw [encode, encode, tag, same]
  · exact .inr (length_encode_lt tag shorter)

theorem length_encodeAll_le {tlvs written : List Tlv}
    (h : List.Forall₂ (fun one tlv : Tlv => one.encode.length ≤ tlv.encode.length) written tlvs) :
    (encodeAll written).length ≤ (encodeAll tlvs).length := by
  induction h with
  | nil => exact Nat.le_refl _
  | cons first _ ih =>
    simp only [encodeAll, List.flatMap_cons, List.length_append] at ih ⊢
    omega

/-! ## One element -/

/-- An element that was read has a tag, the length of its content, and then the content. -/
theorem parts_of_read {tlv : Tlv} {bytes rest : Bytes} (h : read bytes = .ok (tlv, rest)) :
    ∃ afterTag, Tag.read bytes = .ok (tlv.tag, afterTag) ∧
      Length.read afterTag = .ok (tlv.content.length, tlv.content ++ rest) := by
  obtain ⟨⟨tag, afterTag⟩, readTag, inner⟩ := Except.bind_eq_ok.mp h
  obtain ⟨⟨length, afterLength⟩, readLength, content⟩ := Except.bind_eq_ok.mp inner
  simp only at content
  split_ifs at content with missing
  obtain ⟨rfl, rfl⟩ := Prod.mk.inj (Except.ok.inj content)
  refine ⟨afterTag, readTag, ?_⟩
  rw [List.length_take_of_le (Nat.not_lt.mp missing), List.take_append_drop]
  exact readLength

theorem condenses_of_read {tlv : Tlv} {bytes rest : Bytes} (h : read bytes = .ok (tlv, rest)) :
    Condenses (tlv.encode ++ rest) bytes := by
  obtain ⟨afterTag, readTag, readLength⟩ := parts_of_read h
  have behindTag := (Length.condenses_of_read readLength).append_left tlv.tag.encode
  simp only [encode, List.append_assoc]
  exact behindTag.trans (Tag.condenses_of_read readTag)

theorem countable_of_read {tlv : Tlv} {bytes rest : Bytes} (h : read bytes = .ok (tlv, rest)) :
    tlv.Countable := by
  obtain ⟨afterTag, -, readLength⟩ := parts_of_read h
  exact Length.lt_of_read readLength

theorem read_of_decode {tlv : Tlv} {bytes : Bytes} (h : decode bytes = .ok tlv) :
    read bytes = .ok (tlv, []) := by
  obtain ⟨⟨found, used⟩, front, whole⟩ := Except.bind_eq_ok.mp h
  obtain ⟨⟨found, rest⟩, read, same⟩ := Except.bind_eq_ok.mp front
  obtain ⟨rfl, rfl⟩ := Prod.mk.inj (Except.ok.inj same)
  have shorter := read_length read
  simp only at whole
  split_ifs at whole with all
  obtain rfl := Except.ok.inj whole
  obtain rfl : rest = [] := List.eq_nil_of_length_eq_zero (by omega)
  exact read

theorem condenses_of_decode {tlv : Tlv} {bytes : Bytes} (h : decode bytes = .ok tlv) :
    Condenses tlv.encode bytes := by
  have whole := condenses_of_read (read_of_decode h)
  rwa [List.append_nil] at whole

theorem length_encode_le_of_decode {tlv : Tlv} {bytes : Bytes} (h : decode bytes = .ok tlv) :
    tlv.encode.length ≤ bytes.length :=
  (condenses_of_decode h).length_le

/-! ## Runs of elements -/

theorem condenses_of_decodeAll {tlvs : List Tlv} {bytes : Bytes}
    (h : decodeAll bytes = .ok tlvs) : Condenses (encodeAll tlvs) bytes := by
  fun_induction decodeAll bytes generalizing tlvs with
  | case1 bytes empty =>
    obtain rfl := Except.ok.inj h
    obtain rfl := List.isEmpty_iff.mp empty
    exact .refl []
  | case2 => simp at h
  | case3 bytes _ tlv rest found shorter ih =>
    obtain ⟨others, read, rfl⟩ := Except.map_eq_ok.mp h
    rw [encodeAll, List.flatMap_cons, ← encodeAll]
    exact ((ih read).append_left tlv.encode).trans (condenses_of_read found)

theorem countable_of_decodeAll {tlvs : List Tlv} {bytes : Bytes}
    (h : decodeAll bytes = .ok tlvs) : ∀ tlv ∈ tlvs, tlv.Countable := by
  fun_induction decodeAll bytes generalizing tlvs with
  | case1 =>
    obtain rfl := Except.ok.inj h
    exact nofun
  | case2 => simp at h
  | case3 bytes _ tlv rest found shorter ih =>
    obtain ⟨others, read, rfl⟩ := Except.map_eq_ok.mp h
    exact List.forall_mem_cons.mpr ⟨countable_of_read found, ih read⟩

theorem length_encodeAll_le_of_decodeAll {tlvs : List Tlv} {bytes : Bytes}
    (h : decodeAll bytes = .ok tlvs) : (encodeAll tlvs).length ≤ bytes.length :=
  (condenses_of_decodeAll h).length_le

/-- What is written for an element or for a run of them is read as that again, and no other octets
that are read as it are as few. -/
theorem encode_unique_shortest :
    (∀ (bytes : Bytes) (tlv : Tlv), decode bytes = .ok tlv →
      decode tlv.encode = .ok tlv ∧ tlv.encode.length ≤ bytes.length ∧
        (tlv.encode.length = bytes.length ↔ bytes = tlv.encode)) ∧
    ∀ (bytes : Bytes) (tlvs : List Tlv), decodeAll bytes = .ok tlvs →
      decodeAll (encodeAll tlvs) = .ok tlvs ∧ (encodeAll tlvs).length ≤ bytes.length ∧
        ((encodeAll tlvs).length = bytes.length ↔ bytes = encodeAll tlvs) := by
  constructor
  · intro bytes tlv h
    have condenses := condenses_of_decode h
    have again := decode_encode (countable_of_read (read_of_decode h))
    exact ⟨again, condenses.length_le, condenses.length_eq_iff⟩
  · intro bytes tlvs h
    have condenses := condenses_of_decodeAll h
    have again := decodeAll_encodeAll (countable_of_decodeAll h)
    exact ⟨again, condenses.length_le, condenses.length_eq_iff⟩

/-- An element with a small tag number in the long form, padded, and a padded length; alone, and in
front of one in its written form. -/
theorem encode_unique_shortest_padded :
    decode [0x9f, 0x80, 0x02, 0x82, 0x00, 0x01, 0xaa] = .ok ⟨.context 2, [0xaa]⟩ ∧
      decode (⟨.context 2, [0xaa]⟩ : Tlv).encode = .ok ⟨.context 2, [0xaa]⟩ ∧
      (⟨.context 2, [0xaa]⟩ : Tlv).encode.length ≠ 7 ∧
      decodeAll [0x9f, 0x80, 0x02, 0x82, 0x00, 0x01, 0xaa, 0x82, 0x01, 0xaa] =
        .ok [⟨.context 2, [0xaa]⟩, ⟨.context 2, [0xaa]⟩] ∧
      (encodeAll [⟨.context 2, [0xaa]⟩, ⟨.context 2, [0xaa]⟩]).length ≠ 10 := by
  obtain ⟨single, run⟩ := encode_unique_shortest
  have padded : decode [0x9f, 0x80, 0x02, 0x82, 0x00, 0x01, 0xaa] = .ok ⟨.context 2, [0xaa]⟩ :=
    Except.toOption_eq_some.mp (by decide +kernel)
  have both : decodeAll [0x9f, 0x80, 0x02, 0x82, 0x00, 0x01, 0xaa, 0x82, 0x01, 0xaa] =
      .ok [⟨.context 2, [0xaa]⟩, ⟨.context 2, [0xaa]⟩] :=
    Except.toOption_eq_some.mp (by decide +kernel)
  obtain ⟨again, -, only⟩ := single _ _ padded
  obtain ⟨-, -, onlyRun⟩ := run _ _ both
  refine ⟨padded, again, fun same => ?_, both, fun same => ?_⟩
  · exact absurd (only.mp same) (by decide)
  · exact absurd (onlyRun.mp same) (by decide)

end Tlv

end DerCodec
