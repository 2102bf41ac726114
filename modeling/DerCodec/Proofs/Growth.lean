import DerCodec.Proofs.Access
import DerCodec.Proofs.ShortestForm

/-!
# How much longer a tree may get

A tree that was read is written in the shortest form, which is no longer than what it was read from
but for one thing: a GeneralizedTime is written with three, six or nine digits of its fraction,
whatever number it was read with. A bound on how much longer its values get is one for the whole
tree. Such a time is at most twice as long as before, so octets that fit in half of the address
space are written as octets whose length fits in a machine word.
-/

namespace DerCodec

/-! ## Content of primitive values -/

open TimeString

namespace UtcTime

theorem length_of_encode {content : Bytes} {t : DateTime} (h : hasYear t.year = true)
    (written : encode t = .ok content) : content.length = 13 := by
  rw [encode_eq h] at written
  obtain rfl := Except.ok.inj written
  simp

end UtcTime

namespace GeneralizedTime

theorem length_fractionText_le {nanosecond : Nat} (h : nanosecond < 1000000000) :
    (TimeOfDay.fractionText nanosecond).length ≤ 10 := by
  unfold TimeOfDay.fractionText
  split_ifs
  · simp
  all_goals
    rw [List.length_cons, Decimal.padded_eq_places (by omega)]
    simp

theorem length_of_encode {content : Bytes} {t : DateTime} (h : hasYear t.year = true)
    (written : encode t = .ok content) : content.length ≤ 25 := by
  rw [encode_eq h] at written
  obtain rfl := Except.ok.inj written
  have below : t.time.nanosecond % 1000000000 < 1000000000 := Nat.mod_lt _ (by decide)
  have fraction := length_fractionText_le below
  simp only [List.length_append, length_shownSeconds, length_octets, TimeOfDay.fraction,
    List.length_cons, List.length_nil]
  omega

end GeneralizedTime

theorem Integer.length_encode_le_of_decode {content : Bytes} {n : Int}
    (h : decode content = .ok n) : (TwosComplement.encode n).length ≤ content.length := by
  simp only [decode] at h
  split_ifs at h with empty
  obtain rfl := Except.ok.inj h
  exact TwosComplement.length_encode_value_le (by simpa using empty)

theorem Utf8.encode_of_decode {what text : String} {content : Bytes}
    (h : decode what content = .ok text) : encode text = content := by
  simp only [decode] at h
  split at h
  · rename_i found
    obtain rfl := Except.ok.inj h
    exact encode_of_decode? found
  · simp at h

theorem AsciiString.encode_of_decode {what text : String} {content : Bytes}
    (h : decode what content = .ok text) : Utf8.encode text = content := by
  simp only [decode] at h
  split_ifs at h
  split at h
  · rename_i found
    obtain rfl := Except.ok.inj h
    exact Utf8.encode_of_decode? found
  · simp at h

namespace Primitive

/-- Only a time with a fraction may be written in more octets than it was read from. -/
theorem length_encode_le_of_decode {type : Primitive} (exact : type ≠ generalizedTime)
    {value : type.Value} {content written : Bytes} (read : type.decode content = .ok value)
    (h : type.encode value = .ok written) : written.length ≤ content.length := by
  cases type with
  | boolean =>
    obtain rfl := Except.ok.inj h
    simp only [decode, Boolean.decode] at read
    split at read <;> simp [Boolean.encode] at read ⊢
  | integer =>
    obtain rfl := Except.ok.inj h
    exact Integer.length_encode_le_of_decode read
  | bitString =>
    obtain rfl := Except.ok.inj h
    exact Nat.le_of_eq (congrArg _ (BitString.encode_of_decode (Except.mapError_eq_ok.mp read)))
  | octetString =>
    obtain rfl := Except.ok.inj h
    obtain rfl := Except.ok.inj read
    exact Nat.le_refl _
  | null =>
    obtain rfl := Except.ok.inj h
    exact Nat.zero_le _
  | oid =>
    have same := Oid.encode_of_decode (Except.mapError_eq_ok.mp read)
    obtain rfl := Except.ok.inj (same.symm.trans (Except.mapError_eq_ok.mp h))
    exact Nat.le_refl _
  | enumerated =>
    obtain rfl := Except.ok.inj h
    exact Integer.length_encode_le_of_decode read
  | utf8String =>
    obtain rfl := Except.ok.inj h
    exact Nat.le_of_eq (congrArg _ (Utf8.encode_of_decode read))
  | printableString =>
    obtain rfl := Except.ok.inj ((if_pos (AsciiString.isAscii_of_decode read)).symm.trans h)
    exact Nat.le_of_eq (congrArg _ (AsciiString.encode_of_decode read))
  | ia5String =>
    obtain rfl := Except.ok.inj ((if_pos (AsciiString.isAscii_of_decode read)).symm.trans h)
    exact Nat.le_of_eq (congrArg _ (AsciiString.encode_of_decode read))
  | utcTime =>
    have parsed := UtcTime.decode_eq_ok.mp (Except.mapError_eq_ok.mp read)
    have before := UtcTime.length_of_parse? parsed
    have after := UtcTime.length_of_encode (UtcTime.carries_of_parse? parsed).1
      (Except.mapError_eq_ok.mp h)
    omega
  | generalizedTime => exact absurd rfl exact

/-- Whatever content the value is read from, it is written in at most `k` times as many octets. -/
def WrittenWithin (k : Nat) {type : Primitive} (value : type.Value) : Prop :=
  ∀ content written, type.decode content = .ok value → type.encode value = .ok written →
    written.length ≤ k * content.length

theorem writtenWithin_two {type : Primitive} (value : type.Value) : WrittenWithin 2 value := by
  intro content written read h
  by_cases exact : type = generalizedTime
  · subst exact
    have parsed := GeneralizedTime.decode_eq_ok.mp (Except.mapError_eq_ok.mp read)
    have before := GeneralizedTime.length_of_parse? parsed
    have after := GeneralizedTime.length_of_encode (GeneralizedTime.carries_of_parse? parsed).1
      (Except.mapError_eq_ok.mp h)
    omega
  · have bound := length_encode_le_of_decode exact read h
    omega

end Primitive

/-! ## Framed elements -/

theorem BigEndian.length_digits_le_double {n m : Nat} (h : m ≤ 2 * n) :
    (digits m).length ≤ (digits n).length + 1 := by
  apply length_digits_le
  have bound := lt_pow_length_digits n
  rw [pow_succ]
  omega

namespace Length

/-- A length that is at most `k` times another is written in at most `k` times as many octets. -/
def Scales (k : Nat) : Prop :=
  ∀ n m, m ≤ k * n → (encode m).length ≤ k * (encode n).length

theorem scales_one : Scales 1 := by
  intro n m h
  rw [Nat.one_mul] at h ⊢
  exact length_encode_mono h

theorem scales_two : Scales 2 := by
  intro n m h
  have digits := BigEndian.length_digits_le_double h
  unfold encode
  split_ifs with small short short
  · simp
  · simp only [List.length_cons, List.length_nil]
    omega
  · have one : (BigEndian.digits m).length ≤ 1 := BigEndian.length_digits_le (by omega)
    simp only [List.length_cons, List.length_nil]
    omega
  · simp only [List.length_cons]
    omega

theorem Scales.pos {k : Nat} (h : Scales k) : 0 < k := by
  have one := h 0 0 (Nat.zero_le _)
  exact Nat.pos_of_ne_zero fun zero => by simp [zero, encode] at one

end Length

theorem Tlv.length_encode_le_mul {k : Nat} (scales : Length.Scales k) {tlv written : Tlv}
    (tag : written.tag = tlv.tag) (content : written.content.length ≤ k * tlv.content.length) :
    written.encode.length ≤ k * tlv.encode.length := by
  have lengths := scales _ _ content
  have tags := Nat.le_mul_of_pos_left tlv.tag.encode.length scales.pos
  simp only [encode, tag, List.length_append, Nat.mul_add]
  omega

/-! ## Trees -/

namespace Element

/-- What the content of an element may hold, once for each kind of node. -/
inductive NodeOf (ofChild : Tlv → Except ElementError Element) : Tlv → Element → Prop
  | primitive {type : Primitive} {content : Bytes} {value : type.Value}
    (read : type.decode content = .ok value) :
    NodeOf ofChild ⟨type.tag, content⟩ (.primitive type value)
  | sequence {content : Bytes} {children : List Element}
    (read : ofChildren ofChild ⟨Universal.sequence.tag, content⟩ = .ok children) :
    NodeOf ofChild ⟨Universal.sequence.tag, content⟩ (.sequence children)
  | set {content : Bytes} {children : List Element}
    (read : ofChildren ofChild ⟨Universal.set.tag, content⟩ = .ok children) :
    NodeOf ofChild ⟨Universal.set.tag, content⟩ (.set children)
  | taggedOctets (tag : Tag) (content : Bytes) :
    NodeOf ofChild ⟨tag, content⟩ (.taggedOctets tag content)
  | taggedList {tag : Tag} {content : Bytes} {children : List Element}
    (flag : tag.constructed = true) (read : ofChildren ofChild ⟨tag, content⟩ = .ok children) :
    NodeOf ofChild ⟨tag, content⟩ (.taggedList tag children)
  | unknown (tlv : Tlv) : NodeOf ofChild tlv (.unknown tlv)

theorem nodeOf_of_ofTlvWithin {levels : Nat} {tlv : Tlv} {element : Element}
    (h : ofTlvWithin (levels + 1) tlv = .ok element) :
    NodeOf (ofTlvWithin levels) tlv element := by
  obtain ⟨tag, content⟩ := tlv
  simp only [ofTlvWithin] at h
  split at h
  · split at h
    · obtain rfl := Except.ok.inj h
      exact .unknown _
    · rename_i type known
      split at h
      · rename_i same
        subst same
        cases type with
        | primitive type =>
          obtain ⟨value, read, rfl⟩ := Except.map_eq_ok.mp h
          exact .primitive read
        | sequence =>
          obtain ⟨children, read, rfl⟩ := Except.map_eq_ok.mp h
          exact .sequence read
        | set =>
          obtain ⟨children, read, rfl⟩ := Except.map_eq_ok.mp h
          exact .set read
      · simp at h
  · split at h
    · rename_i flag
      obtain ⟨children, read, rfl⟩ := Except.map_eq_ok.mp h
      exact .taggedList flag read
    · obtain rfl := Except.ok.inj h
      exact .taggedOctets tag content

/-- The values in the tree are written in at most `k` times the octets they are read from. -/
def ValuesWithin (k : Nat) (root : Element) : Prop :=
  ∀ level type value, NodeBelow root level (.primitive type value) →
    Primitive.WrittenWithin k value

theorem ValuesWithin.child {k : Nat} {root child : Element} (h : root.ValuesWithin k)
    (member : child ∈ root.children) : child.ValuesWithin k :=
  fun level type value below => h (level + 1) type value (.child member below)

theorem valuesWithin_two (root : Element) : root.ValuesWithin 2 :=
  fun _ _ value _ => Primitive.writtenWithin_two value

section growth

variable {k : Nat} {ofChild : Tlv → Except ElementError Element} {children : List Element}
  (each : ∀ child ∈ children, ∀ tlv written, ofChild tlv = .ok child → toTlv child = .ok written →
    written.encode.length ≤ k * tlv.encode.length)

include each

/-- What holds of each child holds of the run of them. -/
theorem length_encodeAll_le_mul {tlvs written : List Tlv} (read : tlvs.mapM ofChild = .ok children)
    (h : toTlvs children = .ok written) :
    (Tlv.encodeAll written).length ≤ k * (Tlv.encodeAll tlvs).length := by
  have runs := forall₂_of_toTlvs each read h
  clear read h
  induction runs with
  | nil => simp [Tlv.encodeAll]
  | cons first _ ih =>
    simp only [Tlv.encodeAll, List.flatMap_cons, List.length_append, Nat.mul_add] at ih ⊢
    omega

theorem length_content_constructed_le {tlv : Tlv} {written : List Tlv} (tag : Tag)
    (read : ofChildren ofChild tlv = .ok children) (h : toTlvs children = .ok written) :
    (Tlv.constructed tag written).content.length ≤ k * tlv.content.length := by
  obtain ⟨tlvs, framed, run⟩ := ofChildren_eq_ok.mp read
  have content := (Tlv.children_eq_ok.mp framed).2
  have inner := length_encodeAll_le_mul each run h
  have outer := Nat.mul_le_mul_left k (Tlv.length_encodeAll_le_of_decodeAll content)
  exact Nat.le_trans inner outer

end growth

section scales

variable {k : Nat} (scales : Length.Scales k)

include scales

/-- A node is written under the tag that it was read with, in content within the bound. -/
theorem content_toTlv_of_ofTlvWithin {levels : Nat} {tlv written : Tlv} {element : Element}
    (values : element.ValuesWithin k) (read : ofTlvWithin levels tlv = .ok element)
    (h : toTlv element = .ok written) :
    written.tag = tlv.tag ∧ written.content.length ≤ k * tlv.content.length := by
  -- The children of a node are read one level further down, so the induction is on the levels.
  induction levels generalizing tlv written element with
  | zero => simp [ofTlvWithin] at read
  | succ levels ih =>
    have each : ∀ child ∈ element.children, ∀ tlv written, ofTlvWithin levels tlv = .ok child →
        toTlv child = .ok written → written.encode.length ≤ k * tlv.encode.length := by
      intro child member tlv written read h
      obtain ⟨tag, content⟩ := ih (values.child member) read h
      exact Tlv.length_encode_le_mul scales tag content
    cases nodeOf_of_ofTlvWithin read with
    | primitive decoded =>
      have carried := Primitive.carries_of_decode decoded
      obtain ⟨content, octets⟩ := Primitive.exists_encode carried
      obtain rfl := Except.ok.inj ((Primitive.valueToTlv_eq carried octets).symm.trans h)
      exact ⟨rfl, values 0 _ _ (.root _) _ _ decoded octets⟩
    | sequence children =>
      obtain ⟨tlvs, run, rfl⟩ := Except.map_eq_ok.mp h
      exact ⟨rfl, length_content_constructed_le each _ children run⟩
    | set children =>
      obtain ⟨tlvs, run, rfl⟩ := Except.map_eq_ok.mp h
      exact ⟨rfl, length_content_constructed_le each _ children run⟩
    | taggedOctets tag content =>
      obtain rfl := Except.ok.inj h
      exact ⟨rfl, Nat.le_mul_of_pos_left _ scales.pos⟩
    | taggedList flag children =>
      obtain ⟨tlvs, run, rfl⟩ := Except.map_eq_ok.mp h
      refine ⟨?_, length_content_constructed_le each _ children run⟩
      simp only [Tlv.constructed, Tag.withConstructed, ← flag]
    | unknown tlv =>
      obtain rfl := Except.ok.inj h
      exact ⟨rfl, Nat.le_mul_of_pos_left _ scales.pos⟩

theorem length_encode_le_of_ofTlv {tlv written : Tlv} {element : Element}
    (values : element.ValuesWithin k) (read : ofTlv tlv = .ok element)
    (h : toTlv element = .ok written) : written.encode.length ≤ k * tlv.encode.length := by
  obtain ⟨tag, content⟩ := content_toTlv_of_ofTlvWithin scales values read h
  exact Tlv.length_encode_le_mul scales tag content

theorem length_encode_le_mul_of_decode {bytes written : Bytes} {element : Element}
    (values : element.ValuesWithin k) (read : decode bytes = .ok element)
    (h : element.encode = .ok written) : written.length ≤ k * bytes.length := by
  obtain ⟨tlv, framed, tree⟩ := Except.bind_eq_ok.mp read
  obtain ⟨again, node, same⟩ := Except.bind_eq_ok.mp h
  obtain rfl := Except.ok.inj same
  have outer := Tlv.length_encode_le_of_decode (Except.mapError_eq_ok.mp framed)
  have inner := length_encode_le_of_ofTlv scales values tree node
  exact Nat.le_trans inner (Nat.mul_le_mul_left k outer)

end scales

/-- A tree is written in at most twice the octets that it was read from. -/
theorem length_encode_le_of_decode {bytes written : Bytes} {element : Element}
    (read : decode bytes = .ok element) (h : element.encode = .ok written) :
    written.length ≤ 2 * bytes.length :=
  length_encode_le_mul_of_decode Length.scales_two element.valuesWithin_two read h

theorem length_encodeAll_le_of_decodeAll {bytes written : Bytes} {elements : List Element}
    (read : decodeAll bytes = .ok elements) (h : encodeAll elements = .ok written) :
    written.length ≤ 2 * bytes.length := by
  obtain ⟨tlvs, framed, trees⟩ := Except.bind_eq_ok.mp read
  obtain ⟨again, nodes, same⟩ := Except.bind_eq_ok.mp h
  obtain rfl := Except.ok.inj same
  have outer := Tlv.length_encodeAll_le_of_decodeAll (Except.mapError_eq_ok.mp framed)
  have each : ∀ element ∈ elements, ∀ tlv written, ofTlv tlv = .ok element →
      toTlv element = .ok written → written.encode.length ≤ 2 * tlv.encode.length :=
    fun element _ _ _ => length_encode_le_of_ofTlv Length.scales_two element.valuesWithin_two
  have inner := length_encodeAll_le_mul each trees nodes
  omega

end Element

end DerCodec
