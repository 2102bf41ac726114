import DerCodec.Element.Wire
import DerCodec.Proofs.Oid
import DerCodec.Proofs.TimeGrammar

/-!
# Content of primitive values round trip

`Primitive.Carries` says which values of a type have content octets that stand for them. Such a
value is written and read back as it was, and every value that is read is one of these. Any other
value that is written is a time, and is read back as what its content keeps of it. All this holds
under every primitive tag.
-/

namespace DerCodec

/-! ## Text -/

namespace Utf8

theorem encode_eq_flatMap (text : String) :
    encode text = text.toList.flatMap String.utf8EncodeChar := by
  rw [encode, ← String.utf8Encode_toList, List.utf8Encode, List.toList_data_toByteArray]

theorem toByteArray_encode (text : String) : (encode text).toByteArray = text.toByteArray := by
  apply ByteArray.ext
  simp [encode]

theorem decode?_encode (text : String) : decode? (encode text) = some text := by
  rw [decode?, toByteArray_encode, String.fromUTF8?, dif_pos text.isValidUTF8]
  rfl

theorem encode_of_decode? {content : Bytes} {text : String} (h : decode? content = some text) :
    encode text = content := by
  simp only [decode?, String.fromUTF8?] at h
  split at h
  · obtain rfl := Option.some.inj h
    simp [encode, String.fromUTF8]
  · simp at h

theorem decode_eq_ok {what text : String} {content : Bytes} :
    decode what content = .ok text ↔ content = encode text := by
  constructor
  · intro h
    unfold decode at h
    split at h
    · rename_i found
      obtain rfl := Except.ok.inj h
      exact (encode_of_decode? found).symm
    · simp at h
  · rintro rfl
    simp only [decode, decode?_encode]

/-- A character beyond ASCII starts with an octet beyond ASCII. -/
theorem all_utf8EncodeChar (c : Char) :
    (String.utf8EncodeChar c).all (· < 128) = decide (c.toNat < 128) := by
  have value : c.val.toNat = c.toNat := rfl
  simp only [String.utf8EncodeChar, value]
  split_ifs with one two three
  · have octet : (UInt8.ofNat c.toNat).toNat = c.toNat := toNat_octet (by omega)
    simp [UInt8.lt_iff_toNat_lt, octet]
  all_goals
    have beyond : ¬c.toNat < 128 := by omega
    simp only [beyond, decide_false, List.all_cons, Bool.and_eq_false_iff, decide_eq_false_iff_not,
      UInt8.lt_iff_toNat_lt]
    left
    rw [toNat_octet (by omega)]
    change ¬_ < 128
    omega

theorem all_encode (text : String) : (encode text).all (· < 128) = isAscii text := by
  rw [encode_eq_flatMap, List.all_flatMap, isAscii]
  simp only [all_utf8EncodeChar]

end Utf8

namespace AsciiString

theorem decode_encode {what text : String} (h : Utf8.isAscii text = true) :
    decode what (Utf8.encode text) = .ok text := by
  simp only [decode, Utf8.all_encode, if_pos h, Utf8.decode?_encode]

theorem isAscii_of_decode {what text : String} {content : Bytes}
    (h : decode what content = .ok text) : Utf8.isAscii text = true := by
  simp only [decode] at h
  split at h
  · rename_i ascii
    split at h
    · rename_i found
      obtain rfl := Except.ok.inj h
      rw [← Utf8.all_encode, Utf8.encode_of_decode? found]
      exact ascii
    · simp at h
  · simp at h

end AsciiString

/-! ## Other content -/

namespace Boolean

theorem decode_encode (value : Bool) : decode (encode value) = .ok value := by
  cases value <;> rfl

theorem decode_eq_ok {content : Bytes} {value : Bool} :
    decode content = .ok value ↔ content = encode value := by
  constructor
  · intro h
    unfold decode at h
    split at h
    · obtain rfl := Except.ok.inj h
      rfl
    · obtain rfl := Except.ok.inj h
      rfl
    · simp at h
  · rintro rfl
    exact decode_encode value

end Boolean

namespace Integer

theorem decode_encode (n : Int) : decode (TwosComplement.encode n) = .ok n := by
  simp [decode, TwosComplement.encode_ne_nil, TwosComplement.value_encode]

theorem narrow?_eq_some {range : WordRange} {n k : Int} :
    narrow? range n = some k ↔ n = k ∧ range.low ≤ n ∧ n < range.high := by
  simp only [narrow?, WordRange.contains, Option.ite_none_right_eq_some, Option.some.injEq,
    Bool.and_eq_true, decide_eq_true_eq]
  exact and_comm

end Integer

namespace BitString

theorem decode_encode (bits : BitString) : decode bits.encode = .ok bits := by
  simp only [decode, encode, ofOctets, dif_pos bits.unused_le]
  rw [dif_pos bits.unused_of_nil]

end BitString

/-! ## Any primitive type -/

namespace Primitive

/-- The values that the type can write so that they are read back. -/
def Carries : (type : Primitive) → type.Value → Prop
  | oid, value => Oid.IsEncodable value
  | printableString, text => Utf8.isAscii text = true
  | ia5String, text => Utf8.isAscii text = true
  | utcTime, time => UtcTime.Carries time
  | generalizedTime, time => GeneralizedTime.Carries time
  | _, _ => True

instance (type : Primitive) (value : type.Value) : Decidable (type.Carries value) := by
  cases type <;> (simp only [Carries]; infer_instance)

theorem tag_constructed (type : Primitive) : type.tag.constructed = false := rfl

theorem exists_encode {type : Primitive} {value : type.Value} (h : type.Carries value) :
    ∃ content, type.encode value = .ok content := by
  cases type with
  | oid =>
    obtain ⟨content, written⟩ := Oid.exists_encode h
    exact ⟨content, Except.mapError_eq_ok.mpr written⟩
  | printableString => exact ⟨_, if_pos h⟩
  | ia5String => exact ⟨_, if_pos h⟩
  | utcTime => exact ⟨_, Except.mapError_eq_ok.mpr (UtcTime.encode_eq h.1)⟩
  | generalizedTime => exact ⟨_, Except.mapError_eq_ok.mpr (GeneralizedTime.encode_eq h.1)⟩
  | _ => exact ⟨_, rfl⟩

theorem decode_of_encode {type : Primitive} {value : type.Value} {content : Bytes}
    (h : type.Carries value) (written : type.encode value = .ok content) :
    type.decode content = .ok value := by
  cases type with
  | boolean =>
    obtain rfl := Except.ok.inj written
    exact Boolean.decode_encode value
  | integer =>
    obtain rfl := Except.ok.inj written
    exact Integer.decode_encode value
  | bitString =>
    obtain rfl := Except.ok.inj written
    exact Except.mapError_eq_ok.mpr (BitString.decode_encode value)
  | octetString =>
    obtain rfl := Except.ok.inj written
    rfl
  | null =>
    obtain rfl := Except.ok.inj written
    rfl
  | oid =>
    exact Except.mapError_eq_ok.mpr (Oid.decode_of_encode (Except.mapError_eq_ok.mp written))
  | enumerated =>
    obtain rfl := Except.ok.inj written
    exact Integer.decode_encode value
  | utf8String =>
    obtain rfl := Except.ok.inj written
    simp only [decode, Utf8.decode, Utf8.decode?_encode]
  | printableString =>
    obtain rfl := Except.ok.inj ((if_pos h).symm.trans written)
    exact AsciiString.decode_encode h
  | ia5String =>
    obtain rfl := Except.ok.inj ((if_pos h).symm.trans written)
    exact AsciiString.decode_encode h
  | utcTime =>
    have octets := Except.mapError_eq_ok.mp written
    exact Except.mapError_eq_ok.mpr
      (UtcTime.decode_eq_ok.mpr (UtcTime.parse?_of_encode h octets))
  | generalizedTime =>
    have octets := Except.mapError_eq_ok.mp written
    exact Except.mapError_eq_ok.mpr
      (GeneralizedTime.decode_eq_ok.mpr (GeneralizedTime.parse?_of_encode h octets))

theorem carries_of_decode {type : Primitive} {value : type.Value} {content : Bytes}
    (h : type.decode content = .ok value) : type.Carries value := by
  cases type with
  | oid => exact Oid.isEncodable_of_decode (Except.mapError_eq_ok.mp h)
  | printableString => exact AsciiString.isAscii_of_decode h
  | ia5String => exact AsciiString.isAscii_of_decode h
  | utcTime =>
    exact UtcTime.carries_of_parse? (UtcTime.decode_eq_ok.mp (Except.mapError_eq_ok.mp h))
  | generalizedTime =>
    exact GeneralizedTime.carries_of_parse?
      (GeneralizedTime.decode_eq_ok.mp (Except.mapError_eq_ok.mp h))
  | _ => trivial

/-- A value that its type carries is framed in a tree as it is on its own. -/
theorem valueToTlv_eq {type : Primitive} {value : type.Value} {content : Bytes}
    (h : type.Carries value) (written : type.encode value = .ok content) :
    Element.valueToTlv type value = .ok ⟨type.tag, content⟩ := by
  cases type with
  | printableString =>
    obtain rfl := Except.ok.inj ((if_pos h).symm.trans written)
    rfl
  | ia5String =>
    obtain rfl := Except.ok.inj ((if_pos h).symm.trans written)
    rfl
  | _ => simp only [Element.valueToTlv, encodeAs, tag_constructed, written, Except.ok_bind,
      Except.pure_def, Bool.false_eq_true, if_false]

/-! ## Under any tag -/

/-- What the content keeps of a value: a UTCTime loses the fraction of its second, and a leap second
within a minute is kept by a GeneralizedTime as the second after it. -/
def kept : (type : Primitive) → type.Value → type.Value
  | utcTime, time => time.wholeSecond
  | generalizedTime, time => GeneralizedTime.asWritten time
  | _, value => value

theorem encode_kept (type : Primitive) (value : type.Value) :
    type.encode (type.kept value) = type.encode value := by
  cases type with
  | generalizedTime => exact congrArg (Except.mapError _) (GeneralizedTime.encode_asWritten value)
  | _ => rfl

theorem carries_kept {type : Primitive} {value : type.Value} {content : Bytes}
    (h : type.encode value = .ok content) : type.Carries (type.kept value) := by
  cases type with
  | oid =>
    exact Oid.isEncodable_of_decode (Oid.decode_of_encode (Except.mapError_eq_ok.mp h))
  | printableString => exact (Except.ite_eq_ok.mp h).1
  | ia5String => exact (Except.ite_eq_ok.mp h).1
  | utcTime => exact ⟨(Except.ite_eq_ok.mp (Except.mapError_eq_ok.mp h)).1, rfl⟩
  | generalizedTime =>
    exact GeneralizedTime.carries_asWritten (Except.ite_eq_ok.mp (Except.mapError_eq_ok.mp h)).1
  | _ => trivial

/-- A value of a type whose content keeps all of it can be read when it is written. -/
theorem carries_of_encode {type : Primitive} {value : type.Value} {content : Bytes}
    (exact : ∀ value, type.kept value = value) (h : type.encode value = .ok content) :
    type.Carries value :=
  exact value ▸ carries_kept h

theorem decode_eq_kept {type : Primitive} {value : type.Value} {content : Bytes}
    (h : type.encode value = .ok content) : type.decode content = .ok (type.kept value) :=
  decode_of_encode (carries_kept h) ((type.encode_kept value).trans h)

theorem encodeAs_eq_ok {type : Primitive} {tag : Tag} {value : type.Value} {tlv : Tlv} :
    type.encodeAs tag value = .ok tlv ↔
      tag.constructed = false ∧ ∃ content, type.encode value = .ok content ∧ tlv = ⟨tag, content⟩ := by
  cases flag : tag.constructed <;>
    simp [encodeAs, flag, Except.bind_eq_ok, eq_comm (a := tlv)]

theorem decodeAs_eq_ok {type : Primitive} {tag : Tag} {tlv : Tlv} {value : type.Value} :
    type.decodeAs tag tlv = .ok value ↔ tlv.tag = tag ∧ type.decode tlv.content = .ok value := by
  by_cases same : tlv.tag = tag <;> simp [decodeAs, same]

end Primitive

end DerCodec
