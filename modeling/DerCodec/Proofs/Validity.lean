import DerCodec.Proofs.CertificateParts
import DerCodec.Proofs.Growth
import Mathlib.Order.Basic

/-!
# Validity from two times

The years 1950 to 2049 are stored as UTCTime without the fraction of the second, and all others as
GeneralizedTime. Dropping the fraction keeps times in order, also where one bound has the one string
type and the other bound the other. What is stored is written exactly in the years 0 to 9999, and is
read back.
-/

namespace DerCodec

/-! ## Order in time -/

namespace DateTime

/-- How many seconds of the day have begun before this one. -/
def secondOfDay (t : DateTime) : Nat :=
  (t.time.hour * 60 + t.time.minute) * 60 + t.time.second

/-- Earlier in the first part in which the two differ, from the year down to the nanosecond, or the
same in all. A leap second comes before the next second, whatever its nanosecond. -/
def NotAfter (a b : DateTime) : Prop :=
  a.year < b.year ∨ a.year = b.year ∧
    (a.date.month < b.date.month ∨ a.date.month = b.date.month ∧
      (a.date.day < b.date.day ∨ a.date.day = b.date.day ∧
        (a.secondOfDay < b.secondOfDay ∨ a.secondOfDay = b.secondOfDay ∧
          a.time.nanosecond ≤ b.time.nanosecond)))

instance : Preorder DateTime where
  le := NotAfter
  le_refl _ := by simp [NotAfter]
  le_trans _ _ _ := by unfold NotAfter; omega

variable {a b : DateTime}

theorem le_iff : a ≤ b ↔ a.NotAfter b := Iff.rfl

theorem le_of_year_lt (h : a.year < b.year) : a ≤ b :=
  le_iff.mpr (.inl h)

theorem year_le (h : a ≤ b) : a.year ≤ b.year := by
  rcases le_iff.mp h with earlier | ⟨same, -⟩
  · exact earlier.le
  · exact same.le

@[simp] theorem year_wholeSecond (t : DateTime) : t.wholeSecond.year = t.year := rfl

@[simp] theorem date_wholeSecond (t : DateTime) : t.wholeSecond.date = t.date := rfl

@[simp] theorem secondOfDay_wholeSecond (t : DateTime) :
    t.wholeSecond.secondOfDay = t.secondOfDay := rfl

@[simp] theorem nanosecond_wholeSecond (t : DateTime) : t.wholeSecond.time.nanosecond = 0 := rfl

theorem wholeSecond_le (t : DateTime) : t.wholeSecond ≤ t := by
  simp [le_iff, NotAfter]

theorem wholeSecond_mono (h : a ≤ b) : a.wholeSecond ≤ b.wholeSecond := by
  simp only [le_iff, NotAfter, year_wholeSecond, date_wholeSecond, secondOfDay_wholeSecond,
    nanosecond_wholeSecond] at h ⊢
  omega

end DateTime

/-- Tag and length take one octet each when they are small. -/
theorem Tlv.length_encode_of_short {tag : Tag} {content : Bytes} (number : tag.number < 31)
    (short : content.length < 128) : (Tlv.mk tag content).encode.length = content.length + 2 := by
  simp [encode, Tag.encode, Tag.identifierOctet?, Length.encode, number, short]

namespace CertificateTime

/-! ## Stored times -/

/-- How a time is stored: as UTCTime without its fraction in the years of that type, and else as
GeneralizedTime just as it is. -/
structure Stores (stored : CertificateTime) (t : DateTime) : Prop where
  isUtc_iff : (∃ whole, stored = utc whole) ↔ 1950 ≤ t.year ∧ t.year ≤ 2049
  whole : ∀ whole, stored = utc whole →
    whole.date = t.date ∧ whole.time = { t.time with nanosecond := 0 }
  exact : ∀ other, stored = generalized other → other = t

theorem stores_ofDateTime (t : DateTime) : (ofDateTime t).Stores t := by
  unfold ofDateTime
  split_ifs with window
  · refine ⟨iff_of_true ⟨_, rfl⟩ (UtcTime.hasYear_iff.mp window), ?_, nofun⟩
    rintro whole ⟨⟩
    exact ⟨rfl, rfl⟩
  · refine ⟨iff_of_false nofun (UtcTime.hasYear_iff.not.mp window), nofun, ?_⟩
    rintro other ⟨⟩
    rfl

/-- Times stay in order when they are stored. -/
theorem ofDateTime_mono {a b : DateTime} (h : a ≤ b) :
    (ofDateTime a).dateTime ≤ (ofDateTime b).dateTime := by
  have years := DateTime.year_le h
  unfold ofDateTime
  split_ifs with early late late
  · exact DateTime.wholeSecond_mono h
  · exact (DateTime.wholeSecond_le a).trans h
  · -- The fraction is dropped from the later bound alone, but the earlier one is years before.
    rw [UtcTime.hasYear_iff] at early late
    have apart : a.year < b.year := by omega
    exact DateTime.le_of_year_lt apart
  · exact h

/-! ## Written times -/

/-- The time as it is read back from what it is written as. -/
def asRead : CertificateTime → CertificateTime
  | utc time => utc time.wholeSecond
  | generalized time => generalized (GeneralizedTime.asWritten time)

theorem toTlv_asRead (time : CertificateTime) :
    time.asRead.toElement.toTlv = time.toElement.toTlv := by
  cases time with
  | utc => rfl
  | generalized time =>
    have same := Primitive.generalizedTime.encode_kept time
    simp only [Primitive.kept] at same
    simp only [asRead, toElement, Element.toTlv, Element.valueToTlv, Primitive.encodeAs, same]

/-- A stored time is read back as it is, except for a leap second that no text tells from the next
second. -/
theorem asRead_ofDateTime_eq_self_iff {t : DateTime} : (ofDateTime t).asRead = ofDateTime t ↔
    1950 ≤ t.year ∧ t.year ≤ 2049 ∨ t.time.LeapEndsMinute := by
  rw [← UtcTime.hasYear_iff]
  unfold ofDateTime
  split_ifs with window
  · exact iff_of_true rfl (.inl window)
  · rw [asRead, generalized.injEq, GeneralizedTime.asWritten_eq_self_iff, or_iff_right window]

theorem sound_asRead_ofDateTime_iff {t : DateTime} :
    (ofDateTime t).asRead.toElement.Sound ↔ 0 ≤ t.year ∧ t.year ≤ 9999 := by
  unfold ofDateTime
  split_ifs with window
  · have carried : UtcTime.Carries t.wholeSecond := ⟨window, rfl⟩
    have range := UtcTime.hasYear_iff.mp window
    exact iff_of_true carried (by omega)
  · rw [← GeneralizedTime.hasYear_iff]
    refine ⟨fun carried => ?_, GeneralizedTime.carries_asWritten⟩
    rw [← GeneralizedTime.year_asWritten]
    exact carried.1

/-- A time that is framed is in the years that have a text, and short. -/
theorem framed {t : DateTime} {tlv : Tlv} (h : (ofDateTime t).toElement.toTlv = .ok tlv) :
    (0 ≤ t.year ∧ t.year ≤ 9999) ∧ tlv.encode.length ≤ 27 := by
  unfold ofDateTime at h
  split_ifs at h with window
  · simp only [toElement, Element.toTlv, Element.valueToTlv] at h
    obtain ⟨-, content, written, rfl⟩ := Primitive.encodeAs_eq_ok.mp h
    have length := UtcTime.length_of_encode window (Except.mapError_eq_ok.mp written)
    have range := UtcTime.hasYear_iff.mp window
    refine ⟨by omega, ?_⟩
    rw [Tlv.length_encode_of_short (by decide) (by omega), length]
    decide
  · simp only [toElement, Element.toTlv, Element.valueToTlv] at h
    obtain ⟨-, content, written, rfl⟩ := Primitive.encodeAs_eq_ok.mp h
    have octets := Except.mapError_eq_ok.mp written
    have known := (Except.ite_eq_ok.mp octets).1
    have length := GeneralizedTime.length_of_encode known octets
    refine ⟨GeneralizedTime.hasYear_iff.mp known, ?_⟩
    rw [Tlv.length_encode_of_short (by decide) (by omega)]
    omega

end CertificateTime

namespace Validity

/-- The validity as it is read back from what it is written as. -/
def asRead (validity : Validity) : Validity :=
  ⟨validity.notBefore.asRead, validity.notAfter.asRead⟩

variable {a b : DateTime}

theorem encode_asRead (validity : Validity) :
    validity.asRead.toElement.encode = validity.toElement.encode := by
  simp only [asRead, toElement, Element.encode, Element.toTlv, Element.toTlvs,
    CertificateTime.toTlv_asRead]

theorem wellFormed_asRead_iff : (ofDateTimes a b).asRead.toElement.WellFormed ↔
    (0 ≤ a.year ∧ a.year ≤ 9999) ∧ 0 ≤ b.year ∧ b.year ≤ 9999 := by
  have leaf (time : CertificateTime) :
      time.toElement.WellFormedWithin Element.depthLimit ↔ time.toElement.Sound := by
    cases time <;> exact Element.wellFormedWithin_primitive
  rw [Element.wellFormed_iff, toElement, Element.wellFormedWithin_sequence]
  simp only [asRead, ofDateTimes, List.forall_mem_cons, List.not_mem_nil, false_implies,
    implies_true, and_true, leaf, CertificateTime.sound_asRead_ofDateTime_iff]

/-- A validity that is written has both bounds in the years that have a text, and few octets. -/
theorem years_of_encode {der : Bytes} (h : (ofDateTimes a b).toElement.encode = .ok der) :
    ((0 ≤ a.year ∧ a.year ≤ 9999) ∧ 0 ≤ b.year ∧ b.year ≤ 9999) ∧ der.length < UInt64.size := by
  simp only [toElement, ofDateTimes, Element.encode, Element.toTlv, Element.toTlvs,
    Except.bind_eq_ok, Except.map_eq_ok, Except.pure_def, Except.ok.injEq] at h
  obtain ⟨-, ⟨-, ⟨first, framedFirst, -, ⟨second, framedSecond, -, rfl, rfl⟩, rfl⟩, rfl⟩, rfl⟩ := h
  obtain ⟨yearFirst, shortFirst⟩ := CertificateTime.framed framedFirst
  obtain ⟨yearSecond, shortSecond⟩ := CertificateTime.framed framedSecond
  refine ⟨⟨yearFirst, yearSecond⟩, ?_⟩
  have content : (Tlv.encodeAll [first, second]).length ≤ 54 := by
    simp only [Tlv.encodeAll, List.flatMap_cons, List.flatMap_nil, List.length_append,
      List.length_nil]
    omega
  rw [Tlv.constructed, Tlv.length_encode_of_short (by decide) (by omega)]
  exact Nat.lt_of_le_of_lt (Nat.add_le_add_right content 2) (by decide)

theorem exists_encode_iff : (∃ der, (ofDateTimes a b).toElement.encode = .ok der) ↔
    (0 ≤ a.year ∧ a.year ≤ 9999) ∧ 0 ≤ b.year ∧ b.year ≤ 9999 := by
  constructor
  · rintro ⟨der, written⟩
    exact (years_of_encode written).1
  · intro years
    rw [← encode_asRead]
    exact Element.exists_encode (wellFormed_asRead_iff.mpr years)

/-- What is written can be read, whichever times it was made of. -/
theorem decode_of_encode {der : Bytes} (h : (ofDateTimes a b).toElement.encode = .ok der) :
    (Element.decode der >>= ofElement) = .ok (ofDateTimes a b).asRead := by
  obtain ⟨years, small⟩ := years_of_encode h
  have valid := wellFormed_asRead_iff.mpr years
  rw [Element.decode_of_encode valid ((encode_asRead _).trans h) small]
  exact ofElement_eq_ok.mpr rfl

end Validity

end DerCodec
