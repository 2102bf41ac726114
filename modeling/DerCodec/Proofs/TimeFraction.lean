import DerCodec.Proofs.Growth

/-!
# Fractions of a second in full

A fraction is written with three, six or nine digits, and read with any number of them. When the
last digit that is written is not a zero, every reading of the same time has as many digits or
more. When it is a zero, the time can be read from the same digits without that zero.
-/

namespace DerCodec

open TimeString

namespace TimeOfDay

/-- Nothing, or a point and at least two digits of which the last may be a zero. -/
theorem fractionText_cases {nanosecond : Nat} (h : nanosecond < 1000000000) :
    nanosecond = 0 ∧ fractionText nanosecond = [] ∨
      ∃ width n, width + 2 ≤ 9 ∧ n < 10 ^ (width + 2) ∧ nanosecond = n * 10 ^ (9 - (width + 2)) ∧
        fractionText nanosecond = '.' :: Decimal.padded (width + 2) n := by
  unfold fractionText
  split_ifs with zero milli micro
  · exact .inl ⟨zero, rfl⟩
  · exact .inr ⟨1, nanosecond / 1000000, by omega, by omega, by omega, rfl⟩
  · exact .inr ⟨4, nanosecond / 1000, by omega, by omega, by omega, rfl⟩
  · exact .inr ⟨7, nanosecond, by omega, by omega, by omega, rfl⟩

end TimeOfDay

theorem Decimal.getLast?_padded {width n : Nat} (h : n < 10 ^ (width + 1)) :
    (padded (width + 1) n).getLast? = some (n % 10).digitChar := by
  rw [padded_eq_places h, places, List.map_append]
  exact List.getLast?_concat

theorem Decimal.digitChar_eq_zero_iff {d : Nat} (h : d < 10) : d.digitChar = '0' ↔ d = 0 := by
  interval_cases d <;> decide

namespace GeneralizedTime

/-- The fraction, as it is written, does not end with a zero. -/
def Trimmed (t : DateTime) : Prop :=
  t.time.fraction.getLast? ≠ some '0'

instance (t : DateTime) : Decidable (Trimmed t) :=
  inferInstanceAs (Decidable (_ ≠ _))

/-- How a time is written: without a fraction, or with one whose last digit decides whether it is
trimmed. -/
theorem fraction_cases (t : DateTime) :
    t.time.nanosecond % 1000000000 = 0 ∧ t.time.fraction = [] ∧ Trimmed t ∨
      ∃ width n, width + 2 ≤ 9 ∧ n < 10 ^ (width + 2) ∧
        t.time.nanosecond % 1000000000 = n * 10 ^ (9 - (width + 2)) ∧
        t.time.fraction = '.' :: Decimal.padded (width + 2) n ∧ (Trimmed t ↔ n % 10 ≠ 0) := by
  have below : t.time.nanosecond % 1000000000 < 1000000000 := Nat.mod_lt _ (by decide)
  rcases TimeOfDay.fractionText_cases below with ⟨zero, none⟩ | ⟨width, n, wide, small, value, text⟩
  · refine .inl ⟨zero, none, ?_⟩
    rw [Trimmed, TimeOfDay.fraction, none]
    simp
  · refine .inr ⟨width, n, wide, small, value, text, ?_⟩
    have last : (Decimal.padded (width + 2) n).getLast? = some (n % 10).digitChar :=
      Decimal.getLast?_padded small
    rw [Trimmed, TimeOfDay.fraction, text, List.getLast?_cons, last]
    simp only [Option.getD_some, ne_eq, Option.some.injEq,
      Decimal.digitChar_eq_zero_iff (Nat.mod_lt n (by decide))]

/-! ## What a fraction is read from -/

/-- Digits after the point that are not there count as zeros. -/
theorem dvd_nanoseconds (digits : List Nat) : 10 ^ (9 - digits.length) ∣ nanoseconds digits := by
  rw [nanoseconds, List.foldl_append, foldl_zeros]
  exact Nat.dvd_mul_left _ _

theorem dvd_cut {fraction : Bytes} (h : AllDigits fraction) :
    10 ^ (9 - fraction.length) ∣ cut fraction := by
  rw [← nanoseconds_digits h, ← List.length_map digitValue]
  exact dvd_nanoseconds _

/-- A leap second counts a whole second more, and the fraction is the same. -/
theorem Names.nanosecond_mod {digits fraction : Bytes} {date : Date} {time : TimeOfDay}
    (h : Names digits fraction date time) : time.nanosecond % 1000000000 = cut fraction := by
  have below : cut fraction < 1000000000 := cut_lt h.fractional
  by_cases sixty : numberAt digits 12 2 = 60
  · have nanosecond := (h.leap sixty).2
    omega
  · have nanosecond := (h.second sixty).2
    omega

/-! ## The two directions -/

/-- A number that ends with a digit other than zero, followed by zeros, needs all digits up to that
one. -/
theorem width_le_of_dvd {n width digits : Nat} (last : n % 10 ≠ 0) (wide : width ≤ 9)
    (h : 10 ^ (9 - digits) ∣ n * 10 ^ (9 - width)) : width ≤ digits := by
  by_contra fewer
  have coarser : 10 ^ (9 - width + 1) ∣ n * 10 ^ (9 - width) :=
    (Nat.pow_dvd_pow 10 (by omega)).trans h
  rw [Nat.pow_succ, Nat.mul_comm n] at coarser
  exact last (Nat.mod_eq_zero_of_dvd (Nat.dvd_of_mul_dvd_mul_left (by positivity) coarser))

/-- A trimmed time is written in no more octets than it can be read from. -/
theorem length_encode_le_of_trimmed {content written : Bytes} {t : DateTime} (trimmed : Trimmed t)
    (read : parse? content = some t) (h : encode t = .ok written) :
    written.length ≤ content.length := by
  rw [encode_eq (carries_of_parse? read).1] at h
  obtain rfl := Except.ok.inj h
  obtain ⟨digits, fraction, rfl, names⟩ := parse?_eq_some_iff.mp read
  have ends := length_ending fraction
  have enough : t.time.fraction.length + 1 ≤ (ending fraction).length := by
    rcases fraction_cases t with ⟨-, none, -⟩ | ⟨width, n, wide, small, shown, text, decides⟩
    · rw [none, List.length_nil]
      omega
    · have length : t.time.fraction.length = width + 3 := by
        rw [text, List.length_cons, Decimal.padded_eq_places small, List.length_map,
          Decimal.length_places]
      have divides := dvd_cut names.fractional
      rw [← names.nanosecond_mod, shown] at divides
      have digitsNeeded := width_le_of_dvd (decides.mp trimmed) wide divides
      -- A trimmed fraction has a digit other than zero, so it is not read from none.
      rcases ends with ⟨-, rfl⟩ | some
      · exact absurd digitsNeeded (by simp)
      · omega
  simp only [List.length_append, names.length, length_shownSeconds, length_octets,
    List.length_singleton]
  omega

/-- A time that is not trimmed can be read from fewer octets than it is written in. -/
theorem exists_shorter_of_not_trimmed {written : Bytes} {t : DateTime} (carried : Carries t)
    (loose : ¬Trimmed t) (h : encode t = .ok written) :
    ∃ content, parse? content = some t ∧ content.length < written.length := by
  rw [encode_eq carried.1] at h
  obtain rfl := Except.ok.inj h
  rcases fraction_cases t with ⟨-, -, trimmed⟩ | ⟨width, n, wide, small, value, text, trimmed⟩
  · exact absurd trimmed loose
  · have last : n % 10 = 0 := by simpa [trimmed] using loose
    have shorter : n / 10 < 10 ^ (width + 1) := by
      rw [Nat.pow_succ] at small
      exact Nat.div_lt_of_lt_mul (by omega)
    have same : n / 10 * 10 ^ (9 - (width + 1)) = n * 10 ^ (9 - (width + 2)) := by
      have step : 9 - (width + 1) = 9 - (width + 2) + 1 := by omega
      rw [step, Nat.pow_succ, Nat.mul_comm _ 10, ← Nat.mul_assoc,
        Nat.div_mul_cancel (Nat.dvd_of_mod_eq_zero last)]
    have ending := parseFraction?_places (show width + 1 ≤ 9 by omega) shorter
    rw [same, ← value] at ending
    refine ⟨_, parse?_shownSeconds carried ending, ?_⟩
    rw [text]
    simp only [List.length_append, length_shownSeconds, length_octets, List.length_cons,
      List.length_nil, Decimal.padded_eq_places shorter, Decimal.padded_eq_places small,
      List.length_map, Decimal.length_places]
    omega

end GeneralizedTime

end DerCodec
