import DerCodec.Proofs.Numerals
import DerCodec.TimeString
import Mathlib.Tactic.IntervalCases

/-!
# Time strings round trip

A time is written as decimal digits of fixed width. `Decimal.places` lists those digits as numbers,
which is what both readers see. A UTCTime is read back when it has no fraction. A GeneralizedTime is
read back with its fraction, and as a leap second if it was one at the end of a minute; any other
leap second has the text of the second after it, and is read back as that.
-/

namespace DerCodec

/-! ## Digits of fixed width -/

namespace Decimal

/-- The last `width` decimal digits of a number, zeros in front included. -/
def places : Nat → Nat → List Nat
  | 0, _ => []
  | width + 1, n => places width (n / 10) ++ [n % 10]

@[simp] theorem length_places (width n : Nat) : (places width n).length = width := by
  induction width generalizing n with
  | zero => rfl
  | succ width ih => simp [places, ih]

theorem lt_of_mem_places {width n digit : Nat} (h : digit ∈ places width n) : digit < 10 := by
  induction width generalizing n with
  | zero => simp [places] at h
  | succ width ih =>
    rcases List.mem_append.mp h with front | last
    · exact ih front
    · rw [List.mem_singleton.mp last]
      exact Nat.mod_lt _ (by decide)

theorem foldl_places {width n : Nat} (h : n < 10 ^ width) :
    (places width n).foldl (fun m d => m * 10 + d) 0 = n := by
  induction width generalizing n with
  | zero =>
    have zero : n = 0 := by simpa using h
    simp [places, zero]
  | succ width ih =>
    have shorter : n / 10 < 10 ^ width := by
      rw [Nat.pow_succ] at h
      exact Nat.div_lt_of_lt_mul (by omega)
    rw [places, List.foldl_append, ih shorter]
    simp only [List.foldl_cons, List.foldl_nil]
    omega

/-- A number is put together again from its two digits. -/
theorem value_twoDigits {n : Nat} (h : n < 10 ^ 2) : n / 10 % 10 * 10 + n % 10 = n := by
  omega

theorem padded_small {width n : Nat} (h : n < 10) :
    padded (width + 1) n = List.replicate width '0' ++ [n.digitChar] := by
  simp [padded, ofNat, Nat.toDigits_of_lt_base h]

theorem padded_succ {width n : Nat} (h : 10 ≤ n) :
    padded (width + 1) n = padded width (n / 10) ++ [(n % 10).digitChar] := by
  have last : ofNat n = ofNat (n / 10) ++ [(n % 10).digitChar] :=
    Nat.toDigits_of_base_le (by decide) h
  simp [padded, last]

/-- Padding fills up to the width and never beyond, for a number that fits. -/
theorem padded_eq_places {width n : Nat} (h : n < 10 ^ (width + 1)) :
    padded (width + 1) n = (places (width + 1) n).map Nat.digitChar := by
  induction width generalizing n with
  | zero =>
    have small : n < 10 := by simpa using h
    simp [padded_small small, places, Nat.mod_eq_of_lt small]
  | succ width ih =>
    have shorter : n / 10 < 10 ^ (width + 1) := by
      rw [Nat.pow_succ] at h
      exact Nat.div_lt_of_lt_mul (by omega)
    rw [places, List.map_append, ← ih shorter]
    by_cases small : n < 10
    · rw [padded_small small, Nat.div_eq_of_lt small, padded_small (by decide),
        Nat.mod_eq_of_lt small, List.replicate_succ']
      rfl
    · rw [padded_succ (by omega)]
      rfl

end Decimal

/-! ## Octets of digits -/

namespace TimeString

theorem digit?_digitChar {d : Nat} (h : d < 10) :
    digit? (UInt8.ofNat d.digitChar.toNat) = some d := by
  interval_cases d <;> rfl

/-- The octets that show the digits are read as those digits. -/
theorem digits?_digitChars {digits : List Nat} (h : ∀ d ∈ digits, d < 10) :
    digits? (octets (digits.map Nat.digitChar)) = some digits := by
  induction digits with
  | nil => rfl
  | cons d digits ih =>
    have rest := ih fun e member => h e (by simp [member])
    simp only [digits?, octets, List.map_cons, List.mapM_cons,
      digit?_digitChar (h d (by simp))] at rest ⊢
    rw [rest]
    rfl

@[simp] theorem octets_append (a b : List Char) : octets (a ++ b) = octets a ++ octets b :=
  List.map_append

@[simp] theorem length_octets (chars : List Char) : (octets chars).length = chars.length :=
  List.length_map _

end TimeString

/-! ## Dates and times that exist -/

namespace Date

theorem IsCivil.day_le {date : Date} (h : date.IsCivil) : date.day ≤ 31 := by
  have bound : daysInMonth date.year date.month ≤ 31 := by
    unfold daysInMonth
    split_ifs <;> decide
  exact h.2.2.2.trans bound

end Date

namespace TimeOfDay

variable {time : TimeOfDay}

theorem leapEndsMinute_of_lt (h : time.nanosecond < 1000000000) : time.LeapEndsMinute :=
  fun leap => absurd h (Nat.not_lt.mpr leap)

theorem leapEndsMinute_of_whole (h : time.nanosecond = 0) : time.LeapEndsMinute :=
  leapEndsMinute_of_lt (by omega)

theorem not_leapEndsMinute_iff :
    ¬time.LeapEndsMinute ↔ 1000000000 ≤ time.nanosecond ∧ time.second ≠ 59 :=
  Classical.not_imp

/-- What is left of a leap second when it is counted as the second after the one that it follows. -/
def nextSecond (time : TimeOfDay) : TimeOfDay :=
  { time with second := time.second + 1, nanosecond := time.nanosecond - 1000000000 }

theorem nanosecond_nextSecond_lt (clock : time.IsClock) :
    time.nextSecond.nanosecond < 1000000000 := by
  have bound := clock.2.2.2
  simp only [nextSecond]
  omega

theorem isClock_nextSecond (clock : time.IsClock) (within : ¬time.LeapEndsMinute) :
    time.nextSecond.IsClock := by
  obtain ⟨hour, minute, second, nanosecond⟩ := clock
  have leap := not_leapEndsMinute_iff.mp within
  simp only [IsClock, nextSecond]
  omega

/-- A leap second within a minute has the text of the second after it. -/
theorem shown_nextSecond (within : ¬time.LeapEndsMinute) :
    time.nextSecond.shownSecond = time.shownSecond ∧ time.nextSecond.fraction = time.fraction := by
  have leap := not_leapEndsMinute_iff.mp within
  simp only [shownSecond, fraction, nextSecond]
  have second : time.second + 1 + (time.nanosecond - 1000000000) / 1000000000 =
      time.second + time.nanosecond / 1000000000 := by omega
  have rest : (time.nanosecond - 1000000000) % 1000000000 = time.nanosecond % 1000000000 := by omega
  exact ⟨second, congrArg fractionText rest⟩

end TimeOfDay

namespace DateTime

/-- Every part but the year is shown in two digits. -/
theorem parts_lt (t : DateTime) :
    t.date.month < 10 ^ 2 ∧ t.date.day < 10 ^ 2 ∧ t.time.hour < 10 ^ 2 ∧ t.time.minute < 10 ^ 2 ∧
      t.time.second < 10 ^ 2 ∧ t.time.shownSecond < 10 ^ 2 := by
  have month := t.civil.2.1
  have day := t.civil.day_le
  obtain ⟨hour, minute, second, nanosecond⟩ := t.clock
  unfold TimeOfDay.shownSecond
  omega

theorem of?_self {t : DateTime} (h : t.time.LeapEndsMinute) : of? t.date t.time = some t := by
  simp [of?, t.civil, t.clock, h]

theorem of?_eq_some_iff {date : Date} {time : TimeOfDay} {t : DateTime} :
    of? date time = some t ↔ t.date = date ∧ t.time = time ∧ t.time.LeapEndsMinute := by
  constructor
  · intro h
    simp only [of?] at h
    split at h
    · split at h
      · rename_i clock
        cases h
        exact ⟨rfl, rfl, clock.2⟩
      · simp at h
    · simp at h
  · rintro ⟨rfl, rfl, leap⟩
    exact of?_self leap

/-- Every date and time can be made: the whole second first, and then its nanoseconds. -/
theorem exists_withNanosecond?_eq (t : DateTime) :
    ∃ whole, of? t.date { t.time with nanosecond := 0 } = some whole ∧
      whole.withNanosecond? t.time.nanosecond = some t :=
  ⟨t.wholeSecond, of?_eq_some_iff.mpr ⟨rfl, rfl, TimeOfDay.leapEndsMinute_of_whole rfl⟩,
    dif_pos t.clock.2.2.2⟩


end DateTime

open TimeString

/-! ## UTCTime -/

namespace UtcTime

theorem hasYear_iff {year : Int} : hasYear year = true ↔ 1950 ≤ year ∧ year ≤ 2049 := by
  simp [hasYear]

/-- A UTCTime carries the years 1950 to 2049 and whole seconds. -/
def Carries (t : DateTime) : Prop :=
  hasYear t.year = true ∧ t.time.nanosecond = 0

instance (t : DateTime) : Decidable (Carries t) :=
  inferInstanceAs (Decidable (_ ∧ _))

theorem century_mod {year : Int} (h : hasYear year = true) :
    century (year.natAbs % 100) = year := by
  have range := hasYear_iff.mp h
  simp only [century]
  split <;> omega

theorem encode_eq {t : DateTime} (h : hasYear t.year = true) :
    encode t = .ok (octets ((Decimal.places 2 (t.year.natAbs % 100) ++ Decimal.places 2 t.date.month
      ++ Decimal.places 2 t.date.day ++ Decimal.places 2 t.time.hour
      ++ Decimal.places 2 t.time.minute ++ Decimal.places 2 t.time.second).map Nat.digitChar)
      ++ [zone]) := by
  obtain ⟨month, day, hour, minute, second, -⟩ := t.parts_lt
  have year : t.year.natAbs % 100 < 10 ^ 2 := Nat.mod_lt _ (by decide)
  simp only [encode, if_pos h, List.map_append]
  rw [Decimal.padded_eq_places year, Decimal.padded_eq_places month, Decimal.padded_eq_places day,
    Decimal.padded_eq_places hour, Decimal.padded_eq_places minute,
    Decimal.padded_eq_places second, octets_append]
  rfl

theorem parse?_of_encode {t : DateTime} {content : Bytes} (h : Carries t)
    (written : encode t = .ok content) : parse? content = some t := by
  obtain ⟨month, day, hour, minute, second, -⟩ := t.parts_lt
  have year : t.year.natAbs % 100 < 10 ^ 2 := Nat.mod_lt _ (by decide)
  rw [encode_eq h.1] at written
  obtain rfl := Except.ok.inj written
  rw [parse?, if_pos List.getLast?_concat, List.dropLast_concat, digits?_digitChars]
  · simp only [Decimal.places, List.nil_append, List.cons_append]
    rw [Decimal.value_twoDigits year, Decimal.value_twoDigits month, Decimal.value_twoDigits day,
      Decimal.value_twoDigits hour, Decimal.value_twoDigits minute, Decimal.value_twoDigits second,
      century_mod h.1, ← h.2]
    exact DateTime.of?_self (TimeOfDay.leapEndsMinute_of_whole h.2)
  · intro d member
    simp only [List.mem_append] at member
    obtain ((((d | d) | d) | d) | d) | d := member <;> exact Decimal.lt_of_mem_places d

theorem decode_eq_ok {content : Bytes} {t : DateTime} :
    decode content = .ok t ↔ parse? content = some t := by
  rw [decode]
  split <;> simp_all

end UtcTime

/-! ## GeneralizedTime -/

namespace GeneralizedTime

theorem hasYear_iff {year : Int} : hasYear year = true ↔ 0 ≤ year ∧ year ≤ 9999 := by
  simp [hasYear]

/-- A GeneralizedTime carries the years 0 to 9999, and of leap seconds those that end a minute. -/
def Carries (t : DateTime) : Prop :=
  hasYear t.year = true ∧ t.time.LeapEndsMinute

instance (t : DateTime) : Decidable (Carries t) :=
  inferInstanceAs (Decidable (_ ∧ _))

theorem foldl_zeros (width n : Nat) :
    (List.replicate width 0).foldl (fun m d => m * 10 + d) n = n * 10 ^ width := by
  induction width generalizing n with
  | zero => simp
  | succ width ih =>
    rw [List.replicate_succ, List.foldl_cons, ih, Nat.pow_succ]
    ring

theorem nanoseconds_places {width n : Nat} (narrow : width ≤ 9) (h : n < 10 ^ width) :
    nanoseconds (Decimal.places width n) = n * 10 ^ (9 - width) := by
  rw [nanoseconds, Decimal.length_places, List.take_of_length_le (by simpa using narrow),
    List.foldl_append, Decimal.foldl_places h, foldl_zeros]

/-- A point, digits that fit nine places, and the letter Z. -/
theorem parseFraction?_places {width n : Nat} (narrow : width + 1 ≤ 9)
    (h : n < 10 ^ (width + 1)) :
    parseFraction? (octets ('.' :: Decimal.padded (width + 1) n) ++ [zone]) =
      some (n * 10 ^ (9 - (width + 1))) := by
  have digits : digits? (octets (Decimal.padded (width + 1) n)) =
      some (Decimal.places (width + 1) n) := by
    rw [Decimal.padded_eq_places h]
    exact digits?_digitChars fun d member => Decimal.lt_of_mem_places member
  have some : octets (Decimal.padded (width + 1) n) ≠ [] := by
    rw [Decimal.padded_eq_places h, ← List.length_pos_iff]
    simp
  have shape : octets ('.' :: Decimal.padded (width + 1) n) ++ [zone] =
      point :: (octets (Decimal.padded (width + 1) n) ++ [zone]) := rfl
  rw [shape, parseFraction?.eq_2 _ _ (by simp [List.append_eq_nil_iff])]
  rw [if_pos ⟨rfl, List.getLast?_concat, by simpa using some⟩, List.dropLast_concat, digits,
    Option.map_some, nanoseconds_places narrow h]

theorem parseFraction?_fractionText {nanosecond : Nat} (h : nanosecond < 1000000000) :
    parseFraction? (octets (TimeOfDay.fractionText nanosecond) ++ [zone]) = some nanosecond := by
  unfold TimeOfDay.fractionText
  split_ifs with none milli micro
  · rw [none]
    rfl
  · rw [parseFraction?_places (by decide) (by omega)]
    congr 1
    omega
  · rw [parseFraction?_places (by decide) (by omega)]
    congr 1
    omega
  · rw [parseFraction?_places (by decide) (by omega)]
    congr 1
    omega

/-- The second that is shown and the fraction give the time of day back, also when it is the leap
second of a minute. -/
theorem timeOfDay_shown {time : TimeOfDay} (clock : time.IsClock) (leap : time.LeapEndsMinute) :
    timeOfDay time.hour time.minute time.shownSecond (time.nanosecond % 1000000000) = time := by
  obtain ⟨-, -, seconds, nanoseconds⟩ := clock
  unfold TimeOfDay.LeapEndsMinute at leap
  have shown : time.shownSecond = time.second + time.nanosecond / 1000000000 := rfl
  by_cases sixty : time.shownSecond = 60
  · have last : time.second = 59 := leap (by omega)
    have fraction : 1000000000 + time.nanosecond % 1000000000 = time.nanosecond := by omega
    rw [timeOfDay, if_pos sixty, fraction, ← last]
  · have whole : time.shownSecond = time.second := by omega
    have fraction : time.nanosecond % 1000000000 = time.nanosecond := by omega
    rw [timeOfDay, if_neg sixty, fraction, whole]

/-- The digits up to the second. -/
def shownSeconds (t : DateTime) : Bytes :=
  octets ((Decimal.places 4 t.year.natAbs ++ Decimal.places 2 t.date.month
    ++ Decimal.places 2 t.date.day ++ Decimal.places 2 t.time.hour
    ++ Decimal.places 2 t.time.minute ++ Decimal.places 2 t.time.shownSecond).map Nat.digitChar)

@[simp] theorem length_shownSeconds (t : DateTime) : (shownSeconds t).length = 14 := by
  simp [shownSeconds]

theorem encode_eq {t : DateTime} (h : hasYear t.year = true) :
    encode t = .ok (shownSeconds t ++ (octets t.time.fraction ++ [zone])) := by
  obtain ⟨month, day, hour, minute, -, second⟩ := t.parts_lt
  have range := hasYear_iff.mp h
  have year : t.year.natAbs < 10 ^ 4 := by omega
  simp only [encode, if_pos h, shownSeconds, List.map_append]
  rw [Decimal.padded_eq_places year, Decimal.padded_eq_places month, Decimal.padded_eq_places day,
    Decimal.padded_eq_places hour, Decimal.padded_eq_places minute,
    Decimal.padded_eq_places second, List.append_assoc _ _ ['Z'], octets_append,
    octets_append _ ['Z']]
  rfl

/-- The time is read from its digits up to the second and whatever ending has its fraction. -/
theorem parse?_shownSeconds {t : DateTime} {ending : Bytes} (h : Carries t)
    (fraction : parseFraction? ending = some (t.time.nanosecond % 1000000000)) :
    parse? (shownSeconds t ++ ending) = some t := by
  obtain ⟨month, day, hour, minute, -, second⟩ := t.parts_lt
  have range := hasYear_iff.mp h.1
  have year : t.year.natAbs < 10000 ∧ (t.year.natAbs : Int) = t.year := by omega
  rw [parse?, List.take_left' (by simp), List.drop_left' (by simp), shownSeconds,
    digits?_digitChars, fraction]
  · simp only [Decimal.places, List.nil_append, List.cons_append]
    have fourDigits : ((t.year.natAbs / 10 / 10 / 10 % 10 * 10 + t.year.natAbs / 10 / 10 % 10) * 10
        + t.year.natAbs / 10 % 10) * 10 + t.year.natAbs % 10 = t.year.natAbs := by omega
    rw [fourDigits, Decimal.value_twoDigits month, Decimal.value_twoDigits day,
      Decimal.value_twoDigits hour, Decimal.value_twoDigits minute, Decimal.value_twoDigits second,
      year.2, timeOfDay_shown t.clock h.2]
    exact DateTime.of?_self h.2
  · intro d member
    simp only [List.mem_append] at member
    obtain ((((d | d) | d) | d) | d) | d := member <;> exact Decimal.lt_of_mem_places d

theorem parse?_of_encode {t : DateTime} {content : Bytes} (h : Carries t)
    (written : encode t = .ok content) : parse? content = some t := by
  rw [encode_eq h.1] at written
  obtain rfl := Except.ok.inj written
  exact parse?_shownSeconds h (parseFraction?_fractionText (Nat.mod_lt _ (by decide)))

/-- The time that the text of `t` names: for a leap second within a minute that is the second after
it, with the same fraction, and for every other time `t` itself. -/
def asWritten (t : DateTime) : DateTime :=
  if within : ¬t.time.LeapEndsMinute then
    { t with
      time := t.time.nextSecond
      clock := TimeOfDay.isClock_nextSecond t.clock within }
  else t

section asWritten

variable {t : DateTime}

theorem asWritten_of_leapEndsMinute (h : t.time.LeapEndsMinute) : asWritten t = t :=
  dif_neg (not_not_intro h)

theorem time_asWritten_of_not (within : ¬t.time.LeapEndsMinute) :
    (asWritten t).time = t.time.nextSecond := by
  rw [asWritten, dif_pos within]

@[simp] theorem date_asWritten (t : DateTime) : (asWritten t).date = t.date := by
  unfold asWritten
  split <;> rfl

@[simp] theorem year_asWritten (t : DateTime) : (asWritten t).year = t.year :=
  congrArg Date.year (date_asWritten t)

theorem leapEndsMinute_asWritten (t : DateTime) : (asWritten t).time.LeapEndsMinute := by
  by_cases h : t.time.LeapEndsMinute
  · rwa [asWritten_of_leapEndsMinute h]
  · rw [time_asWritten_of_not h]
    exact TimeOfDay.leapEndsMinute_of_lt (TimeOfDay.nanosecond_nextSecond_lt t.clock)

theorem asWritten_eq_self_iff : asWritten t = t ↔ t.time.LeapEndsMinute := by
  constructor
  · intro same
    rw [← same]
    exact leapEndsMinute_asWritten t
  · exact asWritten_of_leapEndsMinute

theorem carries_asWritten (h : hasYear t.year = true) : Carries (asWritten t) :=
  ⟨by rwa [year_asWritten], leapEndsMinute_asWritten t⟩

theorem encode_asWritten (t : DateTime) : encode (asWritten t) = encode t := by
  by_cases h : t.time.LeapEndsMinute
  · rw [asWritten_of_leapEndsMinute h]
  · obtain ⟨second, fraction⟩ := TimeOfDay.shown_nextSecond h
    simp only [encode, year_asWritten, date_asWritten, time_asWritten_of_not h, second, fraction]
    rfl

end asWritten

theorem decode_eq_ok {content : Bytes} {t : DateTime} :
    decode content = .ok t ↔ parse? content = some t := by
  rw [decode]
  split <;> simp_all

end GeneralizedTime

end DerCodec
