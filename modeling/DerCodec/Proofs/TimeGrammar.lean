import DerCodec.Proofs.Result
import DerCodec.Proofs.TimeString

/-!
# The grammar of time strings

`AllDigits` and `number` say what ASCII digits stand for, without regard to how they are read. A
UTCTime is twelve digits and the letter Z, and a GeneralizedTime fourteen digits, a fraction of any
length or none, and the letter Z; what the digits name must be a date and a time of day that exist.
Nothing else is read. A UTCTime is written as the content that it was read from.
-/

namespace DerCodec

namespace TimeString

/-- ASCII digits and nothing else. -/
def AllDigits (octets : Bytes) : Prop :=
  ∀ octet ∈ octets, 0x30 ≤ octet ∧ octet ≤ 0x39

instance (octets : Bytes) : Decidable (AllDigits octets) :=
  inferInstanceAs (Decidable (∀ octet ∈ octets, _))

def digitValue (octet : UInt8) : Nat :=
  octet.toNat - 0x30

/-- The number that ASCII digits stand for. -/
def number (digits : Bytes) : Nat :=
  digits.foldl (fun n octet => n * 10 + digitValue octet) 0

/-- The number in the digits from a place on. -/
def numberAt (digits : Bytes) (start width : Nat) : Nat :=
  number ((digits.drop start).take width)

theorem digitValue_lt {octet : UInt8} (h : octet ≤ 0x39) : digitValue octet < 10 := by
  have high : octet.toNat ≤ 57 := h
  unfold digitValue
  omega

theorem digits?_eq_some {content : Bytes} {digits : List Nat} :
    digits? content = some digits ↔ AllDigits content ∧ content.map digitValue = digits := by
  induction content generalizing digits with
  | nil => simp [digits?, AllDigits, eq_comm]
  | cons octet content ih =>
    rw [digits?] at ih
    simp only [digits?, List.mapM_cons, Option.bind_eq_bind, Option.bind_eq_some_iff, ih,
      Option.pure_def, Option.some.injEq, digit?, AllDigits, List.forall_mem_cons]
    grind [digitValue]

theorem number_concat (digits : Bytes) (octet : UInt8) :
    number (digits ++ [octet]) = number digits * 10 + digitValue octet := by
  simp [number]

theorem number_append (a b : Bytes) :
    number (a ++ b) = number a * 10 ^ b.length + number b := by
  induction b using List.reverseRecOn with
  | nil => simp [number]
  | append_singleton b last ih =>
    rw [← List.append_assoc, number_concat, number_concat, ih, List.length_append,
      List.length_singleton, Nat.pow_succ]
    ring

theorem number_lt {digits : Bytes} (h : AllDigits digits) :
    number digits < 10 ^ digits.length := by
  induction digits using List.reverseRecOn with
  | nil => simp [number]
  | append_singleton digits last ih =>
    obtain ⟨front, small⟩ := List.forall_mem_append.mp h
    have bound := ih front
    have digit := digitValue_lt (small last (by simp)).2
    rw [number_concat, List.length_append, List.length_singleton, Nat.pow_succ]
    omega

/-- Leaving out the last digits is a division. -/
theorem number_take {digits : Bytes} (h : AllDigits digits) (width : Nat) :
    number (digits.take width) = number digits / 10 ^ (digits.length - width) := by
  have below : number (digits.drop width) < 10 ^ (digits.length - width) := by
    rw [← List.length_drop]
    exact number_lt fun octet member => h octet (List.mem_of_mem_drop member)
  have whole : number digits =
      10 ^ (digits.length - width) * number (digits.take width) + number (digits.drop width) := by
    rw [Nat.mul_comm, ← List.length_drop, ← number_append, List.take_append_drop]
  rw [whole, Nat.mul_add_div (by positivity), Nat.div_eq_of_lt below, Nat.add_zero]

theorem places_number {digits : Bytes} (h : AllDigits digits) :
    Decimal.places digits.length (number digits) = digits.map digitValue := by
  -- The places of a number end with its last digit, so digits are taken away at that end.
  induction digits using List.reverseRecOn with
  | nil => rfl
  | append_singleton digits last ih =>
    obtain ⟨front, small⟩ := List.forall_mem_append.mp h
    have digit : digitValue last < 10 := digitValue_lt (small last (by simp)).2
    rw [number_concat, List.length_append, List.length_singleton, Decimal.places,
      List.map_append, ← ih front]
    congr 2
    · omega
    · simp; omega

theorem AllDigits.part {digits : Bytes} (h : AllDigits digits) (start width : Nat) :
    AllDigits ((digits.drop start).take width) :=
  fun octet member => h octet (List.mem_of_mem_drop (List.mem_of_mem_take member))

theorem numberAt_lt {digits : Bytes} (h : AllDigits digits) (start width : Nat) :
    numberAt digits start width < 10 ^ width :=
  (number_lt (h.part start width)).trans_le
    (Nat.pow_le_pow_right (by decide) (List.length_take_le _ _))

/-- The digits at a place are the decimal places of the number there. -/
theorem places_numberAt {digits : Bytes} (h : AllDigits digits) {start width : Nat}
    (fits : start + width ≤ digits.length) : Decimal.places width (numberAt digits start width) =
      ((digits.drop start).take width).map digitValue := by
  have length : ((digits.drop start).take width).length = width := by
    rw [List.length_take, List.length_drop]
    omega
  rw [← places_number (h.part start width), length, numberAt]

/-- Digits that stand in their places are written as they are. -/
theorem octets_digitChars {digits : Bytes} (h : AllDigits digits) :
    octets ((digits.map digitValue).map Nat.digitChar) = digits := by
  rw [octets, List.map_map, List.map_map]
  refine (List.map_congr_left fun octet member => ?_).trans (List.map_id digits)
  obtain ⟨low, high⟩ := h octet member
  have lower : 48 ≤ octet.toNat := low
  have digit := digitValue_lt high
  simp only [Function.comp_apply, Nat.toNat_digitChar_of_lt_ten digit, id_eq]
  rw [digitValue, Nat.add_sub_cancel' lower, UInt8.ofNat_toNat]

end TimeString

open TimeString

namespace UtcTime

/-- Twelve digits, two for each part of a date and time. The year is the one from 1950 to 2049 with
these last two digits. -/
structure Names (digits : Bytes) (date : Date) (time : TimeOfDay) : Prop where
  length : digits.length = 12
  ascii : AllDigits digits
  window : 1950 ≤ date.year ∧ date.year ≤ 2049
  year : date.year % 100 = numberAt digits 0 2
  month : date.month = numberAt digits 2 2
  day : date.day = numberAt digits 4 2
  hour : time.hour = numberAt digits 6 2
  minute : time.minute = numberAt digits 8 2
  second : time.second = numberAt digits 10 2
  whole : time.nanosecond = 0

theorem exists_of_length_twelve : ∀ {digits : Bytes}, digits.length = 12 →
    ∃ y₁ y₂ m₁ m₂ d₁ d₂ h₁ h₂ n₁ n₂ s₁ s₂, digits = [y₁, y₂, m₁, m₂, d₁, d₂, h₁, h₂, n₁, n₂, s₁, s₂]
  | [_, _, _, _, _, _, _, _, _, _, _, _], _ => ⟨_, _, _, _, _, _, _, _, _, _, _, _, rfl⟩

theorem parse?_concat {digits : Bytes} (length : digits.length = 12) (h : AllDigits digits) :
    parse? (digits ++ [zone]) = DateTime.of?
      ⟨century (numberAt digits 0 2), numberAt digits 2 2, numberAt digits 4 2⟩
      ⟨numberAt digits 6 2, numberAt digits 8 2, numberAt digits 10 2, 0⟩ := by
  rw [parse?, if_pos List.getLast?_concat, List.dropLast_concat, digits?_eq_some.mpr ⟨h, rfl⟩]
  obtain ⟨y₁, y₂, m₁, m₂, d₁, d₂, h₁, h₂, n₁, n₂, s₁, s₂, rfl⟩ := exists_of_length_twelve length
  simp [numberAt, number]

/-- The window has one year for each pair of last digits. -/
theorem eq_century_iff {year : Int} {yy : Nat} (h : yy < 100) :
    year = century yy ↔ (1950 ≤ year ∧ year ≤ 2049) ∧ year % 100 = yy := by
  unfold century
  split <;> omega

theorem names_iff {digits : Bytes} {date : Date} {time : TimeOfDay} :
    Names digits date time ↔ digits.length = 12 ∧ AllDigits digits ∧
      date = ⟨century (numberAt digits 0 2), numberAt digits 2 2, numberAt digits 4 2⟩ ∧
      time = ⟨numberAt digits 6 2, numberAt digits 8 2, numberAt digits 10 2, 0⟩ := by
  obtain ⟨year, month, day⟩ := date
  obtain ⟨hour, minute, second, nanosecond⟩ := time
  simp only [Date.mk.injEq, TimeOfDay.mk.injEq]
  constructor
  · rintro ⟨length, ascii, window, last, rfl, rfl, rfl, rfl, rfl, rfl⟩
    have year := (eq_century_iff (numberAt_lt ascii 0 2)).mpr ⟨window, last⟩
    exact ⟨length, ascii, ⟨year, rfl, rfl⟩, rfl, rfl, rfl, rfl⟩
  · rintro ⟨length, ascii, ⟨year, rfl, rfl⟩, rfl, rfl, rfl, rfl⟩
    obtain ⟨window, last⟩ := (eq_century_iff (numberAt_lt ascii 0 2)).mp year
    exact ⟨length, ascii, window, last, rfl, rfl, rfl, rfl, rfl, rfl⟩

instance (digits : Bytes) (date : Date) (time : TimeOfDay) : Decidable (Names digits date time) :=
  decidable_of_iff _ names_iff.symm

/-- The digits 500101000000 are of the year 1950, not of 2050. -/
example :
    Names [0x35, 0x30, 0x30, 0x31, 0x30, 0x31, 0x30, 0x30, 0x30, 0x30, 0x30, 0x30] ⟨1950, 1, 1⟩
      ⟨0, 0, 0, 0⟩ := by
  decide +kernel

theorem exists_digits_of_parse? {content : Bytes} {t : DateTime} (h : parse? content = some t) :
    ∃ digits, content = digits ++ [zone] ∧ digits.length = 12 ∧ AllDigits digits := by
  unfold parse? at h
  split at h
  · rename_i last
    obtain ⟨digits, rfl⟩ := List.getLast?_eq_some_iff.mp last
    rw [List.dropLast_concat] at h
    split at h
    · rename_i read
      obtain ⟨ascii, values⟩ := digits?_eq_some.mp read
      have length := congrArg List.length values
      rw [List.length_map] at length
      exact ⟨digits, rfl, length, ascii⟩
    · simp at h
  · simp at h

theorem parse?_eq_some_iff {content : Bytes} {t : DateTime} :
    parse? content = some t ↔
      ∃ digits, content = digits ++ [zone] ∧ Names digits t.date t.time := by
  simp only [names_iff]
  constructor
  · intro h
    obtain ⟨digits, rfl, length, ascii⟩ := exists_digits_of_parse? h
    rw [parse?_concat length ascii, DateTime.of?_eq_some_iff] at h
    exact ⟨digits, rfl, length, ascii, h.1, h.2.1⟩
  · rintro ⟨digits, rfl, length, ascii, date, time⟩
    rw [parse?_concat length ascii, DateTime.of?_eq_some_iff]
    exact ⟨date, time, TimeOfDay.leapEndsMinute_of_whole (congrArg (·.nanosecond) time)⟩

theorem carries_of_parse? {content : Bytes} {t : DateTime} (h : parse? content = some t) :
    Carries t := by
  obtain ⟨digits, -, names⟩ := parse?_eq_some_iff.mp h
  exact ⟨hasYear_iff.mpr names.window, names.whole⟩

theorem length_of_parse? {content : Bytes} {t : DateTime} (h : parse? content = some t) :
    content.length = 13 := by
  obtain ⟨digits, rfl, names⟩ := parse?_eq_some_iff.mp h
  rw [List.length_append, names.length, List.length_singleton]

/-- A time that was read is written as the content that it was read from. -/
theorem encode_of_parse? {content : Bytes} {t : DateTime} (h : parse? content = some t) :
    encode t = .ok content := by
  obtain ⟨digits, rfl, names⟩ := parse?_eq_some_iff.mp h
  have places (start) (fits : start + 2 ≤ 12) := places_numberAt names.ascii
    (fits.trans_eq names.length.symm)
  have year : t.year.natAbs % 100 = numberAt digits 0 2 := by
    have window := names.window
    have last := names.year
    simp only [DateTime.year]
    omega
  have parts : digits = digits.take 2 ++ (digits.drop 2).take 2 ++ (digits.drop 4).take 2 ++
      (digits.drop 6).take 2 ++ (digits.drop 8).take 2 ++ (digits.drop 10).take 2 := by
    obtain ⟨_, _, _, _, _, _, _, _, _, _, _, _, rfl⟩ := exists_of_length_twelve names.length
    rfl
  -- Every part is written in the two places that it was read from.
  rw [encode_eq (carries_of_parse? h).1, year, names.month, names.day, names.hour, names.minute,
    names.second, places 0 (by decide), places 2 (by decide), places 4 (by decide),
    places 6 (by decide), places 8 (by decide), places 10 (by decide), List.drop_zero]
  simp only [← List.map_append, ← parts, octets_digitChars names.ascii]

theorem clock_of_names {digits : Bytes} {date : Date} {time : TimeOfDay}
    (h : Names digits date time) :
    time.IsClock ↔ time.hour < 24 ∧ time.minute < 60 ∧ time.second < 60 := by
  simp [TimeOfDay.IsClock, h.whole]

/-- The content of UTCTimes and the whole seconds of the years 1950 to 2049 correspond one to one.
Content is twelve digits and the letter Z that name a date and a time of day that exist, and it is
what the time that was read is written as. Every such second is written and read back, and no other
year is written. -/
theorem decode_iff_twelveDigits :
    (∀ content : Bytes, (∃ t, decode content = .ok t) ↔
      ∃ digits date time, content = digits ++ [zone] ∧ Names digits date time ∧ date.IsCivil ∧
        time.hour < 24 ∧ time.minute < 60 ∧ time.second < 60) ∧
    (∀ (content : Bytes) (t : DateTime), decode content = .ok t →
      (∃ digits, content = digits ++ [zone] ∧ Names digits t.date t.time) ∧
        (1950 ≤ t.year ∧ t.year ≤ 2049) ∧ encode t = .ok content) ∧
    (∀ t : DateTime, 1950 ≤ t.year ∧ t.year ≤ 2049 → t.time.nanosecond = 0 →
      ∃ content, encode t = .ok content ∧ decode content = .ok t) ∧
    ∀ t : DateTime, ¬(1950 ≤ t.year ∧ t.year ≤ 2049) → encode t = .error (.utcYear t.year) := by
  simp only [decode_eq_ok]
  refine ⟨fun content => ⟨?_, ?_⟩, fun content t read => ?_, fun t window whole => ?_,
    fun t outside => ?_⟩
  · rintro ⟨t, read⟩
    obtain ⟨digits, shape, names⟩ := parse?_eq_some_iff.mp read
    exact ⟨digits, t.date, t.time, shape, names, t.civil, (clock_of_names names).mp t.clock⟩
  · rintro ⟨digits, date, time, shape, names, civil, clock⟩
    exact ⟨⟨date, time, civil, (clock_of_names names).mpr clock⟩,
      parse?_eq_some_iff.mpr ⟨digits, shape, names⟩⟩
  · obtain ⟨digits, shape, names⟩ := parse?_eq_some_iff.mp read
    exact ⟨⟨digits, shape, names⟩, names.window, encode_of_parse? read⟩
  · have carries : Carries t := ⟨hasYear_iff.mpr window, whole⟩
    exact ⟨_, encode_eq carries.1, parse?_of_encode carries (encode_eq carries.1)⟩
  · rw [encode, if_neg (hasYear_iff.not.mpr outside)]

/-- The leap day of 2000 is written as the content that it is read from, and the year 2050 is not
written. -/
theorem decode_iff_twelveDigits_leapDay :
    let leapDay : DateTime := ⟨⟨2000, 2, 29⟩, ⟨23, 59, 59, 0⟩, by decide, by decide⟩
    let next : DateTime := ⟨⟨2050, 1, 1⟩, ⟨0, 0, 0, 0⟩, by decide, by decide⟩
    let content : Bytes :=
      [0x30, 0x30, 0x30, 0x32, 0x32, 0x39, 0x32, 0x33, 0x35, 0x39, 0x35, 0x39, 0x5a]
    decode content = .ok leapDay ∧ encode leapDay = .ok content ∧
      (∃ content, encode leapDay = .ok content ∧ decode content = .ok leapDay) ∧
      encode next = .error (.utcYear 2050) := by
  intro leapDay next content
  obtain ⟨-, read, written, refused⟩ := decode_iff_twelveDigits
  have decoded : decode content = .ok leapDay := Except.toOption_eq_some.mp (by decide +kernel)
  exact ⟨decoded, (read content leapDay decoded).2.2, written leapDay (by decide) rfl,
    refused next (by decide)⟩

end UtcTime

namespace GeneralizedTime

/-- The octets after the seconds: the letter Z, and before it a point and the digits of a fraction
when there are any. -/
def ending (fraction : Bytes) : Bytes :=
  if fraction = [] then [zone] else point :: (fraction ++ [zone])

/-- The whole nanoseconds in the fraction of a second with these digits. -/
def cut (fraction : Bytes) : Nat :=
  number fraction * 10 ^ 9 / 10 ^ fraction.length

theorem length_ending (fraction : Bytes) :
    (ending fraction).length = 1 ∧ fraction = [] ∨
      (ending fraction).length = fraction.length + 2 := by
  unfold ending
  split_ifs with none
  · exact .inl ⟨rfl, none⟩
  · exact .inr (by simp)

theorem cut_lt {fraction : Bytes} (h : AllDigits fraction) : cut fraction < 10 ^ 9 := by
  rw [cut, Nat.div_lt_iff_lt_mul (by positivity), Nat.mul_comm (10 ^ 9)]
  exact Nat.mul_lt_mul_of_pos_right (number_lt h) (by decide)

/-- Nine digits are kept, and zeros are added where there are fewer. -/
theorem nanoseconds_digits {fraction : Bytes} (h : AllDigits fraction) :
    nanoseconds (fraction.map digitValue) = cut fraction := by
  have kept : nanoseconds (fraction.map digitValue) =
      number (fraction.take 9) * 10 ^ (9 - fraction.length) := by
    rw [nanoseconds, List.foldl_append, foldl_zeros, List.length_map, ← List.map_take,
      List.foldl_map, number]
  rw [kept, number_take h, cut]
  rcases Nat.le_total fraction.length 9 with short | long
  · have scale : 10 ^ 9 = 10 ^ (9 - fraction.length) * 10 ^ fraction.length := by
      rw [← Nat.pow_add, Nat.sub_add_cancel short]
    rw [scale, ← Nat.mul_assoc, Nat.mul_div_cancel _ (by positivity), Nat.sub_eq_zero_of_le short,
      Nat.pow_zero, Nat.div_one]
  · have scale : 10 ^ fraction.length = 10 ^ (fraction.length - 9) * 10 ^ 9 := by
      rw [← Nat.pow_add, Nat.sub_add_cancel long]
    rw [scale, Nat.mul_div_mul_right _ _ (by decide), Nat.sub_eq_zero_of_le long, Nat.pow_zero,
      Nat.mul_one]

theorem parseFraction?_ending {fraction : Bytes} (h : AllDigits fraction) :
    parseFraction? (ending fraction) = some (cut fraction) := by
  unfold ending
  split_ifs with none
  · rw [none]
    rfl
  · rw [parseFraction?.eq_2 _ _ (by simp), if_pos ⟨rfl, List.getLast?_concat, by simpa using none⟩,
      List.dropLast_concat, digits?_eq_some.mpr ⟨h, rfl⟩, Option.map_some, nanoseconds_digits h]

theorem exists_ending_of_parseFraction? {content : Bytes} {n : Nat}
    (h : parseFraction? content = some n) :
    ∃ fraction, AllDigits fraction ∧ content = ending fraction := by
  unfold parseFraction? at h
  split at h
  · split at h
    · rename_i last
      exact ⟨[], by simp [AllDigits], by rw [last]; rfl⟩
    · simp at h
  · rename_i first rest _
    split at h
    · rename_i shape
      obtain ⟨dot, last, some⟩ := shape
      obtain ⟨fraction, rfl⟩ := List.getLast?_eq_some_iff.mp last
      rw [List.dropLast_concat] at h some
      obtain ⟨values, read, -⟩ := Option.map_eq_some_iff.mp h
      exact ⟨fraction, (digits?_eq_some.mp read).1, by rw [ending, if_neg some, dot]⟩
    · simp at h
  · simp at h

/-- Fourteen digits, two for each part of a date and time but four for the year, and the digits of a
fraction of the second, of which whole nanoseconds count. Second 60 is the leap second that follows
second 59. -/
structure Names (digits fraction : Bytes) (date : Date) (time : TimeOfDay) : Prop where
  length : digits.length = 14
  ascii : AllDigits digits
  fractional : AllDigits fraction
  year : date.year = numberAt digits 0 4
  month : date.month = numberAt digits 4 2
  day : date.day = numberAt digits 6 2
  hour : time.hour = numberAt digits 8 2
  minute : time.minute = numberAt digits 10 2
  second : numberAt digits 12 2 ≠ 60 →
    time.second = numberAt digits 12 2 ∧ time.nanosecond = cut fraction
  leap : numberAt digits 12 2 = 60 → time.second = 59 ∧ time.nanosecond = 10 ^ 9 + cut fraction

theorem names_iff {digits fraction : Bytes} {date : Date} {time : TimeOfDay} :
    Names digits fraction date time ↔ digits.length = 14 ∧ AllDigits digits ∧ AllDigits fraction ∧
      date = ⟨numberAt digits 0 4, numberAt digits 4 2, numberAt digits 6 2⟩ ∧
      time = timeOfDay (numberAt digits 8 2) (numberAt digits 10 2) (numberAt digits 12 2)
        (cut fraction) := by
  obtain ⟨year, month, day⟩ := date
  obtain ⟨hour, minute, second, nanosecond⟩ := time
  rw [timeOfDay]
  constructor
  · rintro ⟨length, ascii, fractional, rfl, rfl, rfl, rfl, rfl, whole, leap⟩
    refine ⟨length, ascii, fractional, rfl, ?_⟩
    split_ifs with sixty
    · obtain ⟨rfl, rfl⟩ := leap sixty
      rfl
    · obtain ⟨rfl, rfl⟩ := whole sixty
      rfl
  · rintro ⟨length, ascii, fractional, date, time⟩
    cases date
    split_ifs at time with sixty
    · cases time
      exact ⟨length, ascii, fractional, rfl, rfl, rfl, rfl, rfl, absurd sixty, fun _ => ⟨rfl, rfl⟩⟩
    · cases time
      exact ⟨length, ascii, fractional, rfl, rfl, rfl, rfl, rfl, fun _ => ⟨rfl, rfl⟩,
        fun leap => absurd leap sixty⟩

theorem leapEndsMinute_timeOfDay {hour minute second fraction : Nat} (h : fraction < 10 ^ 9) :
    (timeOfDay hour minute second fraction).LeapEndsMinute := by
  unfold timeOfDay
  split_ifs
  · exact fun _ => rfl
  · exact TimeOfDay.leapEndsMinute_of_lt h

theorem Names.leapEndsMinute {digits fraction : Bytes} {date : Date} {time : TimeOfDay}
    (h : Names digits fraction date time) : time.LeapEndsMinute := by
  obtain ⟨-, -, -, -, rfl⟩ := names_iff.mp h
  exact leapEndsMinute_timeOfDay (cut_lt h.fractional)

theorem exists_of_length_fourteen : ∀ {digits : Bytes}, digits.length = 14 →
    ∃ y₁ y₂ y₃ y₄ m₁ m₂ d₁ d₂ h₁ h₂ n₁ n₂ s₁ s₂,
      digits = [y₁, y₂, y₃, y₄, m₁, m₂, d₁, d₂, h₁, h₂, n₁, n₂, s₁, s₂]
  | [_, _, _, _, _, _, _, _, _, _, _, _, _, _], _ =>
    ⟨_, _, _, _, _, _, _, _, _, _, _, _, _, _, rfl⟩

theorem parse?_append {digits ending : Bytes} {n : Nat} (length : digits.length = 14)
    (h : AllDigits digits) (fraction : parseFraction? ending = some n) :
    parse? (digits ++ ending) = DateTime.of?
      ⟨numberAt digits 0 4, numberAt digits 4 2, numberAt digits 6 2⟩
      (timeOfDay (numberAt digits 8 2) (numberAt digits 10 2) (numberAt digits 12 2) n) := by
  rw [parse?, List.take_left' length, List.drop_left' length, digits?_eq_some.mpr ⟨h, rfl⟩,
    fraction]
  obtain ⟨y₁, y₂, y₃, y₄, m₁, m₂, d₁, d₂, h₁, h₂, n₁, n₂, s₁, s₂, rfl⟩ :=
    exists_of_length_fourteen length
  simp [numberAt, number]

theorem exists_digits_of_parse? {content : Bytes} {t : DateTime} (h : parse? content = some t) :
    ∃ digits fraction, content = digits ++ ending fraction ∧ digits.length = 14 ∧
      AllDigits digits ∧ AllDigits fraction := by
  unfold parse? at h
  split at h
  · rename_i read rest
    obtain ⟨ascii, values⟩ := digits?_eq_some.mp read
    obtain ⟨fraction, fractional, shape⟩ := exists_ending_of_parseFraction? rest
    have length := congrArg List.length values
    rw [List.length_map] at length
    exact ⟨content.take 14, fraction, by rw [← shape, List.take_append_drop], length, ascii,
      fractional⟩
  · simp at h

theorem parse?_eq_some_iff {content : Bytes} {t : DateTime} :
    parse? content = some t ↔ ∃ digits fraction, content = digits ++ ending fraction ∧
      Names digits fraction t.date t.time := by
  simp only [names_iff]
  constructor
  · intro h
    obtain ⟨digits, fraction, rfl, length, ascii, fractional⟩ := exists_digits_of_parse? h
    rw [parse?_append length ascii (parseFraction?_ending fractional),
      DateTime.of?_eq_some_iff] at h
    exact ⟨digits, fraction, rfl, length, ascii, fractional, h.1, h.2.1⟩
  · rintro ⟨digits, fraction, rfl, length, ascii, fractional, date, time⟩
    rw [parse?_append length ascii (parseFraction?_ending fractional), DateTime.of?_eq_some_iff]
    exact ⟨date, time, time ▸ leapEndsMinute_timeOfDay (cut_lt fractional)⟩

theorem carries_of_parse? {content : Bytes} {t : DateTime} (h : parse? content = some t) :
    Carries t := by
  obtain ⟨digits, fraction, -, names⟩ := parse?_eq_some_iff.mp h
  have below : numberAt digits 0 4 < 10000 := numberAt_lt names.ascii 0 4
  refine ⟨?_, names.leapEndsMinute⟩
  rw [hasYear_iff, DateTime.year, names.year]
  omega

theorem length_of_parse? {content : Bytes} {t : DateTime} (h : parse? content = some t) :
    15 ≤ content.length := by
  obtain ⟨digits, fraction, rfl, names⟩ := parse?_eq_some_iff.mp h
  rw [List.length_append, names.length]
  have rest := length_ending fraction
  omega

theorem clock_of_names {digits fraction : Bytes} {date : Date} {time : TimeOfDay}
    (h : Names digits fraction date time) :
    time.IsClock ↔ time.hour < 24 ∧ time.minute < 60 ∧ numberAt digits 12 2 ≤ 60 := by
  have below := cut_lt h.fractional
  rw [TimeOfDay.IsClock]
  -- Second 60 is a leap second, which is stored as second 59 with more nanoseconds.
  by_cases sixty : numberAt digits 12 2 = 60
  · obtain ⟨second, nanosecond⟩ := h.leap sixty
    omega
  · obtain ⟨second, nanosecond⟩ := h.second sixty
    omega

end GeneralizedTime

end DerCodec
