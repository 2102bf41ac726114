import DerCodec.Text.Decimal

/-!
# Dates and times of day

Dates are those of the Gregorian calendar, extended to all years. A time of day has nanoseconds. A
leap second has a billion of them or more, and may follow any second. It is shown one second later
than the one that it follows: as second 60 at the end of a minute, and elsewhere just as the next
second is.
-/

namespace DerCodec

structure Date where
  year : Int
  month : Nat
  day : Nat
deriving DecidableEq, Repr

namespace Date

def isLeapYear (year : Int) : Bool :=
  year % 4 == 0 && (year % 100 != 0 || year % 400 == 0)

def daysInMonth (year : Int) (month : Nat) : Nat :=
  if month = 2 then if isLeapYear year then 29 else 28
  else if month = 4 ∨ month = 6 ∨ month = 9 ∨ month = 11 then 30
  else 31

def IsCivil (date : Date) : Prop :=
  1 ≤ date.month ∧ date.month ≤ 12 ∧ 1 ≤ date.day ∧
    date.day ≤ daysInMonth date.year date.month

instance (date : Date) : Decidable date.IsCivil := by
  unfold IsCivil; infer_instance

/-- Four digits for the years 0 to 9999, a sign and at least four digits for all others. -/
def yearText (year : Int) : List Char :=
  if 0 ≤ year ∧ year ≤ 9999 then Decimal.padded 4 year.natAbs
  else (if year < 0 then '-' else '+') :: Decimal.padded 4 year.natAbs

def text (date : Date) : List Char :=
  yearText date.year ++ '-' :: Decimal.padded 2 date.month ++ '-' :: Decimal.padded 2 date.day

end Date

structure TimeOfDay where
  hour : Nat
  minute : Nat
  second : Nat
  nanosecond : Nat
deriving DecidableEq, Repr

namespace TimeOfDay

def IsClock (time : TimeOfDay) : Prop :=
  time.hour < 24 ∧ time.minute < 60 ∧ time.second < 60 ∧ time.nanosecond < 2000000000

instance (time : TimeOfDay) : Decidable time.IsClock := by
  unfold IsClock; infer_instance

/-- A leap second, if this is one, is the last second of its minute. -/
def LeapEndsMinute (time : TimeOfDay) : Prop :=
  1000000000 ≤ time.nanosecond → time.second = 59

instance (time : TimeOfDay) : Decidable time.LeapEndsMinute := by
  unfold LeapEndsMinute; infer_instance

/-- The second as shown, one more for a leap second. -/
def shownSecond (time : TimeOfDay) : Nat :=
  time.second + time.nanosecond / 1000000000

/-- A point and the fewest of three, six or nine digits that are exact; nothing for zero. -/
def fractionText (nanosecond : Nat) : List Char :=
  if nanosecond = 0 then []
  else if nanosecond % 1000000 = 0 then '.' :: Decimal.padded 3 (nanosecond / 1000000)
  else if nanosecond % 1000 = 0 then '.' :: Decimal.padded 6 (nanosecond / 1000)
  else '.' :: Decimal.padded 9 nanosecond

def fraction (time : TimeOfDay) : List Char :=
  fractionText (time.nanosecond % 1000000000)

def text (time : TimeOfDay) : List Char :=
  Decimal.padded 2 time.hour ++ ':' :: Decimal.padded 2 time.minute
    ++ ':' :: Decimal.padded 2 time.shownSecond ++ time.fraction

end TimeOfDay

structure DateTime where
  date : Date
  time : TimeOfDay
  civil : date.IsCivil
  clock : time.IsClock
deriving DecidableEq

namespace DateTime

/-- The date and time, when both exist. A leap second is taken at the end of a minute only. -/
def of? (date : Date) (time : TimeOfDay) : Option DateTime :=
  if civil : date.IsCivil then
    if clock : time.IsClock ∧ time.LeapEndsMinute then some ⟨date, time, civil, clock.1⟩ else none
  else none

def year (t : DateTime) : Int := t.date.year

/-- The same second with other nanoseconds, which make any second a leap second from a billion on. -/
def withNanosecond? (t : DateTime) (nanosecond : Nat) : Option DateTime :=
  if small : nanosecond < 2000000000 then
    some ⟨t.date, { t.time with nanosecond }, t.civil,
      t.clock.1, t.clock.2.1, t.clock.2.2.1, small⟩
  else none

/-- The same second without its fraction; a leap second becomes the second that it follows. -/
def wholeSecond (t : DateTime) : DateTime :=
  (t.withNanosecond? 0).getD t

def text (separator : Char) (t : DateTime) : String :=
  String.ofList (t.date.text ++ separator :: t.time.text)

end DateTime

end DerCodec
