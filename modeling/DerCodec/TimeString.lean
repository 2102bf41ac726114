import DerCodec.Calendar
import DerCodec.ErrorKind
import DerCodec.Text.Utf8

/-!
# UTCTime and GeneralizedTime

Both are ASCII text in universal time that ends with the letter Z. UTCTime has a year of two
digits, which stands for 1950 to 2049, and whole seconds. GeneralizedTime has a year of four
digits and may have a decimal fraction of any length, of which nine digits count; its second may be
60.
-/

namespace DerCodec

inductive TimeError where
  | utcFormat (content : String)
  | utcYear (year : Int)
  | generalizedFormat (content : String)
  | generalizedYear (year : Int)
deriving DecidableEq, Repr

namespace TimeError

def kind : TimeError → ErrorKind
  | utcYear _ => .encoding
  | generalizedYear _ => .encoding
  | _ => .value

def message : TimeError → String
  | utcFormat content => s!"UTCTime: invalid format '{content}'"
  | utcYear year => s!"UTCTime: year {year} outside 1950-2049"
  | generalizedFormat content => s!"GeneralizedTime: invalid format '{content}'"
  | generalizedYear year => s!"GeneralizedTime: year {year} outside 0-9999"

instance : Cause TimeError := ⟨kind, message⟩

end TimeError

namespace TimeString

def digit? (octet : UInt8) : Option Nat :=
  if 48 ≤ octet ∧ octet ≤ 57 then some (octet.toNat - 48) else none

/-- All octets as decimal digits. -/
def digits? (content : Bytes) : Option (List Nat) :=
  content.mapM digit?

def zone : UInt8 := 0x5a

def point : UInt8 := 0x2e

/-- ASCII characters as octets. -/
def octets (chars : List Char) : Bytes :=
  chars.map fun c => UInt8.ofNat c.toNat

end TimeString

open TimeString

namespace UtcTime

def hasYear (year : Int) : Bool :=
  1950 ≤ year && year ≤ 2049

/-- The year that two digits stand for. -/
def century (yy : Nat) : Int :=
  if 50 ≤ yy then 1900 + yy else 2000 + yy

def parse? (content : Bytes) : Option DateTime :=
  if content.getLast? = some zone then
    match digits? content.dropLast with
    | some [y1, y2, m1, m2, d1, d2, h1, h2, n1, n2, s1, s2] =>
      DateTime.of? ⟨century (y1 * 10 + y2), m1 * 10 + m2, d1 * 10 + d2⟩
        ⟨h1 * 10 + h2, n1 * 10 + n2, s1 * 10 + s2, 0⟩
    | _ => none
  else none

def decode (content : Bytes) : Except TimeError DateTime :=
  match parse? content with
  | some t => .ok t
  | none => .error (.utcFormat (Utf8.lossy content))

/-- Drops the fraction of the second. -/
def encode (t : DateTime) : Except TimeError Bytes :=
  if hasYear t.year then
    .ok (octets (Decimal.padded 2 (t.year.natAbs % 100) ++ Decimal.padded 2 t.date.month
      ++ Decimal.padded 2 t.date.day ++ Decimal.padded 2 t.time.hour
      ++ Decimal.padded 2 t.time.minute ++ Decimal.padded 2 t.time.second ++ ['Z']))
  else .error (.utcYear t.year)

end UtcTime

namespace GeneralizedTime

def hasYear (year : Int) : Bool :=
  0 ≤ year && year ≤ 9999

/-- The nanoseconds that the digits after the point stand for, those past the ninth ignored. -/
def nanoseconds (digits : List Nat) : Nat :=
  (digits.take 9 ++ List.replicate (9 - digits.length) 0).foldl (fun n d => n * 10 + d) 0

/-- What follows the seconds: the letter Z, or a point and digits before it. -/
def parseFraction? (content : Bytes) : Option Nat :=
  match content with
  | [last] => if last = zone then some 0 else none
  | first :: rest =>
    if first = point ∧ rest.getLast? = some zone ∧ rest.dropLast ≠ [] then
      (digits? rest.dropLast).map nanoseconds
    else none
  | [] => none

/-- The time of day; second 60 is the leap second after second 59. -/
def timeOfDay (hour minute second nanosecond : Nat) : TimeOfDay :=
  if second = 60 then ⟨hour, minute, 59, 1000000000 + nanosecond⟩
  else ⟨hour, minute, second, nanosecond⟩

def parse? (content : Bytes) : Option DateTime :=
  match digits? (content.take 14), parseFraction? (content.drop 14) with
  | some [y1, y2, y3, y4, m1, m2, d1, d2, h1, h2, n1, n2, s1, s2], some fraction =>
    DateTime.of? ⟨(((y1 * 10 + y2) * 10 + y3) * 10 + y4 : Nat), m1 * 10 + m2, d1 * 10 + d2⟩
      (timeOfDay (h1 * 10 + h2) (n1 * 10 + n2) (s1 * 10 + s2) fraction)
  | _, _ => none

def decode (content : Bytes) : Except TimeError DateTime :=
  match parse? content with
  | some t => .ok t
  | none => .error (.generalizedFormat (Utf8.lossy content))

def encode (t : DateTime) : Except TimeError Bytes :=
  if hasYear t.year then
    .ok (octets (Decimal.padded 4 t.year.natAbs ++ Decimal.padded 2 t.date.month
      ++ Decimal.padded 2 t.date.day ++ Decimal.padded 2 t.time.hour
      ++ Decimal.padded 2 t.time.minute ++ Decimal.padded 2 t.time.shownSecond
      ++ t.time.fraction ++ ['Z']))
  else .error (.generalizedYear t.year)

end GeneralizedTime

end DerCodec
