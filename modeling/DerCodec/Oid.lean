import DerCodec.Base128
import DerCodec.ErrorKind
import DerCodec.Text.Decimal

/-!
# Object identifiers

An identifier is a list of arcs. Its content octets pack the first two arcs into one
sub-identifier and hold each sub-identifier in base 128; padded sub-identifiers and those of more
than 64 bits are refused. Any list of arcs is a value, and only some have an encoding. The text
form joins the arcs by dots.
-/

namespace DerCodec

inductive OidError where
  | noOctets
  | incomplete
  | padded
  | tooLarge
  | tooFewComponents
  | invalidComponent (text : String)
  | notEncodable (text : String)
deriving DecidableEq, Repr

namespace OidError

def kind : OidError → ErrorKind
  | notEncodable _ => .encoding
  | _ => .value

def message : OidError → String
  | noOctets => "OBJECT IDENTIFIER: no data"
  | incomplete => "OBJECT IDENTIFIER: incomplete encoding"
  | padded => "OBJECT IDENTIFIER: sub-identifier with a leading 0x80 octet"
  | tooLarge => "OBJECT IDENTIFIER: sub-identifier does not fit in u64"
  | tooFewComponents => "OBJECT IDENTIFIER: too few components (need at least 2)"
  | invalidComponent text => s!"OBJECT IDENTIFIER: invalid component '{text}'"
  | notEncodable text => s!"OBJECT IDENTIFIER: {text} cannot be encoded"

instance : Cause OidError := ⟨kind, message⟩

end OidError

structure Oid where
  arcs : List UInt64
deriving DecidableEq, Repr, Ord

namespace Oid

/-! ## Text -/

/-- The digits of each arc, separated by dots. -/
def chars (oid : Oid) : List Char :=
  List.intercalate ['.'] (oid.arcs.map fun arc => Decimal.ofNat arc.toNat)

def text (oid : Oid) : String :=
  String.ofList oid.chars

/-- The pieces between dots, one more than there are dots. -/
def components : List Char → List (List Char)
  | [] => [[]]
  | c :: rest =>
    match components rest with
    | [] => [[c]]
    | piece :: pieces => if c = '.' then [] :: piece :: pieces else (c :: piece) :: pieces

def arc? (component : List Char) : Option UInt64 :=
  (Decimal.nat? component).bind fun n => if n < UInt64.size then some (UInt64.ofNat n) else none

def arcsOf : List (List Char) → Except OidError (List UInt64)
  | [] => .ok []
  | component :: components =>
    match arc? component with
    | none => .error (.invalidComponent (String.ofList component))
    | some arc => (arcsOf components).map (arc :: ·)

def ofText (text : String) : Except OidError Oid := do
  let arcs ← arcsOf (components text.toList)
  if arcs.length < 2 then .error .tooFewComponents else .ok ⟨arcs⟩

/-- Whether the components read as the arcs, one by one and none left over. -/
def agrees : List UInt64 → List (List Char) → Bool
  | [], components => components.isEmpty
  | _ :: _, [] => false
  | arc :: arcs, component :: components => arc? component == some arc && agrees arcs components

/-- Comparison with text, which may spell an arc in any way that reads as it. -/
def matchesText (oid : Oid) (text : String) : Bool :=
  agrees oid.arcs (components text.toList)

/-! ## Content octets -/

/-- Reads on inside a sub-identifier: `pending` holds the digits of a started one. -/
def readSubidentifiers (pending : Option Nat) : Bytes → Except OidError (List Nat)
  | [] => if pending.isSome then .error .incomplete else .ok []
  | octet :: rest =>
    if pending.isNone && octet == 0x80 then .error .padded
    else
      match Base128.push? UInt64.size (pending.getD 0) octet with
      | none => .error .tooLarge
      | some n =>
        if Base128.continues octet then readSubidentifiers (some n) rest
        else (readSubidentifiers none rest).map (n :: ·)

/-- The two arcs that the first sub-identifier stands for. -/
def splitHead (n : Nat) : List Nat :=
  if n < 40 then [0, n] else if n < 80 then [1, n - 40] else [2, n - 80]

/-- The first sub-identifier of an encodable identifier that starts with these arcs. -/
def head? (first second : Nat) : Option Nat :=
  if 2 < first ∨ (first < 2 ∧ 40 ≤ second) ∨ UInt64.size ≤ first * 40 + second then none
  else some (first * 40 + second)

def decode (content : Bytes) : Except OidError Oid := do
  match ← readSubidentifiers none content with
  | [] => .error .noOctets
  | head :: rest => .ok ⟨(splitHead head ++ rest).map UInt64.ofNat⟩

def encode (oid : Oid) : Except OidError Bytes :=
  match oid.arcs with
  | first :: second :: rest =>
    match head? first.toNat second.toNat with
    | some head => .ok ((head :: rest.map UInt64.toNat).flatMap Base128.encode)
    | none => .error (.notEncodable oid.text)
  | _ => .error (.notEncodable oid.text)

end Oid

/-! ## Names of identifiers -/

/-- Dotted identifiers with their conventional names; the first match counts. -/
abbrev OidTable := List (String × String)

namespace OidTable

def nameOf? (table : OidTable) (oid : Oid) : Option String :=
  (table.find? fun entry => oid.matchesText entry.1).map (·.2)

/-- Letters compare without regard to case, ASCII ones only. -/
def sameLetters (a b : String) : Bool :=
  a.toList.map Char.toLower == b.toList.map Char.toLower

/-- The dotted identifier with the given name. -/
def dottedOf? (table : OidTable) (name : String) : Option String :=
  (table.find? fun entry => sameLetters entry.2 name).map (·.1)

end OidTable

end DerCodec
