/-!
# JSON values

The form in which typed values are reported. A number is kept as a decimal fraction, so that one
with a fractional part is told from an integer. Members of an object are in the order of writing;
of two members with one name the last counts.
-/

namespace DerCodec

inductive Json where
  | null
  | bool (value : Bool)
  /-- The number `mantissa / 10 ^ places`. -/
  | number (mantissa : Int) (places : Nat)
  | text (value : String)
  | list (items : List Json)
  | object (members : List (String × Json))
deriving Inhabited

namespace Json

def int (n : Int) : Json := number n 0

def nat (n : Nat) : Json := number n 0

/-- `null` for an absent value. -/
def ofOption (toJson : α → Json) : Option α → Json
  | some a => toJson a
  | none => null

/-- An object with one member, named after the alternative that was chosen. -/
def variant (name : String) (value : Json) : Json :=
  object [(name, value)]

def member? (name : String) : List (String × Json) → Option Json
  | [] => none
  | (key, value) :: members =>
    match member? name members with
    | some later => some later
    | none => if key = name then some value else none

end Json

end DerCodec
