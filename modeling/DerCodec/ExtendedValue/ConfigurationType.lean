import DerCodec.Element.Access
import DerCodec.ExtendedValue.Error
import DerCodec.Json.Primitive

/-!
# Configuration types

Which configuration a request asks for. A type is known by a context-specific tag where it selects
an alternative, by a number where it is sent as ENUMERATED, and by its name.
-/

namespace DerCodec

inductive ConfigurationType where
  /-- The configuration in use. -/
  | active
  /-- The one that the server's version started with. -/
  | baseline
  /-- One from an earlier time. -/
  | archived
deriving DecidableEq, Repr

namespace ConfigurationType

def all : List ConfigurationType := [active, baseline, archived]

def number : ConfigurationType → Nat
  | active => 0
  | baseline => 1
  | archived => 2

def name : ConfigurationType → String
  | active => "active"
  | baseline => "baseline"
  | archived => "archived"

def tag (type : ConfigurationType) : Tag :=
  .context (UInt32.ofNat type.number)

/-- The tag of the type as one octet. -/
def octet (type : ConfigurationType) : UInt8 :=
  UInt8.ofNat (0x80 + type.number)

def ofOctet? (octet : UInt8) : Option ConfigurationType :=
  all.find? (·.octet == octet)

def ofNumber? (number : Int) : Option ConfigurationType :=
  all.find? fun type => (type.number : Int) == number

def ofTag? (tag : Tag) : Option ConfigurationType :=
  tag.identifierOctet?.bind ofOctet?

/-- The case of ASCII letters does not count. -/
def ofName (name : String) : Except ExtendedValueError ConfigurationType :=
  match all.find? fun type => OidTable.sameLetters type.name name with
  | some type => .ok type
  | none => .error (.unknownConfigurationType name)

def ofElement (element : Element) : Except ExtendedValueError ConfigurationType := do
  let number ← (element.asPrimitive .enumerated).mapError .element
  match (Integer.narrow? .signed32 number).bind ofNumber? with
  | some type => .ok type
  | none => .error (.unknownConfigurationType (Integer.text number))

def toElement (type : ConfigurationType) : Element :=
  .primitive .enumerated type.number

def toJson (type : ConfigurationType) : Json :=
  .text type.name

def ofJson (json : Json) : Except JsonError ConfigurationType := do
  let name ← json.asVariant
  match all.find? (·.name == name) with
  | some type => .ok type
  | none => .error .form

end ConfigurationType

end DerCodec
