import DerCodec.Element.Access
import DerCodec.Json.Primitive

/-!
# Distinguished names

A name is a list of relative names, each a set of attributes. An attribute keeps its value as the
element that it was, so that it is written back with the same string type. In the displayed form
relative names are separated by commas and attributes by plus signs; such signs inside a text are
escaped.
-/

namespace DerCodec

inductive NameError where
  | unknownAttribute (name : String)
  | oid (cause : OidError)
deriving DecidableEq, Repr

namespace NameError

def kind : NameError → ErrorKind
  | unknownAttribute _ => .encoding
  | oid cause => cause.kind

def message : NameError → String
  | unknownAttribute name => s!"unknown attribute type {name}"
  | oid cause => cause.message

instance : Cause NameError := ⟨kind, message⟩

end NameError

structure NameAttribute where
  type : Oid
  value : Element
deriving DecidableEq

structure RelativeName where
  attributes : List NameAttribute
deriving DecidableEq

structure Name where
  relativeNames : List RelativeName
deriving DecidableEq

namespace NameAttribute

def countryName : String := "2.5.4.6"

def types : OidTable :=
  [("2.5.4.3", "CN"),
    ("2.5.4.10", "O"),
    (countryName, "C"),
    ("2.5.4.11", "OU"),
    ("2.5.4.7", "L"),
    ("2.5.4.8", "ST"),
    ("0.9.2342.19200300.100.1.25", "DC"),
    ("0.9.2342.19200300.100.1.1", "UID"),
    ("1.2.840.113549.1.9.1", "E")]

/-- The attribute with the given conventional name. Countries are PrintableString, all other values
UTF8String. -/
def ofName (name value : String) : Except NameError NameAttribute := do
  match types.dottedOf? name with
  | none => .error (.unknownAttribute name)
  | some dotted =>
    let type ← (Oid.ofText dotted).mapError .oid
    if dotted = countryName then return ⟨type, .primitive .printableString value⟩
    else return ⟨type, .primitive .utf8String value⟩

def ofElement (element : Element) : Except ElementError NameAttribute := do
  match ← element.asSequence with
  | [type, value] =>
    let oid ← type.value .oid
    return ⟨oid, value⟩
  | elements => .error (.elementCount "AttributeTypeAndValue" 2 elements.length)

def toElement (attr : NameAttribute) : Element :=
  .sequence [.primitive .oid attr.type, attr.value]

def name? (attr : NameAttribute) : Option String :=
  types.nameOf? attr.type

def nameOrOid (attr : NameAttribute) : String :=
  attr.name?.getD attr.type.text

/-- The characters that are escaped in a displayed value. -/
def isSpecial (c : Char) : Bool :=
  c ∈ [',', '+', '"', '\\', '<', '>', ';']

def escape : List Char → List Char
  | [] => []
  | c :: rest => if isSpecial c then '\\' :: c :: escape rest else c :: escape rest

def text (attr : NameAttribute) : String :=
  let value :=
    match attr.value.text? with
    | some value => String.ofList (escape value.toList)
    | none => attr.value.text
  attr.nameOrOid ++ "=" ++ value

def toJson (attr : NameAttribute) : Json :=
  .object [("attribute_type", .text attr.nameOrOid),
    ("attribute_value", .text (attr.value.text?.getD attr.value.text))]

end NameAttribute

namespace RelativeName

def ofElement (element : Element) : Except ElementError RelativeName := do
  let elements ← element.asSet
  let attributes ← elements.mapM NameAttribute.ofElement
  return ⟨attributes⟩

def toElement (name : RelativeName) : Element :=
  .set (name.attributes.map NameAttribute.toElement)

def text (name : RelativeName) : String :=
  String.intercalate "+" (name.attributes.map NameAttribute.text)

def toJson (name : RelativeName) : Json :=
  .object [("attributes", .list (name.attributes.map NameAttribute.toJson))]

end RelativeName

namespace Name

/-- Relative names of one attribute each, in the order given. -/
def ofAttributes (attributes : List (String × String)) : Except NameError Name := do
  let relativeNames ← attributes.mapM fun (name, value) => do
    let attr ← NameAttribute.ofName name value
    return ⟨[attr]⟩
  return ⟨relativeNames⟩

def ofElement (element : Element) : Except ElementError Name := do
  let elements ← element.asSequence
  let relativeNames ← elements.mapM RelativeName.ofElement
  return ⟨relativeNames⟩

def toElement (name : Name) : Element :=
  .sequence (name.relativeNames.map RelativeName.toElement)

def text (name : Name) : String :=
  String.intercalate "," (name.relativeNames.map RelativeName.text)

def toJson (name : Name) : Json :=
  .object [("rdn_sequence", .list (name.relativeNames.map RelativeName.toJson))]

end Name

end DerCodec
