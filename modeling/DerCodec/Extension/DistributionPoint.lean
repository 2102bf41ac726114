import DerCodec.Extension.GeneralName
import DerCodec.Schema

/-!
# Distribution points

Where revocation lists are published. A point may have a name, the reasons that its list covers,
and the issuer of the list. The name is a choice of full names or of a name relative to the issuer
and therefore stands in an explicit tag.
-/

namespace DerCodec

structure ReasonFlags where
  keyCompromise : Bool := false
  caCompromise : Bool := false
  affiliationChanged : Bool := false
  superseded : Bool := false
  cessationOfOperation : Bool := false
  certificateHold : Bool := false
  privilegeWithdrawn : Bool := false
  aaCompromise : Bool := false
deriving DecidableEq, Repr

namespace ReasonFlags

/-- The first bit has no meaning. -/
def ofBits (bits : BitString) : ReasonFlags where
  keyCompromise := bits.bit 1
  caCompromise := bits.bit 2
  affiliationChanged := bits.bit 3
  superseded := bits.bit 4
  cessationOfOperation := bits.bit 5
  certificateHold := bits.bit 6
  privilegeWithdrawn := bits.bit 7
  aaCompromise := bits.bit 8

def toBits (flags : ReasonFlags) : BitString :=
  .ofNamedBits [false, flags.keyCompromise, flags.caCompromise, flags.affiliationChanged,
    flags.superseded, flags.cessationOfOperation, flags.certificateHold,
    flags.privilegeWithdrawn, flags.aaCompromise]

def toJson (flags : ReasonFlags) : Json :=
  .object [("key_compromise", .bool flags.keyCompromise),
    ("ca_compromise", .bool flags.caCompromise),
    ("affiliation_changed", .bool flags.affiliationChanged),
    ("superseded", .bool flags.superseded),
    ("cessation_of_operation", .bool flags.cessationOfOperation),
    ("certificate_hold", .bool flags.certificateHold),
    ("privilege_withdrawn", .bool flags.privilegeWithdrawn),
    ("aa_compromise", .bool flags.aaCompromise)]

end ReasonFlags

inductive DistributionPointName where
  | fullName (names : List GeneralName)
  | relativeToIssuer (name : RelativeName)
deriving DecidableEq

structure DistributionPoint where
  name : Option DistributionPointName
  reasons : Option ReasonFlags
  crlIssuer : Option (List GeneralName)
deriving DecidableEq

namespace DistributionPoint

def inElement (cause : ElementError) : ExtensionError :=
  .element (.value .crlDistributionPoints) cause

end DistributionPoint

namespace DistributionPointName

open DistributionPoint (inElement)

def fullNameTag : Tag := .contextConstructed 0
def relativeTag : Tag := .contextConstructed 1

def relativeOfElement (element : Element) : Except ElementError RelativeName := do
  let children ← element.childrenUnder relativeTag
  let attributes ← children.mapM NameAttribute.ofElement
  return ⟨attributes⟩

def ofElement (element : Element) : Except ExtensionError DistributionPointName :=
  if element.tag = fullNameTag then do
    let names ← (element.childrenUnder fullNameTag).mapError inElement
    let names ← GeneralName.listOfElements .crlDistributionPoints names
    return fullName names
  else if element.tag = relativeTag then
    ((relativeOfElement element).mapError inElement).map relativeToIssuer
  else .error (inElement (.unexpectedTag fullNameTag element.tag))

def toElement : DistributionPointName → Except ExtensionError Element
  | fullName names => (GeneralName.listToElements names).map (.implicitList fullNameTag)
  | relativeToIssuer name =>
    .ok (.implicitList relativeTag (name.attributes.map NameAttribute.toElement))

def toJson : DistributionPointName → Except ElementError Json
  | fullName names => (GeneralName.listJson names).map (.variant "FullName")
  | relativeToIssuer name => .ok (.variant "NameRelativeToCRLIssuer" name.toJson)

end DistributionPointName

namespace DistributionPoint

def nameTag : Tag := .contextConstructed 0
def reasonsTag : Tag := .context 1
def crlIssuerTag : Tag := .contextConstructed 2

def schema : Schema where
  name := "DistributionPoint"
  positional := []
  optional := [.optional "distributionPoint" nameTag, .optional "reasons" reasonsTag,
    .optional "cRLIssuer" crlIssuerTag]
  extensible := false

def nameOfElement (element : Element) : Except ExtensionError DistributionPointName := do
  let inner ← (element.explicitInner 0).mapError inElement
  DistributionPointName.ofElement inner

def crlIssuerOfElement (element : Element) : Except ExtensionError (List GeneralName) := do
  let names ← (element.childrenUnder crlIssuerTag).mapError inElement
  GeneralName.listOfElements .crlDistributionPoints names

def ofElement (element : Element) : Except ExtensionError DistributionPoint := do
  let elements ← element.asSequence.mapError inElement
  let fields ← (schema.decode elements).mapError (inElement ∘ .schema)
  let name ← (fields.optional? nameTag).mapM nameOfElement
  let reasons ← ((fields.optional? reasonsTag).mapM
    (Element.decodeAs .bitString reasonsTag)).mapError inElement
  let crlIssuer ← (fields.optional? crlIssuerTag).mapM crlIssuerOfElement
  return ⟨name, reasons.map ReasonFlags.ofBits, crlIssuer⟩

def toElement (point : DistributionPoint) : Except ExtensionError Element := do
  let name ← point.name.mapM DistributionPointName.toElement
  let reasons ← (point.reasons.mapM fun flags =>
    Element.implicit .bitString reasonsTag flags.toBits).mapError inElement
  let crlIssuer ← point.crlIssuer.mapM GeneralName.listToElements
  let children ← (schema.encode [] [(nameTag, name.map (Element.explicit 0)),
    (reasonsTag, reasons),
    (crlIssuerTag, crlIssuer.map (Element.implicitList crlIssuerTag))]).mapError
      (inElement ∘ .schema)
  return .sequence children

def toJson (point : DistributionPoint) : Except ElementError Json := do
  let name ← point.name.mapM DistributionPointName.toJson
  let crlIssuer ← point.crlIssuer.mapM GeneralName.listJson
  return .object [("distribution_point", name.getD .null),
    ("reasons", .ofOption ReasonFlags.toJson point.reasons),
    ("crl_issuer", crlIssuer.getD .null)]

end DistributionPoint

end DerCodec
