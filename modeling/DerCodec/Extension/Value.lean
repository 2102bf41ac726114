import DerCodec.Extension.AuthorityKeyIdentifier
import DerCodec.Extension.BasicConstraints
import DerCodec.Extension.DistributionPoint
import DerCodec.Extension.KeyUsage

/-!
# Typed values of extensions

An extension carries its value as octets with one encoded element in them. `TypedExtension.parse`
reads them as the type that a kind of extension has, and `TypedExtension.toOctets` writes them.
-/

namespace DerCodec

inductive TypedExtension where
  | authorityKeyIdentifier (id : AuthorityKeyIdentifier)
  | basicConstraints (constraints : BasicConstraints)
  | crlDistributionPoints (points : List DistributionPoint)
  | extendedKeyUsage (purposes : List Oid)
  | issuerAltName (names : List GeneralName)
  | keyUsage (usage : KeyUsage)
  | subjectAltName (names : List GeneralName)
  | subjectKeyIdentifier (id : Bytes)
deriving DecidableEq

namespace TypedExtension

def kind : TypedExtension → ExtensionKind
  | authorityKeyIdentifier _ => .authorityKeyIdentifier
  | basicConstraints _ => .basicConstraints
  | crlDistributionPoints _ => .crlDistributionPoints
  | extendedKeyUsage _ => .extendedKeyUsage
  | issuerAltName _ => .issuerAltName
  | keyUsage _ => .keyUsage
  | subjectAltName _ => .subjectAltName
  | subjectKeyIdentifier _ => .subjectKeyIdentifier

/-! ## Reading -/

/-- The elements of a list in an extension, which has at least one. -/
def nonemptyList (kind : ExtensionKind) (element : Element) :
    Except ExtensionError (List Element) := do
  let elements ← element.asSequence.mapError (.element (.value kind))
  if elements.isEmpty then .error (.emptyList kind) else .ok elements

def namesOfElement (kind : ExtensionKind) (element : Element) :
    Except ExtensionError (List GeneralName) := do
  let elements ← element.asSequence.mapError (.element (.value kind))
  GeneralName.listOfElements kind elements

def ofElement (kind : ExtensionKind) (element : Element) :
    Except ExtensionError TypedExtension :=
  match kind with
  | .authorityKeyIdentifier =>
    (AuthorityKeyIdentifier.ofElement element).map authorityKeyIdentifier
  | .basicConstraints => (BasicConstraints.ofElement element).map basicConstraints
  | .crlDistributionPoints => do
    let elements ← nonemptyList kind element
    let points ← elements.mapM DistributionPoint.ofElement
    return crlDistributionPoints points
  | .extendedKeyUsage => do
    let elements ← nonemptyList kind element
    let purposes ← (elements.mapM (Element.value .oid)).mapError (.element (.value kind))
    return extendedKeyUsage purposes
  | .issuerAltName => (namesOfElement kind element).map issuerAltName
  | .keyUsage => do
    let bits ← (element.value .bitString).mapError (.element (.value kind))
    return keyUsage (.ofBits bits)
  | .subjectAltName => (namesOfElement kind element).map subjectAltName
  | .subjectKeyIdentifier => do
    let id ← (element.value .octetString).mapError (.element (.value kind))
    return subjectKeyIdentifier id

/-- Reads the octets of an extension of the given kind. -/
def parse (kind : ExtensionKind) (octets : Bytes) : Except ExtensionError TypedExtension := do
  if octets.isEmpty then .error (.emptyValue kind)
  else
    let element ← (Element.decode octets).mapError (.element (.value kind))
    ofElement kind element

/-! ## Writing -/

def toElement : TypedExtension → Except ExtensionError Element
  | authorityKeyIdentifier id => id.toElement
  | basicConstraints constraints => constraints.toElement
  | crlDistributionPoints points => (points.mapM DistributionPoint.toElement).map .sequence
  | extendedKeyUsage purposes => .ok (.sequence (purposes.map (.primitive .oid)))
  | issuerAltName names => (GeneralName.listToElements names).map .sequence
  | keyUsage usage => .ok (.primitive .bitString usage.toBits)
  | subjectAltName names => (GeneralName.listToElements names).map .sequence
  | subjectKeyIdentifier id => .ok (.primitive .octetString id)

def toOctets (value : TypedExtension) : Except ExtensionError Bytes := do
  let element ← value.toElement
  element.encode.mapError (.element (.value value.kind))

/-- The DNS names among the names of an extension, in order. -/
def dnsNames (names : List GeneralName) : List String :=
  names.filterMap fun
    | .dns name => some name
    | _ => none

/-- The value without its kind. -/
def contentJson : TypedExtension → Except ElementError Json
  | authorityKeyIdentifier id => id.toJson
  | basicConstraints constraints => .ok constraints.toJson
  | crlDistributionPoints points => do
    let points ← points.mapM DistributionPoint.toJson
    return .object [("distribution_points", .list points)]
  | extendedKeyUsage purposes =>
    .ok (.object [("key_purposes", .list (purposes.map Oid.toJson))])
  | issuerAltName names => do
    let names ← GeneralName.listJson names
    return .object [("names", names)]
  | keyUsage usage => .ok usage.toJson
  | subjectAltName names => do
    let names ← GeneralName.listJson names
    return .object [("names", names)]
  | subjectKeyIdentifier id => .ok (.object [("key_identifier", OctetString.toJson id)])

def toJson (value : TypedExtension) : Except ElementError Json :=
  value.contentJson.map (.variant value.kind.label)

end TypedExtension

end DerCodec
