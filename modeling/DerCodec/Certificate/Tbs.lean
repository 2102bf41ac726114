import DerCodec.Certificate.Name
import DerCodec.Certificate.PublicKey
import DerCodec.Certificate.Validity
import DerCodec.Extension

/-!
# The signed part of a certificate

Version 1 is the default and is left out when it is written. The fields after the public key are
optional and are read in any order; extensions that are present must not be empty.
-/

namespace DerCodec

inductive Version where
  | v1
  | v2
  | v3
deriving DecidableEq, Repr

namespace Version

def number : Version → Nat
  | v1 => 0
  | v2 => 1
  | v3 => 2

def label : Version → String
  | v1 => "V1"
  | v2 => "V2"
  | v3 => "V3"

def ofInteger (n : Int) : Except CertificateError Version :=
  match Integer.narrow? .signed64 n with
  | some 0 => .ok v1
  | some 1 => .ok v2
  | some 2 => .ok v3
  | _ => .error (.invalidVersion (Integer.text n))

end Version

structure TbsCertificate where
  version : Version
  serialNumber : Int
  signature : AlgorithmIdentifier
  issuer : Name
  validity : Validity
  subject : Name
  publicKeyInfo : SubjectPublicKeyInfo
  issuerUniqueId : Option BitString
  subjectUniqueId : Option BitString
  extensions : List Extension
deriving DecidableEq

namespace TbsCertificate

def versionTag : Tag := .contextConstructed 0
def issuerUniqueIdTag : Tag := .context 1
def subjectUniqueIdTag : Tag := .context 2
def extensionsTag : Tag := .contextConstructed 3

def schema : Schema where
  name := "TBSCertificate"
  positional := [.defaulted "version" versionTag,
    .required "serialNumber" Primitive.integer.tag,
    .required "signature" Universal.sequence.tag,
    .required "issuer" Universal.sequence.tag,
    .required "validity" Universal.sequence.tag,
    .required "subject" Universal.sequence.tag,
    .required "subjectPublicKeyInfo" Universal.sequence.tag]
  optional := [.optional "issuerUniqueID" issuerUniqueIdTag,
    .optional "subjectUniqueID" subjectUniqueIdTag,
    .optional "extensions" extensionsTag]
  extensible := false

/-! ## Reading -/

def fieldsOfElement (element : Element) : Except ElementError Fields := do
  let elements ← element.asSequence
  (schema.decode elements).mapError .schema

def versionOfElement (wrapped : Element) : Except CertificateError Version := do
  let inner ← (wrapped.explicitInner 0).mapError (.inField "version")
  let number ← (inner.value .integer).mapError (.inField "version")
  Version.ofInteger number

/-- The required field at `index`, read by `read`; failures name `field`. -/
def readField (fields : Fields) (index : Nat) (field : String)
    (read : Element → Except ElementError α) : Except CertificateError α := do
  let element ← (fields.required index).mapError (.inField field ∘ .schema)
  (read element).mapError (.inField field)

def uniqueId (fields : Fields) (tag : Tag) (field : String) :
    Except CertificateError (Option BitString) :=
  ((fields.optional? tag).mapM (Element.decodeAs .bitString tag)).mapError (.inField field)

/-- The fields that come before the public key. -/
def versionAndNames (fields : Fields) :
    Except CertificateError
      (Version × Int × AlgorithmIdentifier × Name × Validity × Name × Element) := do
  let version ← (fields.positional? 0).mapM versionOfElement
  let serialNumber ← readField fields 1 "serialNumber" (Element.value .integer)
  let signature ← readField fields 2 "signature" AlgorithmIdentifier.ofElement
  let issuer ← readField fields 3 "issuer" Name.ofElement
  let validity ← readField fields 4 "validity" Validity.ofElement
  let subject ← readField fields 5 "subject" Name.ofElement
  let publicKeyInfo ← readField fields 6 "subjectPublicKeyInfo" .ok
  return (version.getD .v1, serialNumber, signature, issuer, validity, subject, publicKeyInfo)

def extensionElements (wrapped : Element) : Except CertificateError (List Element) := do
  let inner ← (wrapped.explicitInner 3).mapError (.inField "extensions")
  let elements ← inner.asSequence.mapError (.inField "extensions")
  if elements.isEmpty then .error .emptyExtensions else .ok elements

/-- Reads extensions one after the other. -/
def readExtensions (policy : ExtensionPolicy) :
    List Element → Logged CertificateError (List Extension)
  | [] => pure []
  | element :: elements => do
    let ext ← Extension.ofElement policy element
    let exts ← readExtensions policy elements
    return ext :: exts

def ofElement (policy : ExtensionPolicy) (element : Element) :
    Logged CertificateError TbsCertificate := do
  let fields ← Logged.ofExcept ((fieldsOfElement element).mapError (.inField "TBSCertificate"))
  let (version, serialNumber, signature, issuer, validity, subject, keyElement) ←
    Logged.ofExcept (versionAndNames fields)
  let publicKeyInfo ← (SubjectPublicKeyInfo.ofElement keyElement).mapError
    (.inField "subjectPublicKeyInfo")
  let issuerUniqueId ← Logged.ofExcept (uniqueId fields issuerUniqueIdTag "issuerUniqueID")
  let subjectUniqueId ← Logged.ofExcept (uniqueId fields subjectUniqueIdTag "subjectUniqueID")
  let elements ← Logged.ofExcept ((fields.optional? extensionsTag).mapM extensionElements)
  let extensions ← readExtensions policy (elements.getD [])
  return { version, serialNumber, signature, issuer, validity, subject, publicKeyInfo,
           issuerUniqueId, subjectUniqueId, extensions }

/-! ## Writing -/

def toElement (tbs : TbsCertificate) : Except ElementError Element := do
  let version : Option Element :=
    if tbs.version = .v1 then none
    else some (.explicit 0 (.primitive .integer tbs.version.number))
  let issuerUniqueId ← tbs.issuerUniqueId.mapM (Element.implicit .bitString issuerUniqueIdTag)
  let subjectUniqueId ← tbs.subjectUniqueId.mapM (Element.implicit .bitString subjectUniqueIdTag)
  let extensionElements ← tbs.extensions.mapM Extension.toElement
  let extensions : Option Element :=
    if tbs.extensions.isEmpty then none else some (.explicit 3 (.sequence extensionElements))
  let children ← (schema.encode
    [version, some (.primitive .integer tbs.serialNumber), some tbs.signature.toElement,
      some tbs.issuer.toElement, some tbs.validity.toElement, some tbs.subject.toElement,
      some tbs.publicKeyInfo.toElement]
    [(issuerUniqueIdTag, issuerUniqueId), (subjectUniqueIdTag, subjectUniqueId),
      (extensionsTag, extensions)]).mapError .schema
  return .sequence children

def toJson (tbs : TbsCertificate) : Except ElementError Json := do
  let extensions ← tbs.extensions.mapM Extension.toJson
  return .object [("version", .text tbs.version.label),
    ("serial_number", Integer.toJson tbs.serialNumber),
    ("signature", tbs.signature.toJson), ("issuer", tbs.issuer.toJson),
    ("validity", tbs.validity.toJson), ("subject", tbs.subject.toJson),
    ("subject_public_key_info", tbs.publicKeyInfo.toJson),
    ("issuer_unique_id", .ofOption BitString.toJson tbs.issuerUniqueId),
    ("subject_unique_id", .ofOption BitString.toJson tbs.subjectUniqueId),
    ("extensions", .list extensions)]

end TbsCertificate

end DerCodec
