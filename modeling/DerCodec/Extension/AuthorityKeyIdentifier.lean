import DerCodec.Extension.GeneralName
import DerCodec.Schema

/-!
# Authority key identifiers

The key that signed a certificate, by an identifier of its own or by the issuer and the serial
number of its certificate. Each part is optional, and parts are read in any order.
-/

namespace DerCodec

structure AuthorityKeyIdentifier where
  keyIdentifier : Option Bytes
  issuer : Option (List GeneralName)
  serialNumber : Option Int
deriving DecidableEq

namespace AuthorityKeyIdentifier

def keyIdentifierTag : Tag := .context 0
def issuerTag : Tag := .contextConstructed 1
def serialNumberTag : Tag := .context 2

def schema : Schema where
  name := "AuthorityKeyIdentifier"
  positional := []
  optional := [.optional "keyIdentifier" keyIdentifierTag,
    .optional "authorityCertIssuer" issuerTag,
    .optional "authorityCertSerialNumber" serialNumberTag]
  extensible := false

def inElement (cause : ElementError) : ExtensionError :=
  .element (.value .authorityKeyIdentifier) cause

def issuerOfElement (element : Element) : Except ExtensionError (List GeneralName) := do
  let names ← (element.childrenUnder issuerTag).mapError inElement
  GeneralName.listOfElements .authorityKeyIdentifier names

def ofElement (element : Element) : Except ExtensionError AuthorityKeyIdentifier := do
  let elements ← element.asSequence.mapError inElement
  let fields ← (schema.decode elements).mapError (inElement ∘ .schema)
  let keyIdentifier ← ((fields.optional? keyIdentifierTag).mapM
    (Element.decodeAs .octetString keyIdentifierTag)).mapError inElement
  let issuer ← (fields.optional? issuerTag).mapM issuerOfElement
  let serialNumber ← ((fields.optional? serialNumberTag).mapM
    (Element.decodeAs .integer serialNumberTag)).mapError inElement
  return ⟨keyIdentifier, issuer, serialNumber⟩

def toElement (id : AuthorityKeyIdentifier) : Except ExtensionError Element := do
  let keyIdentifier ← (id.keyIdentifier.mapM
    (Element.implicit .octetString keyIdentifierTag)).mapError inElement
  let issuer ← id.issuer.mapM GeneralName.listToElements
  let serialNumber ← (id.serialNumber.mapM
    (Element.implicit .integer serialNumberTag)).mapError inElement
  let children ← (schema.encode [] [(keyIdentifierTag, keyIdentifier),
    (issuerTag, issuer.map (Element.implicitList issuerTag)),
    (serialNumberTag, serialNumber)]).mapError (inElement ∘ .schema)
  return .sequence children

def toJson (id : AuthorityKeyIdentifier) : Except ElementError Json := do
  let issuer ← id.issuer.mapM GeneralName.listJson
  return .object [("key_identifier", .ofOption OctetString.toJson id.keyIdentifier),
    ("authority_cert_issuer", issuer.getD .null),
    ("authority_cert_serial_number", .ofOption Integer.toJson id.serialNumber)]

end AuthorityKeyIdentifier

end DerCodec
