import DerCodec.Certificate.Tbs

/-!
# Certificates

A certificate is its signed part, the algorithm of the signature and the signature itself, which is
carried as it is and never verified. The algorithm stands in the signed part too, and the two
identifiers must agree.
-/

namespace DerCodec

structure Certificate where
  tbs : TbsCertificate
  signatureAlgorithm : AlgorithmIdentifier
  signature : BitString
deriving DecidableEq

namespace Certificate

/-- Joins the signed part to a signature by the algorithm that it names. -/
def ofSigned (tbs : TbsCertificate) (signature : BitString) : Certificate :=
  ⟨tbs, tbs.signature, signature⟩

/-! ## Reading -/

def partsOfElement (element : Element) : Except ElementError (Element × Element × Element) := do
  match ← element.asSequence with
  | [tbs, algorithm, signature] => return (tbs, algorithm, signature)
  | elements => .error (.elementCount "Certificate" 3 elements.length)

/-- The algorithm and the signature that follow the signed part. -/
def readSignature (tbs : TbsCertificate) (algorithm signature : Element) :
    Except CertificateError Certificate := do
  let algorithm ← (AlgorithmIdentifier.ofElement algorithm).mapError
    (.inField "signatureAlgorithm")
  if algorithm.algorithm ≠ tbs.signature.algorithm then
    .error (.signatureAlgorithmMismatch algorithm.algorithm tbs.signature.algorithm)
  else
    let signature ← (signature.value .bitString).mapError (.inField "signatureValue")
    return ⟨tbs, algorithm, signature⟩

def ofElement (policy : ExtensionPolicy) (element : Element) :
    Logged CertificateError Certificate := do
  let (tbs, algorithm, signature) ←
    Logged.ofExcept ((partsOfElement element).mapError (.inField "Certificate"))
  let tbs ← TbsCertificate.ofElement policy tbs
  Logged.ofExcept (readSignature tbs algorithm signature)

/-- The reader without the limit on the length and without the report of a failure. -/
def ofOctets (policy : ExtensionPolicy) (bytes : Bytes) : Logged CertificateError Certificate := do
  let element ← Logged.ofExcept ((Element.decode bytes).mapError (.inField "Certificate"))
  ofElement policy element

/-- Reads a certificate with its events; the last one reports a failure. -/
def decodeLogged (options : DecodeOptions) (bytes : Bytes) :
    Logged CertificateError Certificate :=
  let limit := options.maxEncodedLength
  if limit < bytes.length then do
    .emit .debug s!"certificate of {bytes.length} bytes exceeds the {limit} byte limit"
    .fail (.tooLarge bytes.length limit)
  else
    (ofOctets options.extensionPolicy bytes).debugFailure fun e =>
      s!"failed to decode certificate: {e.message}"

def decode (options : DecodeOptions) (bytes : Bytes) : Except CertificateError Certificate :=
  (decodeLogged options bytes).result

/-! ## Writing -/

def toElement (certificate : Certificate) : Except ElementError Element := do
  let tbs ← certificate.tbs.toElement
  return .sequence [tbs, certificate.signatureAlgorithm.toElement,
    .primitive .bitString certificate.signature]

def encode (certificate : Certificate) : Except ElementError Bytes := do
  let element ← certificate.toElement
  element.encode

def toJson (certificate : Certificate) : Except ElementError Json := do
  let tbs ← certificate.tbs.toJson
  return .object [("tbs_certificate", tbs),
    ("signature_algorithm", certificate.signatureAlgorithm.toJson),
    ("signature_value", certificate.signature.toJson)]

/-- The first extension of the given kind whose value was read. -/
def extension? (certificate : Certificate) (kind : ExtensionKind) : Option TypedExtension :=
  certificate.tbs.extensions.findSome? fun ext =>
    ext.typed?.filter fun value => value.kind = kind

end Certificate

end DerCodec
