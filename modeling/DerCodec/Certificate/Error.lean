import DerCodec.Extension.Error

/-!
# Causes of failure in a certificate
-/

namespace DerCodec

inductive CertificateError where
  | tooLarge (length limit : Nat)
  | invalidVersion (text : String)
  | emptyExtensions
  | invalidExtension (oid : Oid) (cause : ExtensionError)
  | signatureAlgorithmMismatch (outer inner : Oid)
  /-- A failure inside the named field. -/
  | inField (field : String) (cause : ElementError)
deriving DecidableEq, Repr

namespace CertificateError

def kind : CertificateError → ErrorKind
  | tooLarge .. => .framing
  | invalidVersion _ => .value
  | emptyExtensions => .shape
  | invalidExtension _ cause => cause.kind
  | signatureAlgorithmMismatch .. => .crossCheck
  | inField _ cause => cause.kind

def message : CertificateError → String
  | tooLarge length limit => s!"certificate is {length} bytes, limit is {limit}"
  | invalidVersion text => s!"invalid version: {text}"
  | emptyExtensions => "extensions: at least one extension required when present"
  | invalidExtension oid cause => s!"extension {oid.text}: {cause.message}"
  | signatureAlgorithmMismatch outer inner =>
    s!"signature algorithm {outer.text} does not match the TBSCertificate " ++
      s!"signature algorithm {inner.text}"
  | inField field cause => s!"{field}: {cause.message}"

instance : Cause CertificateError := ⟨kind, message⟩

end CertificateError

end DerCodec
