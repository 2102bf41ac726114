import DerCodec.Element.Error

/-!
# Kinds of extensions and causes of failure in them

Eight extensions have a typed value. Each is known by its object identifier and a conventional
name.
-/

namespace DerCodec

inductive ExtensionKind where
  | authorityKeyIdentifier
  | basicConstraints
  | crlDistributionPoints
  | extendedKeyUsage
  | issuerAltName
  | keyUsage
  | subjectAltName
  | subjectKeyIdentifier
deriving DecidableEq, Repr

namespace ExtensionKind

def all : List ExtensionKind :=
  [authorityKeyIdentifier, basicConstraints, crlDistributionPoints, extendedKeyUsage,
    issuerAltName, keyUsage, subjectAltName, subjectKeyIdentifier]

def oid : ExtensionKind → Oid
  | authorityKeyIdentifier => ⟨[2, 5, 29, 35]⟩
  | basicConstraints => ⟨[2, 5, 29, 19]⟩
  | crlDistributionPoints => ⟨[2, 5, 29, 31]⟩
  | extendedKeyUsage => ⟨[2, 5, 29, 37]⟩
  | issuerAltName => ⟨[2, 5, 29, 18]⟩
  | keyUsage => ⟨[2, 5, 29, 15]⟩
  | subjectAltName => ⟨[2, 5, 29, 17]⟩
  | subjectKeyIdentifier => ⟨[2, 5, 29, 14]⟩

def name : ExtensionKind → String
  | authorityKeyIdentifier => "authorityKeyIdentifier"
  | basicConstraints => "basicConstraints"
  | crlDistributionPoints => "cRLDistributionPoints"
  | extendedKeyUsage => "extKeyUsage"
  | issuerAltName => "issuerAltName"
  | keyUsage => "keyUsage"
  | subjectAltName => "subjectAltName"
  | subjectKeyIdentifier => "subjectKeyIdentifier"

/-- The name of the type of the value. -/
def label : ExtensionKind → String
  | authorityKeyIdentifier => "AuthorityKeyIdentifier"
  | basicConstraints => "BasicConstraints"
  | crlDistributionPoints => "CRLDistributionPoints"
  | extendedKeyUsage => "ExtendedKeyUsage"
  | issuerAltName => "IssuerAltName"
  | keyUsage => "KeyUsage"
  | subjectAltName => "SubjectAltName"
  | subjectKeyIdentifier => "SubjectKeyIdentifier"

/-- The kind whose identifier has the same text. -/
def ofOid? (oid : Oid) : Option ExtensionKind :=
  all.find? fun kind => kind.oid.text == oid.text

end ExtensionKind

/-- Where in an extension a failure arose. -/
inductive ExtensionPart where
  | value (kind : ExtensionKind)
  | generalName
deriving DecidableEq, Repr

def ExtensionPart.label : ExtensionPart → String
  | value kind => kind.label
  | generalName => "GeneralName"

inductive ExtensionError where
  | emptyValue (kind : ExtensionKind)
  | emptyList (kind : ExtensionKind)
  | pathLengthRange
  | unknownGeneralName (tag : Tag)
  | addressLength (octets : Nat)
  | element (part : ExtensionPart) (cause : ElementError)
deriving DecidableEq, Repr

namespace ExtensionError

def kind : ExtensionError → ErrorKind
  | emptyValue _ => .shape
  | emptyList _ => .shape
  | unknownGeneralName _ => .shape
  | pathLengthRange => .value
  | addressLength _ => .value
  | element _ cause => cause.kind

def message : ExtensionError → String
  | emptyValue kind => s!"{kind.label}: empty extension value"
  | emptyList kind => s!"{kind.label}: at least one element required"
  | pathLengthRange => "BasicConstraints: pathLenConstraint out of range for u32"
  | unknownGeneralName tag => s!"GeneralName: unknown tag {tag.text}"
  | addressLength octets => s!"GeneralName: iPAddress must be 4 or 16 bytes, got {octets}"
  | element part cause => s!"{part.label}: {cause.message}"

instance : Cause ExtensionError := ⟨kind, message⟩

end ExtensionError

end DerCodec
