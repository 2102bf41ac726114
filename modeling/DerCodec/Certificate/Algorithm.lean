import DerCodec.Element.Access
import DerCodec.Json.Primitive

/-!
# Algorithm identifiers

An identifier names an algorithm and may carry parameters. Omitted parameters and an explicit NULL
are different things; any other element may stand in their place, such as the named curve of an
elliptic curve key.
-/

namespace DerCodec

def signatureAlgorithms : OidTable :=
  [("1.2.840.113549.1.1.2", "MD2withRSA"),
    ("1.2.840.113549.1.1.4", "MD5withRSA"),
    ("1.2.840.113549.1.1.5", "SHA1withRSA"),
    ("1.2.840.113549.1.1.14", "SHA224withRSA"),
    ("1.2.840.113549.1.1.11", "SHA256withRSA"),
    ("1.2.840.113549.1.1.12", "SHA384withRSA"),
    ("1.2.840.113549.1.1.13", "SHA512withRSA"),
    ("1.2.840.10040.4.3", "SHA1withDSA"),
    ("2.16.840.1.101.3.4.3.1", "SHA224withDSA"),
    ("2.16.840.1.101.3.4.3.2", "SHA256withDSA"),
    ("1.2.840.10045.4.1", "SHA1withECDSA"),
    ("1.2.840.10045.4.3.1", "SHA224withECDSA"),
    ("1.2.840.10045.4.3.2", "SHA256withECDSA"),
    ("1.2.840.10045.4.3.3", "SHA384withECDSA"),
    ("1.2.840.10045.4.3.4", "SHA512withECDSA")]

def rsaEncryption : String := "1.2.840.113549.1.1.1"

def ecPublicKey : String := "1.2.840.10045.2.1"

def publicKeyAlgorithms : OidTable :=
  [(rsaEncryption, "RSA"),
    ("1.2.840.10040.4.1", "DSA"),
    ("1.2.840.10046.2.1", "DH"),
    (ecPublicKey, "EC")]

def namedCurves : OidTable :=
  [("1.2.840.10045.3.1.1", "secp192r1"),
    ("1.3.132.0.33", "secp224r1"),
    ("1.2.840.10045.3.1.7", "secp256r1"),
    ("1.3.132.0.34", "secp384r1"),
    ("1.3.132.0.35", "secp521r1"),
    ("1.3.132.0.10", "secp256k1")]

inductive AlgorithmParameters where
  | null
  | element (element : Element)
deriving DecidableEq

structure AlgorithmIdentifier where
  algorithm : Oid
  parameters : Option AlgorithmParameters
deriving DecidableEq

namespace AlgorithmParameters

def ofElement : Element → AlgorithmParameters
  | .primitive .null _ => null
  | other => element other

def toElement : AlgorithmParameters → Element
  | null => .primitive .null ()
  | element other => other

def toJson : AlgorithmParameters → Json
  | null => .text "Null"
  | element (.primitive .oid oid) => .text ((namedCurves.nameOf? oid).getD oid.text)
  | element other => .text other.text

end AlgorithmParameters

namespace AlgorithmIdentifier

def ofElement (element : Element) : Except ElementError AlgorithmIdentifier := do
  match ← element.asSequence with
  | [algorithm] =>
    let oid ← algorithm.value .oid
    return ⟨oid, none⟩
  | [algorithm, parameters] =>
    let oid ← algorithm.value .oid
    return ⟨oid, some (.ofElement parameters)⟩
  | elements => .error (.elementCount "AlgorithmIdentifier" 2 elements.length)

def toElement (id : AlgorithmIdentifier) : Element :=
  .sequence (.primitive .oid id.algorithm
    :: (id.parameters.map AlgorithmParameters.toElement).toList)

/-- The conventional name, as a signature algorithm or else as a key algorithm. -/
def name? (id : AlgorithmIdentifier) : Option String :=
  (signatureAlgorithms.nameOf? id.algorithm).or (publicKeyAlgorithms.nameOf? id.algorithm)

def nameOrOid (id : AlgorithmIdentifier) : String :=
  id.name?.getD id.algorithm.text

/-- The curve that the parameters name. -/
def namedCurve? (id : AlgorithmIdentifier) : Option Oid :=
  match id.parameters with
  | some (.element (.primitive .oid oid)) => some oid
  | _ => none

def namedCurveName? (id : AlgorithmIdentifier) : Option String :=
  id.namedCurve?.bind namedCurves.nameOf?

def toJson (id : AlgorithmIdentifier) : Json :=
  .object (("algorithm", .text id.nameOrOid)
    :: (id.parameters.map fun p => ("parameters", p.toJson)).toList)

end AlgorithmIdentifier

end DerCodec
