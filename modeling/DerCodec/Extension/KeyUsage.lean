import DerCodec.BitString
import DerCodec.Json
import DerCodec.Oid

/-!
# Uses of a key

The key usage is a named bit list of nine uses; bits after the ninth are passed over. The extended
key usage lists purposes by identifier.
-/

namespace DerCodec

structure KeyUsage where
  digitalSignature : Bool := false
  contentCommitment : Bool := false
  keyEncipherment : Bool := false
  dataEncipherment : Bool := false
  keyAgreement : Bool := false
  keyCertSign : Bool := false
  crlSign : Bool := false
  encipherOnly : Bool := false
  decipherOnly : Bool := false
deriving DecidableEq, Repr

namespace KeyUsage

def ofBits (bits : BitString) : KeyUsage where
  digitalSignature := bits.bit 0
  contentCommitment := bits.bit 1
  keyEncipherment := bits.bit 2
  dataEncipherment := bits.bit 3
  keyAgreement := bits.bit 4
  keyCertSign := bits.bit 5
  crlSign := bits.bit 6
  encipherOnly := bits.bit 7
  decipherOnly := bits.bit 8

/-- The uses in the order of their bits. -/
def flags (usage : KeyUsage) : List Bool :=
  [usage.digitalSignature, usage.contentCommitment, usage.keyEncipherment,
    usage.dataEncipherment, usage.keyAgreement, usage.keyCertSign, usage.crlSign,
    usage.encipherOnly, usage.decipherOnly]

def toBits (usage : KeyUsage) : BitString :=
  .ofNamedBits usage.flags

/-- Every use. -/
def every : KeyUsage :=
  ofBits (.ofBits (List.replicate 9 true))

def names : List String :=
  ["Digital Signature", "Non Repudiation", "Key Encipherment", "Data Encipherment",
    "Key Agreement", "Certificate Sign", "CRL Sign", "Encipher Only", "Decipher Only"]

def text (usage : KeyUsage) : String :=
  String.intercalate ", " (((usage.flags.zip names).filter (·.1)).map (·.2))

def toJson (usage : KeyUsage) : Json :=
  .object [("digital_signature", .bool usage.digitalSignature),
    ("content_commitment", .bool usage.contentCommitment),
    ("key_encipherment", .bool usage.keyEncipherment),
    ("data_encipherment", .bool usage.dataEncipherment),
    ("key_agreement", .bool usage.keyAgreement),
    ("key_cert_sign", .bool usage.keyCertSign),
    ("crl_sign", .bool usage.crlSign),
    ("encipher_only", .bool usage.encipherOnly),
    ("decipher_only", .bool usage.decipherOnly)]

end KeyUsage

namespace KeyPurpose

def names : OidTable :=
  [("1.3.6.1.5.5.7.3.1", "serverAuth"),
    ("1.3.6.1.5.5.7.3.2", "clientAuth"),
    ("1.3.6.1.5.5.7.3.3", "codeSigning"),
    ("1.3.6.1.5.5.7.3.4", "emailProtection"),
    ("1.3.6.1.5.5.7.3.8", "timeStamping"),
    ("1.3.6.1.5.5.7.3.9", "OCSPSigning")]

def nameOrOid (purpose : Oid) : String :=
  (names.nameOf? purpose).getD purpose.text

end KeyPurpose

end DerCodec
