import DerCodec.Certificate.Algorithm
import DerCodec.Event

/-!
# Public keys

Certificates carry the key as a bit string next to its algorithm. RSA keys and points on a curve of
256 bits are decoded as well; a key of another algorithm, or one that does not parse, is left
undecoded and never makes a certificate fail.
-/

namespace DerCodec

inductive PublicKeyError where
  | invalid (reason : String)
  | element (cause : ElementError)
deriving DecidableEq, Repr

namespace PublicKeyError

def kind : PublicKeyError → ErrorKind
  | invalid _ => .value
  | element cause => cause.kind

def message : PublicKeyError → String
  | invalid reason => s!"invalid public key: {reason}"
  | element cause => cause.message

instance : Cause PublicKeyError := ⟨kind, message⟩

end PublicKeyError

/-- Whole octets as a bit string. -/
def BitString.ofWholeOctets (octets : Bytes) : BitString where
  unused := 0
  octets := octets
  unused_le := by decide
  unused_of_nil _ := rfl

structure RsaPublicKey where
  modulus : Int
  exponent : Int
deriving DecidableEq, Repr

namespace RsaPublicKey

def ofBits (bits : BitString) : Except PublicKeyError RsaPublicKey := do
  if bits.unused ≠ 0 then .error (.invalid "RSA key has unused bits")
  else
    let element ← (Element.decode bits.octets).mapError .element
    match ← element.asSequence.mapError .element with
    | [modulus, exponent] =>
      let modulus ← (modulus.value .integer).mapError .element
      let exponent ← (exponent.value .integer).mapError .element
      return ⟨modulus, exponent⟩
    | elements => .error (.element (.elementCount "RSAPublicKey" 2 elements.length))

def toBits (key : RsaPublicKey) : Except PublicKeyError BitString := do
  let element := Element.sequence [.primitive .integer key.modulus, .primitive .integer key.exponent]
  let octets ← element.encode.mapError .element
  return .ofWholeOctets octets

def toJson (key : RsaPublicKey) : Json :=
  .object [("modulus", Integer.toJson key.modulus),
    ("public_exponent", Integer.toJson key.exponent)]

end RsaPublicKey

/-- A point on a curve; a compressed one has only the parity of its second coordinate. -/
inductive CurvePoint where
  | uncompressed (x y : Nat)
  | compressed (x : Nat) (yIsEven : Bool)
deriving DecidableEq, Repr

namespace CurvePoint

/-- How many octets a coordinate takes. -/
def coordinateLength : Nat := 32

def x : CurvePoint → Nat
  | uncompressed x _ => x
  | compressed x _ => x

def y? : CurvePoint → Option Nat
  | uncompressed _ y => some y
  | compressed .. => none

def isCompressed : CurvePoint → Bool
  | uncompressed .. => false
  | compressed .. => true

def ofOctets? : Bytes → Option CurvePoint
  | 0x04 :: rest =>
    if rest.length = 2 * coordinateLength then
      some (uncompressed (BigEndian.value (rest.take coordinateLength))
        (BigEndian.value (rest.drop coordinateLength)))
    else none
  | 0x02 :: rest =>
    if rest.length = coordinateLength then some (compressed (BigEndian.value rest) true) else none
  | 0x03 :: rest =>
    if rest.length = coordinateLength then some (compressed (BigEndian.value rest) false) else none
  | _ => none

def ofBits (bits : BitString) : Except PublicKeyError CurvePoint :=
  if bits.unused ≠ 0 then .error (.invalid "EC point has unused bits")
  else
    match ofOctets? bits.octets with
    | some point => .ok point
    | none => .error (.invalid "unrecognised EC point encoding")

def coordinate (n : Nat) : Except PublicKeyError Bytes :=
  if (BigEndian.digits n).length ≤ coordinateLength then
    .ok (BigEndian.padded coordinateLength n)
  else .error (.invalid "EC coordinate longer than 32 bytes")

def toBits : CurvePoint → Except PublicKeyError BitString
  | uncompressed x y => do
    let x ← coordinate x
    let y ← coordinate y
    return .ofWholeOctets (0x04 :: x ++ y)
  | compressed x yIsEven => do
    let x ← coordinate x
    return .ofWholeOctets ((if yIsEven then 0x02 else 0x03) :: x)

def toJson : CurvePoint → Json
  | uncompressed x y =>
    .variant "Uncompressed" (.object [("x", .text (Hex.ofNat x)), ("y", .text (Hex.ofNat y))])
  | compressed x yIsEven =>
    .variant "Compressed" (.object [("x", .text (Hex.ofNat x)), ("y_is_even", .bool yIsEven)])

end CurvePoint

inductive PublicKey where
  | rsa (key : RsaPublicKey)
  | ellipticCurve (point : CurvePoint)
deriving DecidableEq, Repr

namespace PublicKey

def toBits : PublicKey → Except PublicKeyError BitString
  | rsa key => key.toBits
  | ellipticCurve point => point.toBits

def toJson : PublicKey → Json
  | rsa key => .variant "Rsa" key.toJson
  | ellipticCurve point => .variant "EllipticCurve" point.toJson

/-- The key in `bits`, for the two algorithms whose keys are decoded. An elliptic curve key needs a
named curve. -/
def decode? (algorithm : AlgorithmIdentifier) (bits : BitString) :
    Option (Except PublicKeyError PublicKey) :=
  if algorithm.algorithm.text = rsaEncryption then some ((RsaPublicKey.ofBits bits).map rsa)
  else if algorithm.algorithm.text = ecPublicKey then
    if algorithm.namedCurve?.isNone then some (.error (.invalid "EC key without a named curve"))
    else some ((CurvePoint.ofBits bits).map ellipticCurve)
  else none

end PublicKey

structure SubjectPublicKeyInfo where
  algorithm : AlgorithmIdentifier
  bits : BitString
  key : Option PublicKey
deriving DecidableEq

namespace SubjectPublicKeyInfo

def ofBits (algorithm : AlgorithmIdentifier) (bits : BitString) : SubjectPublicKeyInfo :=
  ⟨algorithm, bits, (PublicKey.decode? algorithm bits).bind Except.toOption⟩

/-- One event for a key that should have been decoded and does not parse. -/
def undecodedEvents (algorithm : AlgorithmIdentifier) (bits : BitString) : List Event :=
  match PublicKey.decode? algorithm bits with
  | some (.error e) =>
    [⟨.trace, s!"{algorithm.nameOrOid} public key left undecoded: {e.message}"⟩]
  | _ => []

/-- As `ofBits`, with its events. -/
def ofBitsLogged (algorithm : AlgorithmIdentifier) (bits : BitString) :
    Logged ε SubjectPublicKeyInfo :=
  ⟨undecodedEvents algorithm bits, .ok (ofBits algorithm bits)⟩

/-- Takes the key as it is, whatever the algorithm. -/
def ofKey (algorithm : AlgorithmIdentifier) (key : PublicKey) :
    Except PublicKeyError SubjectPublicKeyInfo := do
  let bits ← key.toBits
  return ⟨algorithm, bits, some key⟩

def fieldsOfElement (element : Element) :
    Except ElementError (AlgorithmIdentifier × BitString) := do
  match ← element.asSequence with
  | [algorithm, bits] =>
    let algorithm ← AlgorithmIdentifier.ofElement algorithm
    let bits ← bits.value .bitString
    return (algorithm, bits)
  | elements => .error (.elementCount "SubjectPublicKeyInfo" 2 elements.length)

def ofElement (element : Element) : Logged ElementError SubjectPublicKeyInfo := do
  let (algorithm, bits) ← Logged.ofExcept (fieldsOfElement element)
  ofBitsLogged algorithm bits

def toElement (info : SubjectPublicKeyInfo) : Element :=
  .sequence [info.algorithm.toElement, .primitive .bitString info.bits]

def toJson (info : SubjectPublicKeyInfo) : Json :=
  .object [("algorithm", info.algorithm.toJson), ("subject_public_key", info.bits.toJson),
    ("decoded", .ofOption PublicKey.toJson info.key)]

end SubjectPublicKeyInfo

end DerCodec
