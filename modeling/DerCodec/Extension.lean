import DerCodec.Certificate.Error
import DerCodec.Certificate.Options
import DerCodec.Event
import DerCodec.Extension.Value

/-!
# Certificate extensions

An extension has an identifier, a flag that makes it critical, and a value in octets. The octets
are kept as they are. A recognised identifier gives them a typed value too; a value that cannot be
read is an error under the strict policy, and is kept untyped under the lenient one.
-/

namespace DerCodec

inductive ExtensionValue where
  | typed (value : TypedExtension)
  | generic (octets : Bytes)
deriving DecidableEq

structure Extension where
  oid : Oid
  critical : Bool
  raw : Bytes
  value : ExtensionValue
deriving DecidableEq

namespace ExtensionValue

/-- The value of a recognised extension. -/
def parse? (oid : Oid) (raw : Bytes) : Option (Except ExtensionError TypedExtension) :=
  (ExtensionKind.ofOid? oid).map fun kind => TypedExtension.parse kind raw

def toJson : ExtensionValue → Except ElementError Json
  | typed value => value.toJson
  | generic octets => .ok (.variant "Generic" (OctetString.toJson octets))

end ExtensionValue

namespace Extension

def schema : Schema where
  name := "Extension"
  positional := [.required "extnID" Primitive.oid.tag,
    .defaulted "critical" Primitive.boolean.tag,
    .required "extnValue" Primitive.octetString.tag]
  optional := []
  extensible := false

def ofTyped (critical : Bool) (value : TypedExtension) : Except CertificateError Extension := do
  let oid := value.kind.oid
  let raw ← value.toOctets.mapError (.invalidExtension oid)
  return ⟨oid, critical, raw, .typed value⟩

/-- Kept untyped whatever its identifier. -/
def ofOctets (oid : Oid) (critical : Bool) (raw : Bytes) : Extension :=
  ⟨oid, critical, raw, .generic raw⟩

def isGeneric (ext : Extension) : Bool :=
  match ext.value with
  | .generic _ => true
  | .typed _ => false

def name? (oid : Oid) : Option String :=
  (ExtensionKind.ofOid? oid).map ExtensionKind.name

def typed? (ext : Extension) : Option TypedExtension :=
  match ext.value with
  | .typed value => some value
  | .generic _ => none

/-- Identifier, flag and octets, before the value is read. -/
def partsOfElement (element : Element) : Except CertificateError (Oid × Bool × Bytes) := do
  let elements ← element.asSequence.mapError (.inField "extension")
  let fields ← (schema.decode elements).mapError (.inField "extension" ∘ .schema)
  let oidField ← (fields.required 0).mapError (.inField "extnID" ∘ .schema)
  let oid ← (oidField.value .oid).mapError (.inField "extnID")
  let critical ← ((fields.positional? 1).mapM (Element.value .boolean)).mapError (.inField "critical")
  let rawField ← (fields.required 2).mapError (.inField "extnValue" ∘ .schema)
  let raw ← (rawField.value .octetString).mapError (.inField "extnValue")
  return (oid, critical.getD false, raw)

/-- Reads the value of an extension as the policy says. -/
def readValue (policy : ExtensionPolicy) (oid : Oid) (raw : Bytes) :
    Logged CertificateError ExtensionValue :=
  match ExtensionValue.parse? oid raw with
  | none => pure (.generic raw)
  | some (.ok value) => pure (.typed value)
  | some (.error cause) =>
    match policy with
    | .strict => .fail (.invalidExtension oid cause)
    | .lenient => do
      let name := (name? oid).getD "?"
      .emit .warn s!"keeping malformed {name} extension as generic: {cause.message}"
      return .generic raw

def ofElement (policy : ExtensionPolicy) (element : Element) :
    Logged CertificateError Extension := do
  let (oid, critical, raw) ← Logged.ofExcept (partsOfElement element)
  let value ← readValue policy oid raw
  return ⟨oid, critical, raw, value⟩

/-- A false flag is the default and is left out. -/
def toElement (ext : Extension) : Except ElementError Element := do
  let critical : Option Element :=
    if ext.critical then some (.primitive .boolean true) else none
  let children ← (schema.encode [some (.primitive .oid ext.oid), critical,
    some (.primitive .octetString ext.raw)] []).mapError .schema
  return .sequence children

def toJson (ext : Extension) : Except ElementError Json := do
  let value ← ext.value.toJson
  return .object [("oid", ext.oid.toJson), ("critical", .bool ext.critical), ("value", value)]

end Extension

end DerCodec
