import DerCodec.Json.Primitive

/-!
# Options for reading certificates
-/

namespace DerCodec

/-- What becomes of a recognised extension whose value cannot be read. -/
inductive ExtensionPolicy where
  /-- The certificate is refused. -/
  | strict
  /-- The extension is kept with its raw value. -/
  | lenient
deriving DecidableEq, Repr

namespace ExtensionPolicy

def name : ExtensionPolicy → String
  | strict => "strict"
  | lenient => "lenient"

def ofJson (json : Json) : Except JsonError ExtensionPolicy := do
  match ← json.asVariant with
  | "strict" => return strict
  | "lenient" => return lenient
  | _ => .error .form

end ExtensionPolicy

structure DecodeOptions where
  extensionPolicy : ExtensionPolicy := .strict
  /-- The most octets that a certificate may take. -/
  maxEncodedLength : Nat := 1048576
deriving DecidableEq, Repr

namespace DecodeOptions

def lengthOfJson : Json → Except JsonError Nat
  | .number n 0 => if 0 ≤ n ∧ n.toNat < UInt64.size then .ok n.toNat else .error .form
  | _ => .error .form

/-- Missing members take their default and unknown ones are passed over. -/
def ofJson : Json → Except JsonError DecodeOptions
  | .object members => do
    let default : DecodeOptions := {}
    let policy ← (Json.member? "extension_policy" members).mapM ExtensionPolicy.ofJson
    let length ← (Json.member? "max_encoded_len" members).mapM lengthOfJson
    return ⟨policy.getD default.extensionPolicy, length.getD default.maxEncodedLength⟩
  | _ => .error .form

def toJson (options : DecodeOptions) : Json :=
  .object [("extension_policy", .text options.extensionPolicy.name),
    ("max_encoded_len", .nat options.maxEncodedLength)]

end DecodeOptions

end DerCodec
