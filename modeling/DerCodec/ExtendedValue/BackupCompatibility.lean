import DerCodec.Json.Primitive
import DerCodec.Schema

/-!
# Compatibility of backups

The value asks whether a backup taken with one descriptor can be restored into the server described
by another. Descriptors are opaque octets from earlier operations.
-/

namespace DerCodec

structure BackupCompatibility where
  source : Bytes
  target : Bytes
deriving DecidableEq, Repr

namespace BackupCompatibility

def sourceTag : Tag := .context 0
def targetTag : Tag := .context 1

def schema : Schema where
  name := "IdentifyBackupCompatibilityProblemsRequest"
  positional := [.required "sourceDescriptor" sourceTag, .required "targetDescriptor" targetTag]
  optional := []
  extensible := false

def ofElements (elements : List Element) : Except ElementError BackupCompatibility := do
  let fields ← (schema.decode elements).mapError .schema
  let sourceField ← (fields.required 0).mapError .schema
  let source ← sourceField.decodeAs .octetString sourceTag
  let targetField ← (fields.required 1).mapError .schema
  let target ← targetField.decodeAs .octetString targetTag
  return ⟨source, target⟩

def toElements (request : BackupCompatibility) : Except ElementError (List Element) := do
  let source ← Element.implicit .octetString sourceTag request.source
  let target ← Element.implicit .octetString targetTag request.target
  (schema.encode [some source, some target] []).mapError .schema

def toJson (request : BackupCompatibility) : Json :=
  .object [("source_descriptor", OctetString.toJson request.source),
    ("target_descriptor", OctetString.toJson request.target)]

end BackupCompatibility

end DerCodec
