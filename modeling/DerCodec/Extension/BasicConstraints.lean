import DerCodec.Extension.Error
import DerCodec.Json.Primitive
import DerCodec.Schema

/-!
# Basic constraints

Whether the subject may issue certificates, and how many intermediate ones may follow its own.
-/

namespace DerCodec

structure BasicConstraints where
  isAuthority : Bool
  pathLength : Option UInt32
deriving DecidableEq, Repr

namespace BasicConstraints

def schema : Schema where
  name := "BasicConstraints"
  positional := [.defaulted "cA" Primitive.boolean.tag,
    .defaulted "pathLenConstraint" Primitive.integer.tag]
  optional := []
  extensible := false

def inElement (cause : ElementError) : ExtensionError :=
  .element (.value .basicConstraints) cause

def pathLengthOfElement (element : Element) : Except ExtensionError UInt32 := do
  let n ← (element.value .integer).mapError inElement
  match Integer.narrow? .unsigned32 n with
  | some n => .ok (UInt32.ofNat n.toNat)
  | none => .error .pathLengthRange

def ofElement (element : Element) : Except ExtensionError BasicConstraints := do
  let elements ← element.asSequence.mapError inElement
  let fields ← (schema.decode elements).mapError (inElement ∘ .schema)
  let isAuthority ← ((fields.positional? 0).mapM (Element.value .boolean)).mapError inElement
  let pathLength ← (fields.positional? 1).mapM pathLengthOfElement
  return ⟨isAuthority.getD false, pathLength⟩

/-- A false flag is the default and is left out. -/
def toElement (constraints : BasicConstraints) : Except ExtensionError Element := do
  let isAuthority : Option Element :=
    if constraints.isAuthority then some (.primitive .boolean true) else none
  let pathLength : Option Element :=
    constraints.pathLength.map fun n => .primitive .integer n.toNat
  let children ← (schema.encode [isAuthority, pathLength] []).mapError (inElement ∘ .schema)
  return .sequence children

def text (constraints : BasicConstraints) : String :=
  if constraints.isAuthority then
    match constraints.pathLength with
    | some n => s!"CA:TRUE, pathlen:{n.toNat}"
    | none => "CA:TRUE"
  else "CA:FALSE"

def toJson (constraints : BasicConstraints) : Json :=
  .object [("ca", .bool constraints.isAuthority),
    ("path_len_constraint", .ofOption (fun n => .nat n.toNat) constraints.pathLength)]

end BasicConstraints

end DerCodec
