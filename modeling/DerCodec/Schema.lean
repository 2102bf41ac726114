import DerCodec.Element.Access

/-!
# Schemas of field lists

A schema lists the positional fields of a SEQUENCE, taken in order from the front, and then the
optional fields, each known by its tag and accepted in any order. A positional field that may be
absent is there only when the next element carries its tag. Writing puts the positional fields in
order and the optional ones in the order of the schema.
-/

namespace DerCodec

structure Field where
  name : String
  /-- The tag that the field must carry, if it has a fixed one. -/
  tag? : Option Tag
  mayBeAbsent : Bool
deriving DecidableEq, Repr

namespace Field

def required (name : String) (tag : Tag) : Field := ⟨name, some tag, false⟩

/-- A required field of any tag, such as a choice. -/
def any (name : String) : Field := ⟨name, none, false⟩

def defaulted (name : String) (tag : Tag) : Field := ⟨name, some tag, true⟩

def optional (name : String) (tag : Tag) : Field := ⟨name, some tag, true⟩

def accepts (field : Field) (tag : Tag) : Bool :=
  match field.tag? with
  | some expected => expected == tag
  | none => true

end Field

structure Schema where
  name : String
  positional : List Field
  optional : List Field
  /-- Whether elements after the positional ones that no field accepts are passed over. -/
  extensible : Bool
deriving DecidableEq, Repr

/-- What a schema found in an element list: one slot for each of its fields. -/
structure Fields where
  schema : Schema
  positional : List (Option Element)
  optional : List (Option Element)

namespace Schema

def mismatch (schema : Schema) (field : Field) (actual : Tag) : SchemaError :=
  .fieldTag schema.name field.name (field.tag?.getD actual) actual

/-! ## Reading -/

/-- Fills the slots of the positional fields and returns the elements left over. -/
def takePositional (schema : Schema) :
    List Field → List Element → Except SchemaError (List (Option Element) × List Element)
  | [], elements => .ok ([], elements)
  | field :: fields, elements =>
    match elements with
    | element :: rest =>
      if field.accepts element.tag then do
        let (slots, rest) ← takePositional schema fields rest
        return (some element :: slots, rest)
      else if field.mayBeAbsent then do
        let (slots, rest) ← takePositional schema fields elements
        return (none :: slots, rest)
      else .error (schema.mismatch field element.tag)
    | [] =>
      if field.mayBeAbsent then do
        let (slots, rest) ← takePositional schema fields []
        return (none :: slots, rest)
      else .error (.missingField schema.name field.name)

/-- Puts one element into the slot of the first optional field that accepts its tag. -/
def place (schema : Schema) (slots : List (Option Element)) (element : Element) :
    Except SchemaError (List (Option Element)) :=
  match schema.optional.findIdx? (·.accepts element.tag) with
  | some index =>
    if (slots.getD index none).isSome then .error (.duplicateField schema.name element.tag)
    else .ok (slots.set index (some element))
  | none =>
    if schema.extensible then .ok slots
    else .error (.unexpectedField schema.name element.tag)

def emptySlots (schema : Schema) : List (Option Element) :=
  List.replicate schema.optional.length none

def decode (schema : Schema) (elements : List Element) : Except SchemaError Fields := do
  let (positional, rest) ← schema.takePositional schema.positional elements
  let optional ← rest.foldlM schema.place schema.emptySlots
  return ⟨schema, positional, optional⟩

/-! ## Writing -/

/-- Checks the supplied positional elements against their fields, in order. -/
def layPositional (schema : Schema) :
    List Field → List (Option Element) → Except SchemaError (List Element)
  | [], _ => .ok []
  | field :: fields, supplied =>
    match supplied.head?.join with
    | some element =>
      if field.accepts element.tag then do
        let rest ← layPositional schema fields supplied.tail
        return element :: rest
      else .error (schema.mismatch field element.tag)
    | none =>
      if field.mayBeAbsent then layPositional schema fields supplied.tail
      else .error (.missingField schema.name field.name)

/-- Puts an element supplied for the field known by `tag` into its slot. -/
def supply (schema : Schema) (slots : List (Option Element)) (tag : Tag) (element : Element) :
    Except SchemaError (List (Option Element)) :=
  match schema.optional.findIdx? (·.tag? == some tag) with
  | none => .error (.unknownField schema.name tag)
  | some index =>
    if element.tag ≠ tag then
      .error (.fieldTag schema.name (((schema.optional[index]?).map Field.name).getD "?") tag
        element.tag)
    else if (slots.getD index none).isSome then .error (.duplicateField schema.name tag)
    else .ok (slots.set index (some element))

/-- Supplies every optional element that is there, in the order given. -/
def supplyAll (schema : Schema) (slots : List (Option Element)) :
    List (Tag × Option Element) → Except SchemaError (List (Option Element))
  | [] => .ok slots
  | (_, none) :: rest => supplyAll schema slots rest
  | (tag, some element) :: rest => do
    let slots ← schema.supply slots tag element
    supplyAll schema slots rest

/-- Lays out the elements supplied for the positional fields, one by one from the first, and those
supplied for optional fields by tag. -/
def encode (schema : Schema) (positional : List (Option Element))
    (optional : List (Tag × Option Element)) : Except SchemaError (List Element) := do
  let front ← schema.layPositional schema.positional positional
  let slots ← schema.supplyAll schema.emptySlots optional
  return front ++ slots.filterMap id

end Schema

namespace Fields

def positional? (fields : Fields) (index : Nat) : Option Element :=
  (fields.positional[index]?).join

def required (fields : Fields) (index : Nat) : Except SchemaError Element :=
  match fields.positional? index with
  | some element => .ok element
  | none =>
    let name := ((fields.schema.positional[index]?).map Field.name).getD "?"
    .error (.missingField fields.schema.name name)

/-- The element of the optional field known by `tag`. -/
def optional? (fields : Fields) (tag : Tag) : Option Element :=
  (fields.schema.optional.findIdx? (·.tag? == some tag)).bind fun index =>
    (fields.optional[index]?).join

end Fields

end DerCodec
