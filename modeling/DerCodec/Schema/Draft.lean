import DerCodec.Schema

/-!
# Supplying fields one by one

A draft collects what is supplied for the fields of a schema, entry by entry: for the next
positional field, or for the optional field known by a tag. A draft is laid out as the schema writes
what it holds.
-/

namespace DerCodec.Schema

/-- What is supplied at a time. A positional field for which nothing is supplied is absent, and an
optional one is left out. -/
inductive Entry where
  | positional (element : Option Element)
  | optional (tag : Tag) (element : Option Element)
deriving DecidableEq

structure Draft where
  schema : Schema
  positional : List (Option Element)
  optional : List (Tag × Element)

namespace Draft

def add (draft : Draft) : Entry → Draft
  | .positional element => { draft with positional := draft.positional ++ [element] }
  | .optional tag (some element) => { draft with optional := draft.optional ++ [(tag, element)] }
  | .optional _ none => draft

def addAll (draft : Draft) (entries : List Entry) : Draft :=
  entries.foldl add draft

def layOut (draft : Draft) : Except SchemaError (List Element) :=
  draft.schema.encode draft.positional (draft.optional.map (Prod.map id some))

end Draft

def emptyDraft (schema : Schema) : Draft :=
  ⟨schema, [], []⟩

/-- Lays out the entries, supplied in the order of the list. -/
def layOut (schema : Schema) (entries : List Entry) : Except SchemaError (List Element) :=
  (schema.emptyDraft.addAll entries).layOut

end DerCodec.Schema
