import DerCodec.Base128
import DerCodec.Text.Hex

/-!
# Tags

A tag is a class, a flag that tells constructed from primitive elements, and a number. Two tags
are equal only when all three parts are, so the primitive tag `[0]` and the constructed tag `[0]`
differ. Numbers below 31 share one octet with the class and the flag; larger ones follow it in
base 128.
-/

namespace DerCodec

inductive TagClass where
  | universal
  | application
  | contextSpecific
  | privateUse
deriving DecidableEq, Repr, Ord

namespace TagClass

def bits : TagClass → UInt8
  | universal => 0x00
  | application => 0x40
  | contextSpecific => 0x80
  | privateUse => 0xc0

def ofOctet (octet : UInt8) : TagClass :=
  if octet < 0x40 then universal
  else if octet < 0x80 then application
  else if octet < 0xc0 then contextSpecific
  else privateUse

def label : TagClass → String
  | universal => "UNIVERSAL"
  | application => "APPLICATION"
  | contextSpecific => "CONTEXT"
  | privateUse => "PRIVATE"

end TagClass

structure Tag where
  tagClass : TagClass
  constructed : Bool
  number : UInt32
deriving DecidableEq, Repr, Ord

namespace Tag

def universal (number : UInt32) (constructed : Bool) : Tag :=
  ⟨.universal, constructed, number⟩

/-- The tag of an implicitly tagged primitive field. -/
def context (number : UInt32) : Tag :=
  ⟨.contextSpecific, false, number⟩

/-- The tag of an explicitly tagged field, or of an implicitly tagged list. -/
def contextConstructed (number : UInt32) : Tag :=
  ⟨.contextSpecific, true, number⟩

def withConstructed (tag : Tag) (constructed : Bool) : Tag :=
  { tag with constructed }

/-- The class and the flag, as they stand in the first octet. -/
def leadingBits (tag : Tag) : UInt8 :=
  tag.tagClass.bits + if tag.constructed then 0x20 else 0

/-- The whole tag in one octet, for numbers below 31. -/
def identifierOctet? (tag : Tag) : Option UInt8 :=
  if tag.number < 31 then some (tag.leadingBits + tag.number.toUInt8) else none

def encode (tag : Tag) : Bytes :=
  match tag.identifierOctet? with
  | some octet => [octet]
  | none => (tag.leadingBits + 31) :: Base128.encode tag.number.toNat

def form (tag : Tag) : String :=
  if tag.constructed then "constructed" else "primitive"

def text (tag : Tag) : String :=
  match tag.identifierOctet? with
  | some octet => "0x" ++ Hex.encode [octet]
  | none => s!"[{tag.tagClass.label} {tag.number.toNat}] {tag.form}"

end Tag

end DerCodec
