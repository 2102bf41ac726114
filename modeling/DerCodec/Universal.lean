import DerCodec.BitString
import DerCodec.Oid
import DerCodec.Tag
import DerCodec.TimeString

/-!
# Universal types

Twelve primitive types have a value of their own each; a SEQUENCE or a SET holds elements. Only
the lists are constructed in their canonical form. Other universal numbers name no type here.
-/

namespace DerCodec

inductive Primitive where
  | boolean
  | integer
  | bitString
  | octetString
  | null
  | oid
  | enumerated
  | utf8String
  | printableString
  | ia5String
  | utcTime
  | generalizedTime
deriving DecidableEq, Repr

namespace Primitive

/-- What the content of the type stands for. -/
@[reducible] def Value : Primitive → Type
  | boolean => Bool
  | integer => Int
  | bitString => BitString
  | octetString => Bytes
  | null => Unit
  | oid => Oid
  | enumerated => Int
  | utf8String => String
  | printableString => String
  | ia5String => String
  | utcTime => DateTime
  | generalizedTime => DateTime

instance (type : Primitive) : DecidableEq type.Value := by
  cases type <;> (simp only [Value]; infer_instance)

def number : Primitive → UInt32
  | boolean => 1
  | integer => 2
  | bitString => 3
  | octetString => 4
  | null => 5
  | oid => 6
  | enumerated => 10
  | utf8String => 12
  | printableString => 19
  | ia5String => 22
  | utcTime => 23
  | generalizedTime => 24

def tag (type : Primitive) : Tag :=
  .universal type.number false

def label : Primitive → String
  | boolean => "Boolean"
  | integer => "Integer"
  | bitString => "BitString"
  | octetString => "OctetString"
  | null => "Null"
  | oid => "ObjectIdentifier"
  | enumerated => "Enumerated"
  | utf8String => "UTF8String"
  | printableString => "PrintableString"
  | ia5String => "IA5String"
  | utcTime => "UTCTime"
  | generalizedTime => "GeneralizedTime"

/-- The spelling of the type in a module of ASN.1. -/
def formalName : Primitive → String
  | boolean => "BOOLEAN"
  | integer => "INTEGER"
  | bitString => "BIT STRING"
  | octetString => "OCTET STRING"
  | null => "NULL"
  | oid => "OBJECT IDENTIFIER"
  | enumerated => "ENUMERATED"
  | type => type.label

end Primitive

inductive Universal where
  | primitive (type : Primitive)
  | sequence
  | set
deriving DecidableEq, Repr

namespace Universal

def number : Universal → UInt32
  | primitive type => type.number
  | sequence => 16
  | set => 17

def tag : Universal → Tag
  | primitive type => type.tag
  | sequence => .universal 16 true
  | set => .universal 17 true

def label : Universal → String
  | primitive type => type.label
  | sequence => "Sequence"
  | set => "Set"

def all : List Universal :=
  [.primitive .boolean, .primitive .integer, .primitive .bitString, .primitive .octetString,
    .primitive .null, .primitive .oid, .primitive .enumerated, .primitive .utf8String, .sequence,
    .set, .primitive .printableString, .primitive .ia5String, .primitive .utcTime,
    .primitive .generalizedTime]

def ofNumber? (number : UInt32) : Option Universal :=
  all.find? fun type => type.number == number

end Universal

end DerCodec
