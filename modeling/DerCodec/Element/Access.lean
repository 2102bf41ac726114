import DerCodec.Element.Wire

/-!
# Reading and building fields

Explicit tagging wraps an element in a constructed tag. Implicit tagging replaces its tag: a
primitive value is then kept as raw content, and `Element.decodeAs` reads it back as the type that
the field has.
-/

namespace DerCodec.Element

/-! ## Building -/

def explicit (number : UInt32) (inner : Element) : Element :=
  taggedList (.contextConstructed number) [inner]

/-- A primitive value framed under `tag`. -/
def implicit (type : Primitive) (tag : Tag) (value : type.Value) :
    Except ElementError Element := do
  let tlv ← type.encodeAs tag value
  ofTlv tlv

/-- Elements under a constructed tag; a SEQUENCE or a SET when it is the tag of one. -/
def implicitList (tag : Tag) (children : List Element) : Element :=
  let tag := tag.withConstructed true
  if tag = Universal.sequence.tag then sequence children
  else if tag = Universal.set.tag then set children
  else taggedList tag children

/-! ## Reading -/

def unexpected (expected : String) (element : Element) : ElementError :=
  .unexpectedElement expected element.tag

/-- The value of an element of exactly the given type. -/
def value (type : Primitive) (element : Element) : Except ElementError type.Value :=
  match element with
  | primitive actual value =>
    if same : actual = type then .ok (same ▸ value)
    else .error (element.unexpected type.formalName)
  | _ => .error (element.unexpected type.formalName)

def asSequence : Element → Except ElementError (List Element)
  | sequence children => .ok children
  | element => .error (element.unexpected "SEQUENCE")

def asSet : Element → Except ElementError (List Element)
  | set children => .ok children
  | element => .error (element.unexpected "SET")

/-- The text of any of the three string types. -/
def text? : Element → Option String
  | primitive .utf8String text => some text
  | primitive .printableString text => some text
  | primitive .ia5String text => some text
  | _ => none

/-- The element read as a primitive type under `tag`, whatever type it has in the tree. -/
def decodeAs (type : Primitive) (tag : Tag) (element : Element) :
    Except ElementError type.Value := do
  let tlv ← toTlv element
  type.decodeAs tag tlv

def asPrimitive (type : Primitive) (element : Element) : Except ElementError type.Value :=
  element.decodeAs type type.tag

/-- The elements inside one that carries exactly `tag`. -/
def childrenUnder (tag : Tag) (element : Element) : Except ElementError (List Element) :=
  let mismatch : ElementError := .unexpectedTag tag element.tag
  match element with
  | sequence children => if element.tag = tag then .ok children else .error mismatch
  | set children => if element.tag = tag then .ok children else .error mismatch
  | taggedList actual children => if actual = tag then .ok children else .error mismatch
  | _ => .error mismatch

/-- The one element inside an explicit tag. -/
def explicitInner (number : UInt32) (element : Element) : Except ElementError Element := do
  match ← element.childrenUnder (.contextConstructed number) with
  | [inner] => .ok inner
  | children => .error (.elementCount "EXPLICIT tag" 1 children.length)

end DerCodec.Element
