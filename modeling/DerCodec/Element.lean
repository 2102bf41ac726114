import DerCodec.Element.Error
import DerCodec.Primitive

/-!
# Element trees

An `Element` is a typed value of a universal type, a list of elements, or an element whose type its
tag does not tell. Elements of another class keep their content as it is when they are primitive,
and are trees again when they are constructed; the field that holds one decides how to read it.
Universal types without a value here are kept as they are framed.
-/

namespace DerCodec

inductive Element where
  | primitive (type : Primitive) (value : type.Value)
  | sequence (children : List Element)
  | set (children : List Element)
  /-- An element of another class with raw content. -/
  | taggedOctets (tag : Tag) (content : Bytes)
  /-- An element of another class with elements in it. -/
  | taggedList (tag : Tag) (children : List Element)
  /-- An element of a universal type that has no value here. -/
  | unknown (tlv : Tlv)

namespace Element

def tag : Element → Tag
  | primitive type _ => type.tag
  | sequence _ => Universal.sequence.tag
  | set _ => Universal.set.tag
  | taggedOctets tag _ => tag
  | taggedList tag _ => tag
  | unknown tlv => tlv.tag

/-! ## Equality -/

mutual

def decEq : (a b : Element) → Decidable (a = b)
  | primitive type value, b =>
    match b with
    | primitive type' value' =>
      if same : type = type' then
        decidable_of_iff (same ▸ value = value') (by subst same; simp)
      else .isFalse fun h => same (by cases h; rfl)
    | sequence _ | set _ | taggedOctets .. | taggedList .. | unknown _ => .isFalse nofun
  | sequence children, b =>
    match b with
    | sequence children' =>
      match decEqList children children' with
      | .isTrue h => .isTrue (by rw [h])
      | .isFalse h => .isFalse fun e => h (by cases e; rfl)
    | primitive .. | set _ | taggedOctets .. | taggedList .. | unknown _ => .isFalse nofun
  | set children, b =>
    match b with
    | set children' =>
      match decEqList children children' with
      | .isTrue h => .isTrue (by rw [h])
      | .isFalse h => .isFalse fun e => h (by cases e; rfl)
    | primitive .. | sequence _ | taggedOctets .. | taggedList .. | unknown _ => .isFalse nofun
  | taggedOctets tag content, b =>
    match b with
    | taggedOctets tag' content' =>
      decidable_of_iff (tag = tag' ∧ content = content') (by simp)
    | primitive .. | sequence _ | set _ | taggedList .. | unknown _ => .isFalse nofun
  | taggedList tag children, b =>
    match b with
    | taggedList tag' children' =>
      if same : tag = tag' then
        match decEqList children children' with
        | .isTrue h => .isTrue (by rw [same, h])
        | .isFalse h => .isFalse fun e => h (by cases e; rfl)
      else .isFalse fun h => same (by cases h; rfl)
    | primitive .. | sequence _ | set _ | taggedOctets .. | unknown _ => .isFalse nofun
  | unknown tlv, b =>
    match b with
    | unknown tlv' => decidable_of_iff (tlv = tlv') (by simp)
    | primitive .. | sequence _ | set _ | taggedOctets .. | taggedList .. => .isFalse nofun

def decEqList : (a b : List Element) → Decidable (a = b)
  | [], [] => .isTrue rfl
  | [], _ :: _ => .isFalse nofun
  | _ :: _, [] => .isFalse nofun
  | a :: as, b :: bs =>
    match decEq a b with
    | .isTrue first =>
      match decEqList as bs with
      | .isTrue rest => .isTrue (by rw [first, rest])
      | .isFalse h => .isFalse fun e => h (by cases e; rfl)
    | .isFalse h => .isFalse fun e => h (by cases e; rfl)

end

instance : DecidableEq Element := decEq

/-! ## Display -/

def label : Element → String
  | primitive type _ => type.label
  | sequence _ => Universal.sequence.label
  | set _ => Universal.set.label
  | taggedOctets .. => "Tagged"
  | taggedList .. => "Tagged"
  | unknown _ => "Unimplemented"

/-- The value of a primitive type as it is shown. -/
def valueText : (type : Primitive) → type.Value → String
  | .boolean, value => if value then "true" else "false"
  | .integer, value => Integer.text value
  | .bitString, value => value.text
  | .octetString, value => Hex.encode value
  | .null, _ => ""
  | .oid, value => value.text
  | .enumerated, value => Integer.text value
  | .utf8String, value => value
  | .printableString, value => value
  | .ia5String, value => value
  | .utcTime, value => value.text ' '
  | .generalizedTime, value => value.text ' '

/-- One line: values in full, lists and content by their size only. -/
def text (element : Element) : String :=
  match element with
  | primitive .null _ => element.label
  | primitive type value => s!"{element.label}({valueText type value})"
  | sequence children => s!"{element.label}({children.length} elements)"
  | set children => s!"{element.label}({children.length} elements)"
  | taggedOctets tag content => s!"{element.label}({tag.text}, {content.length} bytes)"
  | taggedList tag children => s!"{element.label}({tag.text}, {children.length} elements)"
  | unknown tlv => s!"{element.label}({tlv.tag.text})"

end Element

end DerCodec
