import DerCodec.Element

/-!
# Elements on the wire

`Element.decode` reads octets as exactly one tree and `Element.decodeAll` as a run of trees; no
node may lie more than 64 levels below its root. `Element.encode` writes the shortest form. String
types in a tree are written as they are; they are checked only when they are read or framed on
their own.
-/

namespace DerCodec

/-- The run of elements inside one that carries exactly `tag`. -/
def Tlv.childrenUnder (tag : Tag) (tlv : Tlv) : Except ElementError (List Tlv) :=
  if tlv.tag = tag then tlv.children.mapError .framing
  else .error (.unexpectedTag tag tlv.tag)

namespace Element

def depthLimit : Nat := 64

/-- Reads the children of a constructed element; their framing is checked before any of them. -/
def ofChildren (ofChild : Tlv → Except ElementError Element) (tlv : Tlv) :
    Except ElementError (List Element) := do
  let children ← tlv.children.mapError .framing
  children.mapM ofChild

/-- The tree of `tlv` with at most `levels` levels, counting the root. -/
def ofTlvWithin : Nat → Tlv → Except ElementError Element
  | 0, _ => .error (.nestingTooDeep depthLimit)
  | levels + 1, tlv =>
    if tlv.tag.tagClass = .universal then
      match Universal.ofNumber? tlv.tag.number with
      | none => .ok (.unknown tlv)
      | some type =>
        if tlv.tag = type.tag then
          match type with
          | .primitive type => (type.decode tlv.content).map (.primitive type)
          | .sequence => (ofChildren (ofTlvWithin levels) tlv).map .sequence
          | .set => (ofChildren (ofTlvWithin levels) tlv).map .set
        else .error (.unexpectedTag type.tag tlv.tag)
    else if tlv.tag.constructed then
      (ofChildren (ofTlvWithin levels) tlv).map (.taggedList tlv.tag)
    else .ok (.taggedOctets tlv.tag tlv.content)

def ofTlv (tlv : Tlv) : Except ElementError Element :=
  ofTlvWithin (depthLimit + 1) tlv

def ofTlvs (tlvs : List Tlv) : Except ElementError (List Element) :=
  tlvs.mapM ofTlv

/-- Frames a value that stands in a tree. -/
def valueToTlv : (type : Primitive) → type.Value → Except ElementError Tlv
  | .printableString, text => .ok ⟨Primitive.printableString.tag, Utf8.encode text⟩
  | .ia5String, text => .ok ⟨Primitive.ia5String.tag, Utf8.encode text⟩
  | type, value => type.encodeAs type.tag value

mutual

def toTlv : Element → Except ElementError Tlv
  | primitive type value => valueToTlv type value
  | sequence children => (toTlvs children).map (Tlv.constructed Universal.sequence.tag)
  | set children => (toTlvs children).map (Tlv.constructed Universal.set.tag)
  | taggedOctets tag content => .ok ⟨tag, content⟩
  | taggedList tag children => (toTlvs children).map (Tlv.constructed tag)
  | unknown tlv => .ok tlv

def toTlvs : List Element → Except ElementError (List Tlv)
  | [] => .ok []
  | element :: elements => do
    let tlv ← toTlv element
    let tlvs ← toTlvs elements
    return tlv :: tlvs

end

def decode (bytes : Bytes) : Except ElementError Element := do
  let tlv ← (Tlv.decode bytes).mapError .framing
  ofTlv tlv

def encode (element : Element) : Except ElementError Bytes := do
  let tlv ← toTlv element
  return tlv.encode

def decodeAll (bytes : Bytes) : Except ElementError (List Element) := do
  let tlvs ← (Tlv.decodeAll bytes).mapError .framing
  ofTlvs tlvs

def encodeAll (elements : List Element) : Except ElementError Bytes := do
  let tlvs ← toTlvs elements
  return Tlv.encodeAll tlvs

end Element

end DerCodec
