import DerCodec.Framing

/-!
# Framed elements

A `Tlv` is a tag and the raw octets of its content. `Tlv.decode` reads exactly one, `Tlv.decodeAll`
a run of them, and `Tlv.children` the run inside a constructed one. `Tlv.encode` writes the
shortest form, and `Tlv.read` reads any valid form at the front of its input.
-/

namespace DerCodec

structure Tlv where
  tag : Tag
  content : Bytes
deriving DecidableEq, Repr

namespace Tlv

def encode (tlv : Tlv) : Bytes :=
  tlv.tag.encode ++ Length.encode tlv.content.length ++ tlv.content

def encodeAll (tlvs : List Tlv) : Bytes :=
  tlvs.flatMap encode

def encodedLength (tlv : Tlv) : Nat :=
  tlv.tag.encode.length + (Length.encode tlv.content.length).length + tlv.content.length

/-- The element whose content is the encoding of `children`, constructed whatever `tag` says. -/
def constructed (tag : Tag) (children : List Tlv) : Tlv :=
  ⟨tag.withConstructed true, encodeAll children⟩

def read (bytes : Bytes) : Except FramingError (Tlv × Bytes) := do
  let (tag, rest) ← Tag.read bytes
  let (length, rest) ← Length.read rest
  if rest.length < length then .error (.truncated length rest.length)
  else .ok (⟨tag, rest.take length⟩, rest.drop length)

/-- The element at the front and how many octets it takes. -/
def decodeFront (bytes : Bytes) : Except FramingError (Tlv × Nat) := do
  let (tlv, rest) ← read bytes
  return (tlv, bytes.length - rest.length)

def decode (bytes : Bytes) : Except FramingError Tlv := do
  let (tlv, used) ← decodeFront bytes
  if used = bytes.length then .ok tlv else .error (.trailing (bytes.length - used))

/-! ## Each step of a run leaves fewer octets -/

theorem readNumber_length {n : Nat} {bytes rest : Bytes} {number : Nat}
    (h : Tag.readNumber n bytes = .ok (number, rest)) : rest.length < bytes.length := by
  induction bytes generalizing n with
  | nil => simp [Tag.readNumber] at h
  | cons octet tail ih =>
    simp only [Tag.readNumber] at h
    split at h
    · simp at h
    · split at h
      · have := ih h
        simp only [List.length_cons]
        omega
      · simp only [Except.ok.injEq, Prod.mk.injEq] at h
        simp [← h.2]

theorem tagRead_length {bytes rest : Bytes} {tag : Tag} (h : Tag.read bytes = .ok (tag, rest)) :
    rest.length < bytes.length := by
  cases bytes with
  | nil => simp [Tag.read] at h
  | cons first tail =>
    simp only [Tag.read] at h
    split at h
    · simp only [Except.ok.injEq, Prod.mk.injEq] at h
      simp [← h.2]
    · cases hn : Tag.readNumber 0 tail with
      | error e => simp [hn, bind, Except.bind] at h
      | ok pair =>
        simp only [hn, bind, Except.bind, pure, Except.pure, Except.ok.injEq,
          Prod.mk.injEq] at h
        have := readNumber_length hn
        simp only [List.length_cons, ← h.2]
        omega

theorem lengthRead_length {bytes rest : Bytes} {n : Nat}
    (h : Length.read bytes = .ok (n, rest)) : rest.length < bytes.length := by
  cases bytes with
  | nil => simp [Length.read] at h
  | cons first tail =>
    simp only [Length.read] at h
    split at h
    · simp only [Except.ok.injEq, Prod.mk.injEq] at h
      simp [← h.2]
    · split at h
      · simp at h
      · split at h
        · simp at h
        · split at h
          · simp at h
          · simp only [Except.ok.injEq, Prod.mk.injEq] at h
            simp only [← h.2, List.length_drop, List.length_cons]
            omega

theorem read_length {bytes rest : Bytes} {tlv : Tlv} (h : read bytes = .ok (tlv, rest)) :
    rest.length < bytes.length := by
  simp only [read, bind, Except.bind] at h
  split at h
  · simp at h
  · rename_i tagged ht
    split at h
    · simp at h
    · rename_i sized hl
      split at h
      · simp at h
      · simp only [Except.ok.injEq, Prod.mk.injEq] at h
        have first := tagRead_length ht
        have second := lengthRead_length hl
        simp only [← h.2, List.length_drop]
        omega

/-- Elements one after the other until the octets are used up. -/
def decodeAll (bytes : Bytes) : Except FramingError (List Tlv) :=
  if bytes.isEmpty then .ok []
  else
    match h : read bytes with
    | .error e => .error e
    | .ok (tlv, rest) =>
      have : rest.length < bytes.length := read_length h
      (decodeAll rest).map (tlv :: ·)
termination_by bytes.length

def children (tlv : Tlv) : Except FramingError (List Tlv) :=
  if tlv.tag.constructed then decodeAll tlv.content else .error (.notConstructed tlv.tag)

end Tlv

end DerCodec
