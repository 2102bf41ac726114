import DerCodec.Proofs.Growth

/-!
# Reading and writing again

To read octets and write the trees again is a normalisation: it cannot fail on octets that can be
read, the written form is read as the same trees, and it is written as itself. This holds of one
tree and of a run of trees.
-/

namespace DerCodec

/-- Octets in memory, where a count of octets is never more than a signed machine word. -/
def InMemory (bytes : Bytes) : Prop :=
  bytes.length < 2 ^ 63

instance (bytes : Bytes) : Decidable (InMemory bytes) :=
  inferInstanceAs (Decidable (_ < _))

/-- Twice as many octets as there are in memory can be counted in a length. -/
theorem InMemory.lt_of_le_double {bytes written : Bytes} (h : InMemory bytes)
    (growth : written.length ≤ 2 * bytes.length) : written.length < UInt64.size := by
  have half : 2 * 2 ^ 63 = UInt64.size := rfl
  unfold InMemory at h
  omega

namespace Element

/-- Reads one tree and writes it. -/
def normalize (bytes : Bytes) : Except ElementError Bytes := do
  let element ← decode bytes
  element.encode

/-- Reads a run of trees and writes it. -/
def normalizeAll (bytes : Bytes) : Except ElementError Bytes := do
  let elements ← decodeAll bytes
  encodeAll elements

/-! ## Runs of trees -/

theorem exists_encodeAll {elements : List Element} (h : ∀ element ∈ elements, element.WellFormed) :
    ∃ written, encodeAll elements = .ok written := by
  obtain ⟨tlvs, framed⟩ := exists_toTlvs fun element member =>
    exists_toTlv (wellFormed_iff.mp (h element member))
  exact ⟨Tlv.encodeAll tlvs, by simp [encodeAll, framed]⟩

theorem decodeAll_of_encodeAll {elements : List Element} {written : Bytes}
    (h : ∀ element ∈ elements, element.WellFormed) (octets : encodeAll elements = .ok written)
    (size : written.length < UInt64.size) : decodeAll written = .ok elements := by
  obtain ⟨tlvs, framed, same⟩ := Except.bind_eq_ok.mp octets
  obtain rfl := Except.ok.inj same
  have countable (tlv : Tlv) (member : tlv ∈ tlvs) : tlv.Countable :=
    Tlv.countable_of_encode (Nat.lt_of_le_of_lt (Tlv.length_encode_le_encodeAll member) size)
  have trees : ofTlvs tlvs = .ok elements := by
    rw [toTlvs_eq_mapM] at framed
    apply Except.mapM_inverse framed
    intro element among tlv member written
    exact ofTlvWithin_of_toTlv (wellFormed_iff.mp (h element among)) written
      (countable tlv member)
  rw [decodeAll, Tlv.decodeAll_encodeAll countable, Except.ok_mapError, Except.ok_bind, trees]

theorem wellFormed_of_decodeAll {bytes : Bytes} {elements : List Element}
    (h : decodeAll bytes = .ok elements) : ∀ element ∈ elements, element.WellFormed := by
  intro element member
  obtain ⟨tlvs, -, trees⟩ := Except.bind_eq_ok.mp h
  obtain ⟨tlv, -, read⟩ := Except.exists_of_mem_mapM trees member
  exact wellFormed_iff.mpr (wellFormedWithin_of_ofTlvWithin read)

/-! ## Normal forms -/

theorem normalize_of_decode {bytes : Bytes} {element : Element} (size : InMemory bytes)
    (h : decode bytes = .ok element) :
    ∃ written, element.encode = .ok written ∧ decode written = .ok element ∧
      normalize written = .ok written := by
  have valid := wellFormed_of_decode h
  obtain ⟨written, octets⟩ := exists_encode valid
  have countable := size.lt_of_le_double (length_encode_le_of_decode h octets)
  have again := decode_of_encode valid octets countable
  exact ⟨written, octets, again, by rw [normalize, again, Except.ok_bind, octets]⟩

theorem normalizeAll_of_decodeAll {bytes : Bytes} {elements : List Element} (size : InMemory bytes)
    (h : decodeAll bytes = .ok elements) :
    ∃ written, encodeAll elements = .ok written ∧ decodeAll written = .ok elements ∧
      normalizeAll written = .ok written := by
  have valid := wellFormed_of_decodeAll h
  obtain ⟨written, octets⟩ := exists_encodeAll valid
  have countable := size.lt_of_le_double (length_encodeAll_le_of_decodeAll h octets)
  have again := decodeAll_of_encodeAll valid octets countable
  exact ⟨written, octets, again, by rw [normalizeAll, again, Except.ok_bind, octets]⟩

/-- Whatever was read can be written, is read as the same again, and is written as itself from
then on. -/
theorem normalize_settles (bytes : Bytes) (size : InMemory bytes) :
    (∀ element, decode bytes = .ok element →
      ∃ written, element.encode = .ok written ∧ decode written = .ok element ∧
        normalize written = .ok written) ∧
    ∀ elements, decodeAll bytes = .ok elements →
      ∃ written, encodeAll elements = .ok written ∧ decodeAll written = .ok elements ∧
        normalizeAll written = .ok written := by
  constructor
  · intro element h
    exact normalize_of_decode size h
  · intro elements h
    exact normalizeAll_of_decodeAll size h

/-- A SEQUENCE with a padded length, of a time with one digit of its fraction and a padded
INTEGER. -/
def loose : Bytes :=
  [0x30, 0x81, 0x17, 0x18, 0x11, 0x32, 0x30, 0x32, 0x34, 0x30, 0x31, 0x30, 0x31, 0x30, 0x30, 0x30,
    0x30, 0x30, 0x30, 0x2e, 0x35, 0x5a, 0x02, 0x02, 0x00, 0x05]

/-- The same tree in the form that is written. -/
def tight : Bytes :=
  [0x30, 0x18, 0x18, 0x13, 0x32, 0x30, 0x32, 0x34, 0x30, 0x31, 0x30, 0x31, 0x30, 0x30, 0x30, 0x30,
    0x30, 0x30, 0x2e, 0x35, 0x30, 0x30, 0x5a, 0x02, 0x01, 0x05]

theorem normalize_loose : normalize loose = .ok tight ∧ normalize tight = .ok tight ∧
    normalizeAll (loose ++ [0x05, 0x00]) = .ok (tight ++ [0x05, 0x00]) ∧
    normalizeAll (tight ++ [0x05, 0x00]) = .ok (tight ++ [0x05, 0x00]) := by
  have one : normalize loose = .ok tight := Except.toOption_eq_some.mp (by decide +kernel)
  have run : normalizeAll (loose ++ [0x05, 0x00]) = .ok (tight ++ [0x05, 0x00]) :=
    Except.toOption_eq_some.mp (by decide +kernel)
  obtain ⟨element, tree, octets⟩ := Except.bind_eq_ok.mp one
  obtain ⟨elements, trees, octetsOfRun⟩ := Except.bind_eq_ok.mp run
  obtain ⟨written, same, -, settled⟩ := (normalize_settles loose (by decide)).1 element tree
  obtain ⟨writtenRun, sameRun, -, settledRun⟩ :=
    (normalize_settles (loose ++ [0x05, 0x00]) (by decide)).2 elements trees
  obtain rfl := Except.ok.inj (octets.symm.trans same)
  obtain rfl := Except.ok.inj (octetsOfRun.symm.trans sameRun)
  exact ⟨one, settled, run, settledRun⟩

end Element

end DerCodec
