import DerCodec.Proofs.DecodedKey

/-!
# Keys and the bits they are written as

A key that can be written is read back from its bits. The coordinates of a point have a fixed width,
so leading zeros are not lost, and the first octet tells how many there are.
-/

namespace DerCodec

theorem BitString.ofWholeOctets_octets {bits : BitString} (whole : bits.unused = 0) :
    ofWholeOctets bits.octets = bits := by
  obtain ⟨unused, octets, _, _⟩ := bits
  obtain rfl : unused = 0 := whole
  rfl

/-! ## RSA keys -/

namespace RsaPublicKey

/-- The tree that the bits of the key hold. -/
def tree (key : RsaPublicKey) : Element :=
  .sequence [.primitive .integer key.modulus, .primitive .integer key.exponent]

theorem wellFormed_tree (key : RsaPublicKey) : key.tree.WellFormed := by
  rw [Element.wellFormed_iff, Element.depthLimit, tree, Element.wellFormedWithin_sequence,
    List.forall_mem_cons, List.forall_mem_singleton, Element.wellFormedWithin_primitive,
    Element.wellFormedWithin_primitive]
  exact ⟨trivial, trivial⟩

theorem toBits_eq_ok {key : RsaPublicKey} {bits : BitString} :
    key.toBits = .ok bits ↔ bits.unused = 0 ∧ key.tree.encode = .ok bits.octets := by
  simp only [toBits, tree, Except.bind_eq_ok, Except.mapError_eq_ok]
  constructor
  · rintro ⟨octets, written, same⟩
    obtain rfl := Except.ok.inj same
    exact ⟨rfl, written⟩
  · rintro ⟨whole, written⟩
    exact ⟨_, written, congrArg Except.ok (BitString.ofWholeOctets_octets whole)⟩

theorem ofBits_of_toBits {key : RsaPublicKey} {bits : BitString} (h : key.toBits = .ok bits)
    (size : bits.octets.length < UInt64.size) : ofBits bits = .ok key := by
  obtain ⟨whole, written⟩ := toBits_eq_ok.mp h
  exact ofBits_eq_ok.mpr ⟨whole, Element.decode_of_encode key.wellFormed_tree written size⟩

end RsaPublicKey

/-! ## Points on a curve -/

namespace CurvePoint

/-- A coordinate is written in the one way of its width that has its value. -/
theorem coordinate_eq_ok {n : Nat} {octets : Bytes} :
    coordinate n = .ok octets ↔
      octets.length = coordinateLength ∧ BigEndian.value octets = n := by
  unfold coordinate
  constructor
  · intro h
    split at h
    · rename_i small
      obtain rfl := Except.ok.inj h
      have bound : n < 256 ^ coordinateLength :=
        Nat.lt_of_lt_of_le (BigEndian.lt_pow_length_digits n)
          (Nat.pow_le_pow_right (by decide) small)
      exact ⟨BigEndian.length_padded _ n, BigEndian.value_padded bound⟩
    · exact nomatch h
  · rintro ⟨length, rfl⟩
    have small := BigEndian.length_digits_le (BigEndian.value_lt octets)
    rw [length] at small
    rw [if_pos small, ← length, BigEndian.padded_value]

theorem exists_coordinate_iff {n : Nat} :
    (∃ octets, coordinate n = .ok octets) ↔ n < 256 ^ coordinateLength := by
  simp only [coordinate_eq_ok]
  constructor
  · rintro ⟨octets, length, rfl⟩
    rw [← length]
    exact BigEndian.value_lt octets
  · intro bound
    exact ⟨_, BigEndian.length_padded _ n, BigEndian.value_padded bound⟩

theorem ofBits_of_toBits {point : CurvePoint} {bits : BitString} (h : point.toBits = .ok bits) :
    ofBits bits = .ok point := by
  cases point with
  | uncompressed x y =>
    obtain ⟨first, writtenX, rest⟩ := Except.bind_eq_ok.mp h
    obtain ⟨second, writtenY, same⟩ := Except.bind_eq_ok.mp rest
    obtain rfl := Except.ok.inj same
    obtain ⟨lengthX, valueX⟩ := coordinate_eq_ok.mp writtenX
    obtain ⟨lengthY, valueY⟩ := coordinate_eq_ok.mp writtenY
    refine ofBits_eq_ok.mpr ⟨rfl, ?_⟩
    have both : (first ++ second).length = 2 * coordinateLength := by
      rw [List.length_append, lengthX, lengthY, Nat.two_mul]
    rw [BitString.ofWholeOctets, List.cons_append, ofOctets?, if_pos both,
      List.take_left' lengthX, List.drop_left' lengthX, valueX, valueY]
  | compressed x yIsEven =>
    obtain ⟨octets, written, same⟩ := Except.bind_eq_ok.mp h
    obtain rfl := Except.ok.inj same
    obtain ⟨length, value⟩ := coordinate_eq_ok.mp written
    refine ofBits_eq_ok.mpr ⟨rfl, ?_⟩
    cases yIsEven <;>
      simp [BitString.ofWholeOctets, ofOctets?, length, value]

/-- Octets of a coordinate are written for their value. -/
theorem coordinate_value {octets : Bytes} (length : octets.length = coordinateLength) :
    coordinate (BigEndian.value octets) = .ok octets :=
  coordinate_eq_ok.mpr ⟨length, rfl⟩

theorem toBits_of_ofOctets? {octets : Bytes} {point : CurvePoint}
    (h : ofOctets? octets = some point) : point.toBits = .ok (.ofWholeOctets octets) := by
  unfold ofOctets? at h
  split at h
  · rename_i rest
    split_ifs at h with both
    obtain rfl := Option.some.inj h
    have first : (rest.take coordinateLength).length = coordinateLength := by
      rw [List.length_take]
      omega
    have second : (rest.drop coordinateLength).length = coordinateLength := by
      rw [List.length_drop]
      omega
    rw [toBits, coordinate_value first, coordinate_value second, Except.ok_bind, Except.ok_bind,
      List.cons_append, List.take_append_drop]
    rfl
  · split_ifs at h with length
    obtain rfl := Option.some.inj h
    rw [toBits, coordinate_value length]
    rfl
  · split_ifs at h with length
    obtain rfl := Option.some.inj h
    rw [toBits, coordinate_value length]
    rfl
  · simp at h

/-- A point and its bits determine each other. -/
theorem ofBits_eq_ok_iff_toBits {point : CurvePoint} {bits : BitString} :
    ofBits bits = .ok point ↔ point.toBits = .ok bits := by
  constructor
  · intro h
    obtain ⟨whole, found⟩ := ofBits_eq_ok.mp h
    rw [toBits_of_ofOctets? found, BitString.ofWholeOctets_octets whole]
  · exact ofBits_of_toBits

/-- A point is written when its coordinates fit their width. -/
theorem exists_toBits_iff {point : CurvePoint} :
    (∃ bits, point.toBits = .ok bits) ↔ point.x < 2 ^ 256 ∧ ∀ y ∈ point.y?, y < 2 ^ 256 := by
  have width : 2 ^ 256 = 256 ^ coordinateLength := rfl
  simp only [width, ← exists_coordinate_iff]
  cases point with
  | uncompressed x y =>
    simp only [toBits, Except.bind_eq_ok, CurvePoint.x, y?, Option.mem_some_iff, forall_eq']
    constructor
    · rintro ⟨bits, first, writtenX, second, writtenY, -⟩
      exact ⟨⟨first, writtenX⟩, second, writtenY⟩
    · rintro ⟨⟨first, writtenX⟩, second, writtenY⟩
      exact ⟨_, first, writtenX, second, writtenY, rfl⟩
  | compressed x yIsEven =>
    simp only [toBits, Except.bind_eq_ok, CurvePoint.x, y?]
    constructor
    · rintro ⟨bits, first, written, -⟩
      exact ⟨⟨first, written⟩, by simp⟩
    · rintro ⟨⟨first, written⟩, -⟩
      exact ⟨_, first, written, rfl⟩

end CurvePoint

/-! ## Keys of any kind -/

theorem PublicKey.heldBy_of_toBits {key : PublicKey} {bits : BitString}
    (h : key.toBits = .ok bits) (size : bits.octets.length < UInt64.size) : key.HeldBy bits := by
  cases key with
  | rsa pair => exact RsaPublicKey.ofBits_of_toBits h size
  | ellipticCurve point => exact CurvePoint.ofBits_of_toBits h

end DerCodec
