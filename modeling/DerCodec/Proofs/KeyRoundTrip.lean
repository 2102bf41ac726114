import DerCodec.Proofs.ExtendedValueGrammar
import DerCodec.Proofs.IntegerContent
import DerCodec.Proofs.KeyBits

/-!
# Keys and bits that stand for each other

A point on a curve has one bit string at most, and that one is read as the point. An RSA key always
has one, but its integers and lengths may be padded: the bit string that is written is the shortest
of those that are read as the key.
-/

namespace DerCodec

/-! ## Trees with one shortest form -/

namespace Element

/-- Whatever the element is read from, it is written under the same tag in that content or in a
shorter one. -/
def WrittenShortest (element : Element) : Prop :=
  ∀ levels tlv written, ofTlvWithin levels tlv = .ok element → toTlv element = .ok written →
    written.tag = tlv.tag ∧ Condenses written.content tlv.content

theorem writtenShortest_integer (n : Int) : (primitive .integer n).WrittenShortest := by
  intro levels tlv written read h
  obtain rfl := Except.ok.inj h
  cases levels with
  | zero => simp [ofTlvWithin] at read
  | succ levels =>
    cases nodeOf_of_ofTlvWithin read with
    | primitive decoded =>
      exact ⟨rfl, Integer.condenses_of_decode decoded⟩

/-- What holds of each child holds of the run of them. -/
theorem condenses_encodeAll {levels : Nat} {children : List Element} {tlvs written : List Tlv}
    (each : ∀ child ∈ children, child.WrittenShortest)
    (read : tlvs.mapM (ofTlvWithin levels) = .ok children) (h : toTlvs children = .ok written) :
    Condenses (Tlv.encodeAll written) (Tlv.encodeAll tlvs) := by
  have runs := forall₂_of_toTlvs (fun child member => each child member levels) read h
  clear read h
  induction runs with
  | nil => exact .refl _
  | cons first _ ih =>
    simp only [Tlv.encodeAll, List.flatMap_cons]
    exact (Tlv.condenses_encode first.1 first.2).append ih

theorem writtenShortest_sequence {children : List Element}
    (each : ∀ child ∈ children, child.WrittenShortest) : (sequence children).WrittenShortest := by
  intro levels tlv written read h
  obtain ⟨nodes, run, rfl⟩ := Except.map_eq_ok.mp h
  cases levels with
  | zero => simp [ofTlvWithin] at read
  | succ levels =>
    obtain ⟨tlvs, ⟨tag, framed⟩, readEach⟩ := ofTlvWithin_eq_sequence.mp read
    have inner := condenses_encodeAll each readEach run
    exact ⟨tag.symm, inner.trans (Tlv.condenses_of_decodeAll framed)⟩

theorem WrittenShortest.condenses_of_decode {element : Element} (h : element.WrittenShortest)
    {bytes written : Bytes} (read : decode bytes = .ok element)
    (octets : element.encode = .ok written) : Condenses written bytes := by
  obtain ⟨tlv, framed, node⟩ := Except.bind_eq_ok.mp read
  obtain ⟨again, toNode, same⟩ := Except.bind_eq_ok.mp octets
  obtain rfl := Except.ok.inj same
  obtain ⟨tag, content⟩ := h _ _ _ node toNode
  have outer := Tlv.condenses_of_decode (Except.mapError_eq_ok.mp framed)
  exact (Tlv.condenses_encode tag content).trans outer

end Element

namespace RsaPublicKey

theorem writtenShortest_tree (key : RsaPublicKey) : key.tree.WrittenShortest := by
  apply Element.writtenShortest_sequence
  rw [List.forall_mem_cons, List.forall_mem_singleton]
  exact ⟨Element.writtenShortest_integer _, Element.writtenShortest_integer _⟩

theorem exists_toBits (key : RsaPublicKey) : ∃ bits, key.toBits = .ok bits := by
  obtain ⟨octets, written⟩ := Element.exists_encode key.wellFormed_tree
  exact ⟨.ofWholeOctets octets, toBits_eq_ok.mpr ⟨rfl, written⟩⟩

theorem condenses_of_ofBits {key : RsaPublicKey} {bits other : BitString}
    (h : key.toBits = .ok bits) (read : ofBits other = .ok key) :
    Condenses bits.octets other.octets := by
  obtain ⟨-, written⟩ := toBits_eq_ok.mp h
  obtain ⟨-, tree⟩ := ofBits_eq_ok.mp read
  exact key.writtenShortest_tree.condenses_of_decode tree written

/-- Other bits that are read as the key are longer than those it is written as. -/
theorem eq_or_longer_of_ofBits {key : RsaPublicKey} {bits other : BitString}
    (h : key.toBits = .ok bits) (read : ofBits other = .ok key) :
    other = bits ∨ bits.octets.length < other.octets.length := by
  obtain ⟨whole, -⟩ := toBits_eq_ok.mp h
  obtain ⟨otherWhole, -⟩ := ofBits_eq_ok.mp read
  apply (condenses_of_ofBits h read).imp_left
  intro same
  rw [← BitString.ofWholeOctets_octets whole, same, BitString.ofWholeOctets_octets otherWhole]

end RsaPublicKey

namespace PublicKey

/-- A point is written when its coordinates fit 256 bits, and its bits are the only ones that are
read as it. Every RSA key is written and read back, and other bits that are read as it are longer
than those it is written as. -/
theorem toBits_ofBits_correspond :
    (∀ point : CurvePoint,
      (∃ bits, point.toBits = .ok bits) ↔ point.x < 2 ^ 256 ∧ ∀ y ∈ point.y?, y < 2 ^ 256) ∧
    (∀ (point : CurvePoint) (bits : BitString),
      CurvePoint.ofBits bits = .ok point ↔ point.toBits = .ok bits) ∧
    ∀ key : RsaPublicKey, ∃ bits, key.toBits = .ok bits ∧
      (bits.octets.length < UInt64.size → RsaPublicKey.ofBits bits = .ok key) ∧
      ∀ other, RsaPublicKey.ofBits other = .ok key →
        other = bits ∨ bits.octets.length < other.octets.length := by
  refine ⟨fun _ => CurvePoint.exists_toBits_iff, fun _ _ => CurvePoint.ofBits_eq_ok_iff_toBits, ?_⟩
  intro key
  obtain ⟨bits, written⟩ := key.exists_toBits
  exact ⟨bits, written, RsaPublicKey.ofBits_of_toBits written,
    fun _ => RsaPublicKey.eq_or_longer_of_ofBits written⟩

/-- A point with leading zeros in its coordinate, and an RSA key whose modulus is padded. -/
theorem toBits_ofBits_correspond_padded :
    CurvePoint.ofBits (.ofWholeOctets (0x03 :: List.replicate 31 0 ++ [0x07])) =
      .ok (.compressed 7 false) ∧
    ∃ bits, (⟨15, 3⟩ : RsaPublicKey).toBits = .ok bits ∧ RsaPublicKey.ofBits bits = .ok ⟨15, 3⟩ ∧
      RsaPublicKey.ofBits (.ofWholeOctets [0x30, 0x07, 0x02, 0x02, 0x00, 0x0f, 0x02, 0x01, 0x03]) =
        .ok ⟨15, 3⟩ ∧ bits.octets.length < 9 := by
  obtain ⟨-, points, keys⟩ := toBits_ofBits_correspond
  obtain ⟨bits, written, read, longer⟩ := keys ⟨15, 3⟩
  have octets : (⟨15, 3⟩ : RsaPublicKey).tree.encode =
      .ok [0x30, 0x06, 0x02, 0x01, 0x0f, 0x02, 0x01, 0x03] :=
    Except.toOption_eq_some.mp (by decide +kernel)
  have held : bits.octets = [0x30, 0x06, 0x02, 0x01, 0x0f, 0x02, 0x01, 0x03] :=
    Except.ok.inj ((RsaPublicKey.toBits_eq_ok.mp written).2.symm.trans octets)
  have padded : RsaPublicKey.ofBits
      (.ofWholeOctets [0x30, 0x07, 0x02, 0x02, 0x00, 0x0f, 0x02, 0x01, 0x03]) = .ok ⟨15, 3⟩ :=
    Except.toOption_eq_some.mp (by decide +kernel)
  refine ⟨(points _ _).mpr (Except.toOption_eq_some.mp (by decide +kernel)), bits, written,
    read (by rw [held]; decide), padded, ?_⟩
  rcases longer _ padded with same | less
  · rw [← same] at held
    exact absurd held (by decide)
  · exact less

end PublicKey

end DerCodec
