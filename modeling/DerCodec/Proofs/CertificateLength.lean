import DerCodec.Proofs.NormalForm
import DerCodec.Proofs.ShortestTree

/-!
# A certificate fits where it came from

The normal form of a tree leaves elements out and puts others in order, so it is written in no more
octets than the tree. A certificate with trimmed times alone is therefore written in no more octets
than it was read from, and is accepted again under the same options.
-/

namespace DerCodec

namespace Element

/-- Written in place of the other run of elements, this one takes no more octets. -/
def RunNoLonger (elements' elements : List Element) : Prop :=
  ∀ tlvs, toTlvs elements = .ok tlvs → ∃ tlvs', toTlvs elements' = .ok tlvs' ∧
    (Tlv.encodeAll tlvs').length ≤ (Tlv.encodeAll tlvs).length

/-- Written in place of the other element, this one takes no more octets. -/
def NoLonger (element' element : Element) : Prop :=
  ∀ tlv, toTlv element = .ok tlv → ∃ tlv', toTlv element' = .ok tlv' ∧
    tlv'.encode.length ≤ tlv.encode.length

theorem NoLonger.refl (element : Element) : NoLonger element element :=
  fun tlv framed => ⟨tlv, framed, Nat.le_refl _⟩

namespace RunNoLonger

theorem refl (elements : List Element) : RunNoLonger elements elements :=
  fun tlvs framed => ⟨tlvs, framed, Nat.le_refl _⟩

theorem trans {a b c : List Element} (h : RunNoLonger a b) (h' : RunNoLonger b c) :
    RunNoLonger a c := by
  intro tlvs framed
  obtain ⟨middle, framed', shorter'⟩ := h' tlvs framed
  obtain ⟨last, framed'', shorter''⟩ := h middle framed'
  exact ⟨last, framed'', Nat.le_trans shorter'' shorter'⟩

theorem cons {element' element : Element} {elements' elements : List Element}
    (first : NoLonger element' element) (rest : RunNoLonger elements' elements) :
    RunNoLonger (element' :: elements') (element :: elements) := by
  intro tlvs framed
  obtain ⟨front, own, more⟩ := Except.bind_eq_ok.mp framed
  obtain ⟨others, later, same⟩ := Except.bind_eq_ok.mp more
  obtain rfl := Except.ok.inj same
  obtain ⟨front', own', shorter⟩ := first front own
  obtain ⟨others', later', shorter'⟩ := rest others later
  refine ⟨front' :: others', by simp [toTlvs, own', later'], ?_⟩
  simp only [Tlv.encodeAll, List.flatMap_cons, List.length_append] at shorter' ⊢
  omega

theorem map {f : Element → Element} {elements : List Element}
    (each : ∀ element ∈ elements, NoLonger (f element) element) :
    RunNoLonger (elements.map f) elements := by
  induction elements with
  | nil => exact refl []
  | cons element elements ih =>
    obtain ⟨first, rest⟩ := List.forall_mem_cons.mp each
    exact cons first (ih rest)

theorem of_sublist {elements' elements : List Element} (h : elements'.Sublist elements) :
    RunNoLonger elements' elements := by
  induction h with
  | slnil => exact refl []
  | cons element _ ih =>
    intro tlvs framed
    obtain ⟨front, -, more⟩ := Except.bind_eq_ok.mp framed
    obtain ⟨others, later, same⟩ := Except.bind_eq_ok.mp more
    obtain rfl := Except.ok.inj same
    obtain ⟨tlvs', framed', shorter⟩ := ih others later
    refine ⟨tlvs', framed', ?_⟩
    simp only [Tlv.encodeAll, List.flatMap_cons, List.length_append] at shorter ⊢
    omega
  | cons_cons element _ ih => exact cons (.refl element) ih

theorem of_perm {elements' elements : List Element} (h : elements'.Perm elements) :
    RunNoLonger elements' elements := by
  intro tlvs framed
  rw [toTlvs_eq_mapM] at framed
  obtain ⟨tlvs', framed', order⟩ := List.perm_comp_forall₂ h (Except.mapM_eq_ok.mp framed)
  refine ⟨tlvs', ?_, Nat.le_of_eq (order.flatMap_right Tlv.encode).length_eq⟩
  rw [toTlvs_eq_mapM]
  exact Except.mapM_eq_ok.mpr framed'

theorem constructed {elements' elements : List Element} (h : RunNoLonger elements' elements)
    (tag : Tag) {tlv : Tlv} (framed : (toTlvs elements).map (Tlv.constructed tag) = .ok tlv) :
    ∃ tlv', (toTlvs elements').map (Tlv.constructed tag) = .ok tlv' ∧
      tlv'.encode.length ≤ tlv.encode.length := by
  obtain ⟨tlvs, run, rfl⟩ := Except.map_eq_ok.mp framed
  obtain ⟨tlvs', run', shorter⟩ := h tlvs run
  exact ⟨_, Except.map_eq_ok.mpr ⟨tlvs', run', rfl⟩, Tlv.length_encode_mono rfl shorter⟩

theorem sequence {elements' elements : List Element} (h : RunNoLonger elements' elements) :
    NoLonger (.sequence elements') (.sequence elements) :=
  fun _ => h.constructed _

theorem taggedList {elements' elements : List Element} (h : RunNoLonger elements' elements)
    (tag : Tag) : NoLonger (.taggedList tag elements') (.taggedList tag elements) :=
  fun _ => h.constructed tag

end RunNoLonger

end Element

open Element

/-! ## The three rewrites -/

theorem Extension.dropFalseFlag_noLonger (element : Element) :
    NoLonger (dropFalseFlag element) element := by
  unfold dropFalseFlag
  split
  · exact (RunNoLonger.of_sublist (by simp)).sequence
  · exact .refl element

namespace TbsCertificate

theorem dropFalseFlags_noLonger (field : Element) : NoLonger (dropFalseFlags field) field := by
  unfold dropFalseFlags
  split
  · split_ifs
    · refine RunNoLonger.taggedList (.cons (RunNoLonger.sequence (.map ?_)) (.refl [])) _
      exact fun extension _ => Extension.dropFalseFlag_noLonger extension
    · exact .refl _
  · exact .refl _

theorem orderOptional_perm (fields : List Element) : (orderOptional fields).Perm fields := by
  have sorted := List.mergeSort_perm (fields.drop (requiredCount fields)) tagOrder
  have whole := sorted.append_left (fields.take (requiredCount fields))
  rwa [List.take_append_drop] at whole

theorem normalForm_noLonger (element : Element) : NoLonger (normalForm element) element := by
  unfold normalForm
  split
  · rename_i fields
    have flags : RunNoLonger (fields.map dropFalseFlags) fields :=
      .map fun field _ => dropFalseFlags_noLonger field
    have order := RunNoLonger.of_perm (orderOptional_perm (fields.map dropFalseFlags))
    have version : RunNoLonger (dropFirstVersion (orderOptional (fields.map dropFalseFlags)))
        (orderOptional (fields.map dropFalseFlags)) := by
      unfold dropFirstVersion
      split_ifs
      · exact .of_sublist (List.tail_sublist _)
      · exact .refl _
    exact ((version.trans order).trans flags).sequence
  · exact .refl _

end TbsCertificate

namespace Certificate

theorem normalForm_noLonger (element : Element) : NoLonger (normalForm element) element := by
  unfold normalForm
  split
  · exact (RunNoLonger.cons (TbsCertificate.normalForm_noLonger _) (.refl _)).sequence
  · exact .refl _

/-- A certificate whose tree is trimmed is written in no more octets than it was read from, and
accepted again. -/
theorem decode_encode_of_trimmed {options : DecodeOptions} {bytes : Bytes}
    {certificate : Certificate} {tree : Element} (size : bytes.length < UInt64.size)
    (accepted : decode options bytes = .ok certificate) (decoded : Element.decode bytes = .ok tree)
    (trimmed : tree.Trimmed) : ∃ written, certificate.encode = .ok written ∧
      written.length ≤ bytes.length ∧ decode options written = .ok certificate := by
  obtain ⟨fits, tree', decoded', read⟩ := decode_eq_ok.mp accepted
  obtain rfl := Except.ok.inj (decoded.symm.trans decoded')
  have valid := Element.wellFormed_of_decode decoded
  have normal := wellFormed_normalForm valid
  obtain ⟨element, again⟩ := ofElement_normalForm valid read
  -- The tree itself is no longer than what it was read from, and its normal form no longer than it.
  obtain ⟨framed, node⟩ := exists_toTlv (Element.wellFormed_iff.mp valid)
  have whole : tree.encode = .ok framed.encode := by rw [Element.encode, node]; rfl
  have first := trimmed.length_encode_le decoded whole
  obtain ⟨framed', node', second⟩ := normalForm_noLonger tree framed node
  have octets : (normalForm tree).encode = .ok framed'.encode := by rw [Element.encode, node']; rfl
  have shorter := Nat.le_trans second first
  refine ⟨framed'.encode, by rw [encode, element, Except.ok_bind, octets], shorter, ?_⟩
  have back := Element.decode_of_encode normal octets (Nat.lt_of_le_of_lt shorter size)
  exact decode_eq_ok.mpr ⟨Nat.le_trans shorter fits, _, back, again⟩

/-- A tree is written in no more octets than any form of it exactly when it is trimmed. Then a
certificate in it fits again into the limit that it was accepted under. -/
theorem shortest_iff_trimmed {bytes : Bytes} {tree : Element} (size : InMemory bytes)
    (decoded : Element.decode bytes = .ok tree) :
    (∃ written, tree.encode = .ok written ∧
      ((∀ bytes', Element.decode bytes' = .ok tree → written.length ≤ bytes'.length) ↔
        tree.Trimmed)) ∧
    ∀ options certificate, decode options bytes = .ok certificate → tree.Trimmed →
      ∃ written, certificate.encode = .ok written ∧ written.length ≤ bytes.length ∧
        decode options written = .ok certificate := by
  constructor
  · have valid := Element.wellFormed_of_decode decoded
    obtain ⟨written, octets⟩ := Element.exists_encode valid
    have small := size.lt_of_le_double (Element.length_encode_le_of_decode decoded octets)
    exact ⟨written, octets, Element.length_encode_le_iff_trimmed valid octets small⟩
  · intro options certificate accepted trimmed
    have small : bytes.length < UInt64.size := Nat.lt_trans size (by decide)
    exact decode_encode_of_trimmed small accepted decoded trimmed

/-- A time with a thousandth and a zero after it, and a certificate without any fraction. -/
theorem shortest_iff_trimmed_reordered :
    let thousandth : Bytes := [0x30, 0x81, 0x16, 0x18, 0x14, 0x32, 0x30, 0x32, 0x34, 0x30, 0x31,
      0x30, 0x31, 0x30, 0x30, 0x30, 0x30, 0x30, 0x30, 0x2e, 0x31, 0x32, 0x35, 0x30, 0x5a]
    (∃ tree written, Element.decode thousandth = .ok tree ∧ tree.encode = .ok written ∧
      ∀ bytes, Element.decode bytes = .ok tree → written.length ≤ bytes.length) ∧
    ∃ certificate written, decode {} reordered = .ok certificate ∧
      certificate.encode = .ok written ∧ written.length ≤ reordered.length ∧
        decode {} written = .ok certificate := by
  intro thousandth
  have evaluated (bytes : Bytes)
      (h : (Element.decode bytes).toOption.map (fun tree => decide tree.Trimmed) = some true) :
      ∃ tree, Element.decode bytes = .ok tree ∧ tree.Trimmed := by
    obtain ⟨tree, read, trimmed⟩ := Option.map_eq_some_iff.mp h
    exact ⟨tree, Except.toOption_eq_some.mp read, of_decide_eq_true trimmed⟩
  constructor
  · obtain ⟨tree, read, trimmed⟩ := evaluated thousandth (by decide +kernel)
    obtain ⟨⟨written, octets, shortest⟩, -⟩ := shortest_iff_trimmed (by decide) read
    exact ⟨tree, written, read, octets, shortest.mpr trimmed⟩
  · obtain ⟨certificate, accepted, -⟩ := encode_reordered
    obtain ⟨tree, decoded, trimmed⟩ := evaluated reordered (by decide +kernel)
    obtain ⟨-, limited⟩ := shortest_iff_trimmed (by decide) decoded
    obtain ⟨written, octets, shorter, again⟩ := limited _ _ accepted trimmed
    exact ⟨certificate, written, accepted, octets, shorter, again⟩

/-! ## A fraction that grows -/

/-- A GeneralizedTime half a second after midnight, with one digit. -/
def halfSecond : Bytes :=
  [0x18, 0x11, 0x32, 0x30, 0x32, 0x34, 0x30, 0x31, 0x30, 0x31, 0x30, 0x30, 0x30, 0x30, 0x30, 0x30,
    0x2e, 0x35, 0x5a]

/-- A certificate that is valid from then on. -/
def fromHalfSecond : Bytes :=
  [0x30, 0x47, 0x30, 0x3c, 0x02, 0x01, 0x01, 0x30, 0x04, 0x06, 0x02, 0x2a, 0x03, 0x30, 0x00, 0x30,
    0x22] ++ halfSecond ++
  [0x17, 0x0d, 0x32, 0x35, 0x30, 0x31, 0x30, 0x31, 0x30, 0x30, 0x30, 0x30, 0x30, 0x30, 0x5a, 0x30,
    0x00, 0x30, 0x09, 0x30, 0x04, 0x06, 0x02, 0x2a, 0x03, 0x03, 0x01, 0x00, 0x30, 0x04, 0x06, 0x02,
    0x2a, 0x03, 0x03, 0x01, 0x00]

/-- The time is written in two octets more than it was read from, and so is the certificate, which
no longer fits into the limit that it was accepted under. -/
theorem halfSecond_grows :
    (∃ tree written, Element.decode halfSecond = .ok tree ∧ tree.encode = .ok written ∧
      halfSecond.length < written.length) ∧
    ∃ certificate written cause,
      decode { maxEncodedLength := fromHalfSecond.length } fromHalfSecond = .ok certificate ∧
      certificate.encode = .ok written ∧
      decode { maxEncodedLength := fromHalfSecond.length } written = .error cause := by
  have time : ((Element.decode halfSecond).toOption.bind fun tree =>
      tree.encode.toOption.map List.length) = some 21 := by decide +kernel
  have limited : ((decode { maxEncodedLength := fromHalfSecond.length }
      fromHalfSecond).toOption.bind fun certificate =>
        certificate.encode.toOption.map fun written =>
          (decode { maxEncodedLength := fromHalfSecond.length } written).toOption) =
      some none := by
    decide +kernel
  constructor
  · obtain ⟨tree, read, octets⟩ := Option.bind_eq_some_iff.mp time
    obtain ⟨written, octets, length⟩ := Option.map_eq_some_iff.mp octets
    refine ⟨tree, written, Except.toOption_eq_some.mp read, Except.toOption_eq_some.mp octets, ?_⟩
    rw [length]
    decide
  · obtain ⟨certificate, accepted, octets⟩ := Option.bind_eq_some_iff.mp limited
    obtain ⟨written, octets, refused⟩ := Option.map_eq_some_iff.mp octets
    have failed : ∃ cause,
        decode { maxEncodedLength := fromHalfSecond.length } written = .error cause := by
      rw [Except.exists_error_iff]
      rintro ⟨again, read⟩
      rw [read] at refused
      simp [Except.toOption] at refused
    obtain ⟨cause, refusal⟩ := failed
    exact ⟨certificate, written, cause, Except.toOption_eq_some.mp accepted,
      Except.toOption_eq_some.mp octets, refusal⟩

end Certificate

end DerCodec
