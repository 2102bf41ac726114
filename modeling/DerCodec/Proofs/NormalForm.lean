import DerCodec.Proofs.Certificate
import Mathlib.Data.List.Nodup

/-!
# The normal form of a certificate

Three things may differ between the tree that a certificate is read from and the one it is written
as: a first version that is written out, a false flag of an extension that is written out, and the
order of the fields after the public key. `Certificate.normalForm` settles these three and leaves
every other node as it is. A certificate is written as the normal form of its tree, and the normal
form is read as the same certificate.
-/

namespace DerCodec

/-! ## The three rewrites -/

/-- Leaves out the flag of an extension when it is false. -/
def Extension.dropFalseFlag : Element → Element
  | .sequence [oid, .primitive .boolean false, raw] => .sequence [oid, raw]
  | extension => extension

namespace TbsCertificate

/-- Leaves out the false flags of all extensions when the field holds them. -/
def dropFalseFlags : Element → Element
  | .taggedList tag [.sequence exts] =>
    if tag = extensionsTag then .taggedList tag [.sequence (exts.map Extension.dropFalseFlag)]
    else .taggedList tag [.sequence exts]
  | field => field

/-- How many fields there are up to the public key. -/
def requiredCount (fields : List Element) : Nat :=
  if fields.head?.map Element.tag = some versionTag then 7 else 6

def tagOrder (a b : Element) : Bool :=
  a.tag.number ≤ b.tag.number

/-- Puts the fields after the public key in the order of their tags. -/
def orderOptional (fields : List Element) : List Element :=
  fields.take (requiredCount fields) ++ (fields.drop (requiredCount fields)).mergeSort tagOrder

/-- Leaves out the version when it is the first one. -/
def dropFirstVersion (fields : List Element) : List Element :=
  if fields.head? = some (.explicit 0 (.primitive .integer 0)) then fields.tail else fields

def normalForm : Element → Element
  | .sequence fields => .sequence (dropFirstVersion (orderOptional (fields.map dropFalseFlags)))
  | other => other

end TbsCertificate

def Certificate.normalForm : Element → Element
  | .sequence (tbs :: rest) => .sequence (TbsCertificate.normalForm tbs :: rest)
  | other => other

/-! ## Extensions -/

namespace Extension

theorem dropFalseFlag_elementOf (oid : Oid) (flag : Option Bool) (raw : Bytes) :
    dropFalseFlag (elementOf oid flag raw) =
      elementOf oid (writtenFlag (flag.getD false)) raw := by
  rcases flag with - | - | - <;> rfl

/-- An extension is written as its element without a false flag, and read from that again. -/
theorem ofElement_dropFalseFlag {policy : ExtensionPolicy} {element : Element}
    {extension : Extension}
    (h : (ofElement policy element).result = .ok extension) :
    extension.toElement = .ok (dropFalseFlag element) ∧
      (ofElement policy (dropFalseFlag element)).result = .ok extension := by
  obtain ⟨⟨flag, rfl, critical⟩, value⟩ := ofElement_eq_ok.mp h
  rw [dropFalseFlag_elementOf, ← critical, toElement_eq]
  exact ⟨rfl, ofElement_eq_ok.mpr ⟨⟨_, rfl, (writtenFlag_getD _).symm⟩, value⟩⟩

theorem mapM_dropFalseFlag {policy : ExtensionPolicy} {elements : List Element}
    {exts : List Extension}
    (h : elements.mapM (fun e => (ofElement policy e).result) = .ok exts) :
    exts.mapM toElement = .ok (elements.map dropFalseFlag) ∧
      (elements.map dropFalseFlag).mapM (fun e => (ofElement policy e).result) = .ok exts := by
  simp only [Except.mapM_eq_ok, List.forall₂_map_left_iff, List.forall₂_map_right_iff] at h ⊢
  exact ⟨h.flip.imp fun _ _ read => (ofElement_dropFalseFlag read).1,
    h.imp fun _ _ read => (ofElement_dropFalseFlag read).2⟩

end Extension

theorem Extension.wellFormedWithin_dropFalseFlag {levels : Nat} {element : Element}
    (h : element.WellFormedWithin levels) : (dropFalseFlag element).WellFormedWithin levels := by
  unfold dropFalseFlag
  split
  · refine h.rebuild trivial ?_
    intro inner each child member
    apply each
    simp only [Element.children, List.mem_cons, List.not_mem_nil, or_false] at member ⊢
    exact member.imp_right .inr
  · exact h

/-! ## The signed part -/

namespace TbsCertificate

theorem dropFalseFlags_extensionsElement (exts : List Element) :
    (extensionsElement? exts).map dropFalseFlags =
      extensionsElement? (exts.map Extension.dropFalseFlag) := by
  unfold extensionsElement?
  by_cases empty : exts = []
  · simp [empty]
  · simp [empty, Element.explicit, dropFalseFlags, extensionsTag]

theorem map_dropFalseFlags_optionalSlots (tbs : TbsCertificate) (exts : List Element) :
    ((tbs.optionalSlots exts).filterMap id).map dropFalseFlags =
      (tbs.optionalSlots (exts.map Extension.dropFalseFlag)).filterMap id := by
  have slots : (tbs.optionalSlots exts).map (Option.map dropFalseFlags) =
      tbs.optionalSlots (exts.map Extension.dropFalseFlag) := by
    simp only [optionalSlots, List.map_cons, List.map_nil, Option.map_map,
      dropFalseFlags_extensionsElement]
    rfl
  rw [← slots, List.map_filterMap, List.filterMap_map]
  rfl

theorem map_dropFalseFlags_requiredElements (tbs : TbsCertificate) :
    tbs.requiredElements.map dropFalseFlags = tbs.requiredElements := rfl

theorem map_dropFalseFlags_version (version : Option Version) :
    (version.map versionElement).toList.map dropFalseFlags =
      (version.map versionElement).toList := by
  cases version <;> rfl

/-- The optional fields stand in the order of their tags, each once. -/
theorem sorted_optionalSlots (tbs : TbsCertificate) (exts : List Element) :
    ((tbs.optionalSlots exts).filterMap id).Pairwise fun a b => a.tag.number < b.tag.number := by
  unfold optionalSlots extensionsElement?
  cases tbs.issuerUniqueId <;> cases tbs.subjectUniqueId <;> split_ifs <;>
    simp [uniqueIdElement, Element.explicit, Element.tag, issuerUniqueIdTag, subjectUniqueIdTag,
      Tag.context, Tag.contextConstructed]

theorem tagOrder_trans (a b c : Element) (h : tagOrder a b) (h' : tagOrder b c) :
    tagOrder a c := by
  simp only [tagOrder, decide_eq_true_eq] at h h' ⊢
  exact UInt32.le_trans h h'

theorem tagOrder_total (a b : Element) : tagOrder a b || tagOrder b a := by
  simp only [tagOrder, Bool.or_eq_true, decide_eq_true_eq]
  exact UInt32.le_total a.tag.number b.tag.number

/-- Sorting fields of different tags gives the one order that they have. -/
theorem mergeSort_eq_of_perm {fields sorted : List Element} (order : fields.Perm sorted)
    (increasing : sorted.Pairwise fun a b => a.tag.number < b.tag.number) :
    fields.mergeSort tagOrder = sorted := by
  have once : (sorted.map fun e => e.tag.number).Nodup :=
    (List.pairwise_map.mpr increasing).imp UInt32.ne_of_lt
  have ascending : sorted.Pairwise (tagOrder · ·) := by
    refine increasing.imp ?_
    intro a b less
    simpa [tagOrder] using UInt32.le_of_lt less
  have permuted := (List.mergeSort_perm fields tagOrder).trans order
  refine permuted.eq_of_pairwise ?_ (List.pairwise_mergeSort tagOrder_trans tagOrder_total fields)
    ascending
  intro a b among among' less less'
  simp only [tagOrder, decide_eq_true_eq] at less less'
  exact List.inj_on_of_nodup_map once (permuted.mem_iff.mp among) among'
    (UInt32.le_antisymm less less')

/-- The rewrites turn any form in which a signed part is read into the one that is written. -/
theorem normalForm_sequence (tbs : TbsCertificate) (version : Option Version)
    {rest exts : List Element} (order : rest.Perm ((tbs.optionalSlots exts).filterMap id)) :
    normalForm (.sequence ((version.map versionElement).toList ++ tbs.requiredElements ++ rest)) =
      .sequence (((writtenVersion (version.getD .v1)).map versionElement).toList ++
        tbs.requiredElements ++
        (tbs.optionalSlots (exts.map Extension.dropFalseFlag)).filterMap id) := by
  have mapped : (rest.map dropFalseFlags).Perm
      ((tbs.optionalSlots (exts.map Extension.dropFalseFlag)).filterMap id) := by
    rw [← map_dropFalseFlags_optionalSlots]
    exact order.map dropFalseFlags
  have sorted := mergeSort_eq_of_perm mapped (tbs.sorted_optionalSlots _)
  simp only [normalForm, List.map_append, map_dropFalseFlags_version,
    map_dropFalseFlags_requiredElements]
  have ordered : orderOptional ((version.map versionElement).toList ++ tbs.requiredElements ++
      rest.map dropFalseFlags) = (version.map versionElement).toList ++ tbs.requiredElements ++
        (tbs.optionalSlots (exts.map Extension.dropFalseFlag)).filterMap id := by
    rw [← sorted]
    cases version <;> rfl
  rw [ordered]
  rcases version with - | - | - | - <;> rfl

theorem wellFormedWithin_dropFalseFlags {levels : Nat} {field : Element}
    (h : field.WellFormedWithin levels) : (dropFalseFlags field).WellFormedWithin levels := by
  unfold dropFalseFlags
  split
  · rename_i tag exts
    split_ifs
    · refine h.rebuild h.sound ?_
      intro inner each child member
      obtain rfl := List.mem_singleton.mp member
      refine (each _ (List.mem_singleton.mpr rfl)).rebuild trivial ?_
      intro inner each child member
      obtain ⟨extension, among, rfl⟩ := List.mem_map.mp member
      exact Extension.wellFormedWithin_dropFalseFlag (each extension among)
    · exact h
  · exact h

/-- Every field of the normal form is a field that was there, without its false flags. -/
theorem mem_normalForm {fields : List Element} {child : Element}
    (member : child ∈ dropFirstVersion (orderOptional (fields.map dropFalseFlags))) :
    ∃ field ∈ fields, dropFalseFlags field = child := by
  have ordered : child ∈ orderOptional (fields.map dropFalseFlags) := by
    unfold dropFirstVersion at member
    split_ifs at member
    · exact List.mem_of_mem_tail member
    · exact member
  rcases List.mem_append.mp ordered with front | back
  · exact List.mem_map.mp (List.mem_of_mem_take front)
  · exact List.mem_map.mp (List.mem_of_mem_drop (List.mem_mergeSort.mp back))

theorem wellFormedWithin_normalForm {levels : Nat} {element : Element}
    (h : element.WellFormedWithin levels) : (normalForm element).WellFormedWithin levels := by
  unfold normalForm
  split
  · refine h.rebuild trivial ?_
    intro inner each child member
    obtain ⟨field, among, rfl⟩ := mem_normalForm member
    exact wellFormedWithin_dropFalseFlags (each field among)
  · exact h

/-- A signed part is written as the normal form of its element, and read from that again. -/
theorem ofElement_normalForm {policy : ExtensionPolicy} {element : Element} {tbs : TbsCertificate}
    {levels : Nat} (valid : element.WellFormedWithin levels)
    (h : (ofElement policy element).result = .ok tbs) :
    tbs.toElement = .ok (normalForm element) ∧
      (ofElement policy (normalForm element)).result = .ok tbs := by
  have normal := wellFormedWithin_normalForm valid
  -- Reading names the three choices that a tree has, and the rewrites settle each of them.
  obtain ⟨canonical, version, rest, exts, rfl, default, order, read⟩ :=
    (ofElement_eq_ok fun child member => valid.child_sound member).mp h
  obtain ⟨written, again⟩ := Extension.mapM_dropFalseFlag read
  rw [normalForm_sequence tbs version order, default] at normal ⊢
  refine ⟨toElement_eq written, (ofElement_eq_ok fun child member => normal.child_sound member).mpr
    ⟨canonical, writtenVersion tbs.version, _, _, rfl, writtenVersion_getD _, .refl _, again⟩⟩

end TbsCertificate

/-! ## The whole certificate -/

namespace Certificate

theorem wellFormed_normalForm {element : Element} (h : element.WellFormed) :
    (normalForm element).WellFormed := by
  rw [Element.wellFormed_iff] at h ⊢
  unfold normalForm
  split
  · refine h.rebuild trivial ?_
    intro inner each child member
    rcases List.mem_cons.mp member with rfl | later
    · exact TbsCertificate.wellFormedWithin_normalForm (each _ List.mem_cons_self)
    · exact each child (List.mem_cons_of_mem _ later)
  · exact h

theorem ofElement_normalForm {policy : ExtensionPolicy} {element : Element}
    {certificate : Certificate} (valid : element.WellFormed)
    (h : (ofElement policy element).result = .ok certificate) :
    certificate.toElement = .ok (normalForm element) ∧
      (ofElement policy (normalForm element)).result = .ok certificate := by
  obtain ⟨tbs, rfl, read, canonical, same⟩ := ofElement_eq_ok.mp h
  have inner := (Element.wellFormed_iff.mp valid).child (List.mem_cons_self)
  obtain ⟨written, again⟩ := TbsCertificate.ofElement_normalForm inner read
  refine ⟨?_, ofElement_eq_ok.mpr ⟨_, rfl, again, canonical, same⟩⟩
  simp only [toElement, written, Except.ok_bind, Except.pure_def, normalForm]

/-- A certificate with version 1 and a false flag written out, and its optional fields in the
order [3], [2], [1]. -/
def reordered : Bytes :=
  [0x30, 0x5e, 0x30, 0x53, 0xa0, 0x03, 0x02, 0x01, 0x00, 0x02, 0x01, 0x01, 0x30, 0x04, 0x06, 0x02,
    0x2a, 0x03, 0x30, 0x00, 0x30, 0x1e, 0x17, 0x0d, 0x32, 0x34, 0x30, 0x31, 0x30, 0x31, 0x30, 0x30,
    0x30, 0x30, 0x30, 0x30, 0x5a, 0x17, 0x0d, 0x32, 0x35, 0x30, 0x31, 0x30, 0x31, 0x30, 0x30, 0x30,
    0x30, 0x30, 0x30, 0x5a, 0x30, 0x00, 0x30, 0x09, 0x30, 0x04, 0x06, 0x02, 0x2a, 0x03, 0x03, 0x01,
    0x00, 0xa3, 0x0e, 0x30, 0x0c, 0x30, 0x0a, 0x06, 0x02, 0x2a, 0x04, 0x01, 0x01, 0x00, 0x04, 0x01,
    0xaa, 0x82, 0x01, 0x00, 0x81, 0x01, 0x00, 0x30, 0x04, 0x06, 0x02, 0x2a, 0x03, 0x03, 0x01, 0x00]

/-- The same certificate in normal form. -/
def settled : Bytes :=
  [0x30, 0x56, 0x30, 0x4b, 0x02, 0x01, 0x01, 0x30, 0x04, 0x06, 0x02, 0x2a, 0x03, 0x30, 0x00, 0x30,
    0x1e, 0x17, 0x0d, 0x32, 0x34, 0x30, 0x31, 0x30, 0x31, 0x30, 0x30, 0x30, 0x30, 0x30, 0x30, 0x5a,
    0x17, 0x0d, 0x32, 0x35, 0x30, 0x31, 0x30, 0x31, 0x30, 0x30, 0x30, 0x30, 0x30, 0x30, 0x5a, 0x30,
    0x00, 0x30, 0x09, 0x30, 0x04, 0x06, 0x02, 0x2a, 0x03, 0x03, 0x01, 0x00, 0x81, 0x01, 0x00, 0x82,
    0x01, 0x00, 0xa3, 0x0b, 0x30, 0x09, 0x30, 0x07, 0x06, 0x02, 0x2a, 0x04, 0x04, 0x01, 0xaa, 0x30,
    0x04, 0x06, 0x02, 0x2a, 0x03, 0x03, 0x01, 0x00]

theorem encode_reordered : ∃ certificate,
    decode {} reordered = .ok certificate ∧ certificate.encode = .ok settled := by
  have result : ((decode {} reordered).toOption.bind fun certificate =>
      certificate.encode.toOption) = some settled := by decide +kernel
  obtain ⟨certificate, accepted, octets⟩ := Option.bind_eq_some_iff.mp result
  exact ⟨certificate, Except.toOption_eq_some.mp accepted, Except.toOption_eq_some.mp octets⟩

/-- A certificate that was read is written as the normal form of its tree: nothing else of the tree
is lost or changed. -/
theorem toElement_of_decode {options : DecodeOptions} {bytes : Bytes} {certificate : Certificate}
    (h : decode options bytes = .ok certificate) :
    ∃ tree, Element.decode bytes = .ok tree ∧ certificate.toElement = .ok (normalForm tree) := by
  obtain ⟨-, tree, decoded, read⟩ := decode_eq_ok.mp h
  exact ⟨tree, decoded, (ofElement_normalForm (Element.wellFormed_of_decode decoded) read).1⟩

theorem toElement_reordered : ∃ certificate tree, decode {} reordered = .ok certificate ∧
    Element.decode reordered = .ok tree ∧ certificate.toElement = .ok (normalForm tree) ∧
      (normalForm tree).encode = .ok settled := by
  obtain ⟨certificate, accepted, octets⟩ := encode_reordered
  obtain ⟨tree, decoded, written⟩ := toElement_of_decode accepted
  refine ⟨certificate, tree, accepted, decoded, written, ?_⟩
  simpa only [encode, written, Except.ok_bind] using octets

/-- A certificate that was read is written to octets that are read as the same certificate, as long
as a machine word can hold their count. -/
theorem decode_encode_of_decode {options : DecodeOptions} {bytes : Bytes}
    {certificate : Certificate} (h : decode options bytes = .ok certificate) :
    ∃ written, certificate.encode = .ok written ∧ ∀ options' : DecodeOptions,
      options'.extensionPolicy = options.extensionPolicy →
        written.length ≤ options'.maxEncodedLength → written.length < UInt64.size →
          decode options' written = .ok certificate := by
  obtain ⟨-, tree, decoded, read⟩ := decode_eq_ok.mp h
  have valid := Element.wellFormed_of_decode decoded
  have normal := wellFormed_normalForm valid
  obtain ⟨element, again⟩ := ofElement_normalForm valid read
  obtain ⟨written, octets⟩ := Element.exists_encode normal
  refine ⟨written, by simp only [encode, element, Except.ok_bind, octets], ?_⟩
  intro options' policy size countable
  refine decode_eq_ok.mpr ⟨size, _, Element.decode_of_encode normal octets countable, ?_⟩
  rw [policy]
  exact again

theorem decode_settled : ∃ certificate, decode {} reordered = .ok certificate ∧
    certificate.encode = .ok settled ∧ decode {} settled = .ok certificate := by
  obtain ⟨certificate, accepted, octets⟩ := encode_reordered
  obtain ⟨written, same, stable⟩ := decode_encode_of_decode accepted
  obtain rfl := Except.ok.inj (octets.symm.trans same)
  exact ⟨certificate, accepted, octets, stable {} rfl (by decide) (by decide)⟩

end Certificate

end DerCodec
