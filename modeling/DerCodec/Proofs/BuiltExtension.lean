import DerCodec.Proofs.ExtensionPolicy
import DerCodec.Proofs.ExtensionRoundTrip

/-!
# Typed extensions that are built and read again

The constructor of a typed extension takes any value that can be written. What it built is read
again exactly when every list in the value has the members that readers ask for and the octets are
those of a tree at all: reading the octets gives the tree of another value of the same kind, with
other elements in the places that hold any element but with the same empty lists.
-/

namespace DerCodec

/-! ## Trees that are read again -/

namespace Element

/-- The second tree is read from what the first is written as. -/
def RereadAs (element read : Element) : Prop :=
  ∃ levels tlv, element.toTlv = .ok tlv ∧ tlv.Countable ∧ ofTlvWithin levels tlv = .ok read

theorem rereadAs_of_decode {element read : Element} {octets : Bytes}
    (written : element.encode = .ok octets) (size : octets.length < UInt64.size)
    (h : decode octets = .ok read) : element.RereadAs read := by
  obtain ⟨tlv, framed, same⟩ := Except.bind_eq_ok.mp written
  obtain rfl := Except.ok.inj same
  have countable := Tlv.countable_of_encode size
  simp only [decode, Tlv.decode_encode countable, Except.ok_mapError, Except.ok_bind] at h
  exact ⟨depthLimit + 1, tlv, framed, countable, h⟩

/-- A sound node without children is read as it was. -/
theorem RereadAs.eq_of_leaf {element read : Element} (h : element.RereadAs read)
    (sound : element.Sound) (leaf : element.children = []) : read = element := by
  obtain ⟨levels, tlv, written, countable, found⟩ := h
  cases levels with
  | zero => simp [ofTlvWithin] at found
  | succ levels =>
    have wellFormed : element.WellFormedWithin (levels + 1) :=
      wellFormedWithin_succ.mpr ⟨sound, by simp [leaf]⟩
    exact Except.ok.inj (found.symm.trans (ofTlvWithin_of_toTlv wellFormed written countable))

theorem RereadAs.oid {oid : Oid} {read : Element} (h : (primitive .oid oid).RereadAs read) :
    read = primitive .oid oid := by
  have ⟨_, _, written, _⟩ := h
  obtain ⟨content, octets, -⟩ := Except.bind_eq_ok.mp written
  exact h.eq_of_leaf (@Primitive.carries_of_encode .oid oid content (fun _ => rfl) octets) rfl

theorem forall₂_of_ofChildren {levels : Nat} {tag : Tag} {elements reads : List Element}
    {tlvs : List Tlv} (run : toTlvs elements = .ok tlvs)
    (countable : (Tlv.constructed tag tlvs).Countable)
    (h : ofChildren (ofTlvWithin levels) (.constructed tag tlvs) = .ok reads) :
    List.Forall₂ RereadAs elements reads := by
  obtain ⟨tlvs', cut, found⟩ := ofChildren_eq_ok.mp h
  rw [Tlv.children_constructed countable] at cut
  obtain rfl := Except.ok.inj cut
  have small : ∀ tlv ∈ tlvs, tlv.Countable := fun tlv member => countable.child member
  clear h cut countable
  rw [toTlvs_eq_mapM, Except.mapM_eq_ok] at run
  rw [Except.mapM_eq_ok] at found
  induction run generalizing reads with
  | nil =>
    cases found
    exact .nil
  | cons first _ ih =>
    obtain ⟨own, later⟩ := List.forall_mem_cons.mp small
    cases found with
    | cons step rest => exact .cons ⟨levels, _, first, own, step⟩ (ih rest later)

/-- The children of a constructed node are read again one by one. -/
theorem RereadAs.children {node : List Element → Element} {tag : Tag}
    (writes : ∀ elements, (node elements).toTlv = (toTlvs elements).map (Tlv.constructed tag))
    (reads : ∀ levels tlvs, ofTlvWithin (levels + 1) (.constructed tag tlvs) =
      (ofChildren (ofTlvWithin levels) (.constructed tag tlvs)).map node)
    {elements : List Element} {read : Element} (h : (node elements).RereadAs read) :
    ∃ elements', read = node elements' ∧ List.Forall₂ RereadAs elements elements' := by
  obtain ⟨levels, tlv, written, countable, found⟩ := h
  rw [writes] at written
  obtain ⟨tlvs, run, rfl⟩ := Except.map_eq_ok.mp written
  cases levels with
  | zero => simp [ofTlvWithin] at found
  | succ levels =>
    rw [reads] at found
    obtain ⟨elements', inner, rfl⟩ := Except.map_eq_ok.mp found
    exact ⟨elements', rfl, forall₂_of_ofChildren run countable inner⟩

theorem RereadAs.sequence {elements : List Element} {read : Element}
    (h : (sequence elements).RereadAs read) :
    ∃ elements', read = .sequence elements' ∧ List.Forall₂ RereadAs elements elements' :=
  h.children (fun _ => rfl) fun _ _ => rfl

theorem RereadAs.set {elements : List Element} {read : Element}
    (h : (set elements).RereadAs read) :
    ∃ elements', read = .set elements' ∧ List.Forall₂ RereadAs elements elements' :=
  h.children (fun _ => rfl) fun _ _ => rfl

theorem RereadAs.contextConstructed {number : UInt32} {elements : List Element} {read : Element}
    (h : (taggedList (.contextConstructed number) elements).RereadAs read) :
    ∃ elements', read = .taggedList (.contextConstructed number) elements' ∧
      List.Forall₂ RereadAs elements elements' :=
  h.children (fun _ => rfl) fun _ _ => rfl

/-- The tree that is read again is what another value is written as, one that is filled when the
first is. -/
def Keeps {ε α : Type} (write : α → Except ε Element) (Filled : α → Prop) : Prop :=
  ∀ a element read, write a = .ok element → element.RereadAs read →
    ∃ a', write a' = .ok read ∧ (Filled a' ↔ Filled a)

section Keeps

variable {ε α : Type} {write : α → Except ε Element} {Filled : α → Prop}

theorem Keeps.mapM (h : Keeps write Filled) {as : List α} {elements reads : List Element}
    (run : as.mapM write = .ok elements) (reread : List.Forall₂ RereadAs elements reads) :
    ∃ as', as'.mapM write = .ok reads ∧ List.Forall₂ (fun a' a => Filled a' ↔ Filled a) as' as := by
  rw [Except.mapM_eq_ok] at run
  induction run generalizing reads with
  | nil =>
    cases reread
    exact ⟨[], rfl, .nil⟩
  | cons step _ ih =>
    cases reread with
    | cons first rest =>
      obtain ⟨a', step', same⟩ := h _ _ _ step first
      obtain ⟨as', run', each⟩ := ih rest
      refine ⟨a' :: as', ?_, .cons same each⟩
      rw [List.mapM_cons, step', run']
      rfl

theorem Keeps.option (h : Keeps write Filled) {x : Option α} {slot read : Option Element}
    (run : x.mapM write = .ok slot) (reread : Option.Rel RereadAs slot read) :
    ∃ x' : Option α, x'.mapM write = .ok read ∧ ((∀ a ∈ x', Filled a) ↔ ∀ a ∈ x, Filled a) := by
  rcases Except.option_mapM_eq_ok.mp run with ⟨rfl, rfl⟩ | ⟨a, element, rfl, rfl, step⟩
  · cases reread
    exact ⟨none, rfl, Iff.rfl⟩
  · cases reread with
    | some first =>
      obtain ⟨a', step', same⟩ := h _ _ _ step first
      refine ⟨some a', Except.option_mapM_eq_ok.mpr (.inr ⟨a', _, rfl, rfl, step'⟩), ?_⟩
      simpa using same

end Keeps

/-- The elements of slots are read again slot by slot. -/
theorem exists_slots_of_forall₂ {slots : List (Option Element)} {reads : List Element}
    (h : List.Forall₂ RereadAs (slots.filterMap id) reads) :
    ∃ slots', reads = slots'.filterMap id ∧ List.Forall₂ (Option.Rel RereadAs) slots slots' := by
  induction slots generalizing reads with
  | nil =>
    cases h
    exact ⟨[], rfl, .nil⟩
  | cons slot slots ih =>
    cases slot with
    | none =>
      obtain ⟨slots', rfl, each⟩ := ih h
      exact ⟨none :: slots', rfl, .cons .none each⟩
    | some element =>
      cases h with
      | cons first rest =>
        obtain ⟨slots', rfl, each⟩ := ih rest
        exact ⟨some _ :: slots', rfl, .cons (.some first) each⟩

/-- A slot of raw content is read as it was. -/
theorem eq_of_rel_leaf {slot read : Option Element} (h : Option.Rel RereadAs slot read)
    (leaf : ∀ element ∈ slot, element.Sound ∧ element.children = []) : read = slot := by
  cases h with
  | none => rfl
  | some first =>
    obtain ⟨sound, childless⟩ := leaf _ rfl
    rw [first.eq_of_leaf sound childless]

theorem exists_map_of_forall₂ {α : Type} {f : α → Element}
    (each : ∀ a read, (f a).RereadAs read → ∃ a', read = f a') {as : List α}
    {reads : List Element} (h : List.Forall₂ RereadAs (as.map f) reads) :
    ∃ as' : List α, reads = as'.map f := by
  induction as generalizing reads with
  | nil =>
    cases h
    exact ⟨[], rfl⟩
  | cons a as ih =>
    cases h with
    | cons first rest =>
      obtain ⟨a', rfl⟩ := each _ _ first
      obtain ⟨as', rfl⟩ := ih rest
      exact ⟨a' :: as', rfl⟩

end Element

/-! ## Names -/

theorem NameAttribute.exists_of_rereadAs (attr : NameAttribute) (read : Element)
    (h : attr.toElement.RereadAs read) : ∃ attr' : NameAttribute, read = attr'.toElement := by
  obtain ⟨reads, rfl, each⟩ := h.sequence
  obtain ⟨type, rest, first, later, rfl⟩ := List.forall₂_cons_left_iff.mp each
  obtain ⟨value, rest, -, last, rfl⟩ := List.forall₂_cons_left_iff.mp later
  obtain rfl := List.forall₂_nil_left_iff.mp last
  obtain rfl := first.oid
  exact ⟨⟨attr.type, value⟩, rfl⟩

theorem RelativeName.exists_of_rereadAs (name : RelativeName) (read : Element)
    (h : name.toElement.RereadAs read) : ∃ name' : RelativeName, read = name'.toElement := by
  obtain ⟨reads, rfl, each⟩ := h.set
  obtain ⟨attributes, rfl⟩ := Element.exists_map_of_forall₂ NameAttribute.exists_of_rereadAs each
  exact ⟨⟨attributes⟩, rfl⟩

theorem Name.exists_of_rereadAs (name : Name) (read : Element)
    (h : name.toElement.RereadAs read) : ∃ name' : Name, read = name'.toElement := by
  obtain ⟨reads, rfl, each⟩ := h.sequence
  obtain ⟨relatives, rfl⟩ := Element.exists_map_of_forall₂ RelativeName.exists_of_rereadAs each
  exact ⟨⟨relatives⟩, rfl⟩

namespace GeneralName

theorem keeps : Element.Keeps toElement fun _ => True := by
  have leaf {type : Primitive} {number : UInt32} {value : type.Value} {element read : Element}
      (written : (Element.implicit type (.context number) value).mapError inElement = .ok element)
      (reread : element.RereadAs read) : read = element := by
    have framed := Except.mapError_eq_ok.mp written
    obtain ⟨content, -, rfl⟩ :=
      (Element.implicit_eq_ok (Element.context_foreign number) rfl).mp framed
    exact reread.eq_of_leaf ⟨Element.context_foreign number, rfl⟩ rfl
  intro name element read written reread
  suffices ∃ name', toElement name' = .ok read by simpa using this
  cases name with
  | other elements =>
    obtain rfl := Except.ok.inj written
    obtain ⟨reads, rfl, -⟩ := Element.RereadAs.contextConstructed reread
    exact ⟨other reads, rfl⟩
  | email address =>
    obtain rfl := leaf written reread
    exact ⟨_, written⟩
  | dns address =>
    obtain rfl := leaf written reread
    exact ⟨_, written⟩
  | x400 elements =>
    obtain rfl := Except.ok.inj written
    obtain ⟨reads, rfl, -⟩ := Element.RereadAs.contextConstructed reread
    exact ⟨x400 reads, rfl⟩
  | directory name =>
    obtain rfl := Except.ok.inj written
    obtain ⟨reads, rfl, each⟩ := Element.RereadAs.contextConstructed reread
    cases each with
    | cons first rest =>
      cases rest
      obtain ⟨name', rfl⟩ := name.exists_of_rereadAs _ first
      exact ⟨directory name', rfl⟩
  | ediParty elements =>
    obtain rfl := Except.ok.inj written
    obtain ⟨reads, rfl, -⟩ := Element.RereadAs.contextConstructed reread
    exact ⟨ediParty reads, rfl⟩
  | uri address =>
    obtain rfl := leaf written reread
    exact ⟨_, written⟩
  | ip address =>
    obtain rfl := @leaf .octetString 7 address.octets _ _ written reread
    exact ⟨_, written⟩
  | registeredId oid =>
    obtain rfl := leaf written reread
    exact ⟨_, written⟩

/-- A list is read again as one that is empty only when the first is. -/
theorem keeps_listUnder (number : UInt32) : Element.Keeps (listUnder number) (· ≠ []) := by
  intro names element read written reread
  obtain ⟨elements, run, rfl⟩ := Except.map_eq_ok.mp written
  obtain ⟨reads, rfl, each⟩ := reread.contextConstructed
  obtain ⟨names', run', same⟩ := keeps.mapM run each
  exact ⟨names', Except.map_eq_ok.mpr ⟨reads, run', rfl⟩, same.ne_nil_iff⟩

end GeneralName

/-! ## The other parts of a value -/

theorem DistributionPointName.keeps : Element.Keeps toElement Filled := by
  intro name element read written reread
  cases name with
  | fullName names =>
    obtain ⟨names', written', same⟩ :=
      GeneralName.keeps_listUnder 0 names element read written reread
    exact ⟨fullName names', written', same⟩
  | relativeToIssuer name =>
    obtain rfl := Except.ok.inj written
    obtain ⟨reads, rfl, each⟩ := Element.RereadAs.contextConstructed reread
    obtain ⟨attributes, rfl⟩ := Element.exists_map_of_forall₂ NameAttribute.exists_of_rereadAs each
    exact ⟨relativeToIssuer ⟨attributes⟩, rfl, Iff.rfl⟩

namespace DistributionPoint

theorem keeps_name : Element.Keeps nameToElement DistributionPointName.Filled := by
  intro name element read written reread
  obtain ⟨inner, step, rfl⟩ := Except.map_eq_ok.mp written
  obtain ⟨reads, rfl, each⟩ := Element.RereadAs.contextConstructed reread
  obtain ⟨inner', rest, first, last, rfl⟩ := List.forall₂_cons_left_iff.mp each
  obtain rfl := List.forall₂_nil_left_iff.mp last
  obtain ⟨name', step', same⟩ := DistributionPointName.keeps name inner inner' step first
  exact ⟨name', Except.map_eq_ok.mpr ⟨inner', step', rfl⟩, same⟩

theorem keeps : Element.Keeps toElement Filled := by
  intro point element read written reread
  obtain ⟨name, crlIssuer, first, third, rfl⟩ := toElement_eq_ok.mp written
  obtain ⟨reads, rfl, each⟩ := reread.sequence
  obtain ⟨_, rfl, slots⟩ := Element.exists_slots_of_forall₂ each
  cases slots with | @cons _ nameSlot _ _ atName slots =>
  cases slots with | @cons _ reasonsSlot _ _ atReasons slots =>
  cases slots with | @cons _ issuerSlot _ _ atIssuer slots =>
  cases slots
  obtain ⟨name', first', named⟩ := keeps_name.option first atName
  obtain ⟨crlIssuer', third', issued⟩ := (GeneralName.keeps_listUnder 2).option third atIssuer
  obtain rfl := Element.eq_of_rel_leaf atReasons
    (Option.forall_mem_map.mpr fun _ _ => ⟨⟨Element.context_foreign 1, rfl⟩, rfl⟩)
  refine ⟨⟨name', point.reasons, crlIssuer'⟩,
    toElement_eq_ok.mpr ⟨nameSlot, issuerSlot, first', third', rfl⟩, ?_⟩
  exact ⟨fun h => ⟨named.mp h.name, issued.mp h.crlIssuer⟩,
    fun h => ⟨named.mpr h.name, issued.mpr h.crlIssuer⟩⟩

end DistributionPoint

namespace AuthorityKeyIdentifier

theorem keeps : Element.Keeps toElement Filled := by
  intro key element read written reread
  obtain ⟨issuer, second, rfl⟩ := toElement_eq_ok.mp written
  obtain ⟨reads, rfl, each⟩ := reread.sequence
  obtain ⟨_, rfl, slots⟩ := Element.exists_slots_of_forall₂ each
  cases slots with | @cons _ identifierSlot _ _ atIdentifier slots =>
  cases slots with | @cons _ issuerSlot _ _ atIssuer slots =>
  cases slots with | @cons _ serialSlot _ _ atSerial slots =>
  cases slots
  obtain ⟨issuer', second', issued⟩ := (GeneralName.keeps_listUnder 1).option second atIssuer
  obtain rfl := Element.eq_of_rel_leaf atIdentifier
    (Option.forall_mem_map.mpr fun _ _ => ⟨⟨Element.context_foreign 0, rfl⟩, rfl⟩)
  obtain rfl := Element.eq_of_rel_leaf atSerial
    (Option.forall_mem_map.mpr fun _ _ => ⟨⟨Element.context_foreign 2, rfl⟩, rfl⟩)
  exact ⟨⟨key.keyIdentifier, issuer', key.serialNumber⟩,
    toElement_eq_ok.mpr ⟨issuerSlot, second', rfl⟩, issued⟩

end AuthorityKeyIdentifier

theorem BasicConstraints.eq_of_rereadAs {constraints : BasicConstraints} {element read : Element}
    (written : constraints.toElement = .ok element) (reread : element.RereadAs read) :
    read = element := by
  obtain rfl := Except.ok.inj (constraints.toElement_eq.symm.trans written)
  obtain ⟨reads, rfl, each⟩ := reread.sequence
  obtain ⟨_, rfl, slots⟩ := Element.exists_slots_of_forall₂ each
  cases slots with | @cons _ flagSlot _ _ atFlag slots =>
  cases slots with | @cons _ lengthSlot _ _ atLength slots =>
  cases slots
  have flagLeaf : ∀ element ∈ constraints.flagElement?,
      element.Sound ∧ element.children = [] := by
    intro element held
    obtain ⟨-, ⟨⟩⟩ := Option.ite_none_right_eq_some.mp held
    exact ⟨trivial, rfl⟩
  obtain rfl := Element.eq_of_rel_leaf atFlag flagLeaf
  obtain rfl := Element.eq_of_rel_leaf atLength
    (Option.forall_mem_map.mpr fun _ _ => ⟨trivial, rfl⟩)
  rfl

/-! ## The eight kinds -/

namespace TypedExtension

/-- The tree that is read again is what another value of the kind is written as. -/
theorem exists_of_rereadAs {value : TypedExtension} {element read : Element}
    (written : value.toElement = .ok element) (reread : element.RereadAs read) :
    ∃ value' : TypedExtension, value'.kind = value.kind ∧ value'.toElement = .ok read ∧
      (value'.Filled ↔ value.Filled) := by
  have names {list : List GeneralName} {element : Element}
      (written : (GeneralName.listToElements list).map .sequence = .ok element)
      (reread : element.RereadAs read) :
      ∃ list', (GeneralName.listToElements list').map .sequence = .ok read ∧
        (list' ≠ [] ↔ list ≠ []) := by
    obtain ⟨elements, run, rfl⟩ := Except.map_eq_ok.mp written
    obtain ⟨reads, rfl, each⟩ := reread.sequence
    obtain ⟨list', run', same⟩ := GeneralName.keeps.mapM run each
    exact ⟨list', Except.map_eq_ok.mpr ⟨reads, run', rfl⟩, same.ne_nil_iff⟩
  cases value with
  | authorityKeyIdentifier key =>
    obtain ⟨key', written', same⟩ := AuthorityKeyIdentifier.keeps key element read written reread
    exact ⟨authorityKeyIdentifier key', rfl, written', same⟩
  | basicConstraints constraints =>
    obtain rfl := BasicConstraints.eq_of_rereadAs written reread
    exact ⟨_, rfl, written, Iff.rfl⟩
  | crlDistributionPoints points =>
    obtain ⟨elements, run, rfl⟩ := Except.map_eq_ok.mp written
    obtain ⟨reads, rfl, each⟩ := reread.sequence
    obtain ⟨points', run', same⟩ := DistributionPoint.keeps.mapM run each
    refine ⟨crlDistributionPoints points', rfl, Except.map_eq_ok.mpr ⟨reads, run', rfl⟩, ?_⟩
    exact and_congr same.ne_nil_iff same.forall_mem_iff
  | extendedKeyUsage purposes =>
    obtain rfl := Except.ok.inj written
    obtain ⟨reads, rfl, each⟩ := Element.RereadAs.sequence reread
    obtain ⟨purposes', rfl⟩ := Element.exists_map_of_forall₂ (fun oid _ h => ⟨oid, h.oid⟩) each
    have same := each.ne_nil_iff.symm
    rw [ne_eq, ne_eq, List.map_eq_nil_iff, List.map_eq_nil_iff] at same
    exact ⟨extendedKeyUsage purposes', rfl, rfl, same⟩
  | issuerAltName list =>
    obtain ⟨list', written', same⟩ := names written reread
    exact ⟨issuerAltName list', rfl, written', same⟩
  | keyUsage usage =>
    obtain rfl := Except.ok.inj written
    obtain rfl := reread.eq_of_leaf trivial rfl
    exact ⟨_, rfl, rfl, Iff.rfl⟩
  | subjectAltName list =>
    obtain ⟨list', written', same⟩ := names written reread
    exact ⟨subjectAltName list', rfl, written', same⟩
  | subjectKeyIdentifier id =>
    obtain rfl := Except.ok.inj written
    obtain rfl := reread.eq_of_leaf trivial rfl
    exact ⟨_, rfl, rfl, Iff.rfl⟩

theorem exists_parse_iff {value : TypedExtension} {octets : Bytes}
    (written : value.toOctets = .ok octets) (size : octets.length < UInt64.size) :
    (∃ value', parse value.kind octets = .ok value') ↔
      value.Filled ∧ ∃ tree, Element.decode octets = .ok tree := by
  obtain ⟨element, step, encoded⟩ := Except.bind_eq_ok.mp written
  have framed := Except.mapError_eq_ok.mp encoded
  simp only [parse_eq_ok]
  constructor
  · rintro ⟨value', tree, read, found⟩
    obtain ⟨again, same, step', filled⟩ :=
      exists_of_rereadAs step (Element.rereadAs_of_decode framed size read)
    rw [← same] at found
    exact ⟨filled.mp ((ofElement_eq_ok step' value').mp found).2, tree, read⟩
  · rintro ⟨filled, tree, read⟩
    obtain ⟨again, same, step', keeps⟩ :=
      exists_of_rereadAs step (Element.rereadAs_of_decode framed size read)
    exact ⟨again, tree, read, same ▸ (ofElement_eq_ok step' again).mpr ⟨rfl, keeps.mpr filled⟩⟩

end TypedExtension

/-! ## The constructor -/

namespace Extension

theorem readValue_strict_eq_ok {kind : ExtensionKind} {raw : Bytes} {value : ExtensionValue} :
    (readValue .strict kind.oid raw).result = .ok value ↔
      ∃ typed, TypedExtension.parse kind raw = .ok typed ∧ value = .typed typed := by
  cases found : TypedExtension.parse kind raw with
  | error cause => simp [readValue, ExtensionValue.parse?, ExtensionKind.ofOid?_oid, found]
  | ok typed =>
    simp [readValue, ExtensionValue.parse?, ExtensionKind.ofOid?_oid, found, eq_comm]

/-- What the constructor built is read under the strict policy exactly when the lists in the value
have members and the octets are those of a tree, as they are for parts that can be read and a tree
that is not too deep. -/
theorem ofTyped_reread_iff {critical : Bool} {value : TypedExtension} {extension : Extension}
    (made : ofTyped critical value = .ok extension) (size : extension.raw.length < UInt64.size) :
    ((∃ value', TypedExtension.parse value.kind extension.raw = .ok value') ↔
      value.Filled ∧ ∃ tree, Element.decode extension.raw = .ok tree) ∧
    (∃ element, extension.toElement = .ok element ∧
      ((∃ extension', (ofElement .strict element).result = .ok extension') ↔
        value.Filled ∧ ∃ tree, Element.decode extension.raw = .ok tree)) ∧
    (value.Valid → ∃ tree, value.toElement = .ok tree ∧
      (tree.Shallow → Element.decode extension.raw = .ok tree)) := by
  obtain ⟨raw, written, rfl⟩ := ofTyped_eq_ok.mp made
  have parsed := TypedExtension.exists_parse_iff written size
  refine ⟨parsed, ⟨_, toElement_eq _, ?_⟩, ?_⟩
  · rw [← parsed, ofElement_elementOf]
    simp only [Except.map_eq_ok, readValue_strict_eq_ok]
    constructor
    · rintro ⟨-, -, ⟨typed, found, -⟩, -⟩
      exact ⟨typed, found⟩
    · rintro ⟨typed, found⟩
      exact ⟨_, _, ⟨typed, found, rfl⟩, rfl⟩
  · intro valid
    obtain ⟨tree, step, rooted⟩ := TypedExtension.exists_tree valid
    rw [TypedExtension.toOctets, step, Except.ok_bind, Except.mapError_eq_ok] at written
    exact ⟨tree, step, fun shallow => Element.decode_of_encode (rooted shallow) written size⟩

/-- Raw content under a constructed tag is read as elements, and the extension is accepted. -/
theorem ofTyped_misflagged :
    let value : TypedExtension :=
      .subjectAltName [.other [.taggedOctets (.contextConstructed 0) [0x05, 0x00]]]
    let raw : Bytes := [0x30, 0x06, 0xa0, 0x04, 0xa0, 0x02, 0x05, 0x00]
    ofTyped true value = .ok ⟨⟨[2, 5, 29, 17]⟩, true, raw, .typed value⟩ ∧
      raw.length < UInt64.size ∧
      ∃ value', TypedExtension.parse .subjectAltName raw = .ok value' := by
  intro value raw
  have made : ofTyped true value = .ok ⟨⟨[2, 5, 29, 17]⟩, true, raw, .typed value⟩ :=
    Except.toOption_eq_some.mp (by decide +kernel)
  have size : raw.length < UInt64.size := by decide
  have read : Element.decode raw =
      .ok (.sequence [.taggedList (.contextConstructed 0)
        [.taggedList (.contextConstructed 0) [.primitive .null ()]]]) :=
    Except.toOption_eq_some.mp (by decide +kernel)
  exact ⟨made, size, (ofTyped_reread_iff made size).1.mpr ⟨by decide, _, read⟩⟩

/-- A list of no purposes is taken by the constructor, and its octets are those of a tree, but they
are refused by the reader and under the strict policy. -/
theorem ofTyped_emptyPurposes : ∃ extension, ofTyped false (.extendedKeyUsage []) = .ok extension ∧
    (∃ tree, Element.decode extension.raw = .ok tree ∧ tree.Shallow) ∧
    TypedExtension.parse .extendedKeyUsage extension.raw = .error (.emptyList .extendedKeyUsage) ∧
    ∃ element, extension.toElement = .ok element ∧ (ofElement .strict element).result =
      .error (.invalidExtension extension.oid (.emptyList .extendedKeyUsage)) := by
  have read : Element.decode [0x30, 0x00] = .ok (.sequence []) :=
    Except.toOption_eq_some.mp (by decide +kernel)
  have shallow := (Element.wellFormed_iff_soundThroughout_and_shallow.mp
    (Element.wellFormed_of_decode read)).2
  have refused : TypedExtension.parse .extendedKeyUsage [0x30, 0x00] =
      .error (.emptyList .extendedKeyUsage) := by
    simp [TypedExtension.parse, read, TypedExtension.ofElement, TypedExtension.nonemptyList,
      Element.asSequence]
  have found : ExtensionValue.parse? ⟨[2, 5, 29, 37]⟩ [0x30, 0x00] =
      some (.error (.emptyList .extendedKeyUsage)) := by
    rw [← refused]
    exact congrArg (Option.map fun kind => TypedExtension.parse kind [0x30, 0x00])
      (ExtensionKind.ofOid?_oid .extendedKeyUsage)
  refine ⟨⟨⟨[2, 5, 29, 37]⟩, false, [0x30, 0x00], .typed (.extendedKeyUsage [])⟩,
    Except.toOption_eq_some.mp (by decide +kernel), ⟨_, read, shallow⟩, refused,
    _, toElement_eq _, ?_⟩
  rw [ofElement_elementOf]
  simp [readValue, found, Except.map_eq_error]

end Extension

end DerCodec
