import DerCodec.Proofs.BuiltCertificate
import DerCodec.Proofs.ExtensionReading

/-!
# Typed values of extensions round trip

`TypedExtension.Valid` asks of the parts of a value that they can be written: texts in ASCII,
identifiers with an encoding and well-formed elements. Such a value has a tree of sound nodes, and
when the tree is not too deep and the lists in the value have members, the octets are read back as
the value.
-/

namespace DerCodec

/-! ## Trees of sound nodes -/

namespace Element

/-- Every node is sound, however deep it lies. -/
def SoundThroughout (root : Element) : Prop :=
  ∀ level node, NodeBelow root level node → node.Sound

/-- No node lies more than 64 levels below the root. -/
def Shallow (root : Element) : Prop :=
  ∀ level node, NodeBelow root level node → level ≤ depthLimit

theorem wellFormed_iff_soundThroughout_and_shallow {root : Element} :
    root.WellFormed ↔ root.SoundThroughout ∧ root.Shallow := by
  simp only [WellFormed, SoundThroughout, Shallow, forall_and]

theorem soundThroughout_iff {root : Element} :
    root.SoundThroughout ↔ root.Sound ∧ ∀ child ∈ root.children, child.SoundThroughout := by
  constructor
  · intro h
    refine ⟨h 0 root (.root root), ?_⟩
    intro child member level node below
    exact h (level + 1) node (.child member below)
  · rintro ⟨sound, rest⟩ level node below
    cases below with
    | root => exact sound
    | child member below => exact rest _ member _ node below

theorem WellFormed.soundThroughout {root : Element} (h : root.WellFormed) : root.SoundThroughout :=
  (wellFormed_iff_soundThroughout_and_shallow.mp h).1

theorem soundThroughout_primitive {type : Primitive} {value : type.Value}
    (h : type.Carries value) : (primitive type value).SoundThroughout :=
  soundThroughout_iff.mpr ⟨h, nofun⟩

theorem soundThroughout_context (number : UInt32) (content : Bytes) :
    (taggedOctets (.context number) content).SoundThroughout :=
  soundThroughout_iff.mpr ⟨⟨context_foreign number, rfl⟩, nofun⟩

theorem soundThroughout_sequence {elements : List Element}
    (h : ∀ element ∈ elements, element.SoundThroughout) : (sequence elements).SoundThroughout :=
  soundThroughout_iff.mpr ⟨trivial, h⟩

theorem soundThroughout_set {elements : List Element}
    (h : ∀ element ∈ elements, element.SoundThroughout) : (set elements).SoundThroughout :=
  soundThroughout_iff.mpr ⟨trivial, h⟩

theorem soundThroughout_contextConstructed {number : UInt32} {elements : List Element}
    (h : ∀ element ∈ elements, element.SoundThroughout) :
    (taggedList (.contextConstructed number) elements).SoundThroughout :=
  soundThroughout_iff.mpr ⟨⟨contextConstructed_foreign number, rfl⟩, h⟩

theorem soundThroughout_slots {slots : List (Option Element)}
    (h : ∀ slot ∈ slots, ∀ element ∈ slot, element.SoundThroughout) :
    (sequence (slots.filterMap id)).SoundThroughout := by
  refine soundThroughout_sequence fun element member => ?_
  obtain ⟨slot, among, held⟩ := List.mem_filterMap.mp member
  exact h slot among element held

/-- A valid value is written as a tree of sound nodes. -/
def Writes {ε α : Type} (write : α → Except ε Element) (Valid : α → Prop) : Prop :=
  ∀ a, Valid a → ∃ element, write a = .ok element ∧ element.SoundThroughout

section Writes

variable {ε α : Type} {write : α → Except ε Element} {Valid : α → Prop}

theorem Writes.mapM (h : Writes write Valid) {as : List α} (valid : ∀ a ∈ as, Valid a) :
    ∃ elements, as.mapM write = .ok elements ∧ ∀ element ∈ elements, element.SoundThroughout := by
  induction as with
  | nil => exact ⟨[], rfl, nofun⟩
  | cons a as ih =>
    obtain ⟨first, rest⟩ := List.forall_mem_cons.mp valid
    obtain ⟨element, step, sound⟩ := h a first
    obtain ⟨elements, run, each⟩ := ih rest
    refine ⟨element :: elements, ?_, List.forall_mem_cons.mpr ⟨sound, each⟩⟩
    rw [List.mapM_cons, step, run]
    rfl

theorem Writes.option (h : Writes write Valid) {x : Option α} (valid : ∀ a ∈ x, Valid a) :
    ∃ slot, x.mapM write = .ok slot ∧ ∀ element ∈ slot, element.SoundThroughout := by
  cases x with
  | none => exact ⟨none, rfl, nofun⟩
  | some a =>
    obtain ⟨element, step, sound⟩ := h a (valid a rfl)
    refine ⟨some element, Except.option_mapM_eq_ok.mpr (.inr ⟨a, element, rfl, rfl, step⟩), ?_⟩
    rintro _ ⟨⟩
    exact sound

end Writes

end Element

/-! ## Names -/

def NameAttribute.Valid (attr : NameAttribute) : Prop :=
  attr.type.IsEncodable ∧ attr.value.WellFormed

def RelativeName.Valid (name : RelativeName) : Prop :=
  ∀ attr ∈ name.attributes, attr.Valid

def Name.Valid (name : Name) : Prop :=
  ∀ relative ∈ name.relativeNames, relative.Valid

instance (attr : NameAttribute) : Decidable attr.Valid :=
  inferInstanceAs (Decidable (_ ∧ _))

instance (name : RelativeName) : Decidable name.Valid :=
  inferInstanceAs (Decidable (∀ attr ∈ name.attributes, attr.Valid))

instance (name : Name) : Decidable name.Valid :=
  inferInstanceAs (Decidable (∀ relative ∈ name.relativeNames, relative.Valid))

theorem NameAttribute.Valid.soundThroughout {attr : NameAttribute} (h : attr.Valid) :
    attr.toElement.SoundThroughout := by
  refine Element.soundThroughout_sequence ?_
  rw [List.forall_mem_cons, List.forall_mem_singleton]
  exact ⟨Element.soundThroughout_primitive h.1, h.2.soundThroughout⟩

theorem RelativeName.Valid.soundThroughout {name : RelativeName} (h : name.Valid) :
    ∀ element ∈ name.attributes.map NameAttribute.toElement, element.SoundThroughout := by
  rw [List.forall_mem_map]
  exact fun attr member => (h attr member).soundThroughout

theorem Name.Valid.soundThroughout {name : Name} (h : name.Valid) :
    name.toElement.SoundThroughout := by
  refine Element.soundThroughout_sequence ?_
  rw [List.forall_mem_map]
  exact fun relative member => Element.soundThroughout_set (h relative member).soundThroughout

namespace GeneralName

/-- Texts are ASCII, the identifier has an encoding, and elements are well-formed. -/
def Valid : GeneralName → Prop
  | other elements => ∀ element ∈ elements, element.WellFormed
  | email address => Utf8.isAscii address = true
  | dns name => Utf8.isAscii name = true
  | x400 elements => ∀ element ∈ elements, element.WellFormed
  | directory name => name.Valid
  | ediParty elements => ∀ element ∈ elements, element.WellFormed
  | uri address => Utf8.isAscii address = true
  | ip _ => True
  | registeredId oid => oid.IsEncodable

instance : (name : GeneralName) → Decidable name.Valid
  | other elements => inferInstanceAs (Decidable (∀ element ∈ elements, element.WellFormed))
  | email address => inferInstanceAs (Decidable (Utf8.isAscii address = true))
  | dns name => inferInstanceAs (Decidable (Utf8.isAscii name = true))
  | x400 elements => inferInstanceAs (Decidable (∀ element ∈ elements, element.WellFormed))
  | directory name => inferInstanceAs (Decidable name.Valid)
  | ediParty elements => inferInstanceAs (Decidable (∀ element ∈ elements, element.WellFormed))
  | uri address => inferInstanceAs (Decidable (Utf8.isAscii address = true))
  | ip _ => .isTrue trivial
  | registeredId oid => inferInstanceAs (Decidable oid.IsEncodable)

theorem writes : Element.Writes toElement Valid := by
  have field {type : Primitive} (number : UInt32) {value : type.Value} (h : type.Carries value) :
      ∃ element, (Element.implicit type (.context number) value).mapError inElement = .ok element ∧
        element.SoundThroughout := by
    obtain ⟨content, octets⟩ := Primitive.exists_encode h
    exact ⟨_, Except.mapError_eq_ok.mpr
      ((Element.implicit_eq_ok (Element.context_foreign number) rfl).mpr ⟨content, octets, rfl⟩),
      Element.soundThroughout_context number content⟩
  have list (number : UInt32) {elements : List Element} (h : ∀ e ∈ elements, e.WellFormed) :
      (Element.taggedList (.contextConstructed number) elements).SoundThroughout :=
    Element.soundThroughout_contextConstructed fun e member => (h e member).soundThroughout
  intro name valid
  cases name with
  | other elements => exact ⟨_, rfl, list 0 valid⟩
  | email address => exact field 1 valid
  | dns address => exact field 2 valid
  | x400 elements => exact ⟨_, rfl, list 3 valid⟩
  | directory name =>
    refine ⟨_, rfl, Element.soundThroughout_contextConstructed ?_⟩
    rw [List.forall_mem_singleton]
    exact Name.Valid.soundThroughout valid
  | ediParty elements => exact ⟨_, rfl, list 5 valid⟩
  | uri address => exact field 6 valid
  | ip address => exact @field .octetString 7 address.octets trivial
  | registeredId oid => exact field 8 valid

theorem writes_listUnder (number : UInt32) :
    Element.Writes (listUnder number) fun names => ∀ name ∈ names, name.Valid := by
  intro names valid
  obtain ⟨elements, run, each⟩ := writes.mapM valid
  exact ⟨_, Except.map_eq_ok.mpr ⟨elements, run, rfl⟩,
    Element.soundThroughout_contextConstructed each⟩

end GeneralName

/-! ## The other parts of a value -/

def DistributionPointName.Valid : DistributionPointName → Prop
  | fullName names => ∀ name ∈ names, name.Valid
  | relativeToIssuer name => name.Valid

instance : (name : DistributionPointName) → Decidable name.Valid
  | .fullName names => inferInstanceAs (Decidable (∀ name ∈ names, name.Valid))
  | .relativeToIssuer name => inferInstanceAs (Decidable name.Valid)

theorem DistributionPointName.writes : Element.Writes toElement Valid := by
  intro name valid
  cases name with
  | fullName names => exact GeneralName.writes_listUnder 0 names valid
  | relativeToIssuer name =>
    have sound := RelativeName.Valid.soundThroughout valid
    exact ⟨_, rfl, Element.soundThroughout_contextConstructed sound⟩

namespace DistributionPoint

structure Valid (point : DistributionPoint) : Prop where
  name : ∀ name ∈ point.name, name.Valid
  crlIssuer : ∀ names ∈ point.crlIssuer, ∀ name ∈ names, name.Valid

instance (point : DistributionPoint) : Decidable point.Valid :=
  decidable_of_iff ((∀ name ∈ point.name, name.Valid) ∧
    ∀ names ∈ point.crlIssuer, ∀ name ∈ names, name.Valid)
    ⟨fun h => ⟨h.1, h.2⟩, fun h => ⟨h.1, h.2⟩⟩

theorem writes_name : Element.Writes nameToElement DistributionPointName.Valid := by
  intro name valid
  obtain ⟨inner, step, sound⟩ := DistributionPointName.writes name valid
  refine ⟨_, Except.map_eq_ok.mpr ⟨inner, step, rfl⟩, Element.soundThroughout_contextConstructed ?_⟩
  rwa [List.forall_mem_singleton]

theorem writes : Element.Writes toElement Valid := by
  intro point valid
  obtain ⟨name, first, named⟩ := writes_name.option valid.name
  obtain ⟨crlIssuer, third, issued⟩ := (GeneralName.writes_listUnder 2).option valid.crlIssuer
  refine ⟨_, toElement_eq_ok.mpr ⟨name, crlIssuer, first, third, rfl⟩,
    Element.soundThroughout_slots ?_⟩
  have reasons : ∀ element ∈ point.reasons.map reasonsElement, element.SoundThroughout :=
    Option.forall_mem_map.mpr fun flags _ =>
      Element.soundThroughout_context 1 flags.toBits.encode
  simpa only [List.forall_mem_cons, List.not_mem_nil, false_implies, implies_true, and_true] using
    ⟨named, reasons, issued⟩

end DistributionPoint

namespace AuthorityKeyIdentifier

def Valid (key : AuthorityKeyIdentifier) : Prop :=
  ∀ names ∈ key.issuer, ∀ name ∈ names, name.Valid

instance (key : AuthorityKeyIdentifier) : Decidable key.Valid :=
  inferInstanceAs (Decidable (∀ names ∈ key.issuer, ∀ name ∈ names, name.Valid))

theorem writes : Element.Writes toElement Valid := by
  intro key valid
  obtain ⟨issuer, second, issued⟩ := (GeneralName.writes_listUnder 1).option valid
  refine ⟨_, toElement_eq_ok.mpr ⟨issuer, second, rfl⟩, Element.soundThroughout_slots ?_⟩
  have identifier : ∀ element ∈ key.keyIdentifier.map keyIdentifierElement,
      element.SoundThroughout :=
    Option.forall_mem_map.mpr fun octets _ => Element.soundThroughout_context 0 octets
  have serial : ∀ element ∈ key.serialNumber.map serialNumberElement, element.SoundThroughout :=
    Option.forall_mem_map.mpr fun n _ =>
      Element.soundThroughout_context 2 (TwosComplement.encode n)
  simpa only [List.forall_mem_cons, List.not_mem_nil, false_implies, implies_true, and_true] using
    ⟨identifier, issued, serial⟩

end AuthorityKeyIdentifier

theorem BasicConstraints.soundThroughout_slots (constraints : BasicConstraints) :
    (Element.sequence ([constraints.flagElement?,
      constraints.pathLength.map pathLengthElement].filterMap id)).SoundThroughout := by
  refine Element.soundThroughout_slots ?_
  have flag : ∀ element ∈ constraints.flagElement?, element.SoundThroughout := by
    intro element held
    obtain ⟨-, ⟨⟩⟩ := Option.ite_none_right_eq_some.mp held
    exact @Element.soundThroughout_primitive .boolean true trivial
  have pathLength : ∀ element ∈ constraints.pathLength.map pathLengthElement,
      element.SoundThroughout :=
    Option.forall_mem_map.mpr fun n _ =>
      @Element.soundThroughout_primitive .integer n.toNat trivial
  simpa only [List.forall_mem_cons, List.not_mem_nil, false_implies, implies_true, and_true] using
    ⟨flag, pathLength⟩

/-! ## The eight kinds -/

namespace TypedExtension

/-- Texts are ASCII, identifiers have an encoding, and elements are well-formed. -/
def Valid : TypedExtension → Prop
  | authorityKeyIdentifier key => key.Valid
  | basicConstraints _ => True
  | crlDistributionPoints points => ∀ point ∈ points, point.Valid
  | extendedKeyUsage purposes => ∀ purpose ∈ purposes, purpose.IsEncodable
  | issuerAltName names => ∀ name ∈ names, name.Valid
  | keyUsage _ => True
  | subjectAltName names => ∀ name ∈ names, name.Valid
  | subjectKeyIdentifier _ => True

instance : (value : TypedExtension) → Decidable value.Valid
  | authorityKeyIdentifier key => inferInstanceAs (Decidable key.Valid)
  | basicConstraints _ => .isTrue trivial
  | crlDistributionPoints points => inferInstanceAs (Decidable (∀ point ∈ points, point.Valid))
  | extendedKeyUsage purposes =>
    inferInstanceAs (Decidable (∀ purpose ∈ purposes, purpose.IsEncodable))
  | issuerAltName names => inferInstanceAs (Decidable (∀ name ∈ names, name.Valid))
  | keyUsage _ => .isTrue trivial
  | subjectAltName names => inferInstanceAs (Decidable (∀ name ∈ names, name.Valid))
  | subjectKeyIdentifier _ => .isTrue trivial

theorem writes : Element.Writes toElement Valid := by
  have list {α : Type} {write : α → Except ExtensionError Element} {Part : α → Prop}
      (each : Element.Writes write Part) :
      Element.Writes (fun as : List α => (as.mapM write).map .sequence)
        fun as => ∀ a ∈ as, Part a := by
    intro as valid
    obtain ⟨elements, run, sound⟩ := each.mapM valid
    exact ⟨_, Except.map_eq_ok.mpr ⟨elements, run, rfl⟩, Element.soundThroughout_sequence sound⟩
  intro value valid
  cases value with
  | authorityKeyIdentifier key => exact AuthorityKeyIdentifier.writes key valid
  | basicConstraints constraints =>
    exact ⟨_, constraints.toElement_eq, constraints.soundThroughout_slots⟩
  | crlDistributionPoints points => exact list DistributionPoint.writes points valid
  | extendedKeyUsage purposes =>
    refine ⟨_, rfl, Element.soundThroughout_sequence ?_⟩
    rw [List.forall_mem_map]
    exact fun purpose member => Element.soundThroughout_primitive (valid purpose member)
  | issuerAltName names => exact list GeneralName.writes names valid
  | keyUsage usage =>
    exact ⟨_, rfl, @Element.soundThroughout_primitive .bitString usage.toBits trivial⟩
  | subjectAltName names => exact list GeneralName.writes names valid
  | subjectKeyIdentifier id =>
    exact ⟨_, rfl, @Element.soundThroughout_primitive .octetString id trivial⟩

/-- The tree of a valid value is well-formed unless it is too deep. -/
theorem exists_tree {value : TypedExtension} (valid : value.Valid) :
    ∃ tree, value.toElement = .ok tree ∧ (tree.Shallow → tree.WellFormed) := by
  obtain ⟨tree, written, sound⟩ := writes value valid
  exact ⟨tree, written, fun shallow =>
    Element.wellFormed_iff_soundThroughout_and_shallow.mpr ⟨sound, shallow⟩⟩

/-- A valid value whose lists have members is read back from its octets, unless its tree is too
deep. -/
theorem parse_toOctets {value : TypedExtension} (valid : value.Valid) (filled : value.Filled) :
    ∃ tree, value.toElement = .ok tree ∧ (tree.Shallow → ∃ octets, value.toOctets = .ok octets ∧
      (octets.length < UInt64.size → parse value.kind octets = .ok value ∧
        ExtensionValue.parse? value.kind.oid octets = some (.ok value))) := by
  obtain ⟨tree, written, rooted⟩ := exists_tree valid
  refine ⟨tree, written, fun shallow => ?_⟩
  have wellFormed := rooted shallow
  obtain ⟨octets, encoded⟩ := Element.exists_encode wellFormed
  refine ⟨octets, by rw [toOctets, written, Except.ok_bind, encoded, Except.ok_mapError], ?_⟩
  intro size
  have read : parse value.kind octets = .ok value :=
    parse_eq_ok.mpr ⟨tree, Element.decode_of_encode wellFormed encoded size,
      (ofElement_eq_ok written value).mpr ⟨rfl, filled⟩⟩
  exact ⟨read, by rw [ExtensionValue.parse?, ExtensionKind.ofOid?_oid, Option.map_some, read]⟩

/-- Names of all nine forms, both forms of a distribution point name, and a point without parts. -/
def everyForm : TypedExtension :=
  .crlDistributionPoints [
    { name := some (.fullName [
        .other [.primitive .oid ⟨[1, 2, 3]⟩,
          .taggedList (.contextConstructed 0) [.primitive .null ()]],
        .email "a@b", .dns "b.c", .x400 [.set []],
        .directory ⟨[⟨[⟨⟨[2, 5, 4, 3]⟩, .primitive .utf8String "é"⟩]⟩]⟩,
        .ediParty [.taggedOctets (.context 0) [0x61]], .uri "ldap:",
        .ip ⟨[127, 0, 0, 1], by decide⟩, .registeredId ⟨[2, 999, 3]⟩])
      reasons := some { keyCompromise := true, aaCompromise := true }
      crlIssuer := some [.dns "c"] },
    { name := some (.relativeToIssuer ⟨[⟨⟨[2, 5, 4, 10]⟩, .primitive .printableString "d"⟩]⟩)
      reasons := some {}
      crlIssuer := none },
    { name := none, reasons := none, crlIssuer := none }]

/-- The value above is written, and read back under its kind and under its identifier. -/
theorem parse_toOctets_everyForm :
    everyForm.Valid ∧ everyForm.Filled ∧ ∃ octets, everyForm.toOctets = .ok octets ∧
      parse .crlDistributionPoints octets = .ok everyForm ∧
      ExtensionValue.parse? ⟨[2, 5, 29, 31]⟩ octets = some (.ok everyForm) := by
  have valid : everyForm.Valid := by decide +kernel
  have filled : everyForm.Filled := by decide +kernel
  have holds : (everyForm.toElement.toOption.any fun tree => decide tree.WellFormed) = true := by
    decide +kernel
  have length : (everyForm.toOctets.toOption.map List.length) = some 103 := by decide +kernel
  refine ⟨valid, filled, ?_⟩
  obtain ⟨tree, written, rest⟩ := parse_toOctets valid filled
  have shallow : tree.Shallow := by
    rw [written] at holds
    exact (Element.wellFormed_iff_soundThroughout_and_shallow.mp (of_decide_eq_true holds)).2
  obtain ⟨octets, encoded, read⟩ := rest shallow
  have short : octets.length = 103 := by
    rw [encoded] at length
    exact Option.some.inj length
  have small : octets.length < UInt64.size := by
    rw [short]
    decide
  exact ⟨octets, encoded, read small⟩

end TypedExtension

end DerCodec
