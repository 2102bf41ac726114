import DerCodec.Proofs.Certificate

/-!
# Certificates that are built and not read

A certificate may be put together from its parts instead of being read from octets. When every part
comes from its constructor, the tree that is written is read back as the same certificate under
both policies: the key and the typed extensions that the reader derives are those that the
constructors put there.
-/

namespace DerCodec

/-! ## Extensions -/

/-- The value is read back from the octets that it is written as. -/
def TypedExtension.RoundTrips (value : TypedExtension) : Prop :=
  (value.toOctets >>= parse value.kind) = .ok value

instance (value : TypedExtension) : Decidable value.RoundTrips :=
  decidable_of_iff ((value.toOctets >>= TypedExtension.parse value.kind).toOption = some value)
    Except.toOption_eq_some

theorem ExtensionKind.ofOid?_oid (kind : ExtensionKind) : ofOid? kind.oid = some kind := by
  cases kind <;> decide +kernel

namespace Extension

/-- The extension comes from one of the two constructors: octets under an identifier that no kind
has, or a value that can be read back. -/
inductive Built : Extension → Prop
  | generic {oid : Oid} {raw : Bytes} (unknown : ExtensionValue.parse? oid raw = none)
      (critical : Bool) : Built (ofOctets oid critical raw)
  | typed {critical : Bool} {value : TypedExtension} {extension : Extension}
      (made : ofTyped critical value = .ok extension) (stable : value.RoundTrips) : Built extension

/-- What a typed extension is made of. -/
theorem ofTyped_eq_ok {critical : Bool} {value : TypedExtension} {extension : Extension} :
    ofTyped critical value = .ok extension ↔ ∃ raw, value.toOctets = .ok raw ∧
      extension = ⟨value.kind.oid, critical, raw, .typed value⟩ := by
  simp only [ofTyped, Except.bind_eq_ok, Except.mapError_eq_ok, Except.pure_def, Except.ok.injEq]
  exact exists_congr fun raw => and_congr_right fun _ => eq_comm

/-- The value that was built is the one that is read, and no policy comes into it. -/
theorem Built.readValue_eq {extension : Extension} (h : extension.Built)
    (policy : ExtensionPolicy) :
    (readValue policy extension.oid extension.raw).result = .ok extension.value := by
  cases h with
  | generic unknown critical => simp [readValue, ofOctets, unknown]
  | typed made stable =>
    rename_i critical value
    obtain ⟨raw, written, rfl⟩ := ofTyped_eq_ok.mp made
    have read : TypedExtension.parse value.kind raw = .ok value := by
      simpa [TypedExtension.RoundTrips, written] using stable
    simp [readValue, ExtensionValue.parse?, ExtensionKind.ofOid?_oid, read]

theorem Built.ofElement_eq {extension : Extension} (h : extension.Built)
    (policy : ExtensionPolicy) :
    (ofElement policy
      (elementOf extension.oid (writtenFlag extension.critical) extension.raw)).result =
        .ok extension :=
  ofElement_eq_ok.mpr ⟨⟨_, rfl, (writtenFlag_getD _).symm⟩, h.readValue_eq policy⟩

end Extension

/-! ## The signed part -/

namespace TbsCertificate

/-- The parts of a signed part come from their constructors. -/
structure Built (tbs : TbsCertificate) : Prop where
  signature : tbs.signature.Canonical
  keyAlgorithm : tbs.publicKeyInfo.algorithm.Canonical
  key : ∃ algorithm bits, tbs.publicKeyInfo = .ofBits algorithm bits
  extensions : ∀ extension ∈ tbs.extensions, extension.Built

theorem Built.canonical {tbs : TbsCertificate} (h : tbs.Built) : tbs.Canonical := by
  obtain ⟨algorithm, bits, derived⟩ := h.key
  refine ⟨h.signature, h.keyAlgorithm, ?_⟩
  rw [derived]
  rfl

/-- The elements that the extensions are written as. -/
def extensionTrees (tbs : TbsCertificate) : List Element :=
  tbs.extensions.map fun extension =>
    Extension.elementOf extension.oid (Extension.writtenFlag extension.critical) extension.raw

theorem mapM_toElement_extensions (tbs : TbsCertificate) :
    tbs.extensions.mapM Extension.toElement = .ok tbs.extensionTrees := by
  simp [Except.mapM_eq_ok, extensionTrees, Extension.toElement_eq, List.forall₂_same]

theorem Built.mapM_ofElement {tbs : TbsCertificate} (h : tbs.Built) (policy : ExtensionPolicy) :
    tbs.extensionTrees.mapM (fun e => (Extension.ofElement policy e).result) =
      .ok tbs.extensions := by
  rw [Except.mapM_eq_ok, extensionTrees, List.forall₂_map_left_iff, List.forall₂_same]
  intro extension member
  exact (h.extensions extension member).ofElement_eq policy

/-- A signed part that was built is read back from its tree. -/
theorem Built.ofElement_of_toElement {tbs : TbsCertificate} {tree : Element} (h : tbs.Built)
    (written : tbs.toElement = .ok tree) (sound : ∀ child ∈ tree.children, child.Sound)
    (policy : ExtensionPolicy) : (ofElement policy tree).result = .ok tbs := by
  have same := toElement_eq tbs.mapM_toElement_extensions
  obtain rfl := Except.ok.inj (written.symm.trans same)
  exact (ofElement_eq_ok sound).mpr ⟨h.canonical, writtenVersion tbs.version, _, _, rfl,
    writtenVersion_getD _, .refl _, h.mapM_ofElement policy⟩

end TbsCertificate

/-! ## The whole certificate -/

namespace Certificate

theorem ofElement_of_toElement {tbs : TbsCertificate} {signature : BitString} {tree : Element}
    (built : tbs.Built) (written : (ofSigned tbs signature).toElement = .ok tree)
    (valid : tree.WellFormed) (policy : ExtensionPolicy) :
    (ofElement policy tree).result = .ok (ofSigned tbs signature) := by
  obtain ⟨signed, part, same⟩ := Except.bind_eq_ok.mp written
  obtain rfl := Except.ok.inj same
  have inner := (Element.wellFormed_iff.mp valid).child List.mem_cons_self
  have read := built.ofElement_of_toElement part (fun _ member => inner.child_sound member) policy
  exact ofElement_eq_ok.mpr ⟨signed, rfl, read, built.signature, rfl⟩

/-- A signed part with a name of two attributes, an RSA key, an identifier of the issuer, and an
extension from either constructor. -/
def assembledTbs : TbsCertificate where
  version := .v3
  serialNumber := 1
  signature := ⟨⟨[1, 2, 3]⟩, some .null⟩
  issuer := ⟨[⟨[⟨⟨[2, 5, 4, 3]⟩, .primitive .printableString "a"⟩,
    ⟨⟨[2, 5, 4, 10]⟩, .primitive .utf8String "b"⟩]⟩]⟩
  validity := .ofDateTimes ⟨⟨2024, 1, 1⟩, ⟨0, 0, 0, 0⟩, by decide, by decide⟩
    ⟨⟨2050, 1, 1⟩, ⟨0, 0, 0, 5⟩, by decide, by decide⟩
  subject := ⟨[]⟩
  publicKeyInfo := .ofBits ⟨⟨[1, 2, 840, 113549, 1, 1, 1]⟩, some .null⟩
    (.ofWholeOctets [0x30, 0x06, 0x02, 0x01, 0x0f, 0x02, 0x01, 0x03])
  issuerUniqueId := some (.ofWholeOctets [0x01])
  subjectUniqueId := none
  extensions := [⟨⟨[2, 5, 29, 19]⟩, true, [0x30, 0x03, 0x01, 0x01, 0xff],
      .typed (.basicConstraints ⟨true, none⟩)⟩,
    .ofOctets ⟨[1, 2, 4]⟩ false [0xaa]]

theorem assembledTbs_built : assembledTbs.Built where
  signature := by decide
  keyAlgorithm := by decide
  key := ⟨_, _, rfl⟩
  extensions := by
    have made : Extension.ofTyped true (.basicConstraints ⟨true, none⟩) =
        .ok ⟨⟨[2, 5, 29, 19]⟩, true, [0x30, 0x03, 0x01, 0x01, 0xff],
          .typed (.basicConstraints ⟨true, none⟩)⟩ :=
      Except.toOption_eq_some.mp (by decide +kernel)
    have unknown : ExtensionValue.parse? ⟨[1, 2, 4]⟩ [0xaa] = none := by decide +kernel
    simp only [assembledTbs, List.forall_mem_cons, List.not_mem_nil, false_implies, implies_true,
      and_true]
    exact ⟨.typed made (by decide +kernel), .generic unknown false⟩

end Certificate

end DerCodec
