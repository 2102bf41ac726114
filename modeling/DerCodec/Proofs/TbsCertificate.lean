import DerCodec.Certificate.Tbs
import DerCodec.Proofs.CertificateParts

/-!
# The signed part and the elements it is read from

`TbsCertificate.ofElement_eq_ok` names every element that a signed part is read from. They differ
in whether version 1 is written out, in the order of the fields after the public key, and in the
elements of the extensions. `TbsCertificate.toElement_eq` names the one that it is written as.
-/

namespace DerCodec

theorem Version.ofInteger_eq_ok {n : Int} {version : Version} :
    ofInteger n = .ok version ↔ n = version.number := by
  constructor
  · intro h
    unfold ofInteger at h
    split at h
    · rename_i zero
      cases h
      exact (Integer.narrow?_eq_some.mp zero).1
    · rename_i one
      cases h
      exact (Integer.narrow?_eq_some.mp one).1
    · rename_i two
      cases h
      exact (Integer.narrow?_eq_some.mp two).1
    · simp at h
  · rintro rfl
    cases version <;> rfl

namespace TbsCertificate

/-! ## Elements of single fields -/

def versionElement (version : Version) : Element :=
  .explicit 0 (.primitive .integer version.number)

def uniqueIdElement (tag : Tag) (bits : BitString) : Element :=
  .taggedOctets tag bits.encode

/-- The field that holds the elements of the extensions; it is left out when there are none. -/
def extensionsElement? (elements : List Element) : Option Element :=
  if elements = [] then none else some (.explicit 3 (.sequence elements))

/-- The elements of the required fields. -/
def requiredElements (tbs : TbsCertificate) : List Element :=
  [.primitive .integer tbs.serialNumber, tbs.signature.toElement, tbs.issuer.toElement,
    tbs.validity.toElement, tbs.subject.toElement, tbs.publicKeyInfo.toElement]

/-- The slots of the fields after the public key, when the extensions are the given elements. -/
def optionalSlots (tbs : TbsCertificate) (extensions : List Element) : List (Option Element) :=
  [tbs.issuerUniqueId.map (uniqueIdElement issuerUniqueIdTag),
    tbs.subjectUniqueId.map (uniqueIdElement subjectUniqueIdTag), extensionsElement? extensions]

theorem versionOfElement_eq_ok {wrapped : Element} {version : Version} :
    versionOfElement wrapped = .ok version ↔ wrapped = versionElement version := by
  simp only [versionOfElement, Except.bind_eq_ok, Except.mapError_eq_ok,
    Element.explicitInner_eq_ok, versionElement]
  constructor
  · rintro ⟨inner, rfl, number, read, known⟩
    obtain rfl := Element.value_eq_ok.mp read
    obtain rfl := Version.ofInteger_eq_ok.mp known
    rfl
  · rintro rfl
    exact ⟨_, rfl, _, Element.value_eq_ok.mpr rfl, Version.ofInteger_eq_ok.mpr rfl⟩

theorem version_mapM_eq_ok {slot : Option Element} {version : Option Version} :
    slot.mapM versionOfElement = .ok version ↔ slot = version.map versionElement := by
  simp only [Except.option_mapM_eq_ok, versionOfElement_eq_ok]
  cases version <;> simp

theorem readField_eq_ok {fields : Fields} {index : Nat} {field : String}
    {read : Element → Except ElementError α} {value : α} :
    readField fields index field read = .ok value ↔
      ∃ element, fields.positional? index = some element ∧ read element = .ok value := by
  simp only [readField, Except.bind_eq_ok, Except.mapError_eq_ok, Fields.required_eq_ok]

theorem uniqueId_eq_ok {fields : Fields} {tag : Tag} {field : String} {bits : Option BitString}
    (foreign : tag.tagClass ≠ .universal) (bare : tag.constructed = false)
    (sound : ∀ element, fields.optional? tag = some element → element.Sound) :
    uniqueId fields tag field = .ok bits ↔
      fields.optional? tag = bits.map (uniqueIdElement tag) := by
  simp only [uniqueId, Except.mapError_eq_ok, Except.option_mapM_eq_ok]
  constructor
  · rintro (⟨absent, rfl⟩ | ⟨element, value, present, rfl, read⟩)
    · exact absent
    · obtain ⟨content, rfl, decoded⟩ :=
        (Element.decodeAs_eq_ok foreign bare (sound element present)).mp read
      rw [present, Option.map_some, uniqueIdElement,
        BitString.encode_of_decode (Except.mapError_eq_ok.mp decoded)]
  · intro slot
    cases bits with
    | none => exact .inl ⟨slot, rfl⟩
    | some value =>
      refine .inr ⟨_, value, slot, rfl, ?_⟩
      rw [Element.decodeAs_eq_ok foreign bare (sound _ slot)]
      exact ⟨_, rfl, Except.mapError_eq_ok.mpr (BitString.decode_encode value)⟩

theorem extensionElements_eq_ok {wrapped : Element} {elements : List Element} :
    extensionElements wrapped = .ok elements ↔
      wrapped = .explicit 3 (.sequence elements) ∧ elements ≠ [] := by
  simp only [extensionElements, Except.bind_eq_ok, Except.mapError_eq_ok,
    Element.explicitInner_eq_ok, Element.asSequence_eq_ok]
  constructor
  · rintro ⟨inner, rfl, inside, rfl, read⟩
    split at read
    · simp at read
    · rename_i nonempty
      obtain rfl := Except.ok.inj read
      exact ⟨rfl, by simpa using nonempty⟩
  · rintro ⟨rfl, nonempty⟩
    exact ⟨_, rfl, elements, rfl, by simp [nonempty]⟩

/-- Extensions are read from the field that holds them, and from no field when there are none. -/
theorem extensions_mapM_eq_ok {slot : Option Element} {elements : List Element} :
    (∃ found, slot.mapM extensionElements = .ok found ∧ found.getD [] = elements) ↔
      slot = extensionsElement? elements := by
  simp only [Except.option_mapM_eq_ok, extensionElements_eq_ok, extensionsElement?]
  constructor
  · rintro ⟨found, ⟨rfl, rfl⟩ | ⟨wrapped, inside, rfl, rfl, rfl, nonempty⟩, rfl⟩
    · simp
    · simp [nonempty]
  · rintro rfl
    by_cases empty : elements = []
    · exact ⟨none, .inl ⟨if_pos empty, rfl⟩, empty.symm⟩
    · exact ⟨some elements, .inr ⟨_, elements, if_neg empty, rfl, rfl, empty⟩, rfl⟩

theorem readExtensions_result (policy : ExtensionPolicy) (elements : List Element) :
    (readExtensions policy elements).result =
      elements.mapM fun element => (Extension.ofElement policy element).result := by
  induction elements with
  | nil => rfl
  | cons element elements ih =>
    simp only [readExtensions, Logged.result_bind, ih, Logged.result_pure, List.mapM_cons,
      Except.pure_def]

/-! ## Slots of the schema -/

/-- The positional slots are filled from elements that fit them, with or without a version. -/
theorem takePositional_of_fits {version : Option Element} {required : List Element}
    (fits : List.Forall₂ Field.Fits schema.positional (version :: required.map some))
    (rest : List Element) :
    schema.takePositional schema.positional (version.toList ++ required ++ rest) =
      .ok (version :: required.map some, rest) := by
  obtain ⟨first, others⟩ := List.forall₂_cons.mp fits
  have accepted := List.forall₂_map_right_iff.mp others
  have taken := Schema.takePositional_accepted schema accepted rest
  cases version with
  | some wrapped =>
    have tagged : (Field.defaulted "version" versionTag).accepts wrapped.tag = true := first
    exact Schema.takePositional_accepted schema (.cons tagged accepted) rest
  | none =>
    cases accepted with
    | @cons _ serial _ _ serialTag _ =>
      have number : serial.tag = Primitive.integer.tag := (beq_iff_eq.mp serialTag).symm
      have other : (Field.defaulted "version" versionTag).accepts serial.tag = false := by
        rw [number]
        rfl
      rw [List.cons_append] at taken
      simp only [schema, Option.toList_none, List.nil_append, List.cons_append]
      rw [Schema.takePositional_absent rfl other]
      exact congrArg (Except.map _) taken

theorem filterMap_slots (version : Option Element) (required : List Element) :
    (version :: required.map some).filterMap id = version.toList ++ required := by
  cases version <;> simp

theorem fieldsOfElement_eq_ok {element : Element} {fields : Fields} :
    fieldsOfElement element = .ok fields ↔ ∃ version required rest optional,
      element = .sequence (version.toList ++ required ++ rest) ∧
      List.Forall₂ Field.Fits schema.positional (version :: required.map some) ∧
      rest.foldlM schema.place schema.emptySlots = .ok optional ∧
      fields = ⟨schema, version :: required.map some, optional⟩ := by
  simp only [fieldsOfElement, Except.bind_eq_ok, Except.mapError_eq_ok, Element.asSequence_eq_ok,
    Schema.decode_eq_ok]
  constructor
  · rintro ⟨elements, rfl, positional, rest, optional, taken, placed, rfl⟩
    obtain ⟨rfl, fits⟩ := Schema.takePositional_eq_ok taken
    obtain ⟨version, slots, -, others, rfl⟩ := List.forall₂_cons_left_iff.mp fits
    obtain ⟨required, rfl⟩ := Schema.exists_required others (by decide)
    exact ⟨version, required, rest, optional, by rw [filterMap_slots], fits, placed, rfl⟩
  · rintro ⟨version, required, rest, optional, rfl, fits, placed, rfl⟩
    exact ⟨_, rfl, _, rest, optional, takePositional_of_fits fits rest, placed, rfl⟩

theorem length_required {version : Option Element} {required : List Element}
    (fits : List.Forall₂ Field.Fits schema.positional (version :: required.map some)) :
    required.length = 6 := by
  have lengths := fits.length_eq
  simp only [schema, List.length_cons, List.length_nil, List.length_map] at lengths
  omega

theorem versionAndNames_eq_ok {version : Option Element} {required : List Element}
    {optional : List (Option Element)} {v : Version} {serialNumber : Int}
    {signature : AlgorithmIdentifier} {issuer subject : Name} {validity : Validity} {key : Element}
    (six : required.length = 6) :
    versionAndNames ⟨schema, version :: required.map some, optional⟩ =
        .ok (v, serialNumber, signature, issuer, validity, subject, key) ↔
      (∃ written : Option Version, version = written.map versionElement ∧ written.getD .v1 = v) ∧
        signature.Canonical ∧ required = [.primitive .integer serialNumber, signature.toElement,
          issuer.toElement, validity.toElement, subject.toElement, key] := by
  obtain ⟨a, b, c, d, e, f, rfl⟩ : ∃ a b c d e f, required = [a, b, c, d, e, f] := by
    match required, six with
    | [a, b, c, d, e, f], _ => exact ⟨a, b, c, d, e, f, rfl⟩
  simp only [versionAndNames, Except.bind_eq_ok, readField_eq_ok, Fields.positional?,
    List.map_cons, List.map_nil, List.getElem?_cons_zero, List.getElem?_cons_succ, Option.join_some,
    Option.some.injEq, exists_eq_left']
  constructor
  · rintro ⟨written, slot, serial', readSerial, signature', readSignature, issuer', readIssuer,
      validity', readValidity, subject', readSubject, key', readKey, same⟩
    cases same
    obtain rfl := Element.value_eq_ok.mp readSerial
    obtain ⟨rfl, canonical⟩ := AlgorithmIdentifier.ofElement_eq_ok.mp readSignature
    obtain rfl := Name.ofElement_eq_ok.mp readIssuer
    obtain rfl := Validity.ofElement_eq_ok.mp readValidity
    obtain rfl := Name.ofElement_eq_ok.mp readSubject
    obtain rfl := Except.ok.inj readKey
    exact ⟨⟨written, version_mapM_eq_ok.mp slot, rfl⟩, canonical, rfl⟩
  · rintro ⟨⟨written, slot, rfl⟩, canonical, same⟩
    cases same
    refine ⟨written, version_mapM_eq_ok.mpr slot, serialNumber, Element.value_eq_ok.mpr rfl,
      signature, AlgorithmIdentifier.ofElement_eq_ok.mpr ⟨rfl, canonical⟩,
      issuer, Name.ofElement_eq_ok.mpr rfl, validity, Validity.ofElement_eq_ok.mpr rfl,
      subject, Name.ofElement_eq_ok.mpr rfl, key, rfl, rfl⟩

/-- Elements in the order of the schema fill the optional slots that they came from. -/
theorem foldlM_place_optionalSlots (tbs : TbsCertificate) (extensions : List Element) :
    ((tbs.optionalSlots extensions).filterMap id).foldlM schema.place schema.emptySlots =
      .ok (tbs.optionalSlots extensions) := by
  unfold optionalSlots extensionsElement?
  cases tbs.issuerUniqueId <;> cases tbs.subjectUniqueId <;> split_ifs <;> rfl

/-! ## The whole signed part -/

/-- The algorithm and the key have the form in which they are read. -/
def Canonical (tbs : TbsCertificate) : Prop :=
  tbs.signature.Canonical ∧ tbs.publicKeyInfo.Canonical

theorem fits_requiredElements (tbs : TbsCertificate) (version : Option Version) :
    List.Forall₂ Field.Fits schema.positional
      (version.map versionElement :: tbs.requiredElements.map some) := by
  have first : (Field.defaulted "version" versionTag).Fits (version.map versionElement) := by
    cases version <;> rfl
  exact .cons first (.cons rfl (.cons rfl (.cons rfl (.cons rfl (.cons rfl (.cons rfl .nil))))))

theorem ofElement_eq_ok_steps {policy : ExtensionPolicy} {element : Element}
    {tbs : TbsCertificate} :
    (ofElement policy element).result = .ok tbs ↔ ∃ fields key,
      fieldsOfElement element = .ok fields ∧
      versionAndNames fields = .ok (tbs.version, tbs.serialNumber, tbs.signature, tbs.issuer,
        tbs.validity, tbs.subject, key) ∧
      (SubjectPublicKeyInfo.ofElement key).result = .ok tbs.publicKeyInfo ∧
      uniqueId fields issuerUniqueIdTag "issuerUniqueID" = .ok tbs.issuerUniqueId ∧
      uniqueId fields subjectUniqueIdTag "subjectUniqueID" = .ok tbs.subjectUniqueId ∧
      ∃ exts, fields.optional? extensionsTag = extensionsElement? exts ∧
        exts.mapM (fun e => (Extension.ofElement policy e).result) = .ok tbs.extensions := by
  simp only [ofElement, Logged.result_bind, Logged.result_ofExcept, Except.bind_eq_ok,
    Except.mapError_eq_ok]
  constructor
  · rintro ⟨fields, read, ⟨version, serialNumber, signature, issuer, validity, subject, key⟩, names,
      rest⟩
    simp only [Logged.result_mapError, Logged.result_pure, readExtensions_result,
      Except.mapError_eq_ok] at rest
    obtain ⟨info, readKey, issuerId, readIssuerId, subjectId, readSubjectId, found, wrapped, exts,
      readExts, same⟩ := rest
    obtain rfl := Except.ok.inj same
    exact ⟨fields, key, read, names, readKey, readIssuerId, readSubjectId, found.getD [],
      extensions_mapM_eq_ok.mp ⟨found, wrapped, rfl⟩, readExts⟩
  · rintro ⟨fields, key, read, names, readKey, readIssuerId, readSubjectId, exts, slot, readExts⟩
    refine ⟨fields, read, _, names, ?_⟩
    simp only [Logged.result_mapError, Logged.result_pure, readExtensions_result,
      Except.mapError_eq_ok]
    obtain ⟨found, wrapped, rfl⟩ := extensions_mapM_eq_ok.mpr slot
    exact ⟨_, readKey, _, readIssuerId, _, readSubjectId, found, wrapped, _, readExts, rfl⟩

/-- What a signed part is read from: version 1 may be written out, the fields after the public key
come in any order, and the extensions are read from some elements each. -/
theorem ofElement_eq_ok {policy : ExtensionPolicy} {element : Element} {tbs : TbsCertificate}
    (sound : ∀ child ∈ element.children, child.Sound) :
    (ofElement policy element).result = .ok tbs ↔ tbs.Canonical ∧
      ∃ (version : Option Version) (rest exts : List Element),
        element = .sequence ((version.map versionElement).toList ++ tbs.requiredElements ++ rest) ∧
        version.getD .v1 = tbs.version ∧
        rest.Perm ((tbs.optionalSlots exts).filterMap id) ∧
        exts.mapM (fun e => (Extension.ofElement policy e).result) = .ok tbs.extensions := by
  rw [ofElement_eq_ok_steps]
  constructor
  · rintro ⟨fields, key, read, names, readKey, readIssuerId, readSubjectId, exts, slot, readExts⟩
    obtain ⟨version, required, rest, optional, rfl, fits, placed, rfl⟩ :=
      fieldsOfElement_eq_ok.mp read
    obtain ⟨⟨written, rfl, default⟩, canonical, rfl⟩ :=
      (versionAndNames_eq_ok (length_required fits)).mp names
    obtain ⟨rfl, canonicalKey⟩ := SubjectPublicKeyInfo.ofElement_eq_ok.mp readKey
    obtain ⟨valid, order⟩ := Schema.foldlM_place_eq_ok rfl schema.placed_emptySlots placed
    obtain ⟨a, b, c, rfl⟩ := List.length_eq_three.mp valid.1
    -- A slot holds one of the fields after the public key, so it is sound as they are.
    have soundSlot : ∀ e, some e ∈ [a, b, c] → e.Sound := by
      intro e member
      have among : e ∈ [a, b, c].filterMap id := List.mem_filterMap.mpr ⟨_, member, rfl⟩
      have inRest : e ∈ rest := by simpa [Schema.emptySlots] using order.mem_iff.mp among
      exact sound e (by simp [Element.children, inRest])
    obtain rfl : a = tbs.issuerUniqueId.map (uniqueIdElement issuerUniqueIdTag) := by
      refine (uniqueId_eq_ok (by decide) rfl ?_).mp readIssuerId
      rintro e (rfl : a = some e)
      exact soundSlot e (by simp)
    obtain rfl : b = tbs.subjectUniqueId.map (uniqueIdElement subjectUniqueIdTag) := by
      refine (uniqueId_eq_ok (by decide) rfl ?_).mp readSubjectId
      rintro e (rfl : b = some e)
      exact soundSlot e (by simp)
    obtain rfl : c = extensionsElement? exts := slot
    exact ⟨⟨canonical, canonicalKey⟩, written, rest, exts, rfl, default, order.symm,
      readExts⟩
  · rintro ⟨⟨canonical, canonicalKey⟩, version, rest, exts, rfl, default, order, readExts⟩
    have placed := Schema.foldlM_place_perm order.symm (tbs.foldlM_place_optionalSlots exts)
    have soundId {tag : Tag} {bits : BitString} (foreign : tag.tagClass ≠ .universal)
        (bare : tag.constructed = false) : (uniqueIdElement tag bits).Sound := ⟨foreign, bare⟩
    refine ⟨⟨schema, version.map versionElement :: tbs.requiredElements.map some,
        tbs.optionalSlots exts⟩, tbs.publicKeyInfo.toElement,
      fieldsOfElement_eq_ok.mpr ⟨_, _, rest, _, rfl, tbs.fits_requiredElements version, placed,
        rfl⟩,
      (versionAndNames_eq_ok rfl).mpr ⟨⟨version, rfl, default⟩, canonical, rfl⟩,
      SubjectPublicKeyInfo.ofElement_eq_ok.mpr ⟨rfl, canonicalKey⟩,
      (uniqueId_eq_ok (by decide) rfl ?_).mpr rfl, (uniqueId_eq_ok (by decide) rfl ?_).mpr rfl,
      exts, rfl, readExts⟩
    · intro e (slot : tbs.issuerUniqueId.map (uniqueIdElement issuerUniqueIdTag) = some e)
      obtain ⟨bits, -, rfl⟩ := Option.map_eq_some_iff.mp slot
      exact soundId (by decide) rfl
    · intro e (slot : tbs.subjectUniqueId.map (uniqueIdElement subjectUniqueIdTag) = some e)
      obtain ⟨bits, -, rfl⟩ := Option.map_eq_some_iff.mp slot
      exact soundId (by decide) rfl

/-- The version that is written out; the first one is not. -/
def writtenVersion (version : Version) : Option Version :=
  if version = .v1 then none else some version

theorem writtenVersion_getD (version : Version) : (writtenVersion version).getD .v1 = version := by
  cases version <;> rfl

theorem mapM_uniqueId (number : UInt32) (bits : Option BitString) :
    bits.mapM (Element.implicit .bitString (.context number)) =
      .ok (bits.map (uniqueIdElement (.context number))) :=
  @Element.mapM_implicit .bitString _ (fun _ => rfl) number bits

theorem supplyAll_optionalSlots (tbs : TbsCertificate) (exts : List Element) :
    schema.supplyAll schema.emptySlots
        [(issuerUniqueIdTag, tbs.issuerUniqueId.map (uniqueIdElement issuerUniqueIdTag)),
          (subjectUniqueIdTag, tbs.subjectUniqueId.map (uniqueIdElement subjectUniqueIdTag)),
          (extensionsTag, extensionsElement? exts)] =
      .ok (tbs.optionalSlots exts) := by
  unfold optionalSlots extensionsElement?
  cases tbs.issuerUniqueId <;> cases tbs.subjectUniqueId <;> split_ifs <;> rfl

theorem layPositional_requiredElements (tbs : TbsCertificate) (version : Option Version) :
    schema.layPositional schema.positional
        (version.map versionElement :: tbs.requiredElements.map some) =
      .ok ((version.map versionElement).toList ++ tbs.requiredElements) := by
  rw [Schema.layPositional_of_fits (tbs.fits_requiredElements version), filterMap_slots]

/-- What a signed part is written as: version 1 is left out and the optional fields are in the
order of the schema. -/
theorem toElement_eq {tbs : TbsCertificate} {exts : List Element}
    (written : tbs.extensions.mapM Extension.toElement = .ok exts) :
    tbs.toElement = .ok (.sequence (((writtenVersion tbs.version).map versionElement).toList ++
      tbs.requiredElements ++ (tbs.optionalSlots exts).filterMap id)) := by
  have version : (if tbs.version = .v1 then none
      else some (Element.explicit 0 (.primitive .integer tbs.version.number))) =
      (writtenVersion tbs.version).map versionElement := by
    cases tbs.version <;> rfl
  have same : tbs.extensions = [] ↔ exts = [] := by
    rw [← List.length_eq_zero_iff, ← List.length_eq_zero_iff,
      (Except.mapM_eq_ok.mp written).length_eq]
  have extensions : (if tbs.extensions.isEmpty then none
      else some (Element.explicit 3 (.sequence exts))) = extensionsElement? exts := by
    simp only [List.isEmpty_iff, same, extensionsElement?]
  have front := tbs.layPositional_requiredElements (writtenVersion tbs.version)
  have issuerId : tbs.issuerUniqueId.mapM (Element.implicit .bitString issuerUniqueIdTag) =
      .ok (tbs.issuerUniqueId.map (uniqueIdElement issuerUniqueIdTag)) :=
    mapM_uniqueId 1 tbs.issuerUniqueId
  have subjectId : tbs.subjectUniqueId.mapM (Element.implicit .bitString subjectUniqueIdTag) =
      .ok (tbs.subjectUniqueId.map (uniqueIdElement subjectUniqueIdTag)) :=
    mapM_uniqueId 2 tbs.subjectUniqueId
  simp only [requiredElements, List.map_cons, List.map_nil] at front
  simp only [toElement, issuerId, subjectId, written, Except.ok_bind, Schema.encode, version,
    extensions, front, supplyAll_optionalSlots, Except.pure_def, Except.ok_mapError,
    requiredElements]

end TbsCertificate

end DerCodec
