import DerCodec.Certificate.Name
import DerCodec.Certificate.PublicKey
import DerCodec.Certificate.Validity
import DerCodec.Extension
import DerCodec.Proofs.Access
import DerCodec.Proofs.SchemaSlots

/-!
# Parts of a certificate and the elements they are read from

Algorithms, names, validity and keys are each read from exactly one element, the one that they are
written as. An extension is read from two, since a false flag may be written out or left out.
-/

namespace DerCodec

/-! ## Algorithms -/

namespace AlgorithmParameters

theorem toElement_ofElement (element : Element) : (ofElement element).toElement = element := by
  unfold ofElement
  split <;> rfl

/-- A NULL that is read is never kept as an element. -/
theorem ofElement_ne (parameters : Element) :
    ofElement parameters ≠ element (.primitive .null ()) := by
  unfold ofElement
  split
  · simp
  · rename_i other
    simpa using other ()

theorem ofElement_toElement {parameters : AlgorithmParameters}
    (h : parameters ≠ element (.primitive .null ())) :
    ofElement parameters.toElement = parameters := by
  cases parameters with
  | null => rfl
  | element inner =>
    simp only [toElement, ofElement]
    split
    · simp at h
    · rfl

end AlgorithmParameters

namespace AlgorithmIdentifier

theorem eq_iff {a b : AlgorithmIdentifier} :
    a = b ↔ a.algorithm = b.algorithm ∧ a.parameters = b.parameters := by
  cases a
  cases b
  simp

/-- Parameters that are NULL are given as such and not as an element. -/
def Canonical (id : AlgorithmIdentifier) : Prop :=
  id.parameters ≠ some (.element (.primitive .null ()))

instance (id : AlgorithmIdentifier) : Decidable id.Canonical :=
  inferInstanceAs (Decidable (_ ≠ _))

theorem ofElement_eq_ok {element : Element} {id : AlgorithmIdentifier} :
    ofElement element = .ok id ↔ element = id.toElement ∧ id.Canonical := by
  obtain ⟨oid, parameters⟩ := id
  simp only [ofElement, Except.bind_eq_ok, Element.asSequence_eq_ok, toElement, Canonical]
  constructor
  · rintro ⟨children, rfl, read⟩
    split at read
    · obtain ⟨value, found, same⟩ := Except.bind_eq_ok.mp read
      obtain rfl := Element.value_eq_ok.mp found
      cases same
      simp
    · rename_i first second
      obtain ⟨value, found, same⟩ := Except.bind_eq_ok.mp read
      obtain rfl := Element.value_eq_ok.mp found
      cases same
      exact ⟨by simp [AlgorithmParameters.toElement_ofElement],
        by simpa using AlgorithmParameters.ofElement_ne second⟩
    · simp at read
  · rintro ⟨rfl, canonical⟩
    refine ⟨_, rfl, ?_⟩
    cases parameters with
    | none => simp [Element.value]
    | some parameters =>
      have given : parameters ≠ .element (.primitive .null ()) := by simpa using canonical
      simp [Element.value, AlgorithmParameters.ofElement_toElement given]

end AlgorithmIdentifier

/-! ## Names -/

theorem NameAttribute.ofElement_eq_ok {element : Element} {attr : NameAttribute} :
    ofElement element = .ok attr ↔ element = attr.toElement := by
  obtain ⟨type, value⟩ := attr
  simp only [ofElement, Except.bind_eq_ok, Element.asSequence_eq_ok, toElement]
  constructor
  · rintro ⟨children, rfl, read⟩
    split at read
    · obtain ⟨oid, found, same⟩ := Except.bind_eq_ok.mp read
      obtain rfl := Element.value_eq_ok.mp found
      cases same
      rfl
    · simp at read
  · rintro rfl
    exact ⟨_, rfl, rfl⟩

theorem RelativeName.ofElement_eq_ok {element : Element} {name : RelativeName} :
    ofElement element = .ok name ↔ element = name.toElement := by
  obtain ⟨attributes⟩ := name
  have each (element : Element) (attr : NameAttribute) :
      NameAttribute.ofElement element = .ok attr ↔ element = attr.toElement :=
    NameAttribute.ofElement_eq_ok
  simp only [ofElement, Except.bind_eq_ok, Element.asSet_eq_ok, Except.mapM_eq_ok_iff_map each,
    Except.pure_def, Except.ok.injEq, RelativeName.mk.injEq, toElement]
  simp

theorem Name.ofElement_eq_ok {element : Element} {name : Name} :
    ofElement element = .ok name ↔ element = name.toElement := by
  obtain ⟨relativeNames⟩ := name
  have each (element : Element) (name : RelativeName) :
      RelativeName.ofElement element = .ok name ↔ element = name.toElement :=
    RelativeName.ofElement_eq_ok
  simp only [ofElement, Except.bind_eq_ok, Element.asSequence_eq_ok, Except.mapM_eq_ok_iff_map each,
    Except.pure_def, Except.ok.injEq, Name.mk.injEq, toElement]
  simp

/-! ## Validity -/

theorem CertificateTime.ofElement_eq_ok {element : Element} {time : CertificateTime} :
    ofElement element = .ok time ↔ element = time.toElement := by
  unfold ofElement
  split
  · cases time <;> simp [toElement, eq_comm]
  · cases time <;> simp [toElement]
  · rename_i utc generalized
    cases time with
    | utc value => simpa [toElement] using utc value
    | generalized value => simpa [toElement] using generalized value

theorem Validity.ofElement_eq_ok {element : Element} {validity : Validity} :
    ofElement element = .ok validity ↔ element = validity.toElement := by
  obtain ⟨notBefore, notAfter⟩ := validity
  simp only [ofElement, Except.bind_eq_ok, Element.asSequence_eq_ok, toElement]
  constructor
  · rintro ⟨children, rfl, read⟩
    split at read
    · obtain ⟨first, foundFirst, rest⟩ := Except.bind_eq_ok.mp read
      obtain ⟨second, foundSecond, same⟩ := Except.bind_eq_ok.mp rest
      obtain rfl := CertificateTime.ofElement_eq_ok.mp foundFirst
      obtain rfl := CertificateTime.ofElement_eq_ok.mp foundSecond
      cases same
      rfl
    · simp at read
  · rintro rfl
    refine ⟨_, rfl, ?_⟩
    simp [CertificateTime.ofElement_eq_ok.mpr rfl]

/-! ## Keys -/

namespace SubjectPublicKeyInfo

/-- The key is the one that the algorithm finds in the bits. -/
def Canonical (info : SubjectPublicKeyInfo) : Prop :=
  info.algorithm.Canonical ∧ info = ofBits info.algorithm info.bits

theorem fieldsOfElement_eq_ok {element : Element} {algorithm : AlgorithmIdentifier}
    {bits : BitString} :
    fieldsOfElement element = .ok (algorithm, bits) ↔
      element = .sequence [algorithm.toElement, .primitive .bitString bits] ∧
        algorithm.Canonical := by
  simp only [fieldsOfElement, Except.bind_eq_ok, Element.asSequence_eq_ok]
  constructor
  · rintro ⟨children, rfl, read⟩
    split at read
    · obtain ⟨first, foundFirst, rest⟩ := Except.bind_eq_ok.mp read
      obtain ⟨second, foundSecond, same⟩ := Except.bind_eq_ok.mp rest
      obtain ⟨rfl, canonical⟩ := AlgorithmIdentifier.ofElement_eq_ok.mp foundFirst
      obtain rfl := Element.value_eq_ok.mp foundSecond
      cases same
      exact ⟨rfl, canonical⟩
    · simp at read
  · rintro ⟨rfl, canonical⟩
    refine ⟨_, rfl, ?_⟩
    simp [AlgorithmIdentifier.ofElement_eq_ok.mpr ⟨rfl, canonical⟩, Element.value]

theorem ofElement_eq_ok {element : Element} {info : SubjectPublicKeyInfo} :
    (ofElement element).result = .ok info ↔ element = info.toElement ∧ info.Canonical := by
  simp only [ofElement, Logged.result_bind, Logged.result_ofExcept, Except.bind_eq_ok,
    ofBitsLogged]
  constructor
  · rintro ⟨⟨algorithm, bits⟩, read, same⟩
    obtain rfl := Except.ok.inj same
    obtain ⟨tree, canonical⟩ := fieldsOfElement_eq_ok.mp read
    exact ⟨tree, canonical, rfl⟩
  · rintro ⟨tree, canonical, derived⟩
    refine ⟨⟨info.algorithm, info.bits⟩, fieldsOfElement_eq_ok.mpr ⟨tree, canonical⟩, ?_⟩
    rw [← derived]

end SubjectPublicKeyInfo

/-! ## Extensions -/

namespace Extension

/-- The element of an extension, with its flag written out or left out. -/
def elementOf (oid : Oid) (flag : Option Bool) (raw : Bytes) : Element :=
  .sequence (.primitive .oid oid :: ((flag.map (.primitive .boolean)).toList ++
    [.primitive .octetString raw]))

/-- The flag that is written out; a false one is not. -/
def writtenFlag (critical : Bool) : Option Bool :=
  if critical then some true else none

theorem writtenFlag_getD (critical : Bool) : (writtenFlag critical).getD false = critical := by
  cases critical <;> rfl

theorem toElement_eq (extension : Extension) :
    extension.toElement =
      .ok (elementOf extension.oid (writtenFlag extension.critical) extension.raw) := by
  cases critical : extension.critical <;>
    simp [toElement, critical, writtenFlag, elementOf, Schema.encode, Schema.layPositional, schema,
      Field.required, Field.defaulted, Field.accepts, Element.tag, Schema.supplyAll,
      Schema.emptySlots]

theorem partsOfElement_eq_ok {element : Element} {oid : Oid} {critical : Bool} {raw : Bytes} :
    partsOfElement element = .ok (oid, critical, raw) ↔
      ∃ flag, element = elementOf oid flag raw ∧ critical = flag.getD false := by
  simp only [partsOfElement, Except.bind_eq_ok, Except.mapError_eq_ok, Element.asSequence_eq_ok,
    Schema.decode_eq_ok, Fields.required_eq_ok, Except.option_mapM_eq_ok]
  constructor
  · rintro ⟨elements, rfl, fields, ⟨slots, rest, optional, taken, placed, rfl⟩, first, foundFirst,
      oid', readFirst, flag, middle, last, foundLast, raw', readLast, same⟩
    obtain ⟨rfl, rfl, rfl⟩ : oid' = oid ∧ flag.getD false = critical ∧ raw' = raw := by
      simpa using same
    obtain rfl := Element.value_eq_ok.mp readFirst
    obtain rfl := Element.value_eq_ok.mp readLast
    obtain ⟨rfl, fits⟩ := Schema.takePositional_eq_ok taken
    obtain rfl := Schema.foldlM_place_none rfl rfl placed
    obtain ⟨a, b, c, rfl⟩ := List.length_eq_three.mp fits.length_eq.symm
    obtain rfl : a = _ := foundFirst
    obtain rfl : c = _ := foundLast
    refine ⟨flag, ?_, rfl⟩
    rcases middle with ⟨absent, rfl⟩ | ⟨inner, value, present, rfl, readFlag⟩
    · obtain rfl : b = none := absent
      rfl
    · obtain rfl : b = some inner := present
      obtain rfl := Element.value_eq_ok.mp readFlag
      rfl
  · rintro ⟨flag, rfl, rfl⟩
    have taken : schema.takePositional schema.positional
        (.primitive .oid oid :: ((flag.map (.primitive .boolean)).toList ++
          [.primitive .octetString raw])) =
        .ok ([some (.primitive .oid oid), flag.map (.primitive .boolean),
          some (.primitive .octetString raw)], []) := by
      cases flag <;> rfl
    refine ⟨_, rfl, _, ⟨_, _, _, taken, rfl, rfl⟩, _, rfl, oid, rfl, flag, ?_, _, rfl, raw, rfl,
      rfl⟩
    cases flag with
    | none => exact .inl ⟨rfl, rfl⟩
    | some value => exact .inr ⟨_, value, rfl, rfl, rfl⟩

/-- An extension is read from its element, with a false flag or without it, when its value is. -/
theorem ofElement_eq_ok {policy : ExtensionPolicy} {element : Element} {extension : Extension} :
    (ofElement policy element).result = .ok extension ↔
      (∃ flag, element = elementOf extension.oid flag extension.raw ∧
        extension.critical = flag.getD false) ∧
        (readValue policy extension.oid extension.raw).result = .ok extension.value := by
  obtain ⟨oid, critical, raw, value⟩ := extension
  simp only [ofElement, Logged.result_bind, Logged.result_ofExcept, Except.bind_eq_ok,
    Logged.result_pure]
  constructor
  · rintro ⟨⟨oid', critical', raw'⟩, parts, value', read, same⟩
    cases same
    exact ⟨partsOfElement_eq_ok.mp parts, read⟩
  · rintro ⟨parts, read⟩
    exact ⟨⟨oid, critical, raw⟩, partsOfElement_eq_ok.mpr parts, value, read, rfl⟩

end Extension

end DerCodec
