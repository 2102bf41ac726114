import DerCodec.Extension
import DerCodec.Proofs.CertificateParts
import DerCodec.Proofs.NamedBits
import DerCodec.Proofs.SchemaRoundTrip

/-!
# Values of extensions that are read back

The element that a typed value is written as is read as no other value. It is read at all exactly
when every list of names, of distribution points and of key purposes in it has a member:
`TypedExtension.Filled` says this of a value, since the writers take empty lists and the readers do
not.
-/

namespace DerCodec

theorem IpAddress.ofOctets?_octets (address : IpAddress) :
    ofOctets? address.octets = some address :=
  dif_pos address.length_octets

@[simp] theorem ReasonFlags.ofBits_toBits (flags : ReasonFlags) : ofBits flags.toBits = flags := by
  simp [ofBits, toBits]

@[simp] theorem KeyUsage.ofBits_toBits (usage : KeyUsage) : ofBits usage.toBits = usage := by
  simp [ofBits, toBits, flags]

/-! ## General names -/

namespace GeneralName

/-- Every name that is written is read back. -/
theorem ofElement_of_toElement {name : GeneralName} {element : Element}
    (written : name.toElement = .ok element) : ofElement element = .ok name := by
  cases name with
  | other elements =>
    obtain rfl := Except.ok.inj written
    rfl
  | email address =>
    obtain ⟨content, rfl, read⟩ :=
      Element.decodeAs_of_implicit (Except.mapError_eq_ok.mp written) fun _ => rfl
    exact congrArg (fun result => (result.mapError inElement).map email) read
  | dns address =>
    obtain ⟨content, rfl, read⟩ :=
      Element.decodeAs_of_implicit (Except.mapError_eq_ok.mp written) fun _ => rfl
    exact congrArg (fun result => (result.mapError inElement).map dns) read
  | x400 elements =>
    obtain rfl := Except.ok.inj written
    rfl
  | directory name =>
    obtain rfl := Except.ok.inj written
    have read : directoryOfElement (.explicit 4 name.toElement) = .ok name := by
      rw [directoryOfElement, Element.explicitInner_eq_ok.mpr rfl, Except.ok_bind]
      exact Name.ofElement_eq_ok.mpr rfl
    exact congrArg (fun result => (result.mapError inElement).map directory) read
  | ediParty elements =>
    obtain rfl := Except.ok.inj written
    rfl
  | uri address =>
    obtain ⟨content, rfl, read⟩ :=
      Element.decodeAs_of_implicit (Except.mapError_eq_ok.mp written) fun _ => rfl
    exact congrArg (fun result => (result.mapError inElement).map uri) read
  | ip address =>
    have framed : Element.implicit .octetString ipTag address.octets = .ok element := by
      simpa only [toElement, Except.mapError_eq_ok] using written
    obtain ⟨content, rfl, read⟩ := Element.decodeAs_of_implicit framed fun _ => rfl
    have found : ipOfElement (.taggedOctets ipTag content) = .ok address := by
      simp only [ipOfElement, ipTag, read, Except.ok_mapError, Except.ok_bind,
        IpAddress.ofOctets?_octets]
    exact congrArg (Except.map ip) found
  | registeredId oid =>
    obtain ⟨content, rfl, read⟩ :=
      Element.decodeAs_of_implicit (Except.mapError_eq_ok.mp written) fun _ => rfl
    exact congrArg (fun result => (result.mapError inElement).map registeredId) read

/-- A list of names is read back unless it is empty. -/
theorem readsBack_list (kind : ExtensionKind) :
    Except.ReadsBack listToElements (listOfElements kind) (· ≠ []) := by
  intro names elements written names'
  have each := (Except.ReadsBack.of_ok fun _ _ => ofElement_of_toElement).mapM _ _ written names'
  have length := (Except.mapM_eq_ok.mp written).length_eq
  cases elements with
  | nil =>
    obtain rfl := List.length_eq_zero_iff.mp length
    simp [listOfElements]
  | cons element elements =>
    have filled : names ≠ [] := List.ne_nil_of_length_eq_add_one length
    simpa [listOfElements, filled] using each

/-- The names under a tag of their own. -/
def listUnder (number : UInt32) (names : List GeneralName) : Except ExtensionError Element :=
  (listToElements names).map (.taggedList (.contextConstructed number))

theorem tag_of_listUnder {number : UInt32} {names : List GeneralName} {element : Element}
    (h : listUnder number names = .ok element) : element.tag = .contextConstructed number := by
  obtain ⟨elements, -, rfl⟩ := Except.map_eq_ok.mp h
  rfl

theorem readsBack_listUnder (kind : ExtensionKind) (number : UInt32)
    (inElement : ElementError → ExtensionError) :
    Except.ReadsBack (listUnder number) (fun element => do
      let names ← (element.childrenUnder (.contextConstructed number)).mapError inElement
      listOfElements kind names) (· ≠ []) := by
  intro names element written names'
  obtain ⟨elements, run, rfl⟩ := Except.map_eq_ok.mp written
  have children := (Element.childrenUnder_eq_ok (Element.contextConstructed_foreign number)).mpr
    (Eq.refl (Element.taggedList (.contextConstructed number) elements))
  simp only [children, Except.ok_mapError, Except.ok_bind]
  exact readsBack_list kind names elements run names'

end GeneralName

/-! ## Distribution points -/

namespace DistributionPointName

/-- A full name has a member. -/
def Filled : DistributionPointName → Prop
  | fullName names => names ≠ []
  | relativeToIssuer _ => True

instance : (name : DistributionPointName) → Decidable name.Filled
  | fullName names => inferInstanceAs (Decidable (names ≠ []))
  | relativeToIssuer _ => .isTrue trivial

theorem relativeOfElement_eq_ok {element : Element} {name : RelativeName} :
    relativeOfElement element = .ok name ↔
      element = .taggedList relativeTag (name.attributes.map NameAttribute.toElement) := by
  obtain ⟨attributes⟩ := name
  have each (element : Element) (attr : NameAttribute) :
      NameAttribute.ofElement element = .ok attr ↔ element = attr.toElement :=
    NameAttribute.ofElement_eq_ok
  simp only [relativeOfElement, Except.bind_eq_ok, Except.mapM_eq_ok_iff_map each, Except.pure_def,
    Except.ok.injEq, RelativeName.mk.injEq, relativeTag,
    Element.childrenUnder_eq_ok (Element.contextConstructed_foreign 1)]
  simp

theorem readsBack : Except.ReadsBack toElement ofElement Filled := by
  intro name element written name'
  cases name with
  | fullName names =>
    obtain ⟨elements, run, rfl⟩ := Except.map_eq_ok.mp written
    have framed : GeneralName.listUnder 0 names = .ok (.taggedList fullNameTag elements) :=
      Except.map_eq_ok.mpr ⟨elements, run, rfl⟩
    exact (GeneralName.readsBack_listUnder .crlDistributionPoints 0
      DistributionPoint.inElement).map_eq_ok framed fullName name'
  | relativeToIssuer name =>
    obtain rfl := Except.ok.inj written
    have found := relativeOfElement_eq_ok.mpr
      (Eq.refl (Element.taggedList relativeTag (name.attributes.map NameAttribute.toElement)))
    have read : ofElement (.implicitList relativeTag
        (name.attributes.map NameAttribute.toElement)) = .ok (relativeToIssuer name) :=
      congrArg (fun result => (result.mapError DistributionPoint.inElement).map relativeToIssuer)
        found
    rw [read, Except.ok.injEq, Filled, and_true, eq_comm]

end DistributionPointName

namespace DistributionPoint

/-- Every list of names in the point has a member. -/
structure Filled (point : DistributionPoint) : Prop where
  name : ∀ name ∈ point.name, name.Filled
  crlIssuer : ∀ names ∈ point.crlIssuer, names ≠ []

instance (point : DistributionPoint) : Decidable point.Filled :=
  decidable_of_iff ((∀ name ∈ point.name, name.Filled) ∧ ∀ names ∈ point.crlIssuer, names ≠ [])
    ⟨fun h => ⟨h.1, h.2⟩, fun h => ⟨h.1, h.2⟩⟩

theorem schema_byTag : schema.ByTag [nameTag, reasonsTag, crlIssuerTag] :=
  ⟨rfl, rfl, by decide⟩

/-- The name inside its explicit tag. -/
def nameToElement (name : DistributionPointName) : Except ExtensionError Element :=
  name.toElement.map (.explicit 0)

theorem readsBack_name :
    Except.ReadsBack nameToElement nameOfElement DistributionPointName.Filled := by
  intro name element written name'
  obtain ⟨inner, step, rfl⟩ := Except.map_eq_ok.mp written
  rw [nameOfElement, Element.explicitInner_eq_ok.mpr rfl]
  exact DistributionPointName.readsBack name inner step name'

def reasonsElement (flags : ReasonFlags) : Element :=
  .taggedOctets reasonsTag flags.toBits.encode

theorem mapM_reasons (reasons : Option ReasonFlags) :
    (reasons.mapM fun flags => Element.implicit .bitString reasonsTag flags.toBits) =
      .ok (reasons.map reasonsElement) := by
  cases reasons with
  | none => rfl
  | some flags => exact @Element.mapM_implicit .bitString _ (fun _ => rfl) 1 (some flags.toBits)

theorem under_slots {point : DistributionPoint} {name crlIssuer : Option Element}
    (first : point.name.mapM nameToElement = .ok name)
    (third : point.crlIssuer.mapM (GeneralName.listUnder 2) = .ok crlIssuer) :
    List.Forall₂ Schema.Under [nameTag, reasonsTag, crlIssuerTag]
      [name, point.reasons.map reasonsElement, crlIssuer] := by
  refine .cons (Schema.under_of_mapM ?_ first)
    (.cons ?_ (.cons (Schema.under_of_mapM ?_ third) .nil))
  · intro name element step
    obtain ⟨inner, -, rfl⟩ := Except.map_eq_ok.mp step
    rfl
  · intro element held
    obtain ⟨flags, -, rfl⟩ := Option.map_eq_some_iff.mp held
    rfl
  · exact fun names element step => GeneralName.tag_of_listUnder step

theorem toElement_eq_ok {point : DistributionPoint} {element : Element} :
    point.toElement = .ok element ↔ ∃ name crlIssuer,
      point.name.mapM nameToElement = .ok name ∧
        point.crlIssuer.mapM (GeneralName.listUnder 2) = .ok crlIssuer ∧
        element = .sequence ([name, point.reasons.map reasonsElement, crlIssuer].filterMap id) := by
  have laid {name crlIssuer : Option Element} (first : point.name.mapM nameToElement = .ok name)
      (third : point.crlIssuer.mapM (GeneralName.listUnder 2) = .ok crlIssuer) :=
    schema_byTag.encode (under_slots first third)
  simp only [toElement, Except.bind_eq_ok, mapM_reasons, Except.mapError_eq_ok, Except.pure_def,
    Except.ok.injEq]
  constructor
  · rintro ⟨name, first, _, rfl, crlIssuer, third, children, written, rfl⟩
    have first' := Except.option_mapM_map_eq_ok.mpr
      ⟨name, first, Eq.refl (name.map (Element.explicit 0))⟩
    have third' := Except.option_mapM_map_eq_ok.mpr
      ⟨crlIssuer, third, Eq.refl (crlIssuer.map (Element.taggedList crlIssuerTag))⟩
    refine ⟨_, _, first', third', congrArg _ (Except.ok.inj (written.symm.trans ?_))⟩
    exact laid first' third'
  · rintro ⟨_, _, first, third, rfl⟩
    obtain ⟨name, first', rfl⟩ := Except.option_mapM_map_eq_ok.mp first
    obtain ⟨crlIssuer, third', rfl⟩ := Except.option_mapM_map_eq_ok.mp third
    exact ⟨name, first', _, rfl, crlIssuer, third', _, laid first third, rfl⟩

theorem mapM_decodeAs_reasons (reasons : Option ReasonFlags) :
    (reasons.map reasonsElement).mapM (Element.decodeAs .bitString reasonsTag) =
      .ok (reasons.map ReasonFlags.toBits) := by
  have read := @Element.mapM_decodeAs .bitString _ (fun _ => rfl) 1 (fun _ => rfl)
    (reasons.map ReasonFlags.toBits)
  rwa [Option.map_map] at read

theorem readsBack : Except.ReadsBack toElement ofElement Filled := by
  intro point element written point'
  obtain ⟨nameSlot, issuerSlot, first, third, rfl⟩ := toElement_eq_ok.mp written
  have fields := schema_byTag.decode (under_slots first third)
  have name := readsBack_name.option _ _ first
  have crlIssuer (names : Option (List GeneralName)) :
      issuerSlot.mapM crlIssuerOfElement = .ok names ↔ names = point.crlIssuer ∧
        ∀ names ∈ point.crlIssuer, names ≠ [] :=
    (GeneralName.readsBack_listUnder .crlDistributionPoints 2 inElement).option _ _ third names
  rw [ofElement, Element.asSequence, Except.ok_mapError, Except.ok_bind, fields, Except.ok_mapError,
    Except.ok_bind]
  change (do
    let name ← nameSlot.mapM nameOfElement
    let reasons ← ((point.reasons.map reasonsElement).mapM
      (Element.decodeAs .bitString reasonsTag)).mapError inElement
    let crlIssuer ← issuerSlot.mapM crlIssuerOfElement
    return (⟨name, reasons.map ReasonFlags.ofBits, crlIssuer⟩ : DistributionPoint)) = .ok point' ↔ _
  have flags : (point.reasons.map ReasonFlags.toBits).map ReasonFlags.ofBits = point.reasons := by
    simp [Function.comp_def]
  rw [mapM_decodeAs_reasons, Except.ok_mapError]
  simp only [Except.bind_eq_ok, Except.ok_bind, name, crlIssuer, Except.pure_def, Except.ok.injEq,
    flags]
  constructor
  · rintro ⟨_, ⟨rfl, named⟩, _, ⟨rfl, issued⟩, rfl⟩
    exact ⟨rfl, named, issued⟩
  · rintro ⟨rfl, named, issued⟩
    exact ⟨_, ⟨rfl, named⟩, _, ⟨rfl, issued⟩, rfl⟩

end DistributionPoint

/-! ## Authority key identifiers -/

namespace AuthorityKeyIdentifier

/-- An issuer that is given has a name. -/
def Filled (key : AuthorityKeyIdentifier) : Prop :=
  ∀ names ∈ key.issuer, names ≠ []

instance (key : AuthorityKeyIdentifier) : Decidable key.Filled :=
  inferInstanceAs (Decidable (∀ names ∈ key.issuer, names ≠ []))

theorem schema_byTag : schema.ByTag [keyIdentifierTag, issuerTag, serialNumberTag] :=
  ⟨rfl, rfl, by decide⟩

def keyIdentifierElement (octets : Bytes) : Element :=
  .taggedOctets keyIdentifierTag octets

def serialNumberElement (n : Int) : Element :=
  .taggedOctets serialNumberTag (TwosComplement.encode n)

theorem under_slots {key : AuthorityKeyIdentifier} {issuer : Option Element}
    (second : key.issuer.mapM (GeneralName.listUnder 1) = .ok issuer) :
    List.Forall₂ Schema.Under [keyIdentifierTag, issuerTag, serialNumberTag]
      [key.keyIdentifier.map keyIdentifierElement, issuer,
        key.serialNumber.map serialNumberElement] := by
  refine .cons ?_ (.cons (Schema.under_of_mapM ?_ second) (.cons ?_ .nil))
  · intro element held
    obtain ⟨octets, -, rfl⟩ := Option.map_eq_some_iff.mp held
    rfl
  · exact fun names element step => GeneralName.tag_of_listUnder step
  · intro element held
    obtain ⟨n, -, rfl⟩ := Option.map_eq_some_iff.mp held
    rfl

theorem toElement_eq_ok {key : AuthorityKeyIdentifier} {element : Element} :
    key.toElement = .ok element ↔ ∃ issuer,
      key.issuer.mapM (GeneralName.listUnder 1) = .ok issuer ∧
        element = .sequence ([key.keyIdentifier.map keyIdentifierElement, issuer,
          key.serialNumber.map serialNumberElement].filterMap id) := by
  have laid {issuer : Option Element}
      (second : key.issuer.mapM (GeneralName.listUnder 1) = .ok issuer) :=
    schema_byTag.encode (under_slots second)
  have identifier : key.keyIdentifier.mapM (Element.implicit .octetString keyIdentifierTag) =
      .ok (key.keyIdentifier.map keyIdentifierElement) :=
    @Element.mapM_implicit .octetString _ (fun _ => rfl) 0 key.keyIdentifier
  have serial : key.serialNumber.mapM (Element.implicit .integer serialNumberTag) =
      .ok (key.serialNumber.map serialNumberElement) :=
    @Element.mapM_implicit .integer _ (fun _ => rfl) 2 key.serialNumber
  rw [toElement, identifier, serial, Except.ok_mapError, Except.ok_mapError, Except.ok_bind]
  simp only [Except.bind_eq_ok, Except.mapError_eq_ok, Except.pure_def, Except.ok.injEq]
  constructor
  · rintro ⟨issuer, second, _, rfl, children, written, rfl⟩
    have second' := Except.option_mapM_map_eq_ok.mpr
      ⟨issuer, second, Eq.refl (issuer.map (Element.taggedList issuerTag))⟩
    refine ⟨_, second', congrArg _ (Except.ok.inj (written.symm.trans ?_))⟩
    exact laid second'
  · rintro ⟨_, second, rfl⟩
    obtain ⟨issuer, second', rfl⟩ := Except.option_mapM_map_eq_ok.mp second
    exact ⟨issuer, second', _, rfl, _, laid second, rfl⟩

theorem readsBack : Except.ReadsBack toElement ofElement Filled := by
  intro key element written key'
  obtain ⟨issuerSlot, second, rfl⟩ := toElement_eq_ok.mp written
  have fields := schema_byTag.decode (under_slots second)
  have issuer (names : Option (List GeneralName)) :
      issuerSlot.mapM issuerOfElement = .ok names ↔ names = key.issuer ∧
        ∀ names ∈ key.issuer, names ≠ [] :=
    (GeneralName.readsBack_listUnder .authorityKeyIdentifier 1 inElement).option _ _ second names
  have identifier : (key.keyIdentifier.map keyIdentifierElement).mapM
      (Element.decodeAs .octetString keyIdentifierTag) = .ok key.keyIdentifier :=
    @Element.mapM_decodeAs .octetString _ (fun _ => rfl) 0 (fun _ => rfl) key.keyIdentifier
  have serial : (key.serialNumber.map serialNumberElement).mapM
      (Element.decodeAs .integer serialNumberTag) = .ok key.serialNumber :=
    @Element.mapM_decodeAs .integer _ (fun _ => rfl) 2 (fun _ => rfl) key.serialNumber
  rw [ofElement, Element.asSequence, Except.ok_mapError, Except.ok_bind, fields, Except.ok_mapError,
    Except.ok_bind]
  change (do
    let keyIdentifier ← ((key.keyIdentifier.map keyIdentifierElement).mapM
      (Element.decodeAs .octetString keyIdentifierTag)).mapError inElement
    let issuer ← issuerSlot.mapM issuerOfElement
    let serialNumber ← ((key.serialNumber.map serialNumberElement).mapM
      (Element.decodeAs .integer serialNumberTag)).mapError inElement
    return (⟨keyIdentifier, issuer, serialNumber⟩ : AuthorityKeyIdentifier)) = .ok key' ↔ _
  rw [identifier, serial, Except.ok_mapError, Except.ok_mapError, Except.ok_bind]
  simp only [Except.bind_eq_ok, Except.ok_bind, issuer, Except.pure_def, Except.ok.injEq]
  constructor
  · rintro ⟨_, ⟨rfl, issued⟩, rfl⟩
    exact ⟨rfl, issued⟩
  · rintro ⟨rfl, issued⟩
    exact ⟨_, ⟨rfl, issued⟩, rfl⟩

end AuthorityKeyIdentifier

/-! ## Basic constraints -/

namespace BasicConstraints

def flagElement? (constraints : BasicConstraints) : Option Element :=
  if constraints.isAuthority then some (.primitive .boolean true) else none

def pathLengthElement (n : UInt32) : Element :=
  .primitive .integer n.toNat

theorem toElement_eq (constraints : BasicConstraints) :
    constraints.toElement = .ok (.sequence ([constraints.flagElement?,
      constraints.pathLength.map pathLengthElement].filterMap id)) := by
  obtain ⟨isAuthority, pathLength⟩ := constraints
  cases isAuthority <;> cases pathLength <;> rfl

theorem pathLengthOfElement_pathLengthElement (n : UInt32) :
    pathLengthOfElement (pathLengthElement n) = .ok n := by
  have bound := n.toNat_lt
  have fits : Integer.narrow? .unsigned32 (n.toNat : Int) = some (n.toNat : Int) := by
    refine Integer.narrow?_eq_some.mpr ⟨rfl, Int.natCast_nonneg _, ?_⟩
    change (n.toNat : Int) < 4294967296
    omega
  have read : (pathLengthElement n).value .integer = .ok (n.toNat : Int) :=
    Element.value_eq_ok.mpr rfl
  rw [pathLengthOfElement, read, Except.ok_mapError, Except.ok_bind]
  simp [fits]

theorem decode_slots (constraints : BasicConstraints) :
    let slots := [constraints.flagElement?, constraints.pathLength.map pathLengthElement]
    schema.decode (slots.filterMap id) = .ok ⟨schema, slots, []⟩ := by
  obtain ⟨isAuthority, pathLength⟩ := constraints
  cases isAuthority <;> cases pathLength <;> rfl

theorem ofElement_of_toElement {constraints : BasicConstraints} {element : Element}
    (written : constraints.toElement = .ok element) : ofElement element = .ok constraints := by
  obtain rfl := Except.ok.inj (constraints.toElement_eq.symm.trans written)
  have flag : constraints.flagElement?.mapM (Element.value .boolean) =
      .ok (if constraints.isAuthority then some true else none) := by
    unfold flagElement?
    split <;> rfl
  have pathLength : (constraints.pathLength.map pathLengthElement).mapM pathLengthOfElement =
      .ok constraints.pathLength := by
    rw [Except.option_mapM_eq_ok]
    cases constraints.pathLength with
    | none => exact .inl ⟨rfl, rfl⟩
    | some n => exact .inr ⟨_, n, rfl, rfl, pathLengthOfElement_pathLengthElement n⟩
  rw [ofElement, Element.asSequence, Except.ok_mapError, Except.ok_bind, decode_slots,
    Except.ok_mapError, Except.ok_bind]
  change (do
    let isAuthority ← (constraints.flagElement?.mapM (Element.value .boolean)).mapError inElement
    let pathLength ← (constraints.pathLength.map pathLengthElement).mapM pathLengthOfElement
    return (⟨isAuthority.getD false, pathLength⟩ : BasicConstraints)) = _
  rw [flag, pathLength]
  obtain ⟨isAuthority, pathLength⟩ := constraints
  cases isAuthority <;> rfl

end BasicConstraints

/-! ## The eight kinds -/

namespace TypedExtension

/-- Every list in the value that readers ask a member of has one. -/
def Filled : TypedExtension → Prop
  | authorityKeyIdentifier key => key.Filled
  | basicConstraints _ => True
  | crlDistributionPoints points => points ≠ [] ∧ ∀ point ∈ points, point.Filled
  | extendedKeyUsage purposes => purposes ≠ []
  | issuerAltName names => names ≠ []
  | keyUsage _ => True
  | subjectAltName names => names ≠ []
  | subjectKeyIdentifier _ => True

instance : (value : TypedExtension) → Decidable value.Filled
  | authorityKeyIdentifier key => inferInstanceAs (Decidable key.Filled)
  | basicConstraints _ => .isTrue trivial
  | crlDistributionPoints points =>
    inferInstanceAs (Decidable (points ≠ [] ∧ ∀ point ∈ points, point.Filled))
  | extendedKeyUsage purposes => inferInstanceAs (Decidable (purposes ≠ []))
  | issuerAltName names => inferInstanceAs (Decidable (names ≠ []))
  | keyUsage _ => .isTrue trivial
  | subjectAltName names => inferInstanceAs (Decidable (names ≠ []))
  | subjectKeyIdentifier _ => .isTrue trivial

theorem nonemptyList_eq_ok {kind : ExtensionKind} {elements elements' : List Element} :
    nonemptyList kind (.sequence elements) = .ok elements' ↔
      elements' = elements ∧ elements ≠ [] := by
  rw [nonemptyList, Element.asSequence, Except.ok_mapError, Except.ok_bind]
  cases elements with
  | nil => simp
  | cons element elements => simp [eq_comm]

theorem readsBack_names (kind : ExtensionKind) :
    Except.ReadsBack (fun names => (GeneralName.listToElements names).map .sequence)
      (namesOfElement kind) (· ≠ []) := by
  intro names element written names'
  obtain ⟨elements, run, rfl⟩ := Except.map_eq_ok.mp written
  exact GeneralName.readsBack_list kind names elements run names'

/-- A list that must have a member is read back member by member. -/
theorem readsBack_nonemptyList {α ε ε' : Type} {write : α → Except ε Element}
    {read : Element → Except ε' α} {Passes : α → Prop} (each : Except.ReadsBack write read Passes)
    {kind : ExtensionKind} {as : List α} {elements : List Element}
    (run : as.mapM write = .ok elements) (as' : List α) :
    (∃ elements', nonemptyList kind (.sequence elements) = .ok elements' ∧
      elements'.mapM read = .ok as') ↔ as' = as ∧ as ≠ [] ∧ ∀ a ∈ as, Passes a := by
  have same := (Except.mapM_eq_ok.mp run).ne_nil_iff
  simp only [nonemptyList_eq_ok, and_assoc, exists_eq_left, each.mapM _ _ run, ← same]
  exact and_left_comm

/-- The element that a value is written as is read as that value or, when a list in it is empty,
not at all. -/
theorem ofElement_eq_ok {value : TypedExtension} {element : Element}
    (written : value.toElement = .ok element) (value' : TypedExtension) :
    ofElement value.kind element = .ok value' ↔ value' = value ∧ value.Filled := by
  cases value with
  | authorityKeyIdentifier key =>
    exact AuthorityKeyIdentifier.readsBack.map_eq_ok written authorityKeyIdentifier value'
  | basicConstraints constraints =>
    exact (Except.ReadsBack.of_ok fun _ _ => BasicConstraints.ofElement_of_toElement).map_eq_ok
      written basicConstraints value'
  | crlDistributionPoints points =>
    obtain ⟨elements, run, rfl⟩ := Except.map_eq_ok.mp written
    have read := @readsBack_nonemptyList _ _ _ _ _ _ DistributionPoint.readsBack
      .crlDistributionPoints _ _ run
    simp only [kind, ofElement, Except.bind_eq_ok, Except.pure_def, Except.ok.injEq]
    constructor
    · rintro ⟨_, some, points', each, rfl⟩
      obtain ⟨rfl, filled⟩ := (read points').mp ⟨_, some, each⟩
      exact ⟨rfl, filled⟩
    · rintro ⟨rfl, filled⟩
      obtain ⟨_, some, each⟩ := (read points).mpr ⟨rfl, filled⟩
      exact ⟨_, some, points, each, rfl⟩
  | extendedKeyUsage purposes =>
    obtain rfl := Except.ok.inj written
    have inverse : Except.ReadsBack
        (fun oid => (.ok (.primitive .oid oid) : Except ExtensionError Element))
        (Element.value .oid) fun _ => True :=
      .of_ok fun oid element step => Element.value_eq_ok.mpr (Except.ok.inj step).symm
    have read := @readsBack_nonemptyList _ _ _ _ _ _ inverse .extendedKeyUsage purposes _
      List.mapM_pure
    simp only [kind, ofElement, Except.bind_eq_ok, Except.pure_def, Except.ok.injEq,
      Except.mapError_eq_ok]
    constructor
    · rintro ⟨_, some, purposes', each, rfl⟩
      obtain ⟨rfl, filled, -⟩ := (read purposes').mp ⟨_, some, each⟩
      exact ⟨rfl, filled⟩
    · rintro ⟨rfl, filled⟩
      obtain ⟨_, some, each⟩ := (read purposes).mpr ⟨rfl, filled, fun _ _ => trivial⟩
      exact ⟨_, some, purposes, each, rfl⟩
  | issuerAltName names =>
    exact (readsBack_names .issuerAltName).map_eq_ok written issuerAltName value'
  | keyUsage usage =>
    obtain rfl := Except.ok.inj written
    have read : ofElement .keyUsage (.primitive .bitString usage.toBits) =
        .ok (keyUsage (.ofBits usage.toBits)) := rfl
    rw [KeyUsage.ofBits_toBits] at read
    rw [kind, read, Except.ok.injEq, Filled, and_true, eq_comm]
  | subjectAltName names =>
    exact (readsBack_names .subjectAltName).map_eq_ok written subjectAltName value'
  | subjectKeyIdentifier id =>
    obtain rfl := Except.ok.inj written
    have read : ofElement .subjectKeyIdentifier (.primitive .octetString id) =
        .ok (subjectKeyIdentifier id) := rfl
    rw [kind, read, Except.ok.injEq, Filled, and_true, eq_comm]

theorem parse_eq_ok {kind : ExtensionKind} {octets : Bytes} {value : TypedExtension} :
    parse kind octets = .ok value ↔
      ∃ tree, Element.decode octets = .ok tree ∧ ofElement kind tree = .ok value := by
  cases octets with
  | nil =>
    have short : Element.decode [] = .error (.framing .endOfInput) := rfl
    simp [parse, short]
  | cons octet octets => simp [parse, Except.bind_eq_ok]

end TypedExtension

end DerCodec
