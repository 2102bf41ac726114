import DerCodec.Proofs.CertificateParts

/-!
# Names built from texts

A name that is built from pairs of texts can always be written. Countries become PrintableString
whatever their text, and the reader of trees refuses such a string with a character beyond ASCII;
every other value becomes UTF8String, which holds any text. So a name is read back exactly when its
countries are ASCII, and is refused otherwise.
-/

namespace DerCodec

namespace Element

/-! ## Trees that come back or are refused -/

/-- The element can be written, and what it is written as is read as the element or refused with the
cause. -/
def ReadsBackOr (cause : ElementError) (levels : Nat) (element : Element) : Prop :=
  ∃ tlv, element.toTlv = .ok tlv ∧ (tlv.Countable →
    ofTlvWithin levels tlv = .ok element ∨ ofTlvWithin levels tlv = .error cause)

variable {cause : ElementError} {levels : Nat} {children : List Element}

theorem WellFormedWithin.readsBackOr {element : Element} (h : element.WellFormedWithin levels) :
    ReadsBackOr cause levels element := by
  obtain ⟨tlv, written⟩ := exists_toTlv h
  exact ⟨tlv, written, fun countable => .inl (ofTlvWithin_of_toTlv h written countable)⟩

/-- A string is written whatever its characters are, and only the reader looks at them. -/
theorem readsBackOr_printableString (levels : Nat) (text : String) :
    ReadsBackOr (.notAscii "PrintableString") (levels + 1) (primitive .printableString text) := by
  refine ⟨_, rfl, fun _ => ?_⟩
  rw [ofTlvWithin_primitive]
  by_cases ascii : Utf8.isAscii text = true
  · left
    exact Except.map_eq_ok.mpr ⟨text, AsciiString.decode_encode ascii, rfl⟩
  · right
    rw [Primitive.decode, AsciiString.decode, Utf8.all_encode, if_neg ascii]
    rfl

/-- The children of a list come back or are refused with it. -/
theorem readsBackOr_children (each : ∀ child ∈ children, ReadsBackOr cause levels child)
    (tag : Tag) (list : List Element → Element) :
    ∃ tlvs, toTlvs children = .ok tlvs ∧ ((Tlv.constructed tag tlvs).Countable →
      (ofChildren (ofTlvWithin levels) (.constructed tag tlvs)).map list = .ok (list children) ∨
        (ofChildren (ofTlvWithin levels) (.constructed tag tlvs)).map list = .error cause) := by
  have framed : ∃ tlvs, toTlvs children = .ok tlvs := exists_toTlvs fun child member =>
    (each child member).imp fun _ h => h.1
  obtain ⟨tlvs, run⟩ := framed
  refine ⟨tlvs, run, fun countable => ?_⟩
  rw [ofChildren, Tlv.children_constructed countable, Except.ok_mapError, Except.ok_bind]
  rw [toTlvs_eq_mapM] at run
  have read : tlvs.mapM (ofTlvWithin levels) = .ok children ∨
      tlvs.mapM (ofTlvWithin levels) = .error cause := by
    refine Except.mapM_inverse_or run fun child among tlv member written => ?_
    obtain ⟨own, framed, back⟩ := each child among
    obtain rfl := Except.ok.inj (framed.symm.trans written)
    exact back (countable.child member)
  exact read.imp (fun all => Except.map_eq_ok.mpr ⟨children, all, rfl⟩) Except.map_eq_error.mpr

theorem readsBackOr_sequence (each : ∀ child ∈ children, ReadsBackOr cause levels child) :
    ReadsBackOr cause (levels + 1) (sequence children) := by
  obtain ⟨tlvs, run, read⟩ := readsBackOr_children each Universal.sequence.tag sequence
  exact ⟨_, Except.map_eq_ok.mpr ⟨tlvs, run, rfl⟩, read⟩

theorem readsBackOr_set (each : ∀ child ∈ children, ReadsBackOr cause levels child) :
    ReadsBackOr cause (levels + 1) (set children) := by
  obtain ⟨tlvs, run, read⟩ := readsBackOr_children each Universal.set.tag set
  exact ⟨_, Except.map_eq_ok.mpr ⟨tlvs, run, rfl⟩, read⟩

/-- Such a tree has octets, which are read exactly when the tree is well-formed. -/
theorem ReadsBackOr.decode {root : Element} (h : ReadsBackOr cause (depthLimit + 1) root) :
    ∃ octets, root.encode = .ok octets ∧ (octets.length < UInt64.size →
      (root.WellFormed → decode octets = .ok root) ∧
      (¬root.WellFormed → decode octets = .error cause)) := by
  obtain ⟨tlv, written, read⟩ := h
  refine ⟨tlv.encode, by simp [encode, written], fun size => ?_⟩
  have countable := Tlv.countable_of_encode size
  have framed : Element.decode tlv.encode = ofTlv tlv := by
    rw [Element.decode, Tlv.decode_encode countable, Except.ok_mapError, Except.ok_bind]
  have found : Element.decode tlv.encode = .ok root ∨ Element.decode tlv.encode = .error cause :=
    framed ▸ read countable
  constructor
  · intro valid
    exact decode_of_encode valid (by simp [encode, written]) size
  · intro broken
    exact found.resolve_left fun ok => broken (wellFormed_of_decode ok)

end Element

/-! ## Attributes -/

namespace NameAttribute

/-- The name of the attribute for countries. -/
def NamesCountry (name : String) : Prop :=
  name = "C" ∨ name = "c"

instance (name : String) : Decidable (NamesCountry name) :=
  inferInstanceAs (Decidable (_ ∨ _))

theorem toLower_eq_c {c : Char} : c.toLower = 'c' ↔ c = 'C' ∨ c = 'c' := by
  delta Char.toLower
  simp only [Char.ext_iff, UInt32.ext_iff, ge_iff_le, UInt32.le_iff_toNat_le]
  split
  · rename_i upper
    simp at upper ⊢
    omega
  · rename_i other
    simp at other ⊢
    omega

theorem namesCountry_iff {name : String} :
    NamesCountry name ↔ OidTable.sameLetters "C" name = true := by
  rw [OidTable.sameLetters, beq_iff_eq]
  constructor
  · rintro (rfl | rfl) <;> decide
  · intro same
    obtain ⟨c, one, lower⟩ := List.map_eq_singleton_iff.mp
      (show name.toList.map Char.toLower = ['c'] from same.symm)
    rw [← name.ofList_toList, one]
    rcases toLower_eq_c.mp lower with rfl | rfl
    · exact .inl rfl
    · exact .inr rfl

/-- Only countries are called so. -/
theorem dottedOf?_eq_countryName {name dotted : String} (h : types.dottedOf? name = some dotted) :
    dotted = countryName ↔ NamesCountry name := by
  obtain ⟨entry, found, rfl⟩ := Option.map_eq_some_iff.mp h
  have same := List.find?_some found
  have only : ∀ entry ∈ types, entry.1 = countryName → entry.2 = "C" := by decide +kernel
  constructor
  · intro country
    rw [only entry (List.mem_of_find?_eq_some found) country] at same
    exact namesCountry_iff.mpr same
  · intro country
    have known : types.dottedOf? name = some countryName := by
      rcases country with rfl | rfl <;> decide +kernel
    exact Option.some.inj (h.symm.trans known)

/-- The identifiers in the table can be read, and written in an element. -/
theorem isEncodable_of_dottedOf? {name dotted : String} (h : types.dottedOf? name = some dotted)
    {type : Oid} (read : Oid.ofText dotted = .ok type) : type.IsEncodable := by
  obtain ⟨entry, found, rfl⟩ := Option.map_eq_some_iff.mp h
  have each : ∀ entry ∈ types,
      ((Oid.ofText entry.1).toOption.all fun type => decide type.IsEncodable) = true := by
    decide +kernel
  have here := each entry (List.mem_of_find?_eq_some found)
  rw [read] at here
  simpa [Except.toOption] using here

/-- The country is written in ASCII, if it is one. -/
def AsciiCountry (pair : String × String) : Prop :=
  NamesCountry pair.1 → Utf8.isAscii pair.2 = true

instance (pair : String × String) : Decidable (AsciiCountry pair) :=
  inferInstanceAs (Decidable (_ → _))

variable {name value : String} {attr : NameAttribute}

theorem ofName_eq_ok (h : ofName name value = .ok attr) : Primitive.oid.Carries attr.type ∧
    attr.value = if NamesCountry name then .primitive .printableString value
      else .primitive .utf8String value := by
  unfold ofName at h
  split at h
  · exact nomatch h
  · rename_i dotted known
    obtain ⟨type, read, built⟩ := Except.bind_eq_ok.mp h
    have encodable := isEncodable_of_dottedOf? known (Except.mapError_eq_ok.mp read)
    simp only [dottedOf?_eq_countryName known] at built
    split_ifs at built ⊢ with country <;> obtain rfl := Except.ok.inj built <;>
      exact ⟨encodable, rfl⟩

/-- Nothing but the characters of a country can keep the attribute from being read. -/
theorem wellFormedWithin_iff (built : ofName name value = .ok attr) (levels : Nat) :
    attr.toElement.WellFormedWithin (levels + 2) ↔ AsciiCountry (name, value) := by
  obtain ⟨type, held⟩ := ofName_eq_ok built
  rw [toElement, Element.wellFormedWithin_sequence, List.forall_mem_cons,
    List.forall_mem_singleton, and_iff_right (Element.wellFormedWithin_primitive.mpr type), held,
    AsciiCountry]
  split_ifs with country
  · rw [Element.wellFormedWithin_primitive, Primitive.Carries, imp_iff_right country]
  · have text : Primitive.utf8String.Carries value := trivial
    exact iff_of_true (Element.wellFormedWithin_primitive.mpr text) (absurd · country)

theorem readsBackOr (built : ofName name value = .ok attr) (levels : Nat) :
    Element.ReadsBackOr (.notAscii "PrintableString") (levels + 2) attr.toElement := by
  obtain ⟨type, held⟩ := ofName_eq_ok built
  refine Element.readsBackOr_sequence ?_
  rw [List.forall_mem_cons, List.forall_mem_singleton, held]
  refine ⟨(Element.wellFormedWithin_primitive.mpr type).readsBackOr, ?_⟩
  split_ifs
  · exact Element.readsBackOr_printableString levels value
  · have text : Primitive.utf8String.Carries value := trivial
    exact (Element.wellFormedWithin_primitive.mpr text).readsBackOr

end NameAttribute

/-! ## Names -/

namespace Name

open NameAttribute (AsciiCountry ofName)

variable {pairs : List (String × String)} {name : Name}

/-- Each pair makes a relative name of its own. -/
theorem ofAttributes_eq_ok (h : ofAttributes pairs = .ok name) :
    List.Forall₂ (fun pair relative => ∃ attr, ofName pair.1 pair.2 = .ok attr ∧
      relative = RelativeName.mk [attr]) pairs name.relativeNames := by
  obtain ⟨relativeNames, run, same⟩ := Except.bind_eq_ok.mp h
  obtain rfl := Except.ok.inj same
  refine (Except.mapM_eq_ok.mp run).imp fun pair relative built => ?_
  obtain ⟨attr, made, single⟩ := Except.bind_eq_ok.mp built
  exact ⟨attr, made, (Except.ok.inj single).symm⟩

theorem wellFormed_iff (built : ofAttributes pairs = .ok name) :
    name.toElement.WellFormed ↔ ∀ pair ∈ pairs, AsciiCountry pair := by
  have each : List.Forall₂ (fun pair relative => AsciiCountry pair ↔
      relative.toElement.WellFormedWithin 64) pairs name.relativeNames := by
    refine (ofAttributes_eq_ok built).imp ?_
    rintro pair relative ⟨attr, made, rfl⟩
    rw [RelativeName.toElement, Element.wellFormedWithin_set, List.forall_mem_map,
      List.forall_mem_singleton]
    exact (NameAttribute.wellFormedWithin_iff made 61).symm
  rw [each.forall_mem_iff, Element.wellFormed_iff, Element.depthLimit, toElement,
    Element.wellFormedWithin_sequence, List.forall_mem_map]

theorem readsBackOr (built : ofAttributes pairs = .ok name) :
    Element.ReadsBackOr (.notAscii "PrintableString") (Element.depthLimit + 1) name.toElement := by
  have each : List.Forall₂ (fun _ relative => True ↔
      Element.ReadsBackOr (.notAscii "PrintableString") 64 relative.toElement)
      pairs name.relativeNames := by
    refine (ofAttributes_eq_ok built).imp ?_
    rintro pair relative ⟨attr, made, rfl⟩
    refine iff_of_true trivial (Element.readsBackOr_set ?_)
    rw [List.forall_mem_map, List.forall_mem_singleton]
    exact NameAttribute.readsBackOr made 61
  refine Element.readsBackOr_sequence ?_
  rw [List.forall_mem_map]
  exact each.forall_mem_iff.mp fun _ _ => trivial

/-- A name that is built from texts is always written. It is read back exactly when its countries
are ASCII, and is refused for one that is not. -/
theorem ofAttributes_survives_iff (pairs : List (String × String)) (name : Name)
    (built : ofAttributes pairs = .ok name) :
    ∃ octets, name.toElement.encode = .ok octets ∧ (octets.length < UInt64.size →
      ((Element.decode octets >>= ofElement) = .ok name ↔ ∀ pair ∈ pairs, AsciiCountry pair) ∧
      ((∃ pair ∈ pairs, ¬AsciiCountry pair) →
        Element.decode octets = .error (.notAscii "PrintableString"))) := by
  obtain ⟨octets, written, read⟩ := (readsBackOr built).decode
  refine ⟨octets, written, fun size => ?_⟩
  obtain ⟨back, refused⟩ := read size
  rw [← wellFormed_iff built]
  refine ⟨⟨?_, ?_⟩, ?_⟩
  · intro survived
    obtain ⟨tree, decoded, same⟩ := Except.bind_eq_ok.mp survived
    rw [← ofElement_eq_ok.mp same]
    exact Element.wellFormed_of_decode decoded
  · intro valid
    rw [back valid, Except.ok_bind, ofElement_eq_ok]
  · rintro ⟨pair, member, foreign⟩
    exact refused fun valid => foreign ((wellFormed_iff built).mp valid pair member)

/-- A name with an accent comes back when its country has none. -/
theorem ofAttributes_survives_accent :
    let octets : Bytes := [0x30, 0x1a, 0x31, 0x0b, 0x30, 0x09, 0x06, 0x03, 0x55, 0x04, 0x03,
      0x0c, 0x02, 0xc3, 0xa9, 0x31, 0x0b, 0x30, 0x09, 0x06, 0x03, 0x55, 0x04, 0x06, 0x13, 0x02,
      0x55, 0x53]
    ∃ name, ofAttributes [("cn", "é"), ("c", "US")] = .ok name ∧
      name.toElement.encode = .ok octets ∧ (Element.decode octets >>= ofElement) = .ok name := by
  intro octets
  have some : ((ofAttributes [("cn", "é"), ("c", "US")]).toOption.any fun name =>
      name.toElement.encode.toOption == some octets) = true := by decide +kernel
  obtain ⟨name, built, framed⟩ := (Option.any_eq_true _ _).mp some
  have made := Except.toOption_eq_some.mp built
  have written := Except.toOption_eq_some.mp (beq_iff_eq.mp framed)
  obtain ⟨own, same, read⟩ := ofAttributes_survives_iff _ name made
  obtain rfl := Except.ok.inj (same.symm.trans written)
  exact ⟨name, made, written, (read (by decide)).1.mpr (by decide)⟩

/-- A country with an accent is written as octets that are refused. -/
theorem accented_country_refused :
    let name : Name := ⟨[⟨[⟨⟨[2, 5, 4, 6]⟩, .primitive .printableString "é"⟩]⟩]⟩
    let octets : Bytes := [0x30, 0x0d, 0x31, 0x0b, 0x30, 0x09, 0x06, 0x03, 0x55, 0x04, 0x06,
      0x13, 0x02, 0xc3, 0xa9]
    ofAttributes [("C", "é")] = .ok name ∧ name.toElement.encode = .ok octets ∧
      Element.decode octets = .error (.notAscii "PrintableString") := by
  intro name octets
  have built : ofAttributes [("C", "é")] = .ok name :=
    Except.toOption_eq_some.mp (by decide +kernel)
  have written : name.toElement.encode = .ok octets :=
    Except.toOption_eq_some.mp (by decide +kernel)
  have foreign : ¬name.toElement.WellFormed := by
    rw [wellFormed_iff built]
    decide
  obtain ⟨own, same, read⟩ := (readsBackOr built).decode
  obtain rfl := Except.ok.inj (same.symm.trans written)
  exact ⟨built, written, (read (by decide)).2 foreign⟩

end Name

end DerCodec
