import DerCodec.Proofs.Access
import DerCodec.Proofs.Failure
import DerCodec.Proofs.Schema

/-!
# Failures in reading elements

Octets are to blame whenever a tree or one of its fields cannot be read. The readers of implicitly
tagged fields frame an element again before they read it, which could fail on a tree that was built;
it never does on one that was decoded, where every node is sound.
-/

namespace DerCodec

/-! ## Content -/

theorem FramingError.kind_ofInput (cause : FramingError) : cause.kind.OfInput := by
  cases cause <;> trivial

theorem Oid.readSubidentifiers_blamesInput (pending : Option Nat) (content : Bytes) :
    (readSubidentifiers pending content).BlamesInput := by
  induction content generalizing pending with
  | nil =>
    unfold readSubidentifiers
    split
    · exact .error trivial
    · exact .ok _ _
  | cons octet rest ih =>
    unfold readSubidentifiers
    split
    · exact .error trivial
    · split
      · exact .error trivial
      · split
        · exact ih _
        · exact (ih none).map _

theorem Oid.decode_blamesInput (content : Bytes) : (decode content).BlamesInput := by
  refine (readSubidentifiers_blamesInput none content).bind fun numbers => ?_
  split
  · exact .error trivial
  · exact .ok _ _

theorem UtcTime.decode_blamesInput (content : Bytes) : (decode content).BlamesInput := by
  unfold decode
  split
  · exact .ok _ _
  · exact .error trivial

theorem GeneralizedTime.decode_blamesInput (content : Bytes) : (decode content).BlamesInput := by
  unfold decode
  split
  · exact .ok _ _
  · exact .error trivial

theorem Boolean.decode_blamesInput (content : Bytes) : (decode content).BlamesInput := by
  unfold decode
  split
  · exact .ok _ _
  · exact .ok _ _
  · exact .error trivial

theorem Integer.decode_blamesInput (content : Bytes) : (decode content).BlamesInput := by
  unfold decode
  split
  · exact .error trivial
  · exact .ok _ _

theorem Utf8.decode_blamesInput (what : String) (content : Bytes) :
    (decode what content).BlamesInput := by
  unfold decode
  split
  · exact .ok _ _
  · exact .error trivial

theorem AsciiString.decode_blamesInput (what : String) (content : Bytes) :
    (decode what content).BlamesInput := by
  unfold decode
  split
  · split
    · exact .ok _ _
    · exact .error trivial
  · exact .error trivial

theorem Primitive.decode_blamesInput (type : Primitive) (content : Bytes) :
    (type.decode content).BlamesInput := by
  cases type with
  | boolean => exact Boolean.decode_blamesInput content
  | integer => exact Integer.decode_blamesInput content
  | bitString =>
    have always : (BitString.decode content).BlamesInput := fun _ _ => trivial
    exact always.mapError fun _ => rfl
  | octetString => exact .ok _ content
  | null =>
    unfold decode
    split
    · exact .ok _ ()
    · exact .error trivial
  | oid => exact (Oid.decode_blamesInput content).mapError fun _ => rfl
  | enumerated => exact Integer.decode_blamesInput content
  | utf8String => exact Utf8.decode_blamesInput _ content
  | printableString => exact AsciiString.decode_blamesInput _ content
  | ia5String => exact AsciiString.decode_blamesInput _ content
  | utcTime => exact (UtcTime.decode_blamesInput content).mapError fun _ => rfl
  | generalizedTime => exact (GeneralizedTime.decode_blamesInput content).mapError fun _ => rfl

namespace Element

/-! ## Trees -/

theorem ofChildren_blamesInput {ofChild : Tlv → Except ElementError Element}
    (each : ∀ tlv, (ofChild tlv).BlamesInput) (tlv : Tlv) :
    (ofChildren ofChild tlv).BlamesInput := by
  have framed : tlv.children.BlamesInput := fun cause _ => cause.kind_ofInput
  refine .bind (framed.mapError fun _ => rfl) fun tlvs => ?_
  exact .mapM fun child _ => each child

theorem ofTlvWithin_blamesInput (levels : Nat) (tlv : Tlv) :
    (ofTlvWithin levels tlv).BlamesInput := by
  induction levels generalizing tlv with
  | zero => exact .error trivial
  | succ levels ih =>
    -- All three kinds of lists read their children by the same step.
    have inner := ofChildren_blamesInput ih tlv
    unfold ofTlvWithin
    split
    · split
      · exact .ok _ _
      · split
        · split
          · exact (Primitive.decode_blamesInput _ _).map _
          · exact inner.map _
          · exact inner.map _
        · exact .error trivial
    · split
      · exact inner.map _
      · exact .ok _ _

theorem decode_blamesInput (bytes : Bytes) : (decode bytes).BlamesInput := by
  have framed : (Tlv.decode bytes).BlamesInput := fun cause _ => cause.kind_ofInput
  refine .bind (framed.mapError fun _ => rfl) fun tlv => ?_
  exact ofTlvWithin_blamesInput _ tlv

/-- Every node is one that is read, however deep it lies. -/
def AllSound (root : Element) : Prop :=
  ∃ levels, root.WellFormedWithin levels

theorem decode_yields (bytes : Bytes) : (decode bytes).Yields AllSound := by
  refine ⟨decode_blamesInput bytes, fun root read => ?_⟩
  exact ⟨_, wellFormed_iff.mp (wellFormed_of_decode read)⟩

namespace AllSound

variable {element : Element}

theorem child (h : element.AllSound) : ∀ child ∈ element.children, child.AllSound := by
  obtain ⟨levels, within⟩ := h
  intro child member
  cases levels with
  | zero => exact absurd within element.not_wellFormedWithin_zero
  | succ levels => exact ⟨levels, within.child member⟩

theorem node {node : Element} {level : Nat} (h : element.AllSound)
    (below : NodeBelow element level node) : node.AllSound := by
  induction below with
  | root => exact h
  | child member _ ih => exact ih (h.child _ member)

/-- A node that was decoded is framed again without failure. -/
theorem exists_toTlv (h : element.AllSound) : ∃ tlv, element.toTlv = .ok tlv := by
  obtain ⟨levels, within⟩ := h
  exact Element.exists_toTlv within

theorem decodeAs_blamesInput (h : element.AllSound) (type : Primitive) (tag : Tag) :
    (element.decodeAs type tag).BlamesInput := by
  obtain ⟨tlv, framed⟩ := h.exists_toTlv
  unfold decodeAs
  rw [framed, Except.ok_bind, Primitive.decodeAs]
  split
  · exact Primitive.decode_blamesInput type tlv.content
  · exact .error trivial

theorem asPrimitive_blamesInput (h : element.AllSound) (type : Primitive) :
    (element.asPrimitive type).BlamesInput :=
  h.decodeAs_blamesInput type type.tag

end AllSound

/-! ## Fields -/

theorem value_blamesInput (type : Primitive) (element : Element) :
    (element.value type).BlamesInput := by
  intro cause failed
  obtain rfl := value_eq_error failed
  trivial

theorem asSequence_blamesInput (element : Element) : element.asSequence.BlamesInput := by
  unfold asSequence
  split
  · exact .ok _ _
  · exact .error trivial

theorem asSet_blamesInput (element : Element) : element.asSet.BlamesInput := by
  unfold asSet
  split
  · exact .ok _ _
  · exact .error trivial

theorem childrenUnder_blamesInput (tag : Tag) (element : Element) :
    (element.childrenUnder tag).BlamesInput := by
  cases element with
  | sequence _ | set _ | taggedList _ _ =>
    unfold childrenUnder
    dsimp only
    split
    · exact .ok _ _
    · exact .error trivial
  | primitive _ _ | taggedOctets _ _ | unknown _ => exact .error trivial

theorem explicitInner_blamesInput (number : UInt32) (element : Element) :
    (element.explicitInner number).BlamesInput := by
  refine (childrenUnder_blamesInput _ element).bind fun children => ?_
  split
  · exact .ok _ _
  · exact .error trivial

namespace AllSound

variable {element : Element}

theorem asSequence (h : element.AllSound) :
    element.asSequence.Yields fun children => ∀ child ∈ children, child.AllSound := by
  refine ⟨element.asSequence_blamesInput, fun children found => ?_⟩
  obtain rfl := asSequence_eq_ok.mp found
  exact h.child

theorem childrenUnder (h : element.AllSound) (number : UInt32) :
    (element.childrenUnder (.contextConstructed number)).Yields
      fun children => ∀ child ∈ children, child.AllSound := by
  refine ⟨element.childrenUnder_blamesInput _, fun children found => ?_⟩
  obtain rfl := (childrenUnder_eq_ok (contextConstructed_foreign number)).mp found
  exact h.child

theorem explicitInner (h : element.AllSound) (number : UInt32) :
    (element.explicitInner number).Yields AllSound := by
  refine ⟨element.explicitInner_blamesInput number, fun inner found => ?_⟩
  obtain rfl := explicitInner_eq_ok.mp found
  exact h.child inner List.mem_cons_self

end AllSound

end Element

/-! ## Schemas -/

namespace Schema

variable {schema : Schema} {elements : List Element} {fields : Fields}

theorem takePositional_blamesInput (schema : Schema) (fields : List Field)
    (elements : List Element) : (schema.takePositional fields elements).BlamesInput := by
  induction fields generalizing elements with
  | nil => exact .ok _ _
  | cons field fields ih =>
    unfold takePositional
    split
    · split
      · exact (ih _).bind fun _ => .ok _ _
      · split
        · exact (ih _).bind fun _ => .ok _ _
        · exact .error trivial
    · split
      · exact (ih _).bind fun _ => .ok _ _
      · exact .error trivial

theorem place_blamesInput (schema : Schema) (slots : List (Option Element)) (element : Element) :
    (schema.place slots element).BlamesInput := by
  unfold place
  split
  · split
    · exact .error trivial
    · exact .ok _ _
  · split
    · exact .ok _ _
    · exact .error trivial

theorem decode_blamesInput (schema : Schema) (elements : List Element) :
    (schema.decode elements).BlamesInput := by
  refine (takePositional_blamesInput schema _ elements).bind fun taken => ?_
  exact .bind (.foldlM schema.place_blamesInput taken.2 _) fun _ => .ok _ _

/-- A schema only sorts elements into slots. -/
theorem mem_of_foldlM_place {slots slots' : List (Option Element)}
    (h : elements.foldlM schema.place slots = .ok slots') {element : Element}
    (held : some element ∈ slots') : some element ∈ slots ∨ element ∈ elements := by
  induction elements generalizing slots with
  | nil =>
    obtain rfl := Except.ok.inj h
    exact .inl held
  | cons first rest ih =>
    rw [List.foldlM_cons] at h
    obtain ⟨next, placed, later⟩ := Except.bind_eq_ok.mp h
    rcases ih later with before | among
    · rcases place_eq_ok.mp placed with ⟨index, -, -, rfl⟩ | ⟨-, -, rfl⟩
      · rcases List.mem_or_eq_of_mem_set before with old | same
        · exact .inl old
        · obtain rfl := Option.some.inj same
          exact .inr List.mem_cons_self
      · exact .inl before
    · exact .inr (List.mem_cons_of_mem _ among)

theorem mem_of_decode (h : schema.decode elements = .ok fields) {element : Element}
    (held : some element ∈ fields.positional ∨ some element ∈ fields.optional) :
    element ∈ elements := by
  obtain ⟨positional, rest, optional, taken, placed, rfl⟩ := decode_eq_ok.mp h
  obtain ⟨rfl, -⟩ := takePositional_eq_ok taken
  rw [List.mem_append]
  rcases held with front | back
  · exact .inl (List.mem_filterMap.mpr ⟨_, front, rfl⟩)
  · refine .inr ((mem_of_foldlM_place placed back).resolve_left ?_)
    simp [emptySlots]

end Schema

namespace Fields

/-- Every element in a slot was decoded. -/
def AllSound (fields : Fields) : Prop :=
  ∀ element, some element ∈ fields.positional ∨ some element ∈ fields.optional → element.AllSound

theorem decode_yields (schema : Schema) {elements : List Element}
    (each : ∀ element ∈ elements, element.AllSound) : (schema.decode elements).Yields AllSound := by
  refine ⟨schema.decode_blamesInput elements, fun fields sorted element held => ?_⟩
  exact each element (Schema.mem_of_decode sorted held)

theorem required_blamesInput (fields : Fields) (index : Nat) :
    (fields.required index).BlamesInput := by
  unfold required
  split
  · exact .ok _ _
  · exact .error trivial

variable {fields : Fields}

theorem AllSound.required (h : fields.AllSound) (index : Nat) :
    (fields.required index).Yields Element.AllSound := by
  refine ⟨fields.required_blamesInput index, fun element found => ?_⟩
  have slot := Option.join_eq_some_iff.mp (required_eq_ok.mp found)
  exact h element (.inl (List.mem_of_getElem? slot))

theorem AllSound.optional? (h : fields.AllSound) {tag : Tag} :
    ∀ element ∈ fields.optional? tag, element.AllSound := by
  intro element found
  obtain ⟨index, -, slot⟩ := Option.bind_eq_some_iff.mp found
  exact h element (.inr (List.mem_of_getElem? (Option.join_eq_some_iff.mp slot)))

/-- An optional primitive field under an implicit tag. -/
theorem AllSound.decodeAs_optional? (h : fields.AllSound) (type : Primitive) (tag : Tag) :
    ((fields.optional? tag).mapM (Element.decodeAs type tag)).BlamesInput :=
  .option_mapM fun element held => (h.optional? element held).decodeAs_blamesInput type tag

end Fields

end DerCodec
