import DerCodec.Proofs.SchemaSlots

/-!
# Reading back what a schema laid out

A positional field that may be absent is recognised by its tag alone. So a list is read back as it
was laid out when no such field takes an element that was meant for a field after it:
`Schema.Unambiguous` asks this of the fields that the next element can come from, and
`Schema.decode_encode_slots` reads back every positional slot and every optional one.
-/

namespace DerCodec

namespace Schema

variable {schema : Schema}

/-! ## Fields that are told apart -/

/-- The fields that the next element can come from when some positional ones are still to be
filled: those up to and including the first that may not be absent, and the optional ones when
there is none. -/
def nextFields (optional : List Field) : List Field → List Field
  | [] => optional
  | field :: fields =>
    if field.mayBeAbsent then field :: nextFields optional fields else [field]

/-- The tag of a field that may be absent is accepted by no field that the next element can come
from instead. -/
def Separate (optional : List Field) : List Field → Prop
  | [] => True
  | field :: fields =>
    (field.mayBeAbsent = true → ∃ tag, field.tag? = some tag ∧
      ∀ other ∈ nextFields optional fields, other.accepts tag = false) ∧
    Separate optional fields

structure Unambiguous (schema : Schema) : Prop where
  tagged : ∀ field ∈ schema.optional, field.tag?.isSome = true
  separate : Separate schema.optional schema.positional

/-! ## Positional fields -/

theorem exists_nextField {optional fields : List Field} {slots : List (Option Element)}
    {rest elements : List Element} {element : Element}
    (fits : List.Forall₂ Field.Fits fields slots)
    (known : ∀ element ∈ rest, ∃ field ∈ optional, field.accepts element.tag = true)
    (next : slots.filterMap id ++ rest = element :: elements) :
    ∃ field ∈ nextFields optional fields, field.accepts element.tag = true := by
  induction fits with
  | nil =>
    obtain rfl : rest = element :: elements := next
    exact known element List.mem_cons_self
  | @cons field slot fields slots fit _ ih =>
    cases slot with
    | some front =>
      obtain rfl : front = element := (List.cons.inj next).1
      refine ⟨field, ?_, fit⟩
      rw [nextFields]
      split <;> exact List.mem_cons_self
    | none =>
      have absent : field.mayBeAbsent = true := fit
      obtain ⟨later, member, accepted⟩ := ih next
      rw [nextFields, if_pos absent]
      exact ⟨later, List.mem_cons_of_mem _ member, accepted⟩

/-- The positional slots are read back from their elements, whatever known elements follow. -/
theorem takePositional_slots {optional fields : List Field} {slots : List (Option Element)}
    {rest : List Element} (separate : Separate optional fields)
    (fits : List.Forall₂ Field.Fits fields slots)
    (known : ∀ element ∈ rest, ∃ field ∈ optional, field.accepts element.tag = true) :
    schema.takePositional fields (slots.filterMap id ++ rest) = .ok (slots, rest) := by
  induction fits with
  | nil => rfl
  | @cons field slot fields slots fit fits ih =>
    have later := ih separate.2
    cases slot with
    | some element =>
      exact takePositional_cons_eq_ok.mpr (.inl ⟨element, _, slots, rfl, fit, later, rfl⟩)
    | none =>
      have absent : field.mayBeAbsent = true := fit
      refine takePositional_cons_eq_ok.mpr (.inr ⟨absent, ?_, slots, later, rfl⟩)
      -- What comes next, if anything, was meant for a field of another tag.
      intro element front
      obtain ⟨elements, next⟩ := List.head?_eq_some_iff.mp front
      obtain ⟨tag, carried, apart⟩ := separate.1 absent
      obtain ⟨other, member, accepted⟩ := exists_nextField fits known next
      by_contra same
      have equal : tag = element.tag := by simpa [Field.accepts, carried] using same
      rw [← equal, apart other member] at accepted
      exact Bool.false_ne_true accepted

/-- The positional elements that are laid out fit their fields; those not supplied are absent. -/
theorem layPositional_eq_ok {fields : List Field} {supplied : List (Option Element)}
    {front : List Element} (h : schema.layPositional fields supplied = .ok front) :
    ∃ slots, List.Forall₂ Field.Fits fields slots ∧ front = slots.filterMap id ∧
      ∀ index < fields.length, slots[index]? = some (supplied[index]?).join := by
  induction fields generalizing supplied front with
  | nil =>
    obtain rfl := Except.ok.inj h
    exact ⟨[], .nil, rfl, by simp⟩
  | cons field fields ih =>
    have indexed {slots : List (Option Element)}
        (later : ∀ index < fields.length, slots[index]? = some (supplied.tail[index]?).join) :
        ∀ index < (field :: fields).length,
          (supplied.head?.join :: slots)[index]? = some (supplied[index]?).join := by
      intro index inside
      cases index with
      | zero => simp [List.head?_eq_getElem?]
      | succ index => simpa using later index (by simpa using inside)
    obtain ⟨fit, rest, run, rfl⟩ := layPositional_cons_eq_ok.mp h
    obtain ⟨slots, fits, rfl, later⟩ := ih run
    refine ⟨supplied.head?.join :: slots, .cons fit fits, ?_, indexed later⟩
    cases supplied.head?.join <;> rfl

/-! ## Optional fields -/

/-- The optional field that is known by a tag. -/
def knownBy? (schema : Schema) (tag : Tag) : Option Nat :=
  schema.optional.findIdx? (·.tag? == some tag)

theorem tag?_of_knownBy? {tag : Tag} {index : Nat} (h : schema.knownBy? tag = some index) :
    (schema.optional[index]?).bind Field.tag? = some tag := by
  obtain ⟨inside, same, -⟩ := List.findIdx?_eq_some_iff_getElem.mp h
  simpa [List.getElem?_eq_getElem inside] using same

theorem lt_of_knownBy? {tag : Tag} {index : Nat} (h : schema.knownBy? tag = some index) :
    index < schema.optional.length :=
  (List.findIdx?_eq_some_iff_findIdx_eq.mp h).1

/-- When every optional field has a tag, an element belongs to the field known by its tag. -/
theorem slotOf?_eq_knownBy? (tagged : ∀ field ∈ schema.optional, field.tag?.isSome = true)
    (element : Element) : schema.slotOf? element = schema.knownBy? element.tag := by
  unfold slotOf? knownBy?
  generalize schema.optional = fields at tagged ⊢
  induction fields with
  | nil => rfl
  | cons field fields ih =>
    obtain ⟨first, rest⟩ := List.forall_mem_cons.mp tagged
    obtain ⟨tag, carried⟩ := Option.isSome_iff_exists.mp first
    have same : field.accepts element.tag = (field.tag? == some element.tag) := by
      simp [Field.accepts, carried]
    rw [List.findIdx?_cons, List.findIdx?_cons, same, ih rest]

theorem supply_eq_ok {slots slots' : List (Option Element)} {tag : Tag} {element : Element} :
    schema.supply slots tag element = .ok slots' ↔ ∃ index,
      schema.knownBy? tag = some index ∧ element.tag = tag ∧
        slots.getD index none = none ∧ slots' = slots.set index (some element) := by
  constructor
  · intro h
    unfold supply at h
    split at h
    · simp at h
    · rename_i index known
      split at h
      · simp at h
      · rename_i same
        split at h
        · simp at h
        · rename_i free
          exact ⟨index, known, not_not.mp same, by simpa using free, (Except.ok.inj h).symm⟩
  · rintro ⟨index, known, rfl, free, rfl⟩
    unfold knownBy? at known
    simp only [supply, known, ne_eq, not_true_eq_false, if_false, free, Option.isSome_none,
      Bool.false_eq_true]

/-- Filling a free slot keeps what the others hold. -/
theorem slot_set_iff {slots : List (Option Element)} {index other : Nat}
    {element occupant : Element} (inside : index < slots.length)
    (free : slots.getD index none = none) :
    (slots.set index (some element))[other]? = some (some occupant) ↔
      slots[other]? = some (some occupant) ∨ other = index ∧ occupant = element := by
  by_cases same : index = other
  · subst same
    have empty : slots[index]? = some none := by
      simpa [List.getElem?_eq_getElem inside] using free
    rw [List.getElem?_set_self inside, empty]
    simp [eq_comm]
  · simp [List.getElem?_set_ne same, Ne.symm same]

/-- After all optional elements were supplied, a slot holds what it held and the element that was
supplied for its field. -/
theorem supplyAll_eq_ok {slots slots' : List (Option Element)}
    {supplied : List (Tag × Option Element)} (slotted : slots.length = schema.optional.length)
    (h : schema.supplyAll slots supplied = .ok slots') :
    slots'.length = slots.length ∧
      (∀ tag element, (tag, some element) ∈ supplied →
        element.tag = tag ∧ (schema.knownBy? tag).isSome = true) ∧
      ∀ index element, slots'[index]? = some (some element) ↔
        slots[index]? = some (some element) ∨
          ∃ tag, (tag, some element) ∈ supplied ∧ schema.knownBy? tag = some index := by
  induction supplied generalizing slots with
  | nil =>
    obtain rfl := Except.ok.inj h
    simp
  | cons entry supplied ih =>
    obtain ⟨tag, _ | element⟩ := entry
    · obtain ⟨length, known, slot⟩ := ih slotted h
      simpa using ⟨length, known, slot⟩
    · obtain ⟨next, first, rest⟩ := Except.bind_eq_ok.mp h
      obtain ⟨own, known, carried, free, rfl⟩ := supply_eq_ok.mp first
      have inside : own < slots.length := slotted ▸ lt_of_knownBy? known
      obtain ⟨length, later, slot⟩ := ih (by simpa using slotted) rest
      refine ⟨by simpa using length, ?_, ?_⟩
      · intro other occupant member
        rcases List.mem_cons.mp member with same | among
        · cases same
          exact ⟨carried, by simp [known]⟩
        · exact later other occupant among
      · intro index occupant
        rw [slot, slot_set_iff inside free]
        simp only [List.mem_cons, Prod.mk.injEq, Option.some.injEq]
        grind

/-- The slots of optional fields are read back from the elements in them. -/
theorem foldlM_place_filled {slots : List (Option Element)} (h : schema.Placed slots) :
    (slots.filterMap id).foldlM schema.place schema.emptySlots = .ok slots := by
  have own : ∀ element ∈ slots.filterMap id, (schema.slotOf? element).isSome = true := by
    intro element member
    obtain ⟨index, slot⟩ := mem_filterMap_id.mp member
    exact Option.isSome_iff_exists.mpr ⟨index, h.2 index element slot⟩
  obtain ⟨slots', placed⟩ := (exists_foldlM_place_iff schema.length_emptySlots).mpr
    ⟨fun _ => own, h.pairwise_apart, fun _ _ index _ => schema.getD_emptySlots index⟩
  have once := perm_foldlM_place schema.length_emptySlots placed
  rw [filterMap_emptySlots, List.append_nil, claimed, List.filter_eq_self.mpr own] at once
  rw [placed, (schema.placed_emptySlots.foldlM placed).ext h fun _ => once.mem_iff]

/-- Every filled slot holds an element whose tag its own field is known by. -/
def Known (schema : Schema) (slots : List (Option Element)) : Prop :=
  ∀ index element, slots[index]? = some (some element) → schema.knownBy? element.tag = some index

theorem known_of_supplyAll {slots : List (Option Element)}
    {supplied : List (Tag × Option Element)}
    (h : schema.supplyAll schema.emptySlots supplied = .ok slots) : schema.Known slots := by
  obtain ⟨-, known, slot⟩ := supplyAll_eq_ok schema.length_emptySlots h
  intro index element held
  rcases (slot index element).mp held with before | ⟨tag, member, found⟩
  · exact absurd before (by simp [emptySlots, List.getElem?_replicate])
  · rw [(known tag element member).1, found]

/-- What was supplied for the optional fields is in slots that can be read back. -/
theorem placed_of_supplyAll (tagged : ∀ field ∈ schema.optional, field.tag?.isSome = true)
    {slots : List (Option Element)} {supplied : List (Tag × Option Element)}
    (h : schema.supplyAll schema.emptySlots supplied = .ok slots) : schema.Placed slots := by
  have length := (supplyAll_eq_ok schema.length_emptySlots h).1
  refine ⟨length.trans schema.length_emptySlots, fun index element held => ?_⟩
  exact (slotOf?_eq_knownBy? tagged element).trans (known_of_supplyAll h index element held)

/-- Two tags that the same field is known by are one. -/
theorem knownBy?_inj {tag tag' : Tag} {index : Nat} (h : schema.knownBy? tag = some index)
    (h' : schema.knownBy? tag' = some index) : tag = tag' :=
  Option.some.inj ((tag?_of_knownBy? h).symm.trans (tag?_of_knownBy? h'))

/-- The optional field of a tag holds what was supplied under the tag. -/
theorem optional?_eq_some_iff {slots positional : List (Option Element)}
    {supplied : List (Tag × Option Element)}
    (h : schema.supplyAll schema.emptySlots supplied = .ok slots) {tag : Tag} {element : Element} :
    (Fields.mk schema positional slots).optional? tag = some element ↔
      (tag, some element) ∈ supplied := by
  obtain ⟨-, known, slot⟩ := supplyAll_eq_ok schema.length_emptySlots h
  have held : (Fields.mk schema positional slots).optional? tag = some element ↔
      ∃ index, schema.knownBy? tag = some index ∧ slots[index]? = some (some element) := by
    simp [Fields.optional?, knownBy?, Option.bind_eq_some_iff, Option.join_eq_some_iff]
  have empty (index : Nat) : schema.emptySlots[index]? ≠ some (some element) := by
    simp [emptySlots, List.getElem?_replicate]
  simp only [held, slot, empty, false_or]
  constructor
  · rintro ⟨index, own, tag', member, found⟩
    rw [knownBy?_inj own found]
    exact member
  · intro member
    obtain ⟨index, own⟩ := Option.isSome_iff_exists.mp (known tag element member).2
    exact ⟨index, own, tag, member, own⟩

/-! ## Schemas of optional fields alone -/

/-- There are no positional fields, and the optional ones have these tags. -/
structure ByTag (schema : Schema) (tags : List Tag) : Prop where
  positional : schema.positional = []
  optional : schema.optional.map Field.tag? = tags.map some
  distinct : tags.Nodup

/-- Whatever the slot holds is under the tag. -/
def Under (tag : Tag) (slot : Option Element) : Prop :=
  ∀ element ∈ slot, element.tag = tag

theorem under_of_mapM {ε α : Type} {tag : Tag} {write : α → Except ε Element} {x : Option α}
    {slot : Option Element} (each : ∀ a element, write a = .ok element → element.tag = tag)
    (h : x.mapM write = .ok slot) : Under tag slot := by
  rcases Except.option_mapM_eq_ok.mp h with ⟨-, rfl⟩ | ⟨a, element, -, rfl, step⟩
  · exact nofun
  · rintro _ ⟨⟩
    exact each a element step

theorem ByTag.tagged {tags : List Tag} (h : schema.ByTag tags) :
    ∀ field ∈ schema.optional, field.tag?.isSome = true := by
  intro field member
  have among : field.tag? ∈ tags.map some := h.optional ▸ List.mem_map_of_mem member
  obtain ⟨tag, -, same⟩ := List.mem_map.mp among
  exact Option.isSome_iff_exists.mpr ⟨tag, same.symm⟩

/-- The field of a tag stands where the tag does. -/
theorem ByTag.knownBy? {before after : List Tag} {tag : Tag}
    (h : schema.ByTag (before ++ tag :: after)) : schema.knownBy? tag = some before.length := by
  have mapped : schema.knownBy? tag =
      (schema.optional.map Field.tag?).findIdx? (· == some tag) := by
    rw [List.findIdx?_map]
    rfl
  have fresh : (before.map some).findIdx? (· == some tag) = none := by
    rw [List.findIdx?_eq_none_iff]
    intro other member
    obtain ⟨earlier, among, rfl⟩ := List.mem_map.mp member
    have apart := (List.nodup_append.mp h.distinct).2.2 earlier among tag List.mem_cons_self
    simpa using apart
  rw [mapped, h.optional, List.map_append, List.findIdx?_append, fresh, List.map_cons,
    List.findIdx?_cons]
  simp

/-- The slots of the tags before these are filled and the others are still empty. -/
theorem ByTag.supplyAll_zip {before tags : List Tag} {filled slots : List (Option Element)}
    (h : schema.ByTag (before ++ tags)) (level : filled.length = before.length)
    (carried : List.Forall₂ Under tags slots) :
    schema.supplyAll (filled ++ List.replicate slots.length none) (tags.zip slots) =
      .ok (filled ++ slots) := by
  induction carried generalizing before filled with
  | nil => simp [supplyAll]
  | @cons tag slot tags slots own _ ih =>
    have shifted : schema.ByTag ((before ++ [tag]) ++ tags) := by simpa using h
    have rest := @ih _ (filled ++ [slot]) shifted (by simp [level])
    rw [List.append_assoc, List.append_assoc] at rest
    cases slot with
    | none => exact rest
    | some element =>
      have found : schema.knownBy? tag = some filled.length := level ▸ h.knownBy?
      refine Except.bind_eq_ok.mpr ⟨_, supply_eq_ok.mpr ⟨_, found, own element rfl, ?_, rfl⟩, ?_⟩
      · simp
      · rw [List.length_cons, List.replicate_succ, List.set_append_right _ _ (Nat.le_refl _),
          Nat.sub_self]
        exact rest

/-- Elements that are supplied in the order of the schema, each under the tag of its field, fill the
slots in that order. -/
theorem ByTag.supplyAll_emptySlots {tags : List Tag} {slots : List (Option Element)}
    (h : schema.ByTag tags) (carried : List.Forall₂ Under tags slots) :
    schema.supplyAll schema.emptySlots (tags.zip slots) = .ok slots := by
  have length : schema.optional.length = slots.length := by
    have same := congrArg List.length h.optional
    rw [List.length_map, List.length_map] at same
    exact same.trans carried.length_eq
  rw [emptySlots, length]
  exact @ByTag.supplyAll_zip schema [] tags [] slots h rfl carried

theorem ByTag.encode {tags : List Tag} {slots : List (Option Element)} (h : schema.ByTag tags)
    (carried : List.Forall₂ Under tags slots) :
    schema.encode [] (tags.zip slots) = .ok (slots.filterMap id) := by
  rw [Schema.encode, h.positional, h.supplyAll_emptySlots carried]
  rfl

theorem ByTag.decode {tags : List Tag} {slots : List (Option Element)} (h : schema.ByTag tags)
    (carried : List.Forall₂ Under tags slots) :
    schema.decode (slots.filterMap id) = .ok ⟨schema, [], slots⟩ := by
  have placed := foldlM_place_filled (placed_of_supplyAll h.tagged (h.supplyAll_emptySlots carried))
  exact decode_eq_ok.mpr ⟨[], _, slots, by rw [h.positional]; rfl, placed, rfl⟩

/-! ## Strict schemas whose positional fields may not be absent -/

/-- Such a list is one element for each positional field, then those of the optional slots in any
order. -/
theorem decode_strict_eq_ok (strict : schema.extensible = false)
    (present : ∀ field ∈ schema.positional, field.mayBeAbsent = false) {elements : List Element}
    {fields : Fields} :
    schema.decode elements = .ok fields ↔ ∃ front rest slots, elements = front ++ rest ∧
      List.Forall₂ (fun field element => field.accepts element.tag = true) schema.positional front ∧
      schema.Placed slots ∧ rest.Perm (slots.filterMap id) ∧
      fields = ⟨schema, front.map some, slots⟩ := by
  rw [decode_eq_ok]
  constructor
  · rintro ⟨positional, rest, slots, taken, placed, rfl⟩
    obtain ⟨split, fits⟩ := takePositional_eq_ok taken
    obtain ⟨front, rfl⟩ := exists_required fits present
    obtain ⟨valid, order⟩ := foldlM_place_eq_ok strict schema.placed_emptySlots placed
    rw [filterMap_emptySlots, List.nil_append] at order
    refine ⟨front, rest, slots, by simpa using split, ?_, valid, order.symm, rfl⟩
    exact List.forall₂_map_right_iff.mp fits
  · rintro ⟨front, rest, slots, rfl, accepted, valid, order, rfl⟩
    refine ⟨_, rest, slots, schema.takePositional_accepted accepted rest, ?_, rfl⟩
    exact foldlM_place_perm order.symm (foldlM_place_filled valid)

/-- Every field is positional, none may be absent and they have these tags. -/
structure Exact (schema : Schema) (tags : List Tag) : Prop where
  positional : schema.positional.map Field.tag? = tags.map some
  present : ∀ field ∈ schema.positional, field.mayBeAbsent = false
  optional : schema.optional = []
  strict : schema.extensible = false

theorem accepted_iff_tags {fields : List Field} {tags : List Tag}
    (tagged : fields.map Field.tag? = tags.map some) {elements : List Element} :
    List.Forall₂ (fun field element => field.accepts element.tag = true) fields elements ↔
      elements.map Element.tag = tags := by
  have own : List.Forall₂ (fun field tag => field.tag? = some tag) fields tags := by
    rwa [← List.forall₂_eq_eq_eq, List.forall₂_map_left_iff, List.forall₂_map_right_iff] at tagged
  clear tagged
  induction own generalizing elements with
  | nil => simp
  | @cons field tag fields tags carried _ ih =>
    cases elements with
    | nil => simp
    | cons element elements =>
      have first : field.accepts element.tag = true ↔ element.tag = tag := by
        rw [Field.accepts, carried, beq_iff_eq, eq_comm]
      simp only [List.forall₂_cons, ih, first, List.map_cons, List.cons.injEq]

/-- Such a list is one element for each tag and nothing else. -/
theorem Exact.decode_eq_ok {tags : List Tag} (h : schema.Exact tags) {elements : List Element}
    {fields : Fields} : schema.decode elements = .ok fields ↔
      elements.map Element.tag = tags ∧ fields = ⟨schema, elements.map some, []⟩ := by
  have slotless {slots : List (Option Element)} (valid : schema.Placed slots) : slots = [] := by
    rw [← List.length_eq_zero_iff, valid.1, h.optional]
    rfl
  rw [decode_strict_eq_ok h.strict h.present]
  simp only [accepted_iff_tags h.positional]
  constructor
  · rintro ⟨front, rest, slots, rfl, carried, valid, order, rfl⟩
    obtain rfl := slotless valid
    obtain rfl : rest = [] := by simpa using order
    rw [List.append_nil]
    exact ⟨carried, rfl⟩
  · rintro ⟨carried, rfl⟩
    have empty : schema.emptySlots = [] := slotless schema.placed_emptySlots
    exact ⟨elements, [], [], by simp, carried, empty ▸ schema.placed_emptySlots, .nil, rfl⟩

theorem Exact.encode {tags : List Tag} (h : schema.Exact tags) {elements : List Element}
    (carried : elements.map Element.tag = tags) :
    schema.encode (elements.map some) [] = .ok elements := by
  have fits : List.Forall₂ Field.Fits schema.positional (elements.map some) :=
    List.forall₂_map_right_iff.mpr ((accepted_iff_tags h.positional).mpr carried)
  have all : (elements.map some).filterMap id = elements := by simp
  rw [Schema.encode, layPositional_of_fits fits, all, Except.ok_bind, supplyAll, Except.ok_bind,
    filterMap_emptySlots, List.append_nil, Except.pure_def]

/-! ## The whole list -/

/-- A list that was laid out is read back: each positional field holds the element that was
supplied for it, each optional one the element that was supplied under its tag, and any other
nothing. -/
theorem decode_encode_slots {positional : List (Option Element)}
    {optional : List (Tag × Option Element)} {elements : List Element} (h : schema.Unambiguous)
    (few : positional.length ≤ schema.positional.length)
    (written : schema.encode positional optional = .ok elements) :
    ∃ fields, schema.decode elements = .ok fields ∧
      (∀ index, fields.positional? index = (positional[index]?).join) ∧
      ∀ tag element, fields.optional? tag = some element ↔ (tag, some element) ∈ optional := by
  obtain ⟨front, laid, rest⟩ := Except.bind_eq_ok.mp written
  obtain ⟨filled, supplied, same⟩ := Except.bind_eq_ok.mp rest
  obtain rfl := Except.ok.inj same
  obtain ⟨slots, fits, rfl, slot⟩ := layPositional_eq_ok laid
  have placed := placed_of_supplyAll h.tagged supplied
  have known : ∀ element ∈ filled.filterMap id,
      ∃ field ∈ schema.optional, field.accepts element.tag = true := by
    intro element member
    obtain ⟨index, held⟩ := mem_filterMap_id.mp member
    obtain ⟨inside, accepted, -⟩ := List.findIdx?_eq_some_iff_getElem.mp (placed.2 _ _ held)
    exact ⟨_, List.getElem_mem inside, accepted⟩
  refine ⟨⟨schema, slots, filled⟩, ?_, ?_, fun tag element => optional?_eq_some_iff supplied⟩
  · have taken := @takePositional_slots schema _ _ _ _ h.separate fits known
    exact decode_eq_ok.mpr ⟨slots, _, filled, taken, foldlM_place_filled placed, rfl⟩
  · intro index
    by_cases inside : index < schema.positional.length
    · simp [Fields.positional?, slot index inside]
    · have beyond : slots.length ≤ index := by
        rw [← fits.length_eq]
        exact Nat.not_lt.mp inside
      simp [Fields.positional?, List.getElem?_eq_none beyond,
        List.getElem?_eq_none (Nat.le_trans few (Nat.not_lt.mp inside))]

/-- A version may be left out before a number, and the optional fields come in any order. -/
theorem decode_encode_versioned :
    let schema : Schema := {
      name := "Versioned"
      positional := [.defaulted "version" (.contextConstructed 0),
        .required "number" Primitive.integer.tag, .any "name",
        .defaulted "flag" Primitive.boolean.tag]
      optional := [.optional "first" (.context 1), .optional "second" (.context 2)]
      extensible := true }
    let number : Element := .primitive .integer 5
    let name : Element := .primitive .boolean true
    let first : Element := .taggedOctets (.context 1) []
    let second : Element := .taggedOctets (.context 2) [0]
    schema.Unambiguous ∧
      schema.encode [none, some number, some name]
        [(.context 2, some second), (.context 9, none), (.context 1, some first)] =
          .ok [number, name, first, second] ∧
      ∃ fields, schema.decode [number, name, first, second] = .ok fields ∧
        fields.positional? 0 = none ∧ fields.positional? 2 = some name ∧
        fields.optional? (.context 1) = some first := by
  intro schema number name first second
  have unambiguous : schema.Unambiguous := by
    refine ⟨by decide, ?_, nofun, nofun, ?_, trivial⟩
    · exact fun _ => ⟨_, rfl, by decide⟩
    · exact fun _ => ⟨_, rfl, by decide⟩
  have written : schema.encode [none, some number, some name]
      [(.context 2, some second), (.context 9, none), (.context 1, some first)] =
        .ok [number, name, first, second] := rfl
  obtain ⟨fields, read, positional, optional⟩ :=
    decode_encode_slots unambiguous (by decide) written
  exact ⟨unambiguous, written, fields, read, positional 0, positional 2,
    (optional _ _).mpr (by simp)⟩

end Schema

end DerCodec
