import DerCodec.Proofs.Schema

/-!
# Every element has its slot

Reading by a schema splits a list into the filled positional slots and a tail. An element of the
tail belongs to the first optional field that accepts its tag. `Schema.decode_sorts` says that
nothing is lost and nothing is kept twice: the optional slots hold exactly the elements of the tail
that belong to a field, each in the slot of its own, and a schema that is not extensible passes no
element over. Reading fails after the positional fields exactly when an element belongs to no field
of such a schema or two elements belong to the same field.
-/

namespace DerCodec

/-- The elements in all slots. -/
def Fields.filled (fields : Fields) : List Element :=
  (fields.positional ++ fields.optional).filterMap id

namespace Schema

variable {schema : Schema}

/-- The optional field that an element belongs to: the first that accepts its tag. -/
def slotOf? (schema : Schema) (element : Element) : Option Nat :=
  schema.optional.findIdx? (·.accepts element.tag)

/-- The elements that belong to an optional field. -/
def claimed (schema : Schema) (elements : List Element) : List Element :=
  elements.filter fun element => (schema.slotOf? element).isSome

/-- Elements that no field claims may stand in the list. -/
def Tolerates (schema : Schema) (elements : List Element) : Prop :=
  schema.extensible = false → ∀ element ∈ elements, (schema.slotOf? element).isSome = true

/-- Two elements do not belong to the same field. -/
def Apart (schema : Schema) (a b : Element) : Prop :=
  ∀ index, schema.slotOf? a = some index → schema.slotOf? b ≠ some index

/-! ## One element -/

theorem slotOf?_lt {element : Element} {index : Nat} (h : schema.slotOf? element = some index) :
    index < schema.optional.length :=
  (List.findIdx?_eq_some_iff_findIdx_eq.mp h).1

/-- What one step does: the element fills the free slot of its field, or is passed over. -/
theorem place_cases {slots slots' : List (Option Element)} {element : Element}
    (h : schema.place slots element = .ok slots') :
    (∃ index, schema.slotOf? element = some index ∧ slots.getD index none = none ∧
      slots' = slots.set index (some element)) ∨
    (schema.slotOf? element = none ∧ schema.extensible = true ∧ slots' = slots) :=
  place_eq_ok.mp h

theorem length_place {slots slots' : List (Option Element)} {element : Element}
    (h : schema.place slots element = .ok slots') : slots'.length = slots.length := by
  rcases place_cases h with ⟨index, -, -, rfl⟩ | ⟨-, -, rfl⟩ <;> simp

theorem exists_place_iff {slots : List (Option Element)} {element : Element} :
    (∃ slots', schema.place slots element = .ok slots') ↔ schema.Tolerates [element] ∧
      ∀ index, schema.slotOf? element = some index → slots.getD index none = none := by
  simp only [place_eq_ok, Tolerates, slotOf?, List.forall_mem_singleton]
  cases schema.optional.findIdx? (·.accepts element.tag) with
  | none => cases schema.extensible <;> simp
  | some index => simp

/-- After an element was placed, the slots that are free are those that were, less its own. -/
theorem place_free_iff {slots slots' : List (Option Element)} {element : Element} {index : Nat}
    (inside : index < slots.length) (h : schema.place slots element = .ok slots') :
    slots'.getD index none = none ↔
      schema.slotOf? element ≠ some index ∧ slots.getD index none = none := by
  rcases place_cases h with ⟨own, belongs, empty, rfl⟩ | ⟨unclaimed, -, rfl⟩
  · by_cases same : own = index
    · subst same
      simp [belongs, inside]
    · simp [belongs, same]
  · simp [unclaimed]

/-- The slots after a step hold what they held and the element, if it belongs to a field. -/
theorem perm_place {slots slots' : List (Option Element)} {element : Element}
    (slotted : slots.length = schema.optional.length)
    (h : schema.place slots element = .ok slots') :
    (slots'.filterMap id).Perm (schema.claimed [element] ++ slots.filterMap id) := by
  rcases place_cases h with ⟨index, belongs, empty, rfl⟩ | ⟨unclaimed, -, rfl⟩
  · have inside : index < slots.length := slotted ▸ slotOf?_lt belongs
    have own : schema.claimed [element] = [element] :=
      List.filter_cons_of_pos (by rw [belongs]; rfl)
    rw [own]
    exact perm_filterMap_set element inside empty
  · have none : schema.claimed [element] = [] := List.filter_cons_of_neg (by simp [unclaimed])
    rw [none]
    exact .refl _

/-! ## The whole tail -/

/-- Elements can be placed when each is tolerated, belongs to a free slot, and no two belong to the
same one. -/
theorem exists_foldlM_place_iff {slots : List (Option Element)} {elements : List Element}
    (slotted : slots.length = schema.optional.length) :
    (∃ slots', elements.foldlM schema.place slots = .ok slots') ↔
      schema.Tolerates elements ∧ elements.Pairwise schema.Apart ∧
        ∀ element ∈ elements, ∀ index, schema.slotOf? element = some index →
          slots.getD index none = none := by
  induction elements generalizing slots with
  | nil => simp [Tolerates]
  | cons element elements ih =>
    -- After the first step the slots that the others need are free, its own among the taken ones.
    have later {next} (placed : schema.place slots element = .ok next) :
        (∃ slots', elements.foldlM schema.place next = .ok slots') ↔
          schema.Tolerates elements ∧ elements.Pairwise schema.Apart ∧
            ∀ other ∈ elements, ∀ index, schema.slotOf? other = some index →
              schema.slotOf? element ≠ some index ∧ slots.getD index none = none := by
      rw [ih ((length_place placed).trans slotted)]
      refine and_congr_right fun _ => and_congr_right fun _ => forall₄_congr ?_
      intro other _ index belongs
      exact place_free_iff (slotted ▸ slotOf?_lt belongs) placed
    calc (∃ slots', (element :: elements).foldlM schema.place slots = .ok slots')
        ↔ ∃ next, schema.place slots element = .ok next ∧
            ∃ slots', elements.foldlM schema.place next = .ok slots' := by
          simp only [List.foldlM_cons, Except.bind_eq_ok]
          exact exists_comm.trans (by simp only [exists_and_left])
      _ ↔ _ := exists_congr fun next => and_congr_right later
      _ ↔ _ := by rw [exists_and_right, exists_place_iff]
      _ ↔ _ := by
          simp only [Tolerates, Apart, List.pairwise_cons, List.forall_mem_cons]
          grind

/-- What is in the slots in the end was there before or is an element that belongs to a field. -/
theorem perm_foldlM_place {slots slots' : List (Option Element)} {elements : List Element}
    (slotted : slots.length = schema.optional.length)
    (h : elements.foldlM schema.place slots = .ok slots') :
    (slots'.filterMap id).Perm (schema.claimed elements ++ slots.filterMap id) := by
  induction elements generalizing slots with
  | nil =>
    obtain rfl := Except.ok.inj h
    exact .refl _
  | cons element elements ih =>
    rw [List.foldlM_cons] at h
    obtain ⟨next, first, rest⟩ := Except.bind_eq_ok.mp h
    have later := ih ((length_place first).trans slotted) rest
    have own := (perm_place slotted first).append_left (schema.claimed elements)
    have split : schema.claimed (element :: elements) =
        schema.claimed [element] ++ schema.claimed elements :=
      List.filter_append [element] elements
    rw [split]
    rw [← List.append_assoc] at own
    exact (later.trans own).trans (List.perm_append_comm.append_right _)

/-! ## Filled slots -/

theorem mem_filterMap_id {slots : List (Option Element)} {element : Element} :
    element ∈ slots.filterMap id ↔ ∃ index : Nat, slots[index]? = some (some element) := by
  simp only [List.mem_filterMap, id_eq, exists_eq_right]
  exact List.mem_iff_getElem?

/-- Which slot an element is in is decided by the field that it belongs to. -/
theorem Placed.slot_iff {slots : List (Option Element)} (h : schema.Placed slots) {index : Nat}
    {element : Element} : slots[index]? = some (some element) ↔
      element ∈ slots.filterMap id ∧ schema.slotOf? element = some index := by
  constructor
  · intro slot
    exact ⟨mem_filterMap_id.mpr ⟨index, slot⟩, h.2 index element slot⟩
  · rintro ⟨member, belongs⟩
    obtain ⟨other, slot⟩ := mem_filterMap_id.mp member
    obtain rfl := Option.some.inj (belongs.symm.trans (h.2 other element slot))
    exact slot

/-- Slots that hold the same elements are the same. -/
theorem Placed.ext {slots slots' : List (Option Element)} (h : schema.Placed slots)
    (h' : schema.Placed slots')
    (same : ∀ element, element ∈ slots.filterMap id ↔ element ∈ slots'.filterMap id) :
    slots = slots' := by
  refine List.ext_getElem (h.1.trans h'.1.symm) fun index inside inside' => Option.ext ?_
  intro element
  have slot : slots[index]? = some (some element) ↔ slots'[index]? = some (some element) := by
    rw [h.slot_iff, h'.slot_iff, same]
  simpa [List.getElem?_eq_getElem inside, List.getElem?_eq_getElem inside'] using slot

/-- What holds of the elements in any two slots holds of the elements in their order. -/
theorem pairwise_filterMap_id {R : Element → Element → Prop} {slots : List (Option Element)}
    (h : ∀ (i j : Nat) (a b : Element), i < j → slots[i]? = some (some a) →
      slots[j]? = some (some b) → R a b) : (slots.filterMap id).Pairwise R := by
  rw [List.pairwise_filterMap, List.pairwise_iff_getElem]
  intro i j first second before a here b there
  exact h i j a b before (List.getElem?_eq_some_iff.mpr ⟨first, here⟩)
    (List.getElem?_eq_some_iff.mpr ⟨second, there⟩)

/-- No two filled slots hold elements of the same field. -/
theorem Placed.pairwise_apart {slots : List (Option Element)} (h : schema.Placed slots) :
    (slots.filterMap id).Pairwise schema.Apart := by
  refine pairwise_filterMap_id fun i j a b before here there index own other => ?_
  have same : i = j := Option.some.inj
    ((h.2 i a here).symm.trans (own.trans (other.symm.trans (h.2 j b there))))
  exact Nat.ne_of_lt before same

/-- Every filled slot still holds an element of its own field. -/
theorem Placed.foldlM {slots slots' : List (Option Element)} {elements : List Element}
    (h : schema.Placed slots) (placed : elements.foldlM schema.place slots = .ok slots') :
    schema.Placed slots' := by
  induction elements generalizing slots with
  | nil =>
    obtain rfl := Except.ok.inj placed
    exact h
  | cons element elements ih =>
    rw [List.foldlM_cons] at placed
    obtain ⟨next, first, rest⟩ := Except.bind_eq_ok.mp placed
    exact ih (h.place first) rest

/-- When no element is passed over, the slots in the end hold all the elements, in some order. -/
theorem foldlM_place_eq_ok {slots slots' : List (Option Element)} {elements : List Element}
    (strict : schema.extensible = false) (h : schema.Placed slots)
    (placed : elements.foldlM schema.place slots = .ok slots') :
    schema.Placed slots' ∧ (slots'.filterMap id).Perm (slots.filterMap id ++ elements) := by
  have tolerated := ((exists_foldlM_place_iff h.1).mp ⟨slots', placed⟩).1
  have all : schema.claimed elements = elements := List.filter_eq_self.mpr (tolerated strict)
  have once := perm_foldlM_place h.1 placed
  rw [all] at once
  exact ⟨h.foldlM placed, once.trans List.perm_append_comm⟩

/-- Nothing may follow the positional elements when there are no optional fields. -/
theorem foldlM_place_none {slots : List (Option Element)} {elements : List Element}
    (strict : schema.extensible = false) (none : schema.optional = [])
    (placed : elements.foldlM schema.place schema.emptySlots = .ok slots) : elements = [] := by
  obtain ⟨valid, order⟩ := foldlM_place_eq_ok strict schema.placed_emptySlots placed
  have empty : slots = [] := by
    rw [← List.length_eq_zero_iff, valid.1, none]
    rfl
  simpa [empty, emptySlots, none] using order

/-! ## Reading a list -/

/-- How a list of elements was sorted into fields: the positional slots in front, then a tail, and
the elements of the tail that belong to a field in the slots of their fields. -/
structure Sorted (schema : Schema) (elements : List Element) (fields : Fields)
    (tail : List Element) : Prop where
  split : elements = fields.positional.filterMap id ++ tail
  positional : List.Forall₂ Field.Fits schema.positional fields.positional
  optional : fields.optional.length = schema.optional.length
  /-- A slot holds exactly the elements of the tail that belong to its field. -/
  occupied : ∀ index element, fields.optional[index]? = some (some element) ↔
    element ∈ tail ∧ schema.slotOf? element = some index
  /-- Each of them is in the slots as often as in the tail. -/
  once : (fields.optional.filterMap id).Perm (schema.claimed tail)
  tolerated : schema.Tolerates tail

theorem length_emptySlots (schema : Schema) :
    schema.emptySlots.length = schema.optional.length := by
  simp [emptySlots]

theorem filterMap_emptySlots (schema : Schema) : schema.emptySlots.filterMap id = [] := by
  simp [emptySlots]

theorem getD_emptySlots (schema : Schema) (index : Nat) :
    schema.emptySlots.getD index none = none := by
  simp only [emptySlots, List.getD_eq_getElem?_getD, List.getElem?_replicate]
  split <;> rfl

/-- In the end each slot holds exactly the elements that belong to its field. -/
theorem slot_foldlM_place {slots : List (Option Element)} {elements : List Element}
    (h : elements.foldlM schema.place schema.emptySlots = .ok slots) (index : Nat)
    (element : Element) : slots[index]? = some (some element) ↔
      element ∈ elements ∧ schema.slotOf? element = some index := by
  have once := perm_foldlM_place schema.length_emptySlots h
  rw [filterMap_emptySlots, List.append_nil] at once
  rw [(schema.placed_emptySlots.foldlM h).slot_iff, once.mem_iff, claimed, List.mem_filter,
    and_assoc]
  refine and_congr_right fun _ => and_iff_right_of_imp fun belongs => ?_
  rw [belongs]
  rfl

theorem sorted_of_decode {elements tail : List Element} {fields : Fields}
    (front : schema.takePositional schema.positional elements = .ok (fields.positional, tail))
    (back : tail.foldlM schema.place schema.emptySlots = .ok fields.optional) :
    schema.Sorted elements fields tail := by
  obtain ⟨split, fits⟩ := takePositional_eq_ok front
  have once := perm_foldlM_place schema.length_emptySlots back
  rw [filterMap_emptySlots, List.append_nil] at once
  have placeable := (exists_foldlM_place_iff schema.length_emptySlots).mp ⟨_, back⟩
  exact ⟨split, fits, (schema.placed_emptySlots.foldlM back).1, slot_foldlM_place back, once,
    placeable.1⟩

/-- A schema that is not extensible keeps every element. -/
theorem Sorted.perm_filled {elements tail : List Element} {fields : Fields}
    (h : schema.Sorted elements fields tail) (strict : schema.extensible = false) :
    fields.filled.Perm elements := by
  have all : schema.claimed tail = tail := List.filter_eq_self.mpr (h.tolerated strict)
  rw [Fields.filled, List.filterMap_append, h.split]
  exact (all ▸ h.once).append_left _

/-- Reading fails after the positional fields exactly when the tail cannot be placed. -/
theorem exists_decode_iff {elements tail : List Element} {positional : List (Option Element)}
    (front : schema.takePositional schema.positional elements = .ok (positional, tail)) :
    (∃ fields, schema.decode elements = .ok fields) ↔
      schema.Tolerates tail ∧ tail.Pairwise schema.Apart := by
  have placed : (∃ fields, schema.decode elements = .ok fields) ↔
      ∃ optional, tail.foldlM schema.place schema.emptySlots = .ok optional := by
    simp only [decode_eq_ok, front, Except.ok.injEq, Prod.mk.injEq]
    constructor
    · rintro ⟨_, _, _, optional, ⟨rfl, rfl⟩, back, rfl⟩
      exact ⟨optional, back⟩
    · rintro ⟨optional, back⟩
      exact ⟨_, positional, tail, optional, ⟨rfl, rfl⟩, back, rfl⟩
  rw [placed, exists_foldlM_place_iff schema.length_emptySlots]
  simp only [getD_emptySlots, implies_true, and_true]

/-- Reading a list loses no element and keeps none twice. It fails after the positional fields
exactly when an element is not tolerated or two belong to the same field. -/
theorem decode_sorts (schema : Schema) (elements : List Element) :
    (∀ fields, schema.decode elements = .ok fields → ∃ tail,
      schema.takePositional schema.positional elements = .ok (fields.positional, tail) ∧
        schema.Sorted elements fields tail ∧
        (schema.extensible = false →
          fields.filled.Perm elements ∧ fields.filled.length = elements.length)) ∧
    ∀ positional tail,
      schema.takePositional schema.positional elements = .ok (positional, tail) →
        ((∃ cause, schema.decode elements = .error cause) ↔
          ¬schema.Tolerates tail ∨ ¬tail.Pairwise schema.Apart) := by
  constructor
  · intro fields read
    obtain ⟨positional, tail, optional, front, back, rfl⟩ := decode_eq_ok.mp read
    have sorted : schema.Sorted elements ⟨schema, positional, optional⟩ tail :=
      sorted_of_decode front back
    refine ⟨tail, front, sorted, fun strict => ?_⟩
    have kept := sorted.perm_filled strict
    exact ⟨kept, kept.length_eq⟩
  · intro positional tail front
    rw [Except.exists_error_iff, exists_decode_iff front, not_and_or]

/-- Optional elements may come in any order, once each. -/
theorem decode_sorts_reordered :
    let schema : Schema := {
      name := "Sample"
      positional := [.defaulted "flag" Primitive.boolean.tag, .any "name"]
      optional := [.optional "first" (.context 1), .optional "second" (.context 2)]
      extensible := false }
    let name : Element := .primitive .integer 5
    let first : Element := .taggedOctets (.context 1) []
    let second : Element := .taggedOctets (.context 2) [0]
    (∃ tail, schema.Sorted [name, second, first]
        ⟨schema, [none, some name], [some first, some second]⟩ tail) ∧
      ∃ cause, schema.decode [name, second, first, second] = .error cause := by
  intro schema name first second
  constructor
  · obtain ⟨tail, -, sorted, -⟩ := (decode_sorts schema [name, second, first]).1 _ rfl
    exact ⟨tail, sorted⟩
  · refine ((decode_sorts schema [name, second, first, second]).2
      [none, some name] [second, first, second] rfl).mpr (.inr ?_)
    intro apart
    exact List.rel_of_pairwise_cons apart (List.mem_cons_of_mem first List.mem_cons_self) 1 rfl rfl

end Schema

end DerCodec
