import DerCodec.Proofs.Result
import DerCodec.Schema

/-!
# What a schema does with a list of elements

The positional part of a list is the filled positional slots in order. The rest of it fills the
optional slots, in whatever order it comes. Elements that fit their fields are written back as they
are.
-/

namespace DerCodec

/-- What the slot of a field may hold: an element of its tag, or nothing if it may be absent. -/
def Field.Fits (field : Field) (slot : Option Element) : Prop :=
  match slot with
  | some element => field.accepts element.tag = true
  | none => field.mayBeAbsent = true

namespace Schema

variable {schema : Schema}

/-! ## Positional fields -/

/-- Each step of the reader puts one slot in front of those that the rest of it fills. -/
theorem prepend_eq_ok {x : Except SchemaError (List (Option Element) × List Element)}
    {slot : Option Element} {slots : List (Option Element)} {rest : List Element} :
    (x >>= fun taken => .ok (slot :: taken.1, taken.2)) = .ok (slots, rest) ↔
      ∃ later, x = .ok (later, rest) ∧ slots = slot :: later := by
  rw [Except.bind_eq_ok]
  constructor
  · rintro ⟨⟨later, left⟩, run, same⟩
    obtain ⟨rfl, rfl⟩ := Prod.mk.inj (Except.ok.inj same)
    exact ⟨later, run, rfl⟩
  · rintro ⟨later, run, rfl⟩
    exact ⟨⟨later, rest⟩, run, rfl⟩

/-- One step of the reader: the field takes the next element, or is absent before an element that is
not for it. -/
theorem takePositional_cons_eq_ok {field : Field} {fields : List Field}
    {elements rest : List Element} {slots : List (Option Element)} :
    schema.takePositional (field :: fields) elements = .ok (slots, rest) ↔
      (∃ element elements' later, elements = element :: elements' ∧
        field.accepts element.tag = true ∧
        schema.takePositional fields elements' = .ok (later, rest) ∧
        slots = some element :: later) ∨
      field.mayBeAbsent = true ∧ (∀ element ∈ elements.head?, field.accepts element.tag = false) ∧
        ∃ later, schema.takePositional fields elements = .ok (later, rest) ∧
          slots = none :: later := by
  cases elements with
  | nil =>
    simp only [takePositional]
    split_ifs with absent
    · simp [prepend_eq_ok, absent]
    · simp [absent]
  | cons element elements =>
    simp only [takePositional]
    split_ifs with accepted absent
    · simp [prepend_eq_ok, accepted]
    · simp [prepend_eq_ok, accepted, absent]
    · simp [accepted, absent]

theorem takePositional_eq_ok {fields : List Field} {elements rest : List Element}
    {slots : List (Option Element)}
    (h : schema.takePositional fields elements = .ok (slots, rest)) :
    elements = slots.filterMap id ++ rest ∧ List.Forall₂ Field.Fits fields slots := by
  induction fields generalizing elements slots with
  | nil =>
    obtain ⟨rfl, rfl⟩ := Prod.mk.inj (Except.ok.inj h)
    exact ⟨rfl, .nil⟩
  | cons field fields ih =>
    rcases takePositional_cons_eq_ok.mp h with
      ⟨element, elements, later, rfl, accepted, run, rfl⟩ | ⟨absent, -, later, run, rfl⟩
    · obtain ⟨split, fits⟩ := ih run
      exact ⟨by simp [split], .cons accepted fits⟩
    · obtain ⟨split, fits⟩ := ih run
      exact ⟨by simpa using split, .cons absent fits⟩

/-- The slots of fields that may not be absent are filled. -/
theorem exists_required {fields : List Field} {slots : List (Option Element)}
    (h : List.Forall₂ Field.Fits fields slots)
    (present : ∀ field ∈ fields, field.mayBeAbsent = false) :
    ∃ elements : List Element, slots = elements.map some := by
  induction h with
  | nil => exact ⟨[], rfl⟩
  | @cons field slot fields slots fits _ ih =>
    obtain ⟨elements, rfl⟩ := ih fun f member => present f (List.mem_cons_of_mem _ member)
    cases slot with
    | some element => exact ⟨element :: elements, rfl⟩
    | none =>
      have absent : field.mayBeAbsent = true := fits
      simp [present field List.mem_cons_self] at absent

/-- Elements that their fields accept one by one fill all the slots. -/
theorem takePositional_accepted (schema : Schema) {fields : List Field} {elements : List Element}
    (h : List.Forall₂ (fun field element => field.accepts element.tag = true) fields elements)
    (rest : List Element) :
    schema.takePositional fields (elements ++ rest) = .ok (elements.map some, rest) := by
  induction h with
  | nil => rfl
  | cons accepted _ ih =>
    exact takePositional_cons_eq_ok.mpr (.inl ⟨_, _, _, rfl, accepted, ih, rfl⟩)

/-- The slot of a field that may be absent stays empty before an element of another tag. -/
theorem takePositional_absent {field : Field} {fields : List Field} {element : Element}
    {elements : List Element} (absent : field.mayBeAbsent = true)
    (other : field.accepts element.tag = false) :
    schema.takePositional (field :: fields) (element :: elements) =
      (schema.takePositional fields (element :: elements)).map
        fun taken => (none :: taken.1, taken.2) := by
  simp only [takePositional, other, absent, Bool.false_eq_true, if_false, if_true]
  rfl

theorem takePositional_present {field : Field} {fields : List Field}
    {element : Element} {elements : List Element} (accepted : field.accepts element.tag = true) :
    schema.takePositional (field :: fields) (element :: elements) =
      (schema.takePositional fields elements).map
        fun taken => (some element :: taken.1, taken.2) := by
  simp only [takePositional, if_pos accepted]
  rfl

/-- Required fields at the front are checked against as many elements, whatever follows. -/
theorem takePositional_append (schema : Schema) {front : List Field}
    (present : ∀ field ∈ front, field.mayBeAbsent = false) {before : List Element}
    (same : before.length = front.length) (fields : List Field) (elements : List Element) :
    schema.takePositional (front ++ fields) (before ++ elements) =
      schema.takePositional front before >>= fun taken =>
        (schema.takePositional fields elements).map fun rest => (taken.1 ++ rest.1, rest.2) := by
  induction front generalizing before with
  | nil =>
    obtain rfl := List.eq_nil_of_length_eq_zero same
    cases found : schema.takePositional fields elements <;>
      simp [takePositional, found, Except.map]
  | cons field front ih =>
    obtain ⟨element, before, rfl⟩ := List.exists_cons_of_length_eq_add_one same
    have rest := ih (fun f member => present f (List.mem_cons_of_mem _ member))
      (Nat.succ.inj same)
    simp only [List.cons_append, takePositional, present field List.mem_cons_self,
      Bool.false_eq_true, if_false]
    split_ifs
    · rw [rest]
      cases schema.takePositional front before <;>
        cases schema.takePositional fields elements <;> rfl
    · rfl

/-- One step of the writer: the field fits what was supplied for it. -/
theorem layPositional_cons_eq_ok {field : Field} {fields : List Field}
    {supplied : List (Option Element)} {elements : List Element} :
    schema.layPositional (field :: fields) supplied = .ok elements ↔
      field.Fits supplied.head?.join ∧ ∃ later,
        schema.layPositional fields supplied.tail = .ok later ∧
          elements = supplied.head?.join.toList ++ later := by
  simp only [layPositional]
  cases supplied.head?.join with
  | some element =>
    by_cases accepted : field.accepts element.tag = true
    · simp only [accepted, if_true, Except.bind_eq_ok, Except.pure_def, Except.ok.injEq,
        Field.Fits, true_and, Option.toList_some, List.singleton_append]
      exact exists_congr fun later => and_congr_right fun _ => eq_comm
    · simp [accepted, Field.Fits]
  | none =>
    by_cases absent : field.mayBeAbsent = true
    · simp [absent, Field.Fits]
    · simp [absent, Field.Fits]

theorem layPositional_of_fits {fields : List Field} {slots : List (Option Element)}
    (h : List.Forall₂ Field.Fits fields slots) :
    schema.layPositional fields slots = .ok (slots.filterMap id) := by
  induction h with
  | nil => rfl
  | @cons field slot fields slots fits _ ih =>
    refine layPositional_cons_eq_ok.mpr ⟨fits, _, ih, ?_⟩
    cases slot <;> rfl

/-! ## Optional fields -/

/-- Filling an empty slot adds its element to the ones that are there. -/
theorem perm_filterMap_set {slots : List (Option Element)} {index : Nat} (element : Element)
    (inside : index < slots.length) (empty : slots.getD index none = none) :
    ((slots.set index (some element)).filterMap id).Perm (element :: slots.filterMap id) := by
  induction slots generalizing index with
  | nil => simp at inside
  | cons slot slots ih =>
    cases index with
    | zero =>
      obtain rfl : slot = none := by simpa using empty
      simp
    | succ index =>
      have rest := ih (by simpa using inside) (by simpa using empty)
      cases slot with
      | none => simpa using rest
      | some front =>
        simp only [List.set_cons_succ, List.filterMap_cons, id_eq]
        exact (rest.cons front).trans (.swap element front _)

/-- A successful placement fills the empty slot of the field that accepts the tag, or passes the
element over if the schema allows that. -/
theorem place_eq_ok {slots slots' : List (Option Element)} {element : Element} :
    schema.place slots element = .ok slots' ↔
      (∃ index, schema.optional.findIdx? (·.accepts element.tag) = some index ∧
        slots.getD index none = none ∧ slots' = slots.set index (some element)) ∨
      (schema.optional.findIdx? (·.accepts element.tag) = none ∧ schema.extensible = true ∧
        slots' = slots) := by
  unfold place
  split
  · rename_i index found
    by_cases filled : (slots.getD index none).isSome = true
    · rw [if_pos filled]
      constructor
      · intro h
        simp at h
      · rintro (⟨other, same, empty, -⟩ | ⟨missing, -⟩)
        · obtain rfl := Option.some.inj (found.symm.trans same)
          rw [empty] at filled
          simp at filled
        · simp [found] at missing
    · have empty : slots.getD index none = none := by simpa using filled
      rw [if_neg filled]
      constructor
      · intro h
        exact .inl ⟨index, found, empty, (Except.ok.inj h).symm⟩
      · rintro (⟨other, same, -, rfl⟩ | ⟨missing, -⟩)
        · rw [found] at same
          rw [Option.some.inj same]
        · simp [found] at missing
  · rename_i missing
    by_cases passed : schema.extensible = true
    · simp [missing, passed, eq_comm]
    · simp [missing, passed]

/-- Two elements may be placed in either order. -/
theorem place_exchange {slots slots' : List (Option Element)} {a b : Element}
    (h : (schema.place slots a >>= (schema.place · b)) = .ok slots') :
    (schema.place slots b >>= (schema.place · a)) = .ok slots' := by
  obtain ⟨middle, first, second⟩ := Except.bind_eq_ok.mp h
  rw [Except.bind_eq_ok]
  rcases place_eq_ok.mp first with ⟨i, foundA, emptyA, rfl⟩ | ⟨missingA, passed, rfl⟩
  · rcases place_eq_ok.mp second with ⟨j, foundB, emptyB, rfl⟩ | ⟨missingB, passed, rfl⟩
    · by_cases same : i = j
      · -- The second element finds its slot empty only when neither has a slot at all.
        subst same
        have outside : slots.length ≤ i := by
          by_contra inside
          simp [List.getD_eq_getElem?_getD, Nat.not_le.mp inside] at emptyB
        refine ⟨slots.set i (some b), place_eq_ok.mpr (.inl ⟨i, foundB, emptyA, rfl⟩),
          place_eq_ok.mpr (.inl ⟨i, foundA, ?_, ?_⟩)⟩
        · simpa [List.set_eq_of_length_le outside] using emptyA
        · simp [List.set_eq_of_length_le outside]
      · refine ⟨slots.set j (some b), place_eq_ok.mpr (.inl ⟨j, foundB, ?_, rfl⟩),
          place_eq_ok.mpr (.inl ⟨i, foundA, ?_, List.set_comm _ _ same⟩)⟩
        · simpa [List.getD_eq_getElem?_getD, List.getElem?_set, same] using emptyB
        · have differ : j ≠ i := fun e => same e.symm
          simpa [List.getD_eq_getElem?_getD, List.getElem?_set, differ] using emptyA
    · exact ⟨slots, place_eq_ok.mpr (.inr ⟨missingB, passed, rfl⟩), first⟩
  · refine ⟨slots', second, place_eq_ok.mpr (.inr ⟨missingA, passed, rfl⟩)⟩

theorem foldlM_place_perm {slots slots' : List (Option Element)} {elements elements' : List Element}
    (order : elements.Perm elements') (h : elements.foldlM schema.place slots = .ok slots') :
    elements'.foldlM schema.place slots = .ok slots' := by
  refine Except.foldlM_perm (f := schema.place) ?_ order h
  intro slots a b slots' placed
  exact place_exchange placed

/-- Every filled slot holds an element that its own field is the first to accept. -/
def Placed (schema : Schema) (slots : List (Option Element)) : Prop :=
  slots.length = schema.optional.length ∧ ∀ index element, slots[index]? = some (some element) →
    schema.optional.findIdx? (·.accepts element.tag) = some index

theorem placed_emptySlots (schema : Schema) : schema.Placed schema.emptySlots := by
  refine ⟨by simp [emptySlots], ?_⟩
  intro index element slot
  simp [emptySlots, List.getElem?_replicate] at slot

theorem Placed.place {slots slots' : List (Option Element)} {element : Element}
    (h : schema.Placed slots) (placed : schema.place slots element = .ok slots') :
    schema.Placed slots' := by
  rcases place_eq_ok.mp placed with ⟨index, found, -, rfl⟩ | ⟨-, -, rfl⟩
  · refine ⟨by simpa using h.1, ?_⟩
    intro other occupant slot
    rw [List.getElem?_set] at slot
    split at slot
    · rename_i same
      subst same
      split at slot
      · obtain rfl := Option.some.inj (Option.some.inj slot)
        exact found
      · simp at slot
    · exact h.2 other occupant slot
  · exact h

theorem decode_eq_ok {elements : List Element} {fields : Fields} :
    schema.decode elements = .ok fields ↔ ∃ positional rest optional,
      schema.takePositional schema.positional elements = .ok (positional, rest) ∧
      rest.foldlM schema.place schema.emptySlots = .ok optional ∧
      fields = ⟨schema, positional, optional⟩ := by
  simp only [decode, Except.bind_eq_ok, Except.pure_def, Except.ok.injEq]
  constructor
  · rintro ⟨⟨positional, rest⟩, front, optional, placed, rfl⟩
    exact ⟨positional, rest, optional, front, placed, rfl⟩
  · rintro ⟨positional, rest, optional, front, placed, rfl⟩
    exact ⟨⟨positional, rest⟩, front, optional, placed, rfl⟩

end Schema

theorem Fields.required_eq_ok {fields : Fields} {index : Nat} {element : Element} :
    fields.required index = .ok element ↔ fields.positional? index = some element := by
  unfold required
  split
  · rename_i found
    simp [found]
  · rename_i missing
    simp [missing]

end DerCodec
