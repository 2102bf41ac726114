import DerCodec.Proofs.SchemaRoundTrip
import DerCodec.Schema.Draft

/-!
# What a schema lays out

`Schema.layOut_eq_ok_iff` says of every list of entries when it is laid out and as what. The entries
must be acceptable: each positional field fits what was supplied for it, and each optional element
has a field of its own. The positional elements then come first, as they were supplied, and the
optional ones after them in the order of the schema. No optional element is ever lost. Positional
ones are, when more of them are supplied than there are fields: `Schema.layOut_keeps_iff`.
-/

namespace DerCodec

namespace Schema

variable {schema : Schema}

/-! ## Entries -/

namespace Entry

/-- What the entry supplies for the next positional field. -/
def positional? : Entry → Option (Option Element)
  | positional element => some element
  | optional .. => none

/-- The element that the entry supplies for an optional field, with the tag of the field. -/
def optional? : Entry → Option (Tag × Element)
  | optional tag (some element) => some (tag, element)
  | optional _ none => none
  | positional _ => none

end Entry

/-- What is supplied for the positional fields, from the first on. -/
def positionalSlots (entries : List Entry) : List (Option Element) :=
  entries.filterMap Entry.positional?

/-- The elements that are supplied for optional fields, with the tags of the fields. -/
def optionalElements (entries : List Entry) : List (Tag × Element) :=
  entries.filterMap Entry.optional?

/-- One entry goes to the end of the list that it is for. -/
theorem Draft.add_eq (draft : Draft) (entry : Entry) :
    draft.add entry = ⟨draft.schema, draft.positional ++ positionalSlots [entry],
      draft.optional ++ optionalElements [entry]⟩ := by
  cases entry with
  | positional element => simp [add, positionalSlots, optionalElements, List.filterMap_cons,
      Entry.positional?, Entry.optional?]
  | optional tag element =>
    cases element <;>
      simp [add, positionalSlots, optionalElements, List.filterMap_cons, Entry.positional?,
        Entry.optional?]

theorem Draft.addAll_eq (draft : Draft) (entries : List Entry) :
    draft.addAll entries = ⟨draft.schema, draft.positional ++ positionalSlots entries,
      draft.optional ++ optionalElements entries⟩ := by
  induction entries generalizing draft with
  | nil => simp [addAll, positionalSlots, optionalElements]
  | cons entry entries ih =>
    rw [addAll, List.foldl_cons, ← addAll, ih, add_eq]
    simp only [List.append_assoc, positionalSlots, optionalElements, ← List.filterMap_append,
      List.singleton_append]

theorem layOut_eq (schema : Schema) (entries : List Entry) :
    schema.layOut entries = schema.encode (positionalSlots entries)
      ((optionalElements entries).map (Prod.map id some)) := by
  simp only [layOut, Draft.layOut, Draft.addAll_eq, emptyDraft, List.nil_append]

/-! ## Positional fields -/

/-- Every field fits what is supplied in its place. -/
def FitsEach (fields : List Field) (supplied : List (Option Element)) : Prop :=
  ∀ (index : Nat) (field : Field), fields[index]? = some field →
    field.Fits (supplied[index]?).join

theorem fitsEach_cons {field : Field} {fields : List Field} {supplied : List (Option Element)} :
    FitsEach (field :: fields) supplied ↔
      field.Fits supplied.head?.join ∧ FitsEach fields supplied.tail := by
  constructor
  · intro h
    refine ⟨by simpa [List.head?_eq_getElem?] using h 0 field rfl, ?_⟩
    intro index later found
    simpa using h (index + 1) later found
  · rintro ⟨first, rest⟩ index later found
    cases index with
    | zero =>
      obtain rfl := Option.some.inj found
      simpa [List.head?_eq_getElem?] using first
    | succ index => simpa using rest index later found

/-- What is supplied after the last field is passed over. -/
theorem layPositional_eq_ok_iff {fields : List Field} {supplied : List (Option Element)}
    {elements : List Element} : schema.layPositional fields supplied = .ok elements ↔
      FitsEach fields supplied ∧ elements = (supplied.take fields.length).filterMap id := by
  induction fields generalizing supplied elements with
  | nil => simp [layPositional, FitsEach, eq_comm]
  | cons field fields ih =>
    have front : (supplied.take (field :: fields).length).filterMap id =
        supplied.head?.join.toList ++ (supplied.tail.take fields.length).filterMap id := by
      rcases supplied with _ | ⟨_ | element, supplied⟩ <;> simp
    rw [layPositional_cons_eq_ok, fitsEach_cons, front]
    simp only [ih]
    grind

/-! ## Optional fields -/

/-- Each element has the tag that it is supplied under, which a field is known by, and no two are
supplied under the same tag. -/
structure OnePerField (schema : Schema) (given : List (Tag × Element)) : Prop where
  known : ∀ entry ∈ given, entry.2.tag = entry.1 ∧ (schema.knownBy? entry.1).isSome = true
  once : (given.map Prod.fst).Nodup

/-- The field of the one comes before the field of the other in the schema. -/
def Precedes (schema : Schema) (a b : Element) : Prop :=
  ∃ i j, schema.knownBy? a.tag = some i ∧ schema.knownBy? b.tag = some j ∧ i < j

theorem supplyAll_cons_eq_ok {slots slots' : List (Option Element)} {entry : Tag × Element}
    {given : List (Tag × Element)} :
    schema.supplyAll slots ((entry :: given).map (Prod.map id some)) = .ok slots' ↔
      ∃ index, schema.knownBy? entry.1 = some index ∧ entry.2.tag = entry.1 ∧
        slots.getD index none = none ∧
          schema.supplyAll (slots.set index (some entry.2)) (given.map (Prod.map id some)) =
            .ok slots' := by
  change schema.supply slots entry.1 entry.2 >>= _ = _ ↔ _
  simp only [Except.bind_eq_ok, supply_eq_ok]
  constructor
  · rintro ⟨_, ⟨index, known, carried, free, rfl⟩, rest⟩
    exact ⟨index, known, carried, free, rest⟩
  · rintro ⟨index, known, carried, free, rest⟩
    exact ⟨_, ⟨index, known, carried, free, rfl⟩, rest⟩

theorem onePerField_cons {entry : Tag × Element} {given : List (Tag × Element)} :
    schema.OnePerField (entry :: given) ↔
      (entry.2.tag = entry.1 ∧ (schema.knownBy? entry.1).isSome = true) ∧
        (∀ other ∈ given, other.1 ≠ entry.1) ∧ schema.OnePerField given := by
  constructor
  · rintro ⟨known, once⟩
    obtain ⟨first, rest⟩ := List.forall_mem_cons.mp known
    obtain ⟨fresh, later⟩ := List.nodup_cons.mp once
    refine ⟨first, fun other member same => fresh ?_, rest, later⟩
    exact same ▸ List.mem_map_of_mem member
  · rintro ⟨first, fresh, rest, later⟩
    refine ⟨List.forall_mem_cons.mpr ⟨first, rest⟩, List.nodup_cons.mpr ⟨?_, later⟩⟩
    intro member
    obtain ⟨other, among, same⟩ := List.mem_map.mp member
    exact fresh other among same

/-- Elements can be supplied when each has a free slot of its own. -/
theorem exists_supplyAll_iff {slots : List (Option Element)} {given : List (Tag × Element)}
    (slotted : slots.length = schema.optional.length) :
    (∃ slots', schema.supplyAll slots (given.map (Prod.map id some)) = .ok slots') ↔
      schema.OnePerField given ∧ ∀ entry ∈ given, ∀ index,
        schema.knownBy? entry.1 = some index → slots.getD index none = none := by
  induction given generalizing slots with
  | nil =>
    simp only [List.map_nil, supplyAll, Except.ok.injEq, exists_eq', List.not_mem_nil,
      false_implies, implies_true, and_true, true_iff]
    exact ⟨by simp, List.nodup_nil⟩
  | cons entry given ih =>
    -- The others find their slots free when they did before and are under another tag.
    have later {own : Nat} (known : schema.knownBy? entry.1 = some own) :
        (∃ slots', schema.supplyAll (slots.set own (some entry.2))
          (given.map (Prod.map id some)) = .ok slots') ↔
        schema.OnePerField given ∧ ∀ other ∈ given, ∀ index,
          schema.knownBy? other.1 = some index →
            other.1 ≠ entry.1 ∧ slots.getD index none = none := by
      rw [ih (by simpa using slotted)]
      refine and_congr_right fun _ => forall₄_congr fun other _ index found => ?_
      have inside : own < slots.length := slotted ▸ lt_of_knownBy? known
      by_cases same : own = index
      · subst same
        simp [knownBy?_inj found known, inside]
      · have differ : other.1 ≠ entry.1 := by
          intro tags
          exact same (Option.some.inj (known.symm.trans (tags ▸ found)))
        simp [same, differ]
    calc (∃ slots', schema.supplyAll slots ((entry :: given).map (Prod.map id some)) = .ok slots')
        ↔ ∃ own, schema.knownBy? entry.1 = some own ∧ entry.2.tag = entry.1 ∧
            slots.getD own none = none ∧
              ∃ slots', schema.supplyAll (slots.set own (some entry.2))
                (given.map (Prod.map id some)) = .ok slots' := by
          simp only [supplyAll_cons_eq_ok]
          exact exists_comm.trans (by simp only [exists_and_left])
      _ ↔ _ := exists_congr fun own => and_congr_right fun known =>
          and_congr_right fun _ => and_congr_right fun _ => later known
      _ ↔ _ := by
          rw [onePerField_cons]
          simp only [List.forall_mem_cons, Option.isSome_iff_exists]
          constructor
          · rintro ⟨own, known, carried, free, rest, others⟩
            refine ⟨⟨⟨carried, own, known⟩, fun other member => ?_, rest⟩, ?_, ?_⟩
            · obtain ⟨index, found⟩ := Option.isSome_iff_exists.mp (rest.known other member).2
              exact (others other member index found).1
            · intro index found
              rwa [Option.some.inj (found.symm.trans known)]
            · exact fun other member index found => (others other member index found).2
          · rintro ⟨⟨⟨carried, own, known⟩, fresh, rest⟩, free, others⟩
            exact ⟨own, known, carried, free own known, rest, fun other member index found =>
              ⟨fresh other member, others other member index found⟩⟩

/-- In the end the slots hold what they held and every element that was supplied, once each. -/
theorem perm_supplyAll {slots slots' : List (Option Element)} {given : List (Tag × Element)}
    (slotted : slots.length = schema.optional.length)
    (h : schema.supplyAll slots (given.map (Prod.map id some)) = .ok slots') :
    (slots'.filterMap id).Perm (given.map Prod.snd ++ slots.filterMap id) := by
  induction given generalizing slots with
  | nil =>
    obtain rfl := Except.ok.inj h
    exact .refl _
  | cons entry given ih =>
    obtain ⟨own, known, -, free, rest⟩ := supplyAll_cons_eq_ok.mp h
    have inside : own < slots.length := slotted ▸ lt_of_knownBy? known
    have filled := perm_filterMap_set entry.2 inside free
    have later := ih (by simpa using slotted) rest
    exact (later.trans (filled.append_left _)).trans List.perm_middle

/-- The elements in the slots come in the order of their fields. -/
theorem Known.pairwise_precedes {slots : List (Option Element)} (h : schema.Known slots) :
    (slots.filterMap id).Pairwise schema.Precedes := by
  refine pairwise_filterMap_id fun i j a b before here there => ?_
  exact ⟨i, j, h i a here, h j b there, before⟩

theorem Precedes.asymm {a b : Element} (h : schema.Precedes a b) : ¬schema.Precedes b a := by
  rintro ⟨j', i', foundB', foundA', after⟩
  obtain ⟨i, j, foundA, foundB, before⟩ := h
  rw [foundA] at foundA'
  rw [foundB] at foundB'
  grind

/-- The order of the schema leaves no choice. -/
theorem eq_of_perm_of_precedes {back back' : List Element} (order : back.Perm back')
    (sorted : back.Pairwise schema.Precedes) (sorted' : back'.Pairwise schema.Precedes) :
    back = back' :=
  order.eq_of_pairwise (fun _ _ _ _ before after => absurd after before.asymm) sorted sorted'

/-! ## All entries -/

/-- Every positional field fits what was supplied for it, and every optional element has a field of
its own. -/
structure Acceptable (schema : Schema) (entries : List Entry) : Prop where
  positional : FitsEach schema.positional (positionalSlots entries)
  optional : schema.OnePerField (optionalElements entries)

/-- The positional elements for which there are fields come first, in the order supplied, and all
the optional ones follow, once each and in the order of the schema. -/
def LaidOutAs (schema : Schema) (entries : List Entry) (elements : List Element) : Prop :=
  ∃ back,
    elements = ((positionalSlots entries).take schema.positional.length).filterMap id ++ back ∧
    back.Perm ((optionalElements entries).map Prod.snd) ∧ back.Pairwise schema.Precedes

/-- Acceptable entries are laid out, and no others are. -/
theorem layOut_eq_ok_iff {entries : List Entry} {elements : List Element} :
    schema.layOut entries = .ok elements ↔
      schema.Acceptable entries ∧ schema.LaidOutAs entries elements := by
  rw [layOut_eq, encode]
  simp only [Except.bind_eq_ok, layPositional_eq_ok_iff, Except.pure_def, Except.ok.injEq]
  have slotted := schema.length_emptySlots
  constructor
  · rintro ⟨front, ⟨fits, rfl⟩, slots, supplied, rfl⟩
    have own := ((exists_supplyAll_iff slotted).mp ⟨slots, supplied⟩).1
    have once := perm_supplyAll slotted supplied
    rw [filterMap_emptySlots, List.append_nil] at once
    exact ⟨⟨fits, own⟩, _, rfl, once, (known_of_supplyAll supplied).pairwise_precedes⟩
  · rintro ⟨⟨fits, own⟩, back, rfl, all, sorted⟩
    obtain ⟨slots, supplied⟩ := (exists_supplyAll_iff slotted).mpr
      ⟨own, fun _ _ index _ => schema.getD_emptySlots index⟩
    have once := perm_supplyAll slotted supplied
    rw [filterMap_emptySlots, List.append_nil] at once
    refine ⟨_, ⟨fits, rfl⟩, slots, supplied, congrArg _ ?_⟩
    exact eq_of_perm_of_precedes (once.trans all.symm)
      (known_of_supplyAll supplied).pairwise_precedes sorted

/-- The elements that are supplied as positional when every field has had its turn. -/
def surplus (schema : Schema) (entries : List Entry) : List Element :=
  ((positionalSlots entries).drop schema.positional.length).filterMap id

/-- Every element that was supplied is there, once: the positional ones first, in the order
supplied, and the optional ones after them, in the order of the schema. -/
def Keeps (schema : Schema) (entries : List Entry) (elements : List Element) : Prop :=
  ∃ back, elements = (positionalSlots entries).filterMap id ++ back ∧
    back.Perm ((optionalElements entries).map Prod.snd) ∧ back.Pairwise schema.Precedes

theorem filterMap_positionalSlots (schema : Schema) (entries : List Entry) :
    (positionalSlots entries).filterMap id =
      ((positionalSlots entries).take schema.positional.length).filterMap id ++
        schema.surplus entries := by
  rw [surplus, ← List.filterMap_append, List.take_append_drop]

theorem LaidOutAs.keeps_iff {entries : List Entry} {elements : List Element}
    (h : schema.LaidOutAs entries elements) :
    schema.Keeps entries elements ↔ schema.surplus entries = [] := by
  obtain ⟨back, rfl, all, sorted⟩ := h
  rw [Keeps, filterMap_positionalSlots schema]
  constructor
  · rintro ⟨back', same, all', -⟩
    have length := congrArg List.length same
    have optional := (all.trans all'.symm).length_eq
    simp only [List.length_append] at length
    exact List.length_eq_zero_iff.mp (by omega)
  · intro none
    exact ⟨back, by rw [none, List.append_nil], all, sorted⟩

/-- An element supplied under a tag that no field is known by is refused. What is laid out has every
element that was supplied exactly when none was supplied as positional beyond the last field. -/
theorem layOut_keeps_iff (schema : Schema) (entries : List Entry) :
    (∀ tag element, .optional tag (some element) ∈ entries → schema.knownBy? tag = none →
      ∃ cause, schema.layOut entries = .error cause) ∧
    ∀ elements, schema.layOut entries = .ok elements →
      (schema.Keeps entries elements ↔ schema.surplus entries = []) := by
  constructor
  · intro tag element member unknown
    rw [Except.exists_error_iff]
    rintro ⟨elements, written⟩
    have given : (tag, element) ∈ optionalElements entries :=
      List.mem_filterMap.mpr ⟨_, member, rfl⟩
    have known := ((layOut_eq_ok_iff.mp written).1.optional.known _ given).2
    simp [unknown] at known
  · intro elements written
    exact (layOut_eq_ok_iff.mp written).2.keeps_iff

/-- Optional elements come out in the order of the schema, and one of an unknown tag is refused. -/
theorem layOut_keeps_reordered :
    let schema : Schema := {
      name := "Sample"
      positional := [.required "flag" Primitive.boolean.tag]
      optional := [.optional "first" (.context 1), .optional "second" (.context 2)]
      extensible := false }
    let flag : Element := .primitive .boolean true
    let first : Element := .taggedOctets (.context 1) []
    let second : Element := .taggedOctets (.context 2) [0]
    schema.Keeps [.optional (.context 2) (some second), .positional (some flag),
      .optional (.context 1) (some first)] [flag, first, second] ∧
    ∃ cause, schema.layOut [.positional (some flag), .optional (.context 5) (some first)] =
      .error cause := by
  intro schema flag first second
  constructor
  · exact ((layOut_keeps_iff schema [.optional (.context 2) (some second), .positional (some flag),
      .optional (.context 1) (some first)]).2 [flag, first, second] rfl).mpr rfl
  · exact (layOut_keeps_iff schema [.positional (some flag),
      .optional (.context 5) (some first)]).1 (.context 5) first (by simp) rfl

/-- The second of two elements for one positional field is lost without an error. -/
theorem layOut_loses_second :
    let schema : Schema := {
      name := "Pair"
      positional := [.required "flag" Primitive.boolean.tag]
      optional := []
      extensible := false }
    let flag : Element := .primitive .boolean true
    let number : Element := .primitive .integer 5
    let entries : List Entry := [.positional (some flag), .positional (some number)]
    schema.layOut entries = .ok [flag] ∧ ¬schema.Keeps entries [flag] := by
  intro schema flag number entries
  have written : schema.layOut entries = .ok [flag] := rfl
  have lost : schema.surplus entries = [number] := rfl
  refine ⟨written, fun keeps => ?_⟩
  have none := (layOut_eq_ok_iff.mp written).2.keeps_iff.mp keeps
  exact List.cons_ne_nil number [] (lost.symm.trans none)

end Schema

end DerCodec
