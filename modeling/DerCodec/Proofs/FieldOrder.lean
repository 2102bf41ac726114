import DerCodec.Proofs.SchemaLayout

/-!
# The order of optional fields

Optional fields are known by their tags, so it does not matter in which order they come. When the
last positional field has to be there, the positional fields are told from what stands before the
tail alone, and every order of the tail is read as the same fields. When optional elements are
supplied in another order, the same list is laid out.
-/

namespace DerCodec

namespace Schema

variable {schema : Schema}

/-- The last of the fields, if there is any, may not be absent. -/
def EndsRequired (fields : List Field) : Prop :=
  ∀ field ∈ fields.getLast?, field.mayBeAbsent = false

instance (fields : List Field) : Decidable (EndsRequired fields) :=
  inferInstanceAs (Decidable (∀ field ∈ fields.getLast?, field.mayBeAbsent = false))

/-! ## Reading -/

theorem EndsRequired.tail {field : Field} {fields : List Field}
    (h : EndsRequired (field :: fields)) : EndsRequired fields := by
  cases fields with
  | nil => exact nofun
  | cons next fields => exact h

/-- A field that may be absent has a field after it. -/
theorem EndsRequired.ne_nil {field : Field} {fields : List Field}
    (h : EndsRequired (field :: fields)) (absent : field.mayBeAbsent = true) : fields ≠ [] := by
  rintro rfl
  have present := h field rfl
  rw [absent] at present
  exact Bool.noConfusion present

/-- Fields that end in a required one take at least one element. -/
theorem EndsRequired.filled {fields : List Field} {slots : List (Option Element)}
    (h : EndsRequired fields) (nonempty : fields ≠ [])
    (fits : List.Forall₂ Field.Fits fields slots) : slots.filterMap id ≠ [] := by
  induction fits with
  | nil => exact absurd rfl nonempty
  | @cons field slot fields slots fit _ ih =>
    cases slot with
    | some element => simp
    | none => simpa using ih h.tail (h.ne_nil fit)

/-- What stands after the elements of the positional fields does not matter to them. -/
theorem takePositional_tail {fields : List Field} (closed : EndsRequired fields)
    {before tail : List Element} {slots : List (Option Element)}
    (h : schema.takePositional fields (before ++ tail) = .ok (slots, tail)) (tail' : List Element) :
    schema.takePositional fields (before ++ tail') = .ok (slots, tail') := by
  obtain rfl := List.append_cancel_right (takePositional_eq_ok h).1
  induction fields generalizing slots with
  | nil =>
    obtain ⟨rfl, -⟩ := Prod.mk.inj (Except.ok.inj h)
    rfl
  | cons field fields ih =>
    rcases takePositional_cons_eq_ok.mp h with
      ⟨element, rest, later, split, accepted, run, rfl⟩ | ⟨absent, other, later, run, rfl⟩
    · obtain rfl : later.filterMap id ++ tail = rest := (List.cons.inj split).2
      exact takePositional_cons_eq_ok.mpr
        (.inl ⟨element, _, later, rfl, accepted, ih closed.tail run, rfl⟩)
    · -- The element that the field was not for belongs to a later positional field.
      have filled := closed.tail.filled (closed.ne_nil absent) (takePositional_eq_ok run).2
      have next : schema.takePositional fields (later.filterMap id ++ tail') = .ok (later, tail') :=
        ih closed.tail run
      refine takePositional_cons_eq_ok.mpr (.inr ⟨absent, ?_, later, next, rfl⟩)
      rw [List.filterMap_cons_none rfl, List.head?_append_of_ne_nil _ filled] at other ⊢
      exact other

/-- Every order of the tail is read as the same fields. -/
theorem decode_perm (closed : EndsRequired schema.positional)
    {before tail tail' : List Element} {slots : List (Option Element)}
    (front : schema.takePositional schema.positional (before ++ tail) = .ok (slots, tail))
    (order : tail.Perm tail') {fields : Fields} (h : schema.decode (before ++ tail) = .ok fields) :
    schema.decode (before ++ tail') = .ok fields := by
  obtain ⟨positional, rest, optional, taken, placed, rfl⟩ := decode_eq_ok.mp h
  obtain ⟨rfl, rfl⟩ := Prod.mk.inj (Except.ok.inj (front.symm.trans taken))
  exact decode_eq_ok.mpr ⟨slots, tail', optional, takePositional_tail closed front tail',
    foldlM_place_perm order placed, rfl⟩

/-! ## Writing -/

theorem OnePerField.perm {given given' : List (Tag × Element)} (h : schema.OnePerField given)
    (order : given.Perm given') : schema.OnePerField given' :=
  ⟨fun entry member => h.known entry (order.mem_iff.mpr member),
    (order.map Prod.fst).nodup_iff.mp h.once⟩

/-- Optional elements in another order are laid out in the same way. -/
theorem layOut_perm {entries entries' : List Entry} {elements : List Element}
    (front : positionalSlots entries = positionalSlots entries') (order : entries.Perm entries')
    (h : schema.layOut entries = .ok elements) : schema.layOut entries' = .ok elements := by
  have given : (optionalElements entries).Perm (optionalElements entries') := order.filterMap _
  obtain ⟨⟨fits, own⟩, back, rfl, all, sorted⟩ := layOut_eq_ok_iff.mp h
  refine layOut_eq_ok_iff.mpr ⟨⟨front ▸ fits, own.perm given⟩, back, ?_, ?_, sorted⟩
  · rw [front]
  · exact all.trans (given.map Prod.snd)

/-! ## Both directions -/

/-- A tail is read as the same fields in every order when the positional fields end in a required
one. Entries are laid out as the same list in every order that keeps the positional ones in
theirs. -/
theorem optional_order_irrelevant (schema : Schema) :
    (EndsRequired schema.positional → ∀ before tail tail' slots,
      schema.takePositional schema.positional (before ++ tail) = .ok (slots, tail) →
      tail.Perm tail' → ∀ fields, schema.decode (before ++ tail) = .ok fields ↔
        schema.decode (before ++ tail') = .ok fields) ∧
    ∀ entries entries' : List Entry, positionalSlots entries = positionalSlots entries' →
      entries.Perm entries' → ∀ elements, schema.layOut entries = .ok elements ↔
        schema.layOut entries' = .ok elements := by
  constructor
  · intro closed before tail tail' slots front order fields
    have front' := takePositional_tail closed front tail'
    exact ⟨decode_perm closed front order, decode_perm closed front' order.symm⟩
  · intro entries entries' front order elements
    exact ⟨layOut_perm front order, layOut_perm front.symm order.symm⟩

/-- A field that may be absent stands before a required one, and the optional ones are exchanged. -/
theorem optional_order_exchanged :
    let schema : Schema := {
      name := "Sample"
      positional := [.defaulted "version" (.contextConstructed 0), .any "name"]
      optional := [.optional "first" (.context 1), .optional "second" (.context 2)]
      extensible := true }
    let name : Element := .primitive .integer 5
    let first : Element := .taggedOctets (.context 1) []
    let second : Element := .taggedOctets (.context 2) [0]
    let version : Element := .taggedList (.contextConstructed 0) []
    let fields : Fields := ⟨schema, [none, some name], [some first, some second]⟩
    schema.decode ([name] ++ [second, version, first]) = .ok fields ∧
      schema.layOut [.optional (.context 2) (some second), .positional none,
        .optional (.context 1) (some first), .positional (some name)] =
          .ok [name, first, second] := by
  intro schema name first second version fields
  have read : schema.decode ([name] ++ [version, first, second]) = .ok fields := rfl
  have written : schema.layOut [.positional none, .positional (some name),
      .optional (.context 1) (some first), .optional (.context 2) (some second)] =
        .ok [name, first, second] := rfl
  constructor
  · refine ((optional_order_irrelevant schema).1 (by decide) [name] [version, first, second]
      [second, version, first] [none, some name] rfl ?_ fields).mp read
    exact (List.perm_append_comm : ([version, first] ++ [second]).Perm _)
  · exact ((optional_order_irrelevant schema).2 _ _ rfl (by decide) _).mp written

end Schema

end DerCodec
