import Mathlib.Data.List.Forall2

/-!
# Computations that may fail

Inversion laws for `Except`: when a step, a mapped result or a run over a list succeeds, so do its
parts. Later proofs take a reader apart with these and never unfold the monad.
-/

theorem List.Forall₂.ne_nil_iff {α β : Type} {R : α → β → Prop} {as : List α} {bs : List β}
    (h : List.Forall₂ R as bs) : as ≠ [] ↔ bs ≠ [] := by
  rw [ne_eq, ne_eq, ← List.length_eq_zero_iff, ← List.length_eq_zero_iff, h.length_eq]

theorem List.Forall₂.forall_mem_iff {α β : Type} {P : α → Prop} {Q : β → Prop} {as : List α}
    {bs : List β} (h : List.Forall₂ (fun a b => P a ↔ Q b) as bs) :
    (∀ a ∈ as, P a) ↔ ∀ b ∈ bs, Q b := by
  induction h with
  | nil => simp
  | cons first _ ih => rw [List.forall_mem_cons, List.forall_mem_cons, first, ih]

theorem List.map_eq_map_iff_forall₂ {α β : Type} {f : α → β} {R : α → α → Prop} {as bs : List α}
    (h : ∀ a ∈ as, ∀ b ∈ bs, f a = f b ↔ R a b) :
    as.map f = bs.map f ↔ List.Forall₂ R as bs := by
  induction as generalizing bs with
  | nil => simp [eq_comm]
  | cons a as ih =>
    cases bs with
    | nil => simp
    | cons b bs =>
      rw [List.map_cons, List.map_cons, List.cons.injEq, List.forall₂_cons,
        h a List.mem_cons_self b List.mem_cons_self,
        ih fun x hx y hy => h x (List.mem_cons_of_mem _ hx) y (List.mem_cons_of_mem _ hy)]

namespace Except

variable {ε ε' : Type} {α β : Type}

@[simp] theorem ok_bind (a : α) (f : α → Except ε β) : (Except.ok a >>= f) = f a := rfl

@[simp] theorem error_bind (e : ε) (f : α → Except ε β) :
    ((Except.error e : Except ε α) >>= f) = .error e := rfl

@[simp] theorem ok_mapError (f : ε → ε') (a : α) :
    (Except.ok a : Except ε α).mapError f = .ok a := rfl

@[simp] theorem pure_def (a : α) : (pure a : Except ε α) = .ok a := rfl

theorem bind_eq_ok {x : Except ε α} {f : α → Except ε β} {b : β} :
    (x >>= f) = .ok b ↔ ∃ a, x = .ok a ∧ f a = .ok b := by
  cases x <;> simp

theorem map_eq_ok {x : Except ε α} {f : α → β} {b : β} :
    x.map f = .ok b ↔ ∃ a, x = .ok a ∧ f a = b := by
  cases x <;> simp [Except.map]

@[simp] theorem mapError_eq_ok {x : Except ε α} {f : ε → ε'} {a : α} :
    x.mapError f = .ok a ↔ x = .ok a := by
  cases x <;> simp [Except.mapError]

theorem mapError_eq_error {x : Except ε α} {f : ε → ε'} {e : ε'} :
    x.mapError f = .error e ↔ ∃ cause, x = .error cause ∧ f cause = e := by
  cases x <;> simp [Except.mapError]

theorem map_eq_error {x : Except ε α} {f : α → β} {e : ε} : x.map f = .error e ↔ x = .error e := by
  cases x <;> simp [Except.map]

theorem exists_error_iff {x : Except ε α} : (∃ e, x = .error e) ↔ ¬∃ a, x = .ok a := by
  cases x <;> simp

theorem ite_eq_ok {p : Prop} [Decidable p] {a b : α} {e : ε} :
    (if p then .ok a else .error e : Except ε α) = .ok b ↔ p ∧ a = b := by
  split <;> simp [*]

theorem toOption_eq_some {x : Except ε α} {a : α} : x.toOption = some a ↔ x = .ok a := by
  cases x <;> simp [Except.toOption]

/-- A run over a list succeeds exactly when each of its steps does. -/
theorem mapM_eq_ok {f : α → Except ε β} {as : List α} {bs : List β} :
    as.mapM f = .ok bs ↔ List.Forall₂ (fun a b => f a = .ok b) as bs := by
  induction as generalizing bs with
  | nil => simp
  | cons a as ih =>
    simp only [List.mapM_cons, bind_eq_ok, pure_def, ok.injEq, List.forall₂_cons_left_iff]
    constructor
    · rintro ⟨b, first, rest, run, rfl⟩
      exact ⟨b, rest, first, ih.mp run, rfl⟩
    · rintro ⟨b, rest, first, run, rfl⟩
      exact ⟨b, first, rest, ih.mpr run, rfl⟩

/-- A run of a reader that undoes a writer. -/
theorem mapM_eq_ok_iff_map {read : α → Except ε β} {write : β → α}
    (inverse : ∀ a b, read a = .ok b ↔ a = write b) {as : List α} {bs : List β} :
    as.mapM read = .ok bs ↔ as = bs.map write := by
  simp only [mapM_eq_ok, inverse]
  rw [← List.forall₂_map_right_iff (R := Eq), List.forall₂_eq_eq_eq]

theorem exists_of_mem_mapM {f : α → Except ε β} {as : List α} {bs : List β}
    (h : as.mapM f = .ok bs) {b : β} (member : b ∈ bs) : ∃ a ∈ as, f a = .ok b := by
  have run := mapM_eq_ok.mp h
  clear h
  induction run with
  | nil => simp at member
  | cons first rest ih =>
    rcases List.mem_cons.mp member with rfl | later
    · exact ⟨_, List.mem_cons_self, first⟩
    · obtain ⟨a, among, step⟩ := ih later
      exact ⟨a, List.mem_cons_of_mem _ among, step⟩

/-- A run is undone step by step. -/
theorem mapM_inverse {f : α → Except ε β} {g : β → Except ε' α} {as : List α} {bs : List β}
    (h : as.mapM f = .ok bs) (inverse : ∀ a ∈ as, ∀ b ∈ bs, f a = .ok b → g b = .ok a) :
    bs.mapM g = .ok as := by
  have run := mapM_eq_ok.mp h
  clear h
  rw [mapM_eq_ok]
  induction run with
  | nil => exact .nil
  | cons first rest ih =>
    refine .cons (inverse _ List.mem_cons_self _ List.mem_cons_self first) (ih ?_)
    intro a among b member
    exact inverse a (List.mem_cons_of_mem _ among) b (List.mem_cons_of_mem _ member)

/-- A run is undone, or fails with the cause, when each step is or does. -/
theorem mapM_inverse_or {f : α → Except ε β} {g : β → Except ε' α} {as : List α} {bs : List β}
    {cause : ε'} (h : as.mapM f = .ok bs)
    (inverse : ∀ a ∈ as, ∀ b ∈ bs, f a = .ok b → g b = .ok a ∨ g b = .error cause) :
    bs.mapM g = .ok as ∨ bs.mapM g = .error cause := by
  have run := mapM_eq_ok.mp h
  clear h
  induction run with
  | nil => exact .inl rfl
  | cons first rest ih =>
    rw [List.mapM_cons]
    rcases inverse _ List.mem_cons_self _ List.mem_cons_self first with step | step
    · have later := ih fun a among b member =>
        inverse a (List.mem_cons_of_mem _ among) b (List.mem_cons_of_mem _ member)
      rcases later with rest | rest <;> simp [step, rest]
    · simp [step]

/-- A run over the results of a run takes both steps at every place of the list. -/
theorem exists_mapM_mapM {γ : Type} {f : α → Except ε β} {g : β → Except ε' γ} {as : List α}
    {cs : List γ} : (∃ bs, as.mapM f = .ok bs ∧ bs.mapM g = .ok cs) ↔
      List.Forall₂ (fun a c => ∃ b, f a = .ok b ∧ g b = .ok c) as cs := by
  simp only [mapM_eq_ok]
  constructor
  · rintro ⟨bs, first, second⟩
    induction first generalizing cs with
    | nil =>
      cases second
      exact .nil
    | cons step _ ih =>
      cases second with
      | cons step' rest => exact .cons ⟨_, step, step'⟩ (ih rest)
  · intro both
    induction both with
    | nil => exact ⟨[], .nil, .nil⟩
    | cons steps _ ih =>
      obtain ⟨b, step, step'⟩ := steps
      obtain ⟨bs, first, second⟩ := ih
      exact ⟨b :: bs, .cons step first, .cons step' second⟩

/-- An optional step succeeds when there is nothing to do or the step does. -/
theorem option_mapM_eq_ok {f : α → Except ε β} {x : Option α} {y : Option β} :
    x.mapM f = .ok y ↔
      (x = none ∧ y = none) ∨ ∃ a b, x = some a ∧ y = some b ∧ f a = .ok b := by
  cases x with
  | none => simp [eq_comm]
  | some a =>
    rw [Option.mapM_some]
    change (f a).map some = .ok y ↔ _
    rw [map_eq_ok]
    constructor
    · rintro ⟨b, step, rfl⟩
      exact .inr ⟨a, b, rfl, rfl, step⟩
    · rintro (⟨missing, -⟩ | ⟨_, b, same, rfl, step⟩)
      · simp at missing
      · obtain rfl := Option.some.inj same
        exact ⟨b, step, rfl⟩

/-- As above, when the result of the step is wrapped. -/
theorem option_mapM_map_eq_ok {γ : Type} {f : α → Except ε β} {g : β → γ}
    {x : Option α} {z : Option γ} :
    x.mapM (fun a => (f a).map g) = .ok z ↔ ∃ y, x.mapM f = .ok y ∧ y.map g = z := by
  rw [← map_eq_ok]
  cases x with
  | none => rfl
  | some a =>
    rw [Option.mapM_some, Option.mapM_some]
    cases f a <;> rfl

/-! ## Writers and readers -/

/-- What is written for a value is read as no other value, and it is read when the value passes a
check that only the reader makes. -/
def ReadsBack (write : α → Except ε β) (read : β → Except ε' α) (Passes : α → Prop) : Prop :=
  ∀ a b, write a = .ok b → ∀ a', read b = .ok a' ↔ a' = a ∧ Passes a

section ReadsBack

variable {write : α → Except ε β} {read : β → Except ε' α} {Passes : α → Prop}

theorem ReadsBack.of_ok (h : ∀ a b, write a = .ok b → read b = .ok a) :
    ReadsBack write read fun _ => True := by
  intro a b written a'
  rw [h a b written, and_true, ok.injEq, eq_comm]

/-- A result that is read and then wrapped. -/
theorem ReadsBack.map_eq_ok {γ : Type} (h : ReadsBack write read Passes) {a : α} {b : β}
    (written : write a = .ok b) (wrap : α → γ) (c : γ) :
    (read b).map wrap = .ok c ↔ c = wrap a ∧ Passes a := by
  rw [Except.map_eq_ok]
  constructor
  · rintro ⟨a', found, rfl⟩
    obtain ⟨rfl, passes⟩ := (h a b written a').mp found
    exact ⟨rfl, passes⟩
  · rintro ⟨rfl, passes⟩
    exact ⟨a, (h a b written a).mpr ⟨rfl, passes⟩, rfl⟩

theorem ReadsBack.mapM (h : ReadsBack write read Passes) :
    ReadsBack (List.mapM write) (List.mapM read) fun as => ∀ a ∈ as, Passes a := by
  intro as bs written as'
  have run := mapM_eq_ok.mp written
  clear written
  rw [mapM_eq_ok]
  induction run generalizing as' with
  | nil => simp
  | cons first _ ih =>
    simp only [List.forall₂_cons_left_iff, h _ _ first, ih, List.forall_mem_cons]
    grind

theorem ReadsBack.option (h : ReadsBack write read Passes) :
    ReadsBack (Option.mapM write) (Option.mapM read) fun x => ∀ a ∈ x, Passes a := by
  intro x y written x'
  rcases option_mapM_eq_ok.mp written with ⟨rfl, rfl⟩ | ⟨a, b, rfl, rfl, step⟩
  · simp [eq_comm]
  · rw [option_mapM_eq_ok]
    simp only [Option.some.injEq, reduceCtorEq, false_and, false_or, Option.mem_def]
    constructor
    · rintro ⟨_, a', rfl, rfl, found⟩
      obtain ⟨rfl, passes⟩ := (h a b step a').mp found
      exact ⟨rfl, fun _ same => same ▸ passes⟩
    · rintro ⟨rfl, passes⟩
      exact ⟨b, a, rfl, rfl, (h a b step a).mpr ⟨rfl, passes a rfl⟩⟩

end ReadsBack

/-! ## Folds -/

/-- The order of the steps of a fold does not matter when any two of them may be exchanged. -/
theorem foldlM_perm {f : β → α → Except ε β}
    (exchange : ∀ b a a' c, (f b a >>= (f · a')) = .ok c → (f b a' >>= (f · a)) = .ok c)
    {as as' : List α} (order : as.Perm as') {b c : β} (h : as.foldlM f b = .ok c) :
    as'.foldlM f b = .ok c := by
  induction order generalizing b c with
  | nil => exact h
  | cons a _ ih =>
    rw [List.foldlM_cons, bind_eq_ok] at h ⊢
    obtain ⟨next, step, rest⟩ := h
    exact ⟨next, step, ih rest⟩
  | swap a a' as =>
    simp only [List.foldlM_cons, bind_eq_ok] at h ⊢
    obtain ⟨first, step, second, step', rest⟩ := h
    have exchanged := exchange b a' a second (bind_eq_ok.mpr ⟨first, step, step'⟩)
    obtain ⟨other, early, late⟩ := bind_eq_ok.mp exchanged
    exact ⟨other, early, second, late, rest⟩
  | trans _ _ ih ih' => exact ih' (ih h)

/-! ## Two runs -/

/-- Two computations that fail with the same cause, or both succeed with results that are
related. -/
inductive Agree {α' : Type} (R : α → α' → Prop) : Except ε α → Except ε α' → Prop where
  | ok {a : α} {a' : α'} (related : R a a') : Agree R (.ok a) (.ok a')
  | error (cause : ε) : Agree R (.error cause) (.error cause)

section Agree

variable {α' β' : Type} {R : α → α' → Prop} {S : β → β' → Prop} {x : Except ε α} {x' : Except ε α'}

theorem Agree.bind {f : α → Except ε β} {f' : α' → Except ε β'} (first : Agree R x x')
    (rest : ∀ a a', R a a' → Agree S (f a) (f' a')) : Agree S (x >>= f) (x' >>= f') := by
  cases first with
  | ok related => exact rest _ _ related
  | error cause => exact .error cause

/-- Both runs take the same first step. -/
theorem Agree.after (x : Except ε α) {f : α → Except ε β} {f' : α → Except ε β'}
    (rest : ∀ a, x = .ok a → Agree S (f a) (f' a)) : Agree S (x >>= f) (x >>= f') := by
  cases x with
  | ok a => exact rest a rfl
  | error cause => exact .error cause

theorem Agree.mapError (h : Agree R x x') (f : ε → ε') :
    Agree R (x.mapError f) (x'.mapError f) := by
  cases h with
  | ok related => exact .ok related
  | error cause => exact .error (f cause)

end Agree

end Except
