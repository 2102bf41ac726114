import DerCodec.ErrorKind
import DerCodec.Proofs.Result

/-!
# Causes of failure

`Except.FailsBy` says of a computation what the causes of its failures have in common, and is
closed under all the ways in which readers are put together. Most readers satisfy
`Except.BlamesInput`: they fail only for what is wrong with the octets, and never for a value that
has no encoding. `Except.Yields` adds what holds of a result.
-/

namespace Except

variable {ε ε' : Type} {α β : Type} {P : ε → Prop} {x : Except ε α}

/-- Whenever the computation fails, its cause has the property. -/
def FailsBy (P : ε → Prop) (x : Except ε α) : Prop :=
  ∀ cause, x = .error cause → P cause

namespace FailsBy

@[simp] theorem ok (P : ε → Prop) (a : α) : (Except.ok a).FailsBy P := nofun

@[simp] theorem pure (P : ε → Prop) (a : α) : (Pure.pure a : Except ε α).FailsBy P := nofun

@[simp] theorem error_iff {cause : ε} : (Except.error cause : Except ε α).FailsBy P ↔ P cause := by
  constructor
  · intro h
    exact h cause rfl
  · rintro h _ ⟨⟩
    exact h

theorem error {cause : ε} (h : P cause) : (Except.error cause : Except ε α).FailsBy P :=
  error_iff.mpr h

theorem mono {Q : ε → Prop} (h : x.FailsBy P) (weaken : ∀ cause, P cause → Q cause) :
    x.FailsBy Q := by
  intro cause failed
  exact weaken cause (h cause failed)

/-- The second step may rely on what the first one gave. -/
theorem bind {f : α → Except ε β} (first : x.FailsBy P)
    (second : ∀ a, x = .ok a → (f a).FailsBy P) : (x >>= f).FailsBy P := by
  cases x with
  | error cause => exact error (first cause rfl)
  | ok a => exact second a rfl

theorem map (h : x.FailsBy P) (f : α → β) : (x.map f).FailsBy P := by
  intro cause failed
  exact h cause (map_eq_error.mp failed)

theorem mapError {f : ε → ε'} {Q : ε' → Prop} (h : x.FailsBy P)
    (carry : ∀ cause, P cause → Q (f cause)) : (x.mapError f).FailsBy Q := by
  intro cause failed
  obtain ⟨inner, failedInner, rfl⟩ := mapError_eq_error.mp failed
  exact carry inner (h inner failedInner)

theorem mapM {f : α → Except ε β} {as : List α} (each : ∀ a ∈ as, (f a).FailsBy P) :
    (as.mapM f).FailsBy P := by
  induction as with
  | nil => exact pure P []
  | cons a as ih =>
    rw [List.mapM_cons]
    refine (each a List.mem_cons_self).bind fun b _ => ?_
    refine (ih fun a' later => each a' (List.mem_cons_of_mem _ later)).bind fun bs _ => ?_
    exact pure P (b :: bs)

theorem option_mapM {f : α → Except ε β} {slot : Option α} (each : ∀ a ∈ slot, (f a).FailsBy P) :
    (slot.mapM f).FailsBy P := by
  cases slot with
  | none => exact pure P none
  | some a => exact (each a rfl).map some

theorem foldlM {f : β → α → Except ε β} (step : ∀ b a, (f b a).FailsBy P) (as : List α) (b : β) :
    (as.foldlM f b).FailsBy P := by
  induction as generalizing b with
  | nil => exact pure P b
  | cons a as ih =>
    rw [List.foldlM_cons]
    exact (step b a).bind fun next _ => ih next

end FailsBy

end Except

namespace DerCodec

/-- The classes of failure for which octets are to blame: no valid value stands in them. -/
def ErrorKind.OfInput : ErrorKind → Prop
  | framing | shape | value => True
  | crossCheck | encoding => False

end DerCodec

namespace Except

open DerCodec (Cause)

variable {ε ε' α β : Type} [Cause ε] [Cause ε'] {x : Except ε α}

/-- The computation fails only for what is wrong with its input. -/
abbrev BlamesInput (x : Except ε α) : Prop :=
  x.FailsBy fun cause => (Cause.kind cause).OfInput

theorem BlamesInput.bind {f : α → Except ε β} (first : x.BlamesInput)
    (second : ∀ a, (f a).BlamesInput) : (x >>= f).BlamesInput :=
  FailsBy.bind first fun a _ => second a

/-- A cause that is wrapped keeps its class. -/
theorem BlamesInput.mapError {f : ε → ε'} (h : x.BlamesInput)
    (same : ∀ cause, Cause.kind (f cause) = Cause.kind cause) : (x.mapError f).BlamesInput := by
  refine FailsBy.mapError h fun cause ofInput => ?_
  rw [same]
  exact ofInput

/-- The computation fails only for what is wrong with its input, and gives what has the property. -/
structure Yields (x : Except ε α) (P : α → Prop) : Prop where
  blames : x.BlamesInput
  holds : ∀ a, x = .ok a → P a

namespace Yields

variable {P : α → Prop}

theorem ok {a : α} (h : P a) : (Except.ok a : Except ε α).Yields P := by
  refine ⟨.ok _ a, ?_⟩
  rintro _ ⟨⟩
  exact h

theorem error {cause : ε} (h : (Cause.kind cause).OfInput) :
    (Except.error cause : Except ε α).Yields P :=
  ⟨.error h, nofun⟩

theorem mapError {f : ε → ε'} (h : x.Yields P)
    (same : ∀ cause, Cause.kind (f cause) = Cause.kind cause) : (x.mapError f).Yields P := by
  refine ⟨h.blames.mapError same, fun a found => ?_⟩
  exact h.holds a (mapError_eq_ok.mp found)

theorem bind {f : α → Except ε β} {Q : β → Prop} (first : x.Yields P)
    (second : ∀ a, P a → (f a).Yields Q) : (x >>= f).Yields Q := by
  cases x with
  | error cause => exact error (first.blames cause rfl)
  | ok a => exact second a (first.holds a rfl)

end Yields

/-- The second step knows of its input what the first one yields. -/
theorem BlamesInput.andThen {f : α → Except ε β} {P : α → Prop} (first : x.Yields P)
    (second : ∀ a, P a → (f a).BlamesInput) : (x >>= f).BlamesInput :=
  FailsBy.bind first.blames fun a found => second a (first.holds a found)

end Except
