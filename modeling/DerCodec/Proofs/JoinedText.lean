import DerCodec.Proofs.Result

/-!
# Pieces of text between separators

Pieces that are joined by a separator can be told apart again when the separator stands in them only
behind a backslash, which `Guarded` says. The end of such a piece is then seen from its characters
alone, so two runs that are joined to the same text are the same run, when no piece is empty.
-/

namespace DerCodec

/-- The first piece, and every other one behind a separator. -/
theorem intercalate_cons {α : Type} (separator : α) (piece : List α) (pieces : List (List α)) :
    [separator].intercalate (piece :: pieces) = piece ++ pieces.flatMap (separator :: ·) := by
  induction pieces generalizing piece with
  | nil => simp
  | cons next pieces ih =>
    rw [List.intercalate_cons_cons, ih, List.flatMap_cons]
    simp

theorem mem_intercalate {α : Type} {separator x : α} {pieces : List (List α)}
    (h : x ∈ [separator].intercalate pieces) : x = separator ∨ ∃ piece ∈ pieces, x ∈ piece := by
  cases pieces with
  | nil => simp at h
  | cons piece pieces =>
    rw [intercalate_cons, List.mem_append, List.mem_flatMap] at h
    rcases h with first | ⟨later, among, member⟩
    · exact .inr ⟨piece, List.mem_cons_self, first⟩
    · rcases List.mem_cons.mp member with rfl | inside
      · exact .inl rfl
      · exact .inr ⟨later, List.mem_cons_of_mem _ among, inside⟩

/-- Text in which the separator stands only behind a backslash, and every backslash in front of a
character that belongs to it. -/
inductive Guarded (separator : Char) : List Char → Prop
  | nil : Guarded separator []
  | plain {c : Char} {rest : List Char} (other : c ≠ separator) (bare : c ≠ '\\')
      (later : Guarded separator rest) : Guarded separator (c :: rest)
  | escaped {c : Char} {rest : List Char} (later : Guarded separator rest) :
      Guarded separator ('\\' :: c :: rest)

namespace Guarded

variable {separator : Char} {a b : List Char}

theorem of_forall (h : ∀ c ∈ a, c ≠ separator ∧ c ≠ '\\') : Guarded separator a := by
  induction a with
  | nil => exact .nil
  | cons c rest ih =>
    obtain ⟨first, later⟩ := List.forall_mem_cons.mp h
    exact .plain first.1 first.2 (ih later)

theorem append (ha : Guarded separator a) (hb : Guarded separator b) :
    Guarded separator (a ++ b) := by
  induction ha with
  | nil => exact hb
  | plain other bare _ ih => exact .plain other bare ih
  | escaped _ ih => exact .escaped ih

/-- Pieces stay guarded when they are joined by another sign. -/
theorem intercalate {joint : Char} {pieces : List (List Char)}
    (h : ∀ piece ∈ pieces, Guarded separator piece) (other : joint ≠ separator)
    (bare : joint ≠ '\\') : Guarded separator ([joint].intercalate pieces) := by
  cases pieces with
  | nil => exact .nil
  | cons piece pieces =>
    rw [intercalate_cons]
    obtain ⟨first, later⟩ := List.forall_mem_cons.mp h
    refine first.append ?_
    induction pieces with
    | nil => exact .nil
    | cons next pieces ih =>
      obtain ⟨second, others⟩ := List.forall_mem_cons.mp later
      exact (Guarded.plain other bare second).append
        (ih (List.forall_mem_cons.mpr ⟨first, others⟩) others)

/-- What may follow a piece: nothing, or the separator in front of more. -/
def Ends (separator : Char) (rest : List Char) : Prop :=
  ∀ c ∈ rest.head?, c = separator

theorem ends_cons (separator : Char) (rest : List Char) : Ends separator (separator :: rest) := by
  simp [Ends]

theorem not_ends_cons {c : Char} (h : c ≠ separator) (rest : List Char) :
    ¬Ends separator (c :: rest) := by
  simpa [Ends] using h

theorem ends_flatMap (separator : Char) (pieces : List (List Char)) :
    Ends separator (pieces.flatMap (separator :: ·)) := by
  cases pieces <;> simp [Ends]

section Inj

variable (bare : separator ≠ '\\')

include bare

/-- One piece ends where the text says, whatever follows it there. -/
theorem append_inj {rest rest' : List Char} (ha : Guarded separator a) (hb : Guarded separator b)
    (ends : Ends separator rest) (ends' : Ends separator rest')
    (same : a ++ rest = b ++ rest') : a = b ∧ rest = rest' := by
  induction ha generalizing b with
  | nil =>
    rw [List.nil_append] at same
    cases hb with
    | nil => exact ⟨rfl, same⟩
    | plain other _ _ =>
      rw [same] at ends
      exact absurd ends (not_ends_cons other _)
    | escaped _ =>
      rw [same] at ends
      exact absurd ends (not_ends_cons bare.symm _)
  | plain other plain _ ih =>
    cases hb with
    | nil =>
      rw [List.nil_append] at same
      rw [← same] at ends'
      exact absurd ends' (not_ends_cons other _)
    | plain _ _ hb =>
      obtain ⟨rfl, later⟩ := List.cons.inj same
      exact (ih hb later).imp_left fun whole => by rw [whole]
    | escaped _ => exact absurd (List.cons.inj same).1 plain
  | escaped _ ih =>
    cases hb with
    | nil =>
      rw [List.nil_append] at same
      rw [← same] at ends'
      exact absurd ends' (not_ends_cons bare.symm _)
    | plain _ plain _ => exact absurd (List.cons.inj same).1.symm plain
    | escaped hb =>
      obtain ⟨rfl, later⟩ := List.cons.inj (List.cons.inj same).2
      exact (ih hb later).imp_left fun whole => by rw [whole]

/-- Runs of pieces, each behind a separator, are told apart. -/
theorem flatMap_inj {as bs : List (List Char)} (has : ∀ piece ∈ as, Guarded separator piece)
    (hbs : ∀ piece ∈ bs, Guarded separator piece)
    (same : as.flatMap (separator :: ·) = bs.flatMap (separator :: ·)) : as = bs := by
  induction as generalizing bs with
  | nil => cases bs <;> simp_all
  | cons a as ih =>
    cases bs with
    | nil => simp at same
    | cons b bs =>
      obtain ⟨ha, restA⟩ := List.forall_mem_cons.mp has
      obtain ⟨hb, restB⟩ := List.forall_mem_cons.mp hbs
      rw [List.flatMap_cons, List.flatMap_cons, List.cons_append, List.cons_append] at same
      obtain ⟨first, later⟩ := append_inj bare ha hb (ends_flatMap _ as) (ends_flatMap _ bs)
        (List.cons.inj same).2
      rw [first, ih restA restB later]

end Inj

end Guarded

/-- What can be joined by the separator and told apart again. -/
structure Piece (separator : Char) (a : List Char) : Prop where
  some : a ≠ []
  guarded : Guarded separator a

namespace Piece

variable {separator : Char} {α : Type} {shown : α → List Char} {as bs : List α}

theorem intercalate_eq_nil_iff (has : ∀ a ∈ as, Piece separator (shown a)) :
    [separator].intercalate (as.map shown) = [] ↔ as = [] := by
  cases as with
  | nil => simp
  | cons a as => simp [intercalate_cons, (has a List.mem_cons_self).some]

/-- Two runs are displayed alike, joined by the separator, when they are alike at every place. -/
theorem intercalate_eq_iff {R : α → α → Prop} (bare : separator ≠ '\\')
    (has : ∀ a ∈ as, Piece separator (shown a)) (hbs : ∀ b ∈ bs, Piece separator (shown b))
    (alike : ∀ a ∈ as, ∀ b ∈ bs, shown a = shown b ↔ R a b) :
    [separator].intercalate (as.map shown) = [separator].intercalate (bs.map shown) ↔
      List.Forall₂ R as bs := by
  rw [← List.map_eq_map_iff_forall₂ alike]
  refine ⟨fun same => ?_, congrArg _⟩
  cases as with
  | nil => rw [(intercalate_eq_nil_iff hbs).mp same.symm]
  | cons a as =>
    cases bs with
    | nil => exact absurd ((intercalate_eq_nil_iff has).mp same) (List.cons_ne_nil a as)
    | cons b bs =>
      rw [List.map_cons, List.map_cons, intercalate_cons, intercalate_cons] at same
      refine Guarded.flatMap_inj bare ?_ ?_ (congrArg (separator :: ·) same)
      · exact List.forall_mem_map.mpr fun a among => (has a among).guarded
      · exact List.forall_mem_map.mpr fun b among => (hbs b among).guarded

end Piece

end DerCodec
