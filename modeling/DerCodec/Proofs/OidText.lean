import DerCodec.Oid
import DerCodec.Proofs.JoinedText
import DerCodec.Proofs.Result

/-!
# Text of object identifiers

Two identifiers print the same text only if they are equal, so a comparison of texts is one of
identifiers. A text is read as an identifier exactly when it compares equal to it, provided that the
identifier has two arcs; the text that is printed for such an identifier is one of those.
-/

namespace DerCodec

namespace Decimal

theorem value_ofNat (n : Nat) : value (ofNat n) = n :=
  Nat.ofDigitChars_toDigits (by decide) (by decide)

theorem ofNat_injective : Function.Injective ofNat :=
  Function.LeftInverse.injective value_ofNat

theorem dot_notMem_ofNat (n : Nat) : '.' ∉ ofNat n := by
  intro member
  exact absurd (Nat.isDigit_of_mem_toDigits (by decide) (by decide) member) (by decide)

theorem isDigit_of_mem_ofNat {n : Nat} {c : Char} (h : c ∈ ofNat n) : isDigit c = true := by
  have digit : c.isDigit = true := Nat.isDigit_of_mem_toDigits (by decide) (by decide) h
  simpa [isDigit, Char.isDigit, Char.le_def] using digit

/-- A number that was written is read. -/
theorem nat?_ofNat (n : Nat) : nat? (ofNat n) = some n := by
  have unsigned : (ofNat n).head? ≠ some '+' := by
    intro sign
    exact absurd (isDigit_of_mem_ofNat (List.mem_of_head? sign)) (by decide)
  have digits : (ofNat n).all isDigit = true :=
    List.all_eq_true.mpr fun _ => isDigit_of_mem_ofNat
  have some : (ofNat n).isEmpty = false :=
    List.isEmpty_eq_false_iff.mpr Nat.toDigits_ne_nil
  simp [nat?, unsigned, digits, some, value_ofNat]

end Decimal

namespace Oid

/-- The digits of the arcs are found again between the dots. -/
theorem splitOn_chars {oid : Oid} (h : oid.arcs ≠ []) :
    oid.chars.splitOn '.' = oid.arcs.map fun arc => Decimal.ofNat arc.toNat := by
  refine List.splitOn_intercalate '.' ?_ (by simpa using h)
  simp only [List.forall_mem_map]
  intro arc _
  exact Decimal.dot_notMem_ofNat arc.toNat

theorem chars_eq_nil_iff {oid : Oid} : oid.chars = [] ↔ oid.arcs = [] := by
  obtain ⟨arcs⟩ := oid
  match arcs with
  | [] => simp [chars]
  | [arc] => simp [chars, Decimal.ofNat]
  | arc :: next :: rest => simp [chars]

theorem text_inj {a b : Oid} : a.text = b.text ↔ a = b := by
  constructor
  · intro text
    have same : a.chars = b.chars := String.ofList_inj.mp text
    have digits : Function.Injective fun arc : UInt64 => Decimal.ofNat arc.toNat :=
      Decimal.ofNat_injective.comp fun _ _ => UInt64.toNat_inj.mp
    have arcs : a.arcs = b.arcs := by
      by_cases empty : a.arcs = []
      · have other := chars_eq_nil_iff.mpr empty
        rw [same, chars_eq_nil_iff] at other
        rw [empty, other]
      · have other : b.arcs ≠ [] := by rwa [ne_eq, ← chars_eq_nil_iff, ← same, chars_eq_nil_iff]
        have split := splitOn_chars empty
        rw [same, splitOn_chars other] at split
        exact (digits.list_map split).symm
    cases a
    cases b
    exact congrArg Oid.mk arcs
  · rintro rfl
    rfl

theorem isDigit_or_dot_of_mem_chars {oid : Oid} {c : Char} (h : c ∈ oid.chars) :
    c.isDigit = true ∨ c = '.' := by
  rcases mem_intercalate h with dot | ⟨piece, among, member⟩
  · exact .inr dot
  · obtain ⟨arc, -, rfl⟩ := List.mem_map.mp among
    exact .inl (Nat.isDigit_of_mem_toDigits (by decide) (by decide) member)

/-- Components agree with arcs when they are read as those arcs. -/
theorem agrees_iff {arcs : List UInt64} {components : List (List Char)} :
    agrees arcs components = true ↔ arcsOf components = .ok arcs := by
  induction components generalizing arcs with
  | nil => cases arcs <;> simp [agrees, arcsOf]
  | cons component components ih =>
    cases arcs with
    | nil => cases first : arc? component <;> simp [agrees, arcsOf, first, Except.map_eq_ok]
    | cons arc arcs =>
      cases first : arc? component <;>
        simp [agrees, arcsOf, first, Except.map_eq_ok, ih, and_comm]

theorem matchesText_iff {oid : Oid} {text : String} :
    oid.matchesText text = true ↔ arcsOf (components text.toList) = .ok oid.arcs :=
  agrees_iff

/-! ## Reading the text back -/

theorem components_eq_splitOn (text : List Char) : components text = text.splitOn '.' := by
  induction text with
  | nil => rfl
  | cons c rest ih =>
    rw [List.splitOn] at ih ⊢
    rw [components, ih, List.splitOnP_cons_eq_if_modifyHead]
    split
    · rename_i none
      exact absurd none (List.splitOnP_ne_nil _ rest)
    · rename_i later
      simp [later]

theorem arc?_ofNat (arc : UInt64) : arc? (Decimal.ofNat arc.toNat) = some arc := by
  simp [arc?, Decimal.nat?_ofNat, arc.toNat_lt]

theorem arcsOf_map_ofNat (arcs : List UInt64) :
    arcsOf (arcs.map fun arc => Decimal.ofNat arc.toNat) = .ok arcs := by
  induction arcs with
  | nil => rfl
  | cons arc arcs ih =>
    rw [List.map_cons, arcsOf, arc?_ofNat]
    exact congrArg (Except.map (arc :: ·)) ih

/-- A text is read as an identifier when its components agree with the arcs, of which there are two
or more. -/
theorem ofText_eq_ok {text : String} {oid : Oid} :
    ofText text = .ok oid ↔ 2 ≤ oid.arcs.length ∧ oid.matchesText text = true := by
  rw [matchesText_iff, ofText, Except.bind_eq_ok]
  constructor
  · rintro ⟨arcs, read, enough⟩
    split at enough
    · simp at enough
    · rename_i two
      obtain rfl := Except.ok.inj enough
      exact ⟨Nat.le_of_not_lt two, read⟩
  · rintro ⟨enough, read⟩
    exact ⟨oid.arcs, read, by rw [if_neg (by omega)]⟩

theorem matchesText_text {oid : Oid} (h : oid.arcs ≠ []) : oid.matchesText oid.text = true := by
  rw [matchesText_iff, text, String.toList_ofList, components_eq_splitOn, splitOn_chars h,
    arcsOf_map_ofNat]

/-- The text of an identifier is read as that identifier, unless it has fewer than two arcs. -/
theorem ofText_text_iff {oid : Oid} : ofText oid.text = .ok oid ↔ 2 ≤ oid.arcs.length := by
  rw [ofText_eq_ok, and_iff_left_iff_imp]
  intro enough
  exact matchesText_text (List.ne_nil_of_length_pos (by omega))

/-- Comparing with the text that an identifier has is as good as reading the text. -/
theorem text_eq_text_iff (known : Oid) {oid : Oid} (h : 2 ≤ known.arcs.length) :
    oid.text = known.text ↔ ofText known.text = .ok oid := by
  rw [text_inj, ofText_text_iff.mpr h, Except.ok.injEq, eq_comm]

end Oid

end DerCodec
