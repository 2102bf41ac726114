import DerCodec.Certificate.Name
import DerCodec.Proofs.OidText

/-!
# Displayed names

Two names are displayed alike only when they have the same attributes with the same texts, in the
same places. A type is shown in letters, digits and dots, so it ends at the first equals sign, and
no conventional name is made of digits and dots as an identifier is. In a value every comma and plus
sign stands behind a backslash, so those that do not are separators.
-/

namespace DerCodec

/-! ## Attributes -/

namespace NameAttribute

/-- The text whose escaped form this is: a backslash is dropped, and what it protects is kept. -/
def unescape : List Char → List Char
  | '\\' :: c :: rest => c :: unescape rest
  | c :: rest => c :: unescape rest
  | [] => []

theorem unescape_escape (value : List Char) : unescape (escape value) = value := by
  induction value with
  | nil => rfl
  | cons c rest ih =>
    unfold escape
    split
    · rw [unescape, ih]
    · rename_i plain
      have bare : c ≠ '\\' := by
        rintro rfl
        exact plain rfl
      rw [unescape.eq_2 _ _ fun _ _ first => absurd first bare, ih]

theorem escape_injective : Function.Injective escape :=
  Function.LeftInverse.injective unescape_escape

/-- A sign that is escaped stands in an escaped text only behind a backslash. -/
theorem guarded_escape {separator : Char} (special : isSpecial separator = true)
    (value : List Char) : Guarded separator (escape value) := by
  induction value with
  | nil => exact .nil
  | cons c rest ih =>
    unfold escape
    split
    · exact .escaped ih
    · rename_i plain
      refine .plain ?_ ?_ ih
      · rintro rfl
        exact plain special
      · rintro rfl
        exact plain rfl

theorem exists_entry {attr : NameAttribute} {name : String} (h : attr.name? = some name) :
    ∃ entry ∈ types, entry.2 = name ∧ attr.type.matchesText entry.1 = true := by
  obtain ⟨entry, found, rfl⟩ := Option.map_eq_some_iff.mp h
  have same := List.find?_some found
  exact ⟨entry, List.mem_of_find?_eq_some found, rfl, same⟩

/-- What types are shown in. -/
def isTypeChar (c : Char) : Bool :=
  c.isAlphanum || c == '.'

theorem isTypeChar_of_mem_nameOrOid {attr : NameAttribute} {c : Char}
    (h : c ∈ attr.nameOrOid.toList) : isTypeChar c = true := by
  have letters : ∀ entry ∈ types, entry.2.toList.all isTypeChar = true := by decide +kernel
  rw [nameOrOid] at h
  cases known : attr.name? with
  | none =>
    rw [known, Option.getD_none, Oid.text, String.toList_ofList] at h
    rcases Oid.isDigit_or_dot_of_mem_chars h with digit | rfl
    · simp [isTypeChar, Char.isAlphanum, digit]
    · rfl
  | some name =>
    rw [known, Option.getD_some] at h
    obtain ⟨entry, among, rfl, -⟩ := exists_entry known
    exact List.all_eq_true.mp (letters entry among) c h

theorem isTypeChar_of_isSpecial {c : Char} (h : isSpecial c = true) : isTypeChar c = false := by
  simp only [isSpecial, List.mem_cons, List.not_mem_nil, or_false, decide_eq_true_eq] at h
  rcases h with rfl | rfl | rfl | rfl | rfl | rfl | rfl <;> rfl

/-- A sign that no type is shown with, such as the equals sign, does not stand in one. -/
theorem guarded_nameOrOid (attr : NameAttribute) {separator : Char}
    (foreign : isTypeChar separator = false) : Guarded separator attr.nameOrOid.toList := by
  refine .of_forall fun c member => ⟨?_, ?_⟩
  · rintro rfl
    exact absurd (isTypeChar_of_mem_nameOrOid member) (by simp [foreign])
  · rintro rfl
    exact absurd (isTypeChar_of_mem_nameOrOid member) (by decide)

/-- A conventional name has a letter, and the text of an identifier has none. -/
theorem name_ne_text {attr : NameAttribute} {name : String} (h : attr.name? = some name)
    (oid : Oid) : name ≠ oid.text := by
  have letter : ∀ entry ∈ types, entry.2.toList.any (fun c => !(c.isDigit || c == '.')) = true := by
    decide +kernel
  rintro rfl
  obtain ⟨entry, among, same, -⟩ := exists_entry h
  obtain ⟨c, member, other⟩ := List.any_eq_true.mp (letter entry among)
  rw [same, Oid.text, String.toList_ofList] at member
  rcases Oid.isDigit_or_dot_of_mem_chars member with digit | rfl
  · simp [digit] at other
  · exact absurd other (by decide)

/-- A conventional name stands for one type. -/
theorem type_eq_of_name? {a b : NameAttribute} {name : String} (ha : a.name? = some name)
    (hb : b.name? = some name) : a.type = b.type := by
  have names : ∀ entry ∈ types, ∀ entry' ∈ types, entry.2 = entry'.2 → entry = entry' := by
    decide +kernel
  obtain ⟨entry, among, named, matchA⟩ := exists_entry ha
  obtain ⟨entry', among', named', matchB⟩ := exists_entry hb
  obtain rfl := names entry among entry' among' (named.trans named'.symm)
  rw [Oid.matchesText_iff] at matchA matchB
  exact congrArg Oid.mk (Except.ok.inj (matchA.symm.trans matchB))

/-- No two types are shown alike. -/
theorem nameOrOid_eq_iff {a b : NameAttribute} : a.nameOrOid = b.nameOrOid ↔ a.type = b.type := by
  constructor
  · intro same
    rw [nameOrOid, nameOrOid] at same
    cases knownA : a.name? with
    | none =>
      cases knownB : b.name? with
      | none => exact Oid.text_inj.mp (by simpa only [knownA, knownB, Option.getD_none] using same)
      | some name =>
        rw [knownA, knownB, Option.getD_none, Option.getD_some] at same
        exact absurd same.symm (name_ne_text knownB a.type)
    | some name =>
      cases knownB : b.name? with
      | none =>
        rw [knownA, knownB, Option.getD_none, Option.getD_some] at same
        exact absurd same (name_ne_text knownA b.type)
      | some name' =>
        obtain rfl : name = name' := by simpa only [knownA, knownB, Option.getD_some] using same
        exact type_eq_of_name? knownA knownB
  · intro same
    rw [nameOrOid, nameOrOid, name?, name?, same]

/-- The value is of one of the three string types. -/
def IsTextual (attr : NameAttribute) : Prop :=
  attr.value.text?.isSome

instance (attr : NameAttribute) : Decidable attr.IsTextual :=
  inferInstanceAs (Decidable (_ = true))

theorem toList_text {attr : NameAttribute} {value : String} (h : attr.value.text? = some value) :
    attr.text.toList = attr.nameOrOid.toList ++ '=' :: escape value.toList := by
  simp [text, h]

/-- A displayed attribute can be joined to others by any of the signs that its text escapes. -/
theorem IsTextual.piece {attr : NameAttribute} (h : attr.IsTextual) {separator : Char}
    (special : isSpecial separator = true) : Piece separator attr.text.toList := by
  have shown : isTypeChar separator = false := isTypeChar_of_isSpecial special
  have equals : '=' ≠ separator := by
    rintro rfl
    exact absurd special (by decide)
  obtain ⟨value, text⟩ := Option.isSome_iff_exists.mp h
  rw [toList_text text]
  refine ⟨by simp, (attr.guarded_nameOrOid shown).append ?_⟩
  exact .plain equals (by decide) (guarded_escape special value.toList)

/-- The same type with the same text, which may be of another string type. -/
def SameShown (a b : NameAttribute) : Prop :=
  a.type = b.type ∧ a.value.text? = b.value.text?

theorem text_eq_iff {a b : NameAttribute} (ha : a.IsTextual) (hb : b.IsTextual) :
    a.text = b.text ↔ a.SameShown b := by
  obtain ⟨value, textA⟩ := Option.isSome_iff_exists.mp ha
  obtain ⟨value', textB⟩ := Option.isSome_iff_exists.mp hb
  rw [← String.toList_inj, toList_text textA, toList_text textB, SameShown, textA, textB,
    Option.some.injEq]
  constructor
  · intro same
    obtain ⟨types, values⟩ := Guarded.append_inj (by decide) (a.guarded_nameOrOid rfl)
      (b.guarded_nameOrOid rfl) (Guarded.ends_cons '=' _) (Guarded.ends_cons '=' _) same
    exact ⟨nameOrOid_eq_iff.mp (String.toList_inj.mp types),
      String.toList_inj.mp (escape_injective (List.cons.inj values).2)⟩
  · rintro ⟨types, rfl⟩
    rw [nameOrOid_eq_iff.mpr types]

end NameAttribute

/-! ## Relative names -/

namespace RelativeName

/-- At least one attribute, and all of them with text. -/
structure IsTextual (name : RelativeName) : Prop where
  some : name.attributes ≠ []
  textual : ∀ attr ∈ name.attributes, attr.IsTextual

instance (name : RelativeName) : Decidable name.IsTextual :=
  decidable_of_iff (name.attributes ≠ [] ∧ ∀ attr ∈ name.attributes, attr.IsTextual)
    ⟨fun h => ⟨h.1, h.2⟩, fun h => ⟨h.1, h.2⟩⟩

theorem toList_text (name : RelativeName) :
    name.text.toList = ['+'].intercalate (name.attributes.map (·.text.toList)) := by
  rw [text, String.toList_intercalate, List.map_map]
  rfl

variable {a b : RelativeName}

theorem IsTextual.piece (h : a.IsTextual) : Piece ',' a.text.toList where
  some := by
    rw [toList_text, ne_eq, Piece.intercalate_eq_nil_iff fun x hx => (h.textual x hx).piece rfl]
    exact h.some
  guarded := by
    rw [toList_text]
    refine .intercalate (List.forall_mem_map.mpr fun x hx => ?_) (by decide) (by decide)
    exact ((h.textual x hx).piece rfl).guarded

/-- The same attributes, in the same order, up to their string types. -/
def SameShown (a b : RelativeName) : Prop :=
  List.Forall₂ NameAttribute.SameShown a.attributes b.attributes

theorem text_eq_iff (ha : a.IsTextual) (hb : b.IsTextual) : a.text = b.text ↔ a.SameShown b := by
  rw [← String.toList_inj, toList_text, toList_text]
  refine Piece.intercalate_eq_iff (by decide) (fun x hx => (ha.textual x hx).piece rfl)
    (fun y hy => (hb.textual y hy).piece rfl) fun x hx y hy => ?_
  rw [String.toList_inj, NameAttribute.text_eq_iff (ha.textual x hx) (hb.textual y hy)]

end RelativeName

/-! ## Names -/

namespace Name

def IsTextual (name : Name) : Prop :=
  ∀ relative ∈ name.relativeNames, relative.IsTextual

instance (name : Name) : Decidable name.IsTextual :=
  inferInstanceAs (Decidable (∀ relative ∈ name.relativeNames, relative.IsTextual))

theorem toList_text (name : Name) :
    name.text.toList = [','].intercalate (name.relativeNames.map (·.text.toList)) := by
  rw [text, String.toList_intercalate, List.map_map]
  rfl

/-- Names whose values are texts are displayed alike exactly when they have the same relative names
with the same attributes, in the same order, and each attribute has the same text. -/
theorem text_eq_iff_sameShown {a b : Name} (ha : a.IsTextual) (hb : b.IsTextual) :
    a.text = b.text ↔ List.Forall₂ RelativeName.SameShown a.relativeNames b.relativeNames := by
  rw [← String.toList_inj, toList_text, toList_text]
  refine Piece.intercalate_eq_iff (by decide) (fun r hr => (ha r hr).piece)
    (fun s hs => (hb s hs).piece) fun r hr s hs => ?_
  rw [String.toList_inj, RelativeName.text_eq_iff (ha r hr) (hb s hs)]

/-- A comma in a value is no separator, whatever stands behind it, and its string type is not
shown. -/
theorem text_eq_iff_sameShown_comma :
    let one : Name := ⟨[⟨[⟨⟨[2, 5, 4, 3]⟩, .primitive .utf8String "a,O=b"⟩]⟩]⟩
    let printable : Name := ⟨[⟨[⟨⟨[2, 5, 4, 3]⟩, .primitive .printableString "a,O=b"⟩]⟩]⟩
    let two : Name := ⟨[⟨[⟨⟨[2, 5, 4, 3]⟩, .primitive .utf8String "a"⟩]⟩,
      ⟨[⟨⟨[2, 5, 4, 10]⟩, .primitive .utf8String "b"⟩]⟩]⟩
    one.IsTextual ∧ printable.IsTextual ∧ two.IsTextual ∧
      one.text = printable.text ∧ one.text ≠ two.text := by
  intro one printable two
  have texts : one.IsTextual ∧ printable.IsTextual ∧ two.IsTextual := by decide
  obtain ⟨textOne, textPrintable, textTwo⟩ := texts
  refine ⟨textOne, textPrintable, textTwo, ?_, fun same => ?_⟩
  · refine (text_eq_iff_sameShown textOne textPrintable).mpr (.cons (.cons ?_ .nil) .nil)
    exact ⟨rfl, rfl⟩
  · have lengths := ((text_eq_iff_sameShown textOne textTwo).mp same).length_eq
    exact absurd lengths (by decide)

end Name

end DerCodec
