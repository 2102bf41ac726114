import DerCodec.OctetString
import DerCodec.Proofs.Result

/-!
# Text that octet strings are read from

`OctetString.ofText_reads_hex_iff` says which texts are read, which are cut inside a character, and
which are read as pairs of hexadecimal digits and nothing else.
-/

namespace DerCodec

namespace Hex

/-- The digits are ASCII characters. -/
theorem utf8Size_of_digitValue? {c : Char} {n : Nat} (h : digitValue? c = some n) :
    c.utf8Size = 1 := by
  have high : c ≤ 'f' := by
    unfold digitValue? at h
    split_ifs at h with decimal lower upper
    · exact Char.le_trans decimal.2 (by decide)
    · exact lower.2
    · exact Char.le_trans upper.2 (by decide)
  rw [Char.utf8Size_eq_one_iff]
  exact Nat.le_trans high (by decide)

theorem decode?_cons_eq_some {high low : Char} {rest : List Char} {octets : Bytes} :
    decode? (high :: low :: rest) = some octets ↔
      ∃ h l later, digitValue? high = some h ∧ digitValue? low = some l ∧
        decode? rest = some later ∧ UInt8.ofNat (h * 16 + l) :: later = octets := by
  rw [decode?]
  simp only [Option.bind_eq_bind, Option.bind_eq_some_iff, Option.pure_def, Option.some.injEq]
  grind

/-- What is read is an even number of digits. -/
theorem exists_decode?_iff {chars : List Char} :
    (∃ octets, decode? chars = some octets) ↔
      chars.length % 2 = 0 ∧ ∀ c ∈ chars, ∃ n, digitValue? c = some n := by
  fun_induction decode? chars with
  | case1 => simp
  | case2 high low rest ih =>
    have even : (high :: low :: rest).length % 2 = rest.length % 2 := by
      simp only [List.length_cons]
      omega
    rw [even]
    simp only [List.forall_mem_cons]
    constructor
    · rintro ⟨octets, read⟩
      obtain ⟨h, l, later, readHigh, readLow, readRest, -⟩ := decode?_cons_eq_some.mp read
      obtain ⟨pairs, digits⟩ := ih.mp ⟨later, readRest⟩
      exact ⟨pairs, ⟨h, readHigh⟩, ⟨l, readLow⟩, digits⟩
    · rintro ⟨pairs, ⟨h, readHigh⟩, ⟨l, readLow⟩, digits⟩
      obtain ⟨later, readRest⟩ := ih.mpr ⟨pairs, digits⟩
      exact ⟨_, decode?_cons_eq_some.mpr ⟨h, l, later, readHigh, readLow, readRest, rfl⟩⟩
  | case3 => simp

end Hex

namespace OctetString

/-- The text that is read as pairs. -/
def withoutSeparators (text : String) : List Char :=
  text.toList.filter (!isSeparator ·)

/-- The pairs with a zero in place of a plus sign in front. -/
def unsigned : List Char → List Char
  | [] => []
  | [c] => [c]
  | high :: low :: rest => (if high = '+' then '0' else high) :: low :: unsigned rest

/-- The first two octets end inside a character. -/
def SplitFront : List Char → Prop
  | [] => False
  | [c] => 2 < c.utf8Size
  | c :: d :: _ => 2 < c.utf8Size ∨ c.utf8Size = 1 ∧ d.utf8Size ≠ 1

/-- The octets make whole pairs, and the first pair that cannot be read ends inside a character. -/
def CutsCharacter (chars : List Char) : Prop :=
  utf8Length chars % 2 = 0 ∧ ∃ before after octets,
    chars = before ++ after ∧ Hex.decode? (unsigned before) = some octets ∧ SplitFront after

/-- A pair is read as two digits, with a zero in place of a plus sign in front. -/
theorem pairValue_eq (high low : Char) :
    pairValue high low =
      match Hex.digitValue? (if high = '+' then '0' else high), Hex.digitValue? low with
      | some h, some l => .ok (UInt8.ofNat (h * 16 + l))
      | _, _ => .error .invalidDigit := by
  unfold pairValue
  split_ifs <;> rfl

theorem pairValue_eq_ok {high low : Char} {octet : UInt8} :
    pairValue high low = .ok octet ↔
      ∃ h l, Hex.digitValue? (if high = '+' then '0' else high) = some h ∧
        Hex.digitValue? low = some l ∧ UInt8.ofNat (h * 16 + l) = octet := by
  rw [pairValue_eq]
  generalize Hex.digitValue? (if high = '+' then '0' else high) = first
  generalize Hex.digitValue? low = second
  cases first <;> cases second <;> simp

theorem eq_invalidDigit_of_pairValue {high low : Char} {cause : HexError}
    (h : pairValue high low = .error cause) : cause = .invalidDigit := by
  rw [pairValue_eq] at h
  split at h
  · simp at h
  · exact (Except.error.inj h).symm

/-- Each pair is one octet of the result. -/
theorem readPairs_cons_eq_ok {high low : Char} {rest : List Char} {octets : Bytes} :
    readPairs (high :: low :: rest) = .ok octets ↔
      ∃ octet later, high.utf8Size = 1 ∧ low.utf8Size = 1 ∧ pairValue high low = .ok octet ∧
        readPairs rest = .ok later ∧ octet :: later = octets := by
  rw [readPairs]
  split_ifs with narrow narrowLow wide
  · simp only [narrow, narrowLow, true_and, Except.bind_eq_ok, Except.pure_def, Except.ok.injEq]
    grind
  · simp [narrowLow]
  · simp [narrow]
  · simp [narrow]

theorem readPairs_eq_ok {chars : List Char} {octets : Bytes} :
    readPairs chars = .ok octets ↔ Hex.decode? (unsigned chars) = some octets := by
  induction chars using unsigned.induct generalizing octets with
  | case1 => simp [readPairs, unsigned, Hex.decode?]
  | case2 c =>
    simp only [readPairs, unsigned, Hex.decode?]
    split_ifs <;> simp
  | case3 high low rest ih =>
    rw [readPairs_cons_eq_ok, unsigned, Hex.decode?_cons_eq_some]
    constructor
    · rintro ⟨octet, later, -, -, pair, readRest, rfl⟩
      obtain ⟨h, l, readHigh, readLow, rfl⟩ := pairValue_eq_ok.mp pair
      exact ⟨h, l, later, readHigh, readLow, ih.mp readRest, rfl⟩
    · rintro ⟨h, l, later, readHigh, readLow, readRest, rfl⟩
      have narrow : high.utf8Size = 1 := by
        split_ifs at readHigh with plus
        · rw [plus]
          decide
        · exact Hex.utf8Size_of_digitValue? readHigh
      exact ⟨_, later, narrow, Hex.utf8Size_of_digitValue? readLow,
        pairValue_eq_ok.mpr ⟨h, l, readHigh, readLow, rfl⟩, ih.mpr readRest, rfl⟩

theorem not_readPairs_singleton (c : Char) (octets : Bytes) : readPairs [c] ≠ .ok octets := by
  simp only [readPairs]
  split_ifs <;> simp

/-- Text that is read takes two octets a pair. -/
theorem utf8Length_of_readPairs {chars : List Char} {octets : Bytes}
    (h : readPairs chars = .ok octets) : utf8Length chars % 2 = 0 := by
  induction chars using unsigned.induct generalizing octets with
  | case1 => rfl
  | case2 c => exact absurd h (not_readPairs_singleton c octets)
  | case3 high low rest ih =>
    obtain ⟨octet, later, narrow, narrowLow, -, readRest, -⟩ := readPairs_cons_eq_ok.mp h
    have even := ih readRest
    simp only [utf8Length, narrow, narrowLow]
    omega

theorem readPairs_append {before : List Char} {octets : Bytes} (h : readPairs before = .ok octets)
    (after : List Char) :
    readPairs (before ++ after) = (readPairs after).map (octets ++ ·) := by
  induction before using unsigned.induct generalizing octets with
  | case1 =>
    obtain rfl := Except.ok.inj h
    rw [List.nil_append]
    cases readPairs after <;> rfl
  | case2 c => exact absurd h (not_readPairs_singleton c octets)
  | case3 high low rest ih =>
    obtain ⟨octet, later, narrow, narrowLow, pair, readRest, rfl⟩ := readPairs_cons_eq_ok.mp h
    simp only [List.cons_append, readPairs, narrow, narrowLow, if_true, pair, Except.ok_bind,
      ih readRest]
    cases readPairs after <;> rfl

theorem readPairs_of_splitFront {chars : List Char} (h : SplitFront chars) :
    readPairs chars = .error .splitCharacter := by
  match chars with
  | [c] =>
    have wide : 2 < c.utf8Size := h
    rw [readPairs, if_neg (by omega), if_neg (by omega)]
  | c :: d :: rest =>
    rcases h with wide | ⟨narrow, wideLow⟩
    · rw [readPairs, if_neg (by omega), if_neg (by omega)]
    · simp only [readPairs, if_pos narrow, if_neg wideLow]

/-- A pair is one octet, or its border is no character's, or it holds something else. -/
theorem readPairs_cons_of_not_splitFront {high low : Char} {rest : List Char}
    (h : ¬SplitFront (high :: low :: rest)) :
    readPairs (high :: low :: rest) = .error .invalidDigit ∨
      ∃ octet, readPairs [high, low] = .ok [octet] ∧
        readPairs (high :: low :: rest) = (readPairs rest).map (octet :: ·) := by
  have some := high.utf8Size_pos
  simp only [SplitFront, not_or, not_and, not_not] at h
  have small : high.utf8Size = 1 ∧ low.utf8Size = 1 ∨ high.utf8Size = 2 := by omega
  rcases small with ⟨narrow, narrowLow⟩ | two
  · simp only [readPairs, if_pos narrow, if_pos narrowLow]
    cases pair : pairValue high low with
    | error cause =>
      obtain rfl := eq_invalidDigit_of_pairValue pair
      exact .inl rfl
    | ok octet =>
      refine .inr ⟨octet, rfl, ?_⟩
      cases readPairs rest <;> rfl
  · exact .inl (by simp [readPairs, two])

/-- The pairs before the one that is cut are read. -/
theorem exists_splitFront_of_readPairs {chars : List Char}
    (h : readPairs chars = .error .splitCharacter) : ∃ before after octets,
      chars = before ++ after ∧ readPairs before = .ok octets ∧ SplitFront after := by
  induction chars using unsigned.induct with
  | case1 => simp [readPairs] at h
  | case2 c =>
    refine ⟨[], [c], [], rfl, rfl, ?_⟩
    have some := c.utf8Size_pos
    by_contra narrow
    simp only [SplitFront] at narrow
    have small : c.utf8Size = 1 ∨ c.utf8Size = 2 := by omega
    rcases small with one | two <;> simp [readPairs, *] at h
  | case3 high low rest ih =>
    by_cases split : SplitFront (high :: low :: rest)
    · exact ⟨[], _, [], rfl, rfl, split⟩
    · rcases readPairs_cons_of_not_splitFront split with invalid | ⟨octet, front, step⟩
      · simp [invalid] at h
      · rw [step, Except.map_eq_error] at h
        obtain ⟨before, after, octets, rfl, read, cut⟩ := ih h
        refine ⟨high :: low :: before, after, octet :: octets, rfl, ?_, cut⟩
        exact (readPairs_append front before).trans (by rw [read]; rfl)

/-! ## Whole texts -/

theorem ofText_eq_ok {text : String} {octets : Bytes} :
    ofText text = .ok octets ↔
      Hex.decode? (unsigned (withoutSeparators text)) = some octets := by
  rw [← readPairs_eq_ok, ofText, ← withoutSeparators]
  by_cases even : utf8Length (withoutSeparators text) % 2 = 0
  · rw [if_pos even]
  · rw [if_neg even]
    refine iff_of_false (by simp) fun read => even (utf8Length_of_readPairs read)

theorem ofText_eq_splitCharacter {text : String} :
    ofText text = .error .splitCharacter ↔ CutsCharacter (withoutSeparators text) := by
  rw [ofText, ← withoutSeparators, CutsCharacter]
  by_cases even : utf8Length (withoutSeparators text) % 2 = 0
  · simp only [even, true_and, ← readPairs_eq_ok]
    constructor
    · exact exists_splitFront_of_readPairs
    · rintro ⟨before, after, octets, whole, read, cut⟩
      rw [whole, readPairs_append read, readPairs_of_splitFront cut]
      rfl
  · simp [even]

theorem unsigned_of_not_mem {chars : List Char} (h : '+' ∉ chars) : unsigned chars = chars := by
  induction chars using unsigned.induct with
  | case1 => rfl
  | case2 => rfl
  | case3 high low rest ih =>
    simp only [List.mem_cons, not_or] at h
    rw [unsigned, if_neg (Ne.symm h.1), ih h.2.2]

/-- Pairs of digits are what is read without a plus sign. -/
theorem decode?_eq_some_iff {chars : List Char} {octets : Bytes} :
    Hex.decode? chars = some octets ↔
      Hex.decode? (unsigned chars) = some octets ∧ '+' ∉ chars := by
  constructor
  · intro read
    have plain : '+' ∉ chars := by
      intro plus
      obtain ⟨n, digit⟩ := (Hex.exists_decode?_iff.mp ⟨octets, read⟩).2 '+' plus
      exact absurd digit (by simp [Hex.digitValue?])
    rw [unsigned_of_not_mem plain]
    exact ⟨read, plain⟩
  · rintro ⟨read, plain⟩
    rwa [unsigned_of_not_mem plain] at read

/-- What is left of a text without its separators is read in pairs of digits, but a plus sign may
stand in place of a first digit, and a pair may end inside a character. A text is read as
hexadecimal exactly when neither happens. -/
theorem ofText_reads_hex_iff (text : String) :
    (∀ octets, ofText text = .ok octets ↔
      Hex.decode? (unsigned (withoutSeparators text)) = some octets) ∧
    (ofText text = .error .splitCharacter ↔ CutsCharacter (withoutSeparators text)) ∧
    ((ofText text ≠ .error .splitCharacter ∧ ∀ octets,
        ofText text = .ok octets ↔ Hex.decode? (withoutSeparators text) = some octets) ↔
      ¬CutsCharacter (withoutSeparators text) ∧ ¬('+' ∈ withoutSeparators text ∧
        ∃ octets, Hex.decode? (unsigned (withoutSeparators text)) = some octets)) := by
  refine ⟨fun octets => ofText_eq_ok, ofText_eq_splitCharacter, ?_⟩
  have plain (octets : Bytes) :
      (ofText text = .ok octets ↔ Hex.decode? (withoutSeparators text) = some octets) ↔
        (Hex.decode? (unsigned (withoutSeparators text)) = some octets →
          '+' ∉ withoutSeparators text) := by
    rw [ofText_eq_ok, @decode?_eq_some_iff (withoutSeparators text) octets, iff_self_and]
  simp only [plain, ne_eq, ofText_eq_splitCharacter]
  grind

/-- A plus sign is read as a zero, and a minus sign of three octets is cut after two of them. -/
theorem ofText_sign_and_cut :
    ofText "+f" = .ok [0x0f] ∧ Hex.decode? (withoutSeparators "+f") = none ∧
      ofText "\u22121" = .error .splitCharacter := by
  refine ⟨?_, ?_, ?_⟩ <;> decide

end OctetString
end DerCodec
