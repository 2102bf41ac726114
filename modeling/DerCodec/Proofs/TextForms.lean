import DerCodec.Json.Primitive
import DerCodec.Proofs.OctetText
import DerCodec.Proofs.OidText

/-!
# Text forms are read back

Octet strings, integers and object identifiers are each read from the text that is written for
them. The text of an octet string may be spread out: separators put in anywhere, also between the
two digits of an octet, change nothing.
-/

namespace DerCodec

/-! ## Octet strings -/

namespace Hex

theorem digitValue?_digit {n : Nat} (h : n < 16) : digitValue? (digit n) = some n := by
  have sixteen : ∀ n < 16, digitValue? (digit n) = some n := by decide
  exact sixteen n h

/-- Octets are read from their pairs of digits. -/
theorem decode?_flatMap_ofOctet (octets : Bytes) :
    decode? (octets.flatMap ofOctet) = some octets := by
  induction octets with
  | nil => rfl
  | cons octet octets ih =>
    have small := octet.toNat_lt
    have high := digitValue?_digit (show octet.toNat / 16 < 16 by omega)
    have low := digitValue?_digit (show octet.toNat % 16 < 16 by omega)
    have whole : octet.toNat / 16 * 16 + octet.toNat % 16 = octet.toNat := by omega
    refine decode?_cons_eq_some.mpr ⟨_, _, _, high, low, ih, ?_⟩
    rw [whole, UInt8.ofNat_toNat]

end Hex

namespace OctetString

/-- The second text is the first one with separators put in, any number of them at any places. -/
inductive Spread : List Char → List Char → Prop
  | nil : Spread [] []
  | keep {text spread : List Char} (c : Char) (later : Spread text spread) :
    Spread (c :: text) (c :: spread)
  | insert {text spread : List Char} {c : Char} (separator : isSeparator c = true)
    (later : Spread text spread) : Spread text (c :: spread)

namespace Spread

theorem refl (text : List Char) : Spread text text := by
  induction text with
  | nil => exact .nil
  | cons c _ ih => exact .keep c ih

theorem filter_eq {text spread : List Char} (h : Spread text spread) :
    spread.filter (!isSeparator ·) = text.filter (!isSeparator ·) := by
  induction h with
  | nil => rfl
  | keep c _ ih => simp only [List.filter_cons, ih]
  | insert separator _ ih => simp [separator, ih]

end Spread

theorem toNat_of_isSeparator {c : Char} (h : isSeparator c = true) :
    c.toNat ≤ 0x2d ∨ c.toNat = 0x3a ∨ 0x80 ≤ c.toNat := by
  simp only [isSeparator, Bool.or_eq_true, beq_iff_eq] at h
  rcases h with (blank | rfl) | rfl
  · simp only [isBlank, Bool.or_eq_true, Bool.and_eq_true, decide_eq_true_eq, beq_iff_eq] at blank
    omega
  · decide
  · decide

/-- A digit stays in the text when the separators are left out. -/
theorem isSeparator_of_digitValue? {c : Char} {n : Nat} (h : Hex.digitValue? c = some n) :
    isSeparator c = false := by
  have range : 0x30 ≤ c.toNat ∧ c.toNat ≤ 0x39 ∨ 0x41 ≤ c.toNat ∧ c.toNat ≤ 0x66 := by
    unfold Hex.digitValue? at h
    split_ifs at h with decimal lower upper
    · exact .inl decimal
    · exact .inr ⟨Nat.le_trans (by decide) lower.1, lower.2⟩
    · exact .inr ⟨upper.1, Nat.le_trans upper.2 (by decide)⟩
  rw [Bool.eq_false_iff]
  intro separator
  have outside := toNat_of_isSeparator separator
  omega

/-- The digits of an octet string are read as it, however far they are spread. -/
theorem ofText_of_spread {octets : Bytes} {text : String}
    (h : Spread (toText octets).toList text.toList) : ofText text = .ok octets := by
  have read := Hex.decode?_flatMap_ofOctet octets
  have digits := (Hex.exists_decode?_iff.mp ⟨octets, read⟩).2
  have kept : withoutSeparators text = octets.flatMap Hex.ofOctet := by
    rw [withoutSeparators, h.filter_eq, toText, Hex.encode, String.toList_ofList,
      List.filter_eq_self]
    intro c member
    obtain ⟨n, digit⟩ := digits c member
    rw [isSeparator_of_digitValue? digit]
    rfl
  rw [ofText_eq_ok, kept]
  exact (decode?_eq_some_iff.mp read).1

end OctetString

/-! ## Integers -/

namespace Decimal

theorem groupedNat?_ofNat (n : Nat) : groupedNat? (ofNat n) = some n := by
  obtain ⟨first, rest, shape⟩ := List.exists_cons_of_ne_nil (Nat.toDigits_ne_nil (n := n) (b := 10))
  have digits : ∀ c ∈ ofNat n, isDigit c = true := fun _ => isDigit_of_mem_ofNat
  have front : ((ofNat n).head?.map isDigit).getD false = true := by
    have digit := digits first (by simp [ofNat, shape])
    simp [ofNat, shape, digit]
  have all : (ofNat n).all (fun c => isDigit c || c == '_') = true :=
    List.all_eq_true.mpr fun c member => by simp [digits c member]
  rw [groupedNat?, front, all, List.filter_eq_self.mpr digits, value_ofNat]
  rfl

/-- Digits without a sign are those of a natural number. -/
theorem int?_ofNat (n : Nat) : int? (ofNat n) = some (n : Int) := by
  have digits : ∀ c ∈ ofNat n, isDigit c = true := fun _ => isDigit_of_mem_ofNat
  have grouped := groupedNat?_ofNat n
  unfold int?
  split
  · rename_i minus
    exact absurd (digits '-' (by simp [minus])) (by decide)
  · rename_i plus
    exact absurd (digits '+' (by simp [plus])) (by decide)
  · rw [grouped]
    rfl

/-- An integer of any size is read from its digits and its sign. -/
theorem int?_ofInt (n : Int) : int? (ofInt n) = some n := by
  unfold ofInt
  split_ifs with negative
  · have magnitude : -(n.natAbs : Int) = n := by omega
    rw [int?, groupedNat?_ofNat]
    exact congrArg some magnitude
  · have magnitude : (n.natAbs : Int) = n := by omega
    rw [int?_ofNat, magnitude]

end Decimal

theorem Integer.ofText?_text (n : Int) : ofText? (text n) = some n := by
  rw [ofText?, text, String.toList_ofList, Decimal.int?_ofInt]

/-! ## All three -/

/-- What is written for an octet string or an integer is read as that again, and the text of an
octet string also with separators put in. An ENUMERATED has the text of an INTEGER. An object
identifier is read back when it has two arcs, which the reader asks for. -/
theorem text_forms_read_back :
    (∀ octets : Bytes, OctetString.ofJson (OctetString.toJson octets) = .ok octets ∧
      ∀ text : String, OctetString.Spread (OctetString.toText octets).toList text.toList →
        OctetString.ofJson (.text text) = .ok octets) ∧
    (∀ n : Int, Integer.ofJson (Integer.toJson n) = .ok n) ∧
    ∀ oid : Oid, Oid.ofJson (Oid.toJson oid) = .ok oid ↔ 2 ≤ oid.arcs.length := by
  refine ⟨fun octets => ?_, fun n => ?_, fun oid => ?_⟩
  · have spread (text : String)
        (h : OctetString.Spread (OctetString.toText octets).toList text.toList) :
        OctetString.ofJson (.text text) = .ok octets :=
      Except.mapError_eq_ok.mpr (OctetString.ofText_of_spread h)
    exact ⟨spread _ (.refl _), spread⟩
  · simp [Integer.ofJson, Integer.toJson, Json.asText, Integer.ofText?_text]
  · rw [← Oid.ofText_text_iff]
    exact Except.mapError_eq_ok

/-- Three octets with separators of several kinds between their digits and around them, a negative
integer beyond any machine word, and an identifier with the largest arc. -/
theorem text_forms_read_back_spread :
    OctetString.ofJson (.text " d:e -a\u3000d\u00a0--00\n") = .ok [0xde, 0xad, 0x00] ∧
      Integer.ofJson (Integer.toJson (-18446744073709551616)) = .ok (-18446744073709551616) ∧
      Oid.ofJson (Oid.toJson ⟨[2, 18446744073709551615]⟩) = .ok ⟨[2, 18446744073709551615]⟩ := by
  obtain ⟨octets, integers, identifiers⟩ := text_forms_read_back
  refine ⟨(octets _).2 _ ?_, integers _, (identifiers _).mpr (by decide)⟩
  have text : (OctetString.toText [0xde, 0xad, 0x00]).toList = ['d', 'e', 'a', 'd', '0', '0'] := by
    decide
  rw [text]
  exact .insert rfl <| .keep _ <| .insert rfl <| .keep _ <| .insert rfl <| .insert rfl <|
    .keep _ <| .insert rfl <| .keep _ <| .insert rfl <| .insert rfl <| .insert rfl <|
    .keep _ <| .keep _ <| .insert rfl .nil

end DerCodec
