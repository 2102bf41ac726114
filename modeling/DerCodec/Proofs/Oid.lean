import DerCodec.Oid
import DerCodec.Proofs.Numerals
import DerCodec.Proofs.Result

/-!
# Content of object identifiers

`Oid.IsEncodable` says which identifiers have content octets. Those are read back from their
content, and no other identifier is ever read. An identifier that was read is written as the very
content that it was read from. `Oid.IsSubidentifier` says what content is made of.
-/

namespace DerCodec.Oid

/-- At least two arcs, whose first two fit in one sub-identifier: the first is at most 2, the second
is below 40 unless the first is 2, and then the sum of 80 and the second fits in 64 bits. -/
def IsEncodable (oid : Oid) : Prop :=
  match oid.arcs with
  | first :: second :: _ =>
    first.toNat ≤ 2 ∧ (first.toNat < 2 → second.toNat < 40) ∧
      (first.toNat = 2 → 80 + second.toNat < UInt64.size)
  | _ => False

instance (oid : Oid) : Decidable oid.IsEncodable := by
  unfold IsEncodable
  split <;> infer_instance

/-! ## Sub-identifiers -/

/-- What is pending after the leading digits of a number: nothing when there are none. -/
def pendingOf (n : Nat) : Option Nat :=
  if n = 0 then none else some n

theorem pendingOf_pos {n : Nat} (h : n ≠ 0) : pendingOf n = some n :=
  if_neg h

@[simp] theorem getD_pendingOf (n : Nat) : (pendingOf n).getD 0 = n := by
  by_cases zero : n = 0 <;> simp [pendingOf, zero]

/-- The digits before the last one are read as the number that they stand for; a first digit of
zero never occurs among them. -/
theorem readSubidentifiers_leading {n : Nat} (h : n < UInt64.size) (rest : Bytes) :
    readSubidentifiers none (Base128.leading n ++ rest) =
      readSubidentifiers (pendingOf n) rest := by
  induction n using Nat.strongRecOn generalizing rest with
  | ind n ih =>
    by_cases zero : n = 0
    · simp [zero, Base128.leading, pendingOf]
    · rw [Base128.leading_pos zero, List.append_assoc, ih (n / 128) (by omega) (by omega),
        pendingOf_pos zero]
      have unpadded : ((pendingOf (n / 128)).isNone &&
          UInt8.ofNat (n % 128 + 128) == 0x80) = false := by
        by_cases first : n / 128 = 0
        · have digit : UInt8.ofNat (n % 128 + 128) ≠ 0x80 := by
            intro padding
            have octet := congrArg UInt8.toNat padding
            rw [Base128.toNat_leadingDigit] at octet
            change n % 128 + 128 = 128 at octet
            omega
          simpa [pendingOf, first] using digit
        · simp [pendingOf, first]
      simp only [List.cons_append, List.nil_append, readSubidentifiers, unpadded, getD_pendingOf,
        Base128.push?_leadingDigit h, Base128.continues_leadingDigit, if_true,
        Bool.false_eq_true, if_false]

theorem readSubidentifiers_encode {n : Nat} (h : n < UInt64.size) (rest : Bytes) :
    readSubidentifiers none (Base128.encode n ++ rest) =
      (readSubidentifiers none rest).map (n :: ·) := by
  have shorter : n / 128 < UInt64.size := by omega
  rw [Base128.encode, List.append_assoc, readSubidentifiers_leading shorter]
  have last : UInt8.ofNat (n % 128) ≠ 0x80 := by
    intro padding
    have octet := congrArg UInt8.toNat padding
    rw [Base128.toNat_lastDigit] at octet
    change n % 128 = 128 at octet
    omega
  simp only [List.cons_append, List.nil_append, readSubidentifiers, beq_eq_false_iff_ne.mpr last,
    Bool.and_false, Bool.false_eq_true, if_false, getD_pendingOf, Base128.push?_lastDigit h,
    Base128.continues_lastDigit]

theorem readSubidentifiers_flatMap {ns : List Nat} (h : ∀ n ∈ ns, n < UInt64.size) :
    readSubidentifiers none (ns.flatMap Base128.encode) = .ok ns := by
  induction ns with
  | nil => simp [readSubidentifiers]
  | cons n ns ih =>
    rw [List.flatMap_cons, readSubidentifiers_encode (h n (by simp)),
      ih fun m member => h m (by simp [member])]
    rfl

/-- No sub-identifier that is read takes more than 64 bits. -/
theorem lt_of_readSubidentifiers {pending : Option Nat} {content : Bytes} {ns : List Nat}
    (h : readSubidentifiers pending content = .ok ns) : ∀ n ∈ ns, n < UInt64.size := by
  induction content generalizing pending ns with
  | nil =>
    simp only [readSubidentifiers] at h
    split at h
    · simp at h
    · cases h
      simp
  | cons octet content ih =>
    simp only [readSubidentifiers] at h
    split at h
    · simp at h
    · split at h
      · simp at h
      · rename_i m pushed
        split at h
        · exact ih h
        · obtain ⟨rest, read, rfl⟩ := Except.map_eq_ok.mp h
          simpa using ⟨Base128.lt_of_push? pushed, ih read⟩

/-- Content that is read after the digits of `n` holds the sub-identifiers in their written form. -/
theorem flatMap_of_readSubidentifiers {n : Nat} {content : Bytes} {ns : List Nat}
    (h : readSubidentifiers (pendingOf n) content = .ok ns) :
    ns.flatMap Base128.encode = Base128.leading n ++ content := by
  induction content generalizing n ns with
  | nil =>
    by_cases zero : n = 0
    · obtain rfl : [] = ns := by simpa [readSubidentifiers, pendingOf, zero] using h
      simp [zero, Base128.leading_zero]
    · simp [readSubidentifiers, pendingOf, zero] at h
  | cons octet content ih =>
    simp only [readSubidentifiers, getD_pendingOf] at h
    split at h
    · simp at h
    · rename_i unpadded
      split at h
      · simp at h
      · rename_i longer pushed
        obtain rfl := Base128.eq_of_push? pushed
        split at h
        · rename_i more
          -- A first digit of zero is refused, so a pending number is never zero.
          have some : n * 128 + octet.toNat % 128 ≠ 0 := by
            intro zero
            have high : 128 ≤ octet.toNat := by
              simpa [Base128.continues, UInt8.le_iff_toNat_le] using more
            have small := octet.toNat_lt
            have first : n = 0 := by omega
            have padding : octet = 0x80 := UInt8.toNat_inj.mp (by change _ = 128; omega)
            simp [pendingOf, first, padding] at unpadded
          rw [← pendingOf_pos some] at h
          rw [ih h, Base128.leading_push more some, List.append_assoc]
          rfl
        · rename_i last
          obtain ⟨later, read, rfl⟩ := Except.map_eq_ok.mp h
          have rest := ih (show readSubidentifiers (pendingOf 0) content = .ok later from read)
          rw [List.flatMap_cons, rest, Base128.encode_push (by simpa using last)]
          simp [Base128.leading_zero]

/-! ## The two arcs of the first sub-identifier -/

theorem head?_eq_some {first second head : Nat} (h : head? first second = some head) :
    head = first * 40 + second ∧ first ≤ 2 ∧ (first < 2 → second < 40) ∧ head < UInt64.size := by
  simp only [head?] at h
  split at h
  · simp at h
  · have sum := Option.some.inj h
    omega

theorem splitHead_head {first second head : Nat} (h : head? first second = some head) :
    splitHead head = [first, second] := by
  obtain ⟨rfl, low, small, -⟩ := head?_eq_some h
  have choices : first = 0 ∨ first = 1 ∨ first = 2 := by omega
  obtain rfl | rfl | rfl := choices
  · simp [splitHead, small (by decide)]
  · have below := small (by decide)
    simp only [splitHead, if_neg (show ¬1 * 40 + second < 40 by omega),
      if_pos (show 1 * 40 + second < 80 by omega), Nat.one_mul, Nat.add_sub_cancel_left]
  · simp only [splitHead, if_neg (show ¬2 * 40 + second < 40 by omega),
      if_neg (show ¬2 * 40 + second < 80 by omega), show 2 * 40 + second - 80 = second by omega]

/-- The two arcs of a sub-identifier are packed into it again. -/
theorem head?_splitHead {head : Nat} (h : head < UInt64.size) :
    ∃ first second, splitHead head = [first, second] ∧ head? first second = some head ∧
      first < UInt64.size ∧ second < UInt64.size := by
  have size : 80 < UInt64.size := by decide
  have packed (first second : Nat) (sum : first * 40 + second = head) (low : first ≤ 2)
      (small : first < 2 → second < 40) : head? first second = some head := by
    rw [head?, if_neg (by omega), sum]
  unfold splitHead
  split_ifs with zero one
  · exact ⟨0, head, rfl, packed _ _ (by omega) (by omega) (by omega), by omega, h⟩
  · exact ⟨1, head - 40, rfl, packed _ _ (by omega) (by omega) (by omega), by omega, by omega⟩
  · exact ⟨2, head - 80, rfl, packed _ _ (by omega) (by omega) (by omega), by omega, by omega⟩

/-! ## Whole identifiers -/

theorem encode_eq_ok {oid : Oid} {content : Bytes} (h : oid.encode = .ok content) :
    ∃ first second rest head, oid.arcs = first :: second :: rest ∧
      head? first.toNat second.toNat = some head ∧
      content = (head :: rest.map UInt64.toNat).flatMap Base128.encode := by
  simp only [encode] at h
  split at h
  · rename_i first second rest arcs
    split at h
    · rename_i head found
      exact ⟨first, second, rest, head, arcs, found, (Except.ok.inj h).symm⟩
    · simp at h
  · simp at h

theorem exists_encode {oid : Oid} (h : oid.IsEncodable) : ∃ content, oid.encode = .ok content := by
  obtain ⟨arcs⟩ := oid
  match arcs, h with
  | first :: second :: rest, ⟨low, small, large⟩ =>
    have allowed : ¬(2 < first.toNat ∨ (first.toNat < 2 ∧ 40 ≤ second.toNat) ∨
        UInt64.size ≤ first.toNat * 40 + second.toNat) := by
      have size : 80 < UInt64.size := by decide
      omega
    simp only [encode, head?, if_neg allowed]
    exact ⟨_, rfl⟩

theorem decode_of_encode {oid : Oid} {content : Bytes} (h : oid.encode = .ok content) :
    decode content = .ok oid := by
  obtain ⟨first, second, rest, head, arcs, found, rfl⟩ := encode_eq_ok h
  have small : ∀ n ∈ head :: rest.map UInt64.toNat, n < UInt64.size := by
    simpa using ⟨(head?_eq_some found).2.2.2, fun arc _ => arc.toNat_lt⟩
  rw [decode, readSubidentifiers_flatMap small]
  simp only [Except.ok_bind, splitHead_head found]
  obtain ⟨oidArcs⟩ := oid
  simp only at arcs
  simp [arcs, Function.comp_def]

/-- An identifier that was read is written as the content that it was read from. -/
theorem encode_of_decode {oid : Oid} {content : Bytes} (h : decode content = .ok oid) :
    oid.encode = .ok content := by
  obtain ⟨ns, read, split⟩ := Except.bind_eq_ok.mp h
  match ns with
  | [] => simp at split
  | head :: rest =>
    have small := lt_of_readSubidentifiers read
    obtain ⟨first, second, arcs, packed, firstBound, secondBound⟩ :=
      head?_splitHead (small head (by simp))
    have octets (n : Nat) (bound : n < UInt64.size) : (UInt64.ofNat n).toNat = n :=
      UInt64.toNat_ofNat_of_lt' bound
    have others : (rest.map UInt64.ofNat).map UInt64.toNat = rest := by
      rw [List.map_map]
      exact (List.map_congr_left fun n member =>
        octets n (small n (List.mem_cons_of_mem _ member))).trans (List.map_id rest)
    have written := flatMap_of_readSubidentifiers
      (show readSubidentifiers (pendingOf 0) content = .ok (head :: rest) from read)
    obtain rfl := Except.ok.inj split
    simp only [arcs, List.cons_append, List.nil_append, List.map_cons, encode,
      octets _ firstBound, octets _ secondBound, packed, others, written, Base128.leading_zero]

theorem isEncodable_of_decode {oid : Oid} {content : Bytes} (h : decode content = .ok oid) :
    oid.IsEncodable := by
  obtain ⟨first, second, rest, head, arcs, found, -⟩ := encode_eq_ok (encode_of_decode h)
  obtain ⟨rfl, low, small, bound⟩ := head?_eq_some found
  simp only [IsEncodable, arcs]
  exact ⟨low, small, by omega⟩

/-! ## Which octets are content -/

/-- A sub-identifier as it must stand in content: it ends where its only octet without the high bit
is, it has no idle zero in front, and its number fits in 64 bits. -/
structure IsSubidentifier (octets : Bytes) : Prop where
  complete : ∃ leading last, octets = leading ++ [last] ∧
    (∀ octet ∈ leading, Base128.continues octet = true) ∧ Base128.continues last = false
  unpadded : octets.head? ≠ some 0x80
  fits : Base128.value octets < UInt64.size

/-- Such octets are what is written for their number. -/
theorem IsSubidentifier.encode_value {octets : Bytes} (h : IsSubidentifier octets) :
    Base128.encode (Base128.value octets) = octets := by
  obtain ⟨leading, last, rfl, more, ends⟩ := h.complete
  have unpadded : leading.head? ≠ some 0x80 := by
    intro padded
    exact h.unpadded (by rw [List.head?_append, padded, Option.some_or])
  rw [Base128.value_concat, Base128.encode_push ends, Base128.leading_value more unpadded]

theorem isSubidentifier_encode {n : Nat} (h : n < UInt64.size) :
    IsSubidentifier (Base128.encode n) where
  complete := ⟨_, _, rfl, fun _ => Base128.continues_of_mem_leading,
    Base128.continues_lastDigit n⟩
  unpadded := by
    intro padded
    rw [Base128.encode, List.head?_append] at padded
    cases front : (Base128.leading (n / 128)).head? with
    | none =>
      have last : UInt8.ofNat (n % 128) = 0x80 := by simpa [front] using padded
      have octet := congrArg UInt8.toNat last
      rw [Base128.toNat_lastDigit] at octet
      change n % 128 = 128 at octet
      omega
    | some digit =>
      rw [front, Option.some_or] at padded
      exact Base128.head?_leading (n / 128) (front.trans padded)
  fits := by rwa [Base128.value_encode]

/-- Content is one sub-identifier or more, and nothing else. -/
theorem exists_decode_iff {content : Bytes} : (∃ oid, decode content = .ok oid) ↔
    ∃ parts : List Bytes, parts ≠ [] ∧ (∀ part ∈ parts, IsSubidentifier part) ∧
      content = parts.flatten := by
  constructor
  · rintro ⟨oid, read⟩
    obtain ⟨first, second, rest, head, -, found, rfl⟩ := encode_eq_ok (encode_of_decode read)
    refine ⟨(head :: rest.map UInt64.toNat).map Base128.encode, by simp, ?_, rfl⟩
    simp only [List.forall_mem_map, List.forall_mem_cons]
    exact ⟨isSubidentifier_encode (head?_eq_some found).2.2.2,
      fun arc _ => isSubidentifier_encode arc.toNat_lt⟩
  · rintro ⟨parts, some, each, rfl⟩
    have written : parts.flatten = (parts.map Base128.value).flatMap Base128.encode := by
      rw [List.flatMap_map, ← List.flatMap_id]
      exact List.flatMap_congr fun part member => (each part member).encode_value.symm
    have small : ∀ n ∈ parts.map Base128.value, n < UInt64.size := by
      simpa only [List.forall_mem_map] using fun part member => (each part member).fits
    obtain ⟨part, others, rfl⟩ := List.exists_cons_of_ne_nil some
    rw [decode, written, readSubidentifiers_flatMap small]
    exact ⟨_, rfl⟩

/-- The content of object identifiers and those that can be encoded correspond one to one: an
identifier is read from exactly the content that it is written as. Content is nothing but complete,
unpadded sub-identifiers of at most 64 bits, and no two contents stand for the same identifier. -/
theorem decode_iff_encode :
    (∀ oid : Oid, (∃ content, oid.encode = .ok content) ↔ oid.IsEncodable) ∧
    (∀ (content : Bytes) (oid : Oid), decode content = .ok oid ↔ oid.encode = .ok content) ∧
    (∀ content : Bytes, (∃ oid, decode content = .ok oid) ↔
      ∃ parts : List Bytes, parts ≠ [] ∧ (∀ part ∈ parts, IsSubidentifier part) ∧
        content = parts.flatten) ∧
    ∀ (content content' : Bytes) (oid : Oid),
      decode content = .ok oid → decode content' = .ok oid → content = content' := by
  refine ⟨fun oid => ⟨?_, exists_encode⟩, fun content oid => ⟨encode_of_decode, decode_of_encode⟩,
    fun content => exists_decode_iff, ?_⟩
  · rintro ⟨content, written⟩
    exact isEncodable_of_decode (decode_of_encode written)
  · intro content content' oid read read'
    exact Except.ok.inj ((encode_of_decode read).symm.trans (encode_of_decode read'))

/-- The identifier 2.999.3 has one content, of three octets. -/
theorem decode_iff_encode_secondArc :
    decode [0x88, 0x37, 0x03] = .ok ⟨[2, 999, 3]⟩ ∧
      ∀ content, decode content = .ok ⟨[2, 999, 3]⟩ → content = [0x88, 0x37, 0x03] := by
  obtain ⟨-, -, -, unique⟩ := decode_iff_encode
  have read : decode [0x88, 0x37, 0x03] = .ok ⟨[2, 999, 3]⟩ :=
    Except.toOption_eq_some.mp (by decide +kernel)
  exact ⟨read, fun content same => unique _ _ _ same read⟩

end DerCodec.Oid
