import DerCodec.Proofs.Framing

/-!
# Where an element ends

An element tells its own end. `Spells` says that some octets are read as a value whatever follows
them, and that what is left of them after a cut is reported as too short. Readers one after the
other are spelled by octets one after the other, so the law of elements is put together from those
of tags, lengths and content. A run of elements is then read in the same way before any octets, and
the reader goes on after it as it would at a start.
-/

namespace DerCodec

/-- The input ended before the value did. -/
def FramingError.IsShortage : FramingError → Prop
  | .endOfInput => True
  | .truncated .. => True
  | _ => False

/-- A reader of the value at the front of its input. -/
abbrev FrontReader (α : Type) := Bytes → Except FramingError (α × Bytes)

/-- The octets are all that the reader takes for the value, and it misses any that are cut off. -/
structure Spells {α : Type} (read : FrontReader α) (value : α) (used : Bytes) : Prop where
  whole (rest : Bytes) : read (used ++ rest) = .ok (value, rest)
  cut (k : Nat) (short : k < used.length) :
    ∃ e, read (used.take k) = .error e ∧ e.IsShortage

namespace Spells

variable {α β : Type} {read : FrontReader α} {value : α} {used : Bytes}

/-- A reader that takes nothing. -/
theorem nothing (value : α) : Spells (fun rest => .ok (value, rest)) value [] where
  whole _ := rfl
  cut _ short := absurd short (Nat.not_lt_zero _)

/-- The first octet decides how to read on. -/
theorem cons {first : UInt8} {next : FrontReader α} (empty : read [] = .error .endOfInput)
    (step : ∀ rest, read (first :: rest) = next rest) (h : Spells next value used) :
    Spells read value (first :: used) where
  whole rest := by rw [List.cons_append, step, h.whole]
  cut k short := by
    cases k with
    | zero => exact ⟨_, empty, trivial⟩
    | succ k =>
      obtain ⟨e, failed, shortage⟩ := h.cut k (Nat.lt_of_succ_lt_succ short)
      exact ⟨e, by rw [List.take_succ_cons, step, failed], shortage⟩

/-- A reader of as many octets as there are in `used`. -/
theorem counted (f : Bytes → α) (used : Bytes) :
    Spells (fun bytes => if bytes.length < used.length
        then .error (.truncated used.length bytes.length)
        else .ok (f (bytes.take used.length), bytes.drop used.length)) (f used) used where
  whole rest := by simp
  cut k short := by
    have fewer : (used.take k).length < used.length := by simpa using short
    exact ⟨_, if_pos fewer, trivial⟩

theorem map (h : Spells read value used) (f : α → β) :
    Spells (fun bytes => read bytes >>= fun taken => .ok (f taken.1, taken.2)) (f value) used where
  whole rest := by rw [h.whole, Except.ok_bind]
  cut k short := by
    obtain ⟨e, failed, shortage⟩ := h.cut k short
    exact ⟨e, by rw [failed, Except.error_bind], shortage⟩

/-- A second reader goes on where the first one ends. -/
theorem bind {result : β} {used' : Bytes} (h : Spells read value used) (next : α → FrontReader β)
    (h' : Spells (next value) result used') :
    Spells (fun bytes => read bytes >>= fun taken => next taken.1 taken.2) result
      (used ++ used') where
  whole rest := by rw [List.append_assoc, h.whole, Except.ok_bind, h'.whole]
  cut k short := by
    by_cases early : k < used.length
    · obtain ⟨e, failed, shortage⟩ := h.cut k early
      refine ⟨e, ?_, shortage⟩
      rw [List.take_append_of_le_length (Nat.le_of_lt early), failed, Except.error_bind]
    · have late : k - used.length < used'.length := by
        rw [List.length_append] at short
        omega
      obtain ⟨e, failed, shortage⟩ := h'.cut _ late
      refine ⟨e, ?_, shortage⟩
      rw [List.take_append, List.take_of_length_le (Nat.not_lt.mp early), h.whole,
        Except.ok_bind, failed]

end Spells

/-! ## Tags -/

namespace Tag

theorem exists_spells_readNumber {n number : Nat} {bytes rest : Bytes}
    (h : readNumber n bytes = .ok (number, rest)) :
    ∃ used, bytes = used ++ rest ∧ Spells (readNumber n) number used := by
  induction bytes generalizing n with
  | nil => simp [readNumber] at h
  | cons octet tail ih =>
    obtain ⟨longer, pushed, ⟨more, later⟩ | ⟨last, rfl, rfl⟩⟩ := readNumber_cons_eq_ok.mp h
    · obtain ⟨used, rfl, spells⟩ := ih later
      have step (rest : Bytes) : readNumber n (octet :: rest) = readNumber longer rest := by
        simp only [readNumber, pushed, more, if_true]
      exact ⟨octet :: used, rfl, spells.cons rfl step⟩
    · have step (rest : Bytes) : readNumber n (octet :: rest) = .ok (longer, rest) := by
        simp only [readNumber, pushed, last, Bool.false_eq_true, if_false]
      exact ⟨[octet], rfl, (Spells.nothing longer).cons rfl step⟩

theorem exists_spells_read {tag : Tag} {bytes rest : Bytes} (h : read bytes = .ok (tag, rest)) :
    ∃ used, bytes = used ++ rest ∧ Spells read tag used := by
  cases bytes with
  | nil => simp [read] at h
  | cons first tail =>
    by_cases short : first % 32 < 31
    · have step (rest : Bytes) : read (first :: rest) =
          .ok (⟨TagClass.ofOctet first, first / 32 % 2 == 1, (first % 32).toUInt32⟩, rest) := by
        simp only [read, if_pos short]
      rw [step] at h
      obtain ⟨rfl, rfl⟩ := Prod.mk.inj (Except.ok.inj h)
      exact ⟨[first], rfl, (Spells.nothing _).cons rfl step⟩
    · have step (rest : Bytes) : read (first :: rest) = readNumber 0 rest >>= fun taken =>
          .ok (⟨TagClass.ofOctet first, first / 32 % 2 == 1, UInt32.ofNat taken.1⟩, taken.2) := by
        simp only [read, if_neg short]
        rfl
      rw [step] at h
      obtain ⟨⟨number, left⟩, found, same⟩ := Except.bind_eq_ok.mp h
      obtain ⟨rfl, rfl⟩ := Prod.mk.inj (Except.ok.inj same)
      obtain ⟨used, rfl, spells⟩ := exists_spells_readNumber found
      have spellsTag := spells.map fun number =>
        Tag.mk (TagClass.ofOctet first) (first / 32 % 2 == 1) (UInt32.ofNat number)
      exact ⟨first :: used, rfl, spellsTag.cons rfl step⟩

end Tag

/-! ## Lengths -/

theorem Length.exists_spells_read {n : Nat} {bytes rest : Bytes} (h : read bytes = .ok (n, rest)) :
    ∃ used, bytes = used ++ rest ∧ Spells read n used := by
  obtain ⟨first, rfl, small, rfl⟩ | ⟨first, octets, rfl, count, some, few, rfl⟩ := cases_of_read h
  · have short : first < 128 := UInt8.lt_iff_toNat_lt.mpr small
    have step (rest : Bytes) : read (first :: rest) = .ok (first.toNat, rest) := by
      simp only [read, if_pos short]
    exact ⟨[first], rfl, (Spells.nothing _).cons rfl step⟩
  · have long : ¬first < 128 := by
      rw [UInt8.lt_iff_toNat_lt, count]
      exact Nat.not_lt.mpr (Nat.le_add_right 128 _)
    have counted : first.toNat - 128 = octets.length := by omega
    have step (rest : Bytes) : read (first :: rest) =
        if rest.length < octets.length then .error (.truncated octets.length rest.length)
        else .ok (BigEndian.value (rest.take octets.length), rest.drop octets.length) := by
      simp only [read, if_neg long, counted, if_neg (Nat.ne_of_gt some),
        if_neg (Nat.not_lt.mpr few)]
    exact ⟨first :: octets, rfl, (Spells.counted BigEndian.value octets).cons rfl step⟩

/-! ## Elements -/

namespace Tlv

/-- As many octets as the length says are the content. -/
def readContent (tag : Tag) (length : Nat) : FrontReader Tlv := fun bytes =>
  if bytes.length < length then .error (.truncated length bytes.length)
  else .ok (⟨tag, bytes.take length⟩, bytes.drop length)

theorem read_eq (bytes : Bytes) :
    read bytes = Tag.read bytes >>= fun tagged =>
      Length.read tagged.2 >>= fun sized => readContent tagged.1 sized.1 sized.2 := rfl

theorem exists_spells_read {tlv : Tlv} {bytes rest : Bytes} (h : read bytes = .ok (tlv, rest)) :
    ∃ used, bytes = used ++ rest ∧ Spells read tlv used := by
  rw [read_eq] at h
  obtain ⟨⟨tag, afterTag⟩, readTag, inner⟩ := Except.bind_eq_ok.mp h
  obtain ⟨⟨length, afterLength⟩, readLength, content⟩ := Except.bind_eq_ok.mp inner
  obtain ⟨tagOctets, rfl, spellsTag⟩ := Tag.exists_spells_read readTag
  obtain ⟨lengthOctets, rfl, spellsLength⟩ := Length.exists_spells_read readLength
  simp only [readContent] at content
  split_ifs at content with enough
  obtain ⟨rfl, rfl⟩ := Prod.mk.inj (Except.ok.inj content)
  have count : (afterLength.take length).length = length :=
    List.length_take_of_le (Nat.not_lt.mp enough)
  have spellsContent := Spells.counted (Tlv.mk tag) (afterLength.take length)
  rw [count] at spellsContent
  refine ⟨tagOctets ++ (lengthOctets ++ afterLength.take length), by simp, ?_⟩
  exact spellsTag.bind (fun tag rest => Length.read rest >>= fun sized =>
    readContent tag sized.1 sized.2) (spellsLength.bind (readContent tag) spellsContent)

/-- The reader of one element takes the octets that spell it. -/
theorem decodeFront_of_spells {tlv : Tlv} {used : Bytes} (h : Spells read tlv used)
    (rest : Bytes) : decodeFront (used ++ rest) = .ok (tlv, used.length) := by
  simp [decodeFront, h.whole]

theorem exists_spells_decodeFront {tlv : Tlv} {n : Nat} {bytes : Bytes}
    (h : decodeFront bytes = .ok (tlv, n)) :
    ∃ used rest, bytes = used ++ rest ∧ n = used.length ∧ Spells read tlv used := by
  obtain ⟨⟨found, rest⟩, taken, same⟩ := Except.bind_eq_ok.mp h
  obtain ⟨used, rfl, spells⟩ := exists_spells_read taken
  obtain ⟨rfl, rfl⟩ := Prod.mk.inj (Except.ok.inj same)
  exact ⟨used, rest, rfl, by simp, spells⟩

theorem length_encode (tlv : Tlv) : tlv.encode.length = tlv.encodedLength := by
  simp [encode, encodedLength, Nat.add_assoc]

/-- An element is read back from what it is written as, whatever follows. An element that was read
ends where its octets say: the same octets are read in the same way before any others, and fewer of
them are too few. -/
theorem decodeFront_selfDelimiting :
    (∀ (tlv : Tlv) (rest : Bytes), tlv.Countable →
      decodeFront (tlv.encode ++ rest) = .ok (tlv, tlv.encodedLength) ∧
        tlv.encodedLength = tlv.encode.length) ∧
    ∀ (bytes : Bytes) (tlv : Tlv) (n : Nat), decodeFront bytes = .ok (tlv, n) →
      n ≤ bytes.length ∧
      (∀ longer, bytes.take n <+: longer → decodeFront longer = .ok (tlv, n)) ∧
      ∀ k < n, ∃ e, decodeFront (bytes.take k) = .error e ∧ e.IsShortage := by
  constructor
  · intro tlv rest countable
    refine ⟨?_, tlv.length_encode.symm⟩
    simp [decodeFront, read_encode countable, length_encode]
  · intro bytes tlv n h
    obtain ⟨used, rest, rfl, rfl, spells⟩ := exists_spells_decodeFront h
    refine ⟨by simp, ?_, ?_⟩
    · rw [List.take_left]
      rintro longer ⟨more, rfl⟩
      exact decodeFront_of_spells spells more
    · intro k short
      obtain ⟨e, failed, shortage⟩ := spells.cut k short
      refine ⟨e, ?_, shortage⟩
      rw [List.take_append_of_le_length (Nat.le_of_lt short), decodeFront, failed,
        Except.error_bind]

/-- The largest tag before a stray octet, and an element with a padded tag number and a padded
length: it ends after seven octets, and five are too few. -/
theorem decodeFront_largeTag_and_padded :
    decodeFront ((⟨⟨.privateUse, true, 4294967295⟩, [0xaa]⟩ : Tlv).encode ++ [0xff]) =
        .ok (⟨⟨.privateUse, true, 4294967295⟩, [0xaa]⟩, 8) ∧
      decodeFront [0x9f, 0x80, 0x02, 0x82, 0x00, 0x01, 0xaa, 0xff] =
        .ok (⟨.context 2, [0xaa]⟩, 7) ∧
      decodeFront [0x9f, 0x80, 0x02, 0x82, 0x00, 0x01, 0xaa, 0x30, 0x80] =
        .ok (⟨.context 2, [0xaa]⟩, 7) ∧
      ∃ e, decodeFront [0x9f, 0x80, 0x02, 0x82, 0x00] = .error e ∧ e.IsShortage := by
  obtain ⟨written, read⟩ := decodeFront_selfDelimiting
  have padded : decodeFront [0x9f, 0x80, 0x02, 0x82, 0x00, 0x01, 0xaa, 0xff] =
      .ok (⟨.context 2, [0xaa]⟩, 7) := by rfl
  obtain ⟨-, extended, cut⟩ := read _ _ _ padded
  have countable : (⟨⟨.privateUse, true, 4294967295⟩, [0xaa]⟩ : Tlv).Countable :=
    (by decide : 1 < UInt64.size)
  have large := (written _ [0xff] countable).1
  have eight : (⟨⟨.privateUse, true, 4294967295⟩, [0xaa]⟩ : Tlv).encodedLength = 8 := by
    decide +kernel
  rw [eight] at large
  exact ⟨large, padded, extended _ ⟨[0x30, 0x80], rfl⟩, cut 5 (by decide)⟩

/-! ## Runs of elements -/

/-- One step of a run: its first element, and then the run without it. -/
theorem decodeAll_of_spells {tlv : Tlv} {used : Bytes} (h : Spells read tlv used) (rest : Bytes) :
    decodeAll (used ++ rest) = (decodeAll rest).map (tlv :: ·) := by
  have first := h.whole rest
  have some : used ++ rest ≠ [] := by
    intro nil
    have shorter := read_length first
    rw [nil] at shorter
    exact absurd shorter (Nat.not_lt_zero _)
  rw [decodeAll, if_neg (by simpa using some)]
  split
  · rename_i failed
    exact nomatch first.symm.trans failed
  · rename_i found
    obtain ⟨rfl, rfl⟩ := Prod.mk.inj (Except.ok.inj (first.symm.trans found))
    rfl

/-- A whole run in front of any octets: its elements, and then what is read in those octets. -/
theorem decodeAll_append {front : Bytes} {tlvs : List Tlv} (h : decodeAll front = .ok tlvs)
    (back : Bytes) : decodeAll (front ++ back) = (decodeAll back).map (tlvs ++ ·) := by
  fun_induction decodeAll front generalizing tlvs with
  | case1 front empty =>
    obtain rfl := Except.ok.inj h
    obtain rfl := List.isEmpty_iff.mp empty
    rw [List.nil_append]
    cases decodeAll back <;> rfl
  | case2 => simp at h
  | case3 front _ tlv rest found shorter ih =>
    obtain ⟨others, later, rfl⟩ := Except.map_eq_ok.mp h
    obtain ⟨used, rfl, spells⟩ := exists_spells_read found
    rw [List.append_assoc, decodeAll_of_spells spells, ih later]
    cases decodeAll back <;> rfl

/-- A run and any octets after it are read as the elements of the run and then as those octets are
read on their own: the elements found there follow, or the very same cause is given. Elements that
are written one after the other are read back as they were, at the top and inside of any tag. -/
theorem decodeAll_concatenated :
    (∀ (front back : Bytes) (tlvs : List Tlv), decodeAll front = .ok tlvs →
      (∀ found, decodeAll back = .ok found → decodeAll (front ++ back) = .ok (tlvs ++ found)) ∧
      ∀ e, decodeAll back = .error e → decodeAll (front ++ back) = .error e) ∧
    ∀ tlvs : List Tlv, (∀ tlv ∈ tlvs, tlv.Countable) →
      decodeAll (encodeAll tlvs) = .ok tlvs ∧
        ∀ tag, (constructed tag tlvs).children = .ok tlvs := by
  constructor
  · intro front back tlvs h
    have joined := decodeAll_append h back
    constructor
    · intro found later
      rw [joined, later, Except.map]
    · intro e failed
      rw [joined, failed, Except.map]
  · intro tlvs countable
    have whole := decodeAll_encodeAll countable
    refine ⟨whole, fun tag => ?_⟩
    rw [children, constructed, Tag.withConstructed, if_pos rfl, whole]

/-- A run with a padded element before a NULL, and before an element that is cut off: how many
octets that one misses is counted in it alone. Two elements under a primitive tag, which becomes
constructed. -/
theorem decodeAll_concatenated_padded :
    decodeAll [0x9f, 0x80, 0x02, 0x82, 0x00, 0x01, 0xaa, 0x05, 0x00] =
        .ok [⟨.context 2, [0xaa]⟩, ⟨.universal 5 false, []⟩] ∧
      decodeAll [0x9f, 0x80, 0x02, 0x82, 0x00, 0x01, 0xaa, 0x04, 0x05, 0x00] =
        .error (.truncated 5 1) ∧
      (constructed (.context 0) [⟨.context 2, [0xaa]⟩, ⟨.universal 5 false, []⟩]).children =
        .ok [⟨.context 2, [0xaa]⟩, ⟨.universal 5 false, []⟩] := by
  obtain ⟨joined, written⟩ := decodeAll_concatenated
  have padded : decodeAll [0x9f, 0x80, 0x02, 0x82, 0x00, 0x01, 0xaa] =
      .ok [⟨.context 2, [0xaa]⟩] := Except.toOption_eq_some.mp (by decide +kernel)
  have null : decodeAll [0x05, 0x00] = .ok [⟨.universal 5 false, []⟩] :=
    Except.toOption_eq_some.mp (by decide +kernel)
  have cut : decodeAll [0x04, 0x05, 0x00] = .error (.truncated 5 1) := by
    rw [decodeAll]
    rfl
  have countable : ∀ tlv ∈ [Tlv.mk (.context 2) [0xaa], ⟨.universal 5 false, []⟩],
      tlv.Countable := by
    simp [Countable]
  exact ⟨(joined _ _ _ padded).1 _ null, (joined _ _ _ padded).2 _ cut, (written _ countable).2 _⟩

end Tlv

end DerCodec
