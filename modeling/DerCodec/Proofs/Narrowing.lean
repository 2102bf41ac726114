import DerCodec.ExtendedValue.ConfigurationType
import DerCodec.Proofs.ExtensionReading
import DerCodec.Proofs.IntegerContent
import DerCodec.Proofs.TbsCertificate

/-!
# Small numbers from integers of any size

Three fields hold an integer of any size and keep a small number of it: the version of a
certificate, the path length of its basic constraints, and a configuration type. Each accepts the
numbers that it can keep and no other integer. So octets of the sign in front make no difference,
and no integer is accepted for what it is in a machine word.
-/

namespace DerCodec

/-- A number that fits a word of 32 bits is the same number in it. -/
theorem Integer.toNat_of_narrow? {n k : Int} (h : narrow? .unsigned32 n = some k) :
    n = k ∧ ((UInt32.ofNat k.toNat).toNat : Int) = k := by
  obtain ⟨rfl, low, high⟩ := narrow?_eq_some.mp h
  change 0 ≤ n at low
  change n < 4294967296 at high
  have small : n.toNat < UInt32.size := by
    change n.toNat < 4294967296
    omega
  rw [UInt32.toNat_ofNat_of_lt' small, Int.toNat_of_nonneg low]
  exact ⟨rfl, rfl⟩

theorem Element.ofTlvWithin_of_decode {levels : Nat} {type : Primitive} {content : Bytes}
    {value : type.Value} (h : type.decode content = .ok value) :
    ofTlvWithin (levels + 1) ⟨type.tag, content⟩ = .ok (.primitive type value) := by
  rw [ofTlvWithin_primitive, h]
  rfl

/-! ## Versions -/

namespace TbsCertificate

theorem versionElement_eq_iff {n : Int} {version : Version} :
    .explicit 0 (.primitive .integer n) = versionElement version ↔ n = version.number := by
  simp [versionElement, Element.explicit]

/-- An element under the tag of the version is the version, and the others fill the other slots as
they would behind any version. -/
theorem fieldsOfElement_versioned {wrapped : Element} (versioned : wrapped.tag = versionTag)
    {others : List Element} {fields : Fields} :
    fieldsOfElement (.sequence (wrapped :: others)) = .ok fields ↔ ∃ required rest optional,
      others = required ++ rest ∧
      List.Forall₂ Field.Fits schema.positional (some wrapped :: required.map some) ∧
      rest.foldlM schema.place schema.emptySlots = .ok optional ∧
      fields = ⟨schema, some wrapped :: required.map some, optional⟩ := by
  rw [fieldsOfElement_eq_ok]
  constructor
  · rintro ⟨version, required, rest, optional, same, fits, placed, rfl⟩
    cases version with
    | some first =>
      obtain ⟨rfl, rfl⟩ := List.cons.inj (Element.sequence.inj same)
      exact ⟨required, rest, optional, rfl, fits, placed, rfl⟩
    | none =>
      -- Without a version the serial number is first, and that has another tag.
      obtain ⟨-, others'⟩ := List.forall₂_cons.mp fits
      cases List.forall₂_map_right_iff.mp others' with
      | @cons _ serial _ _ serialTag _ =>
        obtain ⟨rfl, -⟩ := List.cons.inj (Element.sequence.inj same)
        have number : Primitive.integer.tag = wrapped.tag := beq_iff_eq.mp serialTag
        exact absurd (number.trans versioned) (by decide)
  · rintro ⟨required, rest, optional, rfl, fits, placed, rfl⟩
    exact ⟨some wrapped, required, rest, optional, rfl, fits, placed, rfl⟩

/-- The version takes no part in how the others are read. -/
theorem ofElement_replaceVersion {policy : ExtensionPolicy} {wrapped : Element}
    (versioned : wrapped.tag = versionTag) {others : List Element} {tbs : TbsCertificate}
    (h : (ofElement policy (.sequence (wrapped :: others))).result = .ok tbs) :
    wrapped = versionElement tbs.version ∧ ∀ version,
      (ofElement policy (.sequence (versionElement version :: others))).result =
        .ok { tbs with version } := by
  obtain ⟨fields, key, read, names, rest⟩ := ofElement_eq_ok_steps.mp h
  obtain ⟨required, after, optional, rfl, fits, placed, rfl⟩ :=
    (fieldsOfElement_versioned versioned).mp read
  obtain ⟨first, fitsOthers⟩ := List.forall₂_cons.mp fits
  obtain ⟨⟨written, slot, default⟩, canonical, same⟩ :=
    (versionAndNames_eq_ok (length_required fits)).mp names
  obtain ⟨found, rfl, filled⟩ := Option.map_eq_some_iff.mp slot.symm
  refine ⟨?_, fun version => ofElement_eq_ok_steps.mpr ?_⟩
  · rw [← filled, ← default, Option.getD_some]
  · have fits' : List.Forall₂ Field.Fits schema.positional
        (some (versionElement version) :: required.map some) := .cons rfl fitsOthers
    exact ⟨_, key, (fieldsOfElement_versioned rfl).mpr ⟨required, after, optional, rfl, fits',
      placed, rfl⟩, (versionAndNames_eq_ok (length_required fits')).mpr
        ⟨⟨some version, rfl, rfl⟩, canonical, same⟩, rest⟩

/-- A signed part is read with an integer as its version when it is read with version 1 there and
the integer is the number of a version. -/
theorem ofElement_versioned_eq_ok {policy : ExtensionPolicy} {n : Int} {others : List Element}
    {tbs : TbsCertificate} :
    (ofElement policy (.sequence (.explicit 0 (.primitive .integer n) :: others))).result =
        .ok tbs ↔
      n = tbs.version.number ∧
        (ofElement policy (.sequence (.explicit 0 (.primitive .integer 0) :: others))).result =
          .ok { tbs with version := .v1 } := by
  constructor
  · intro h
    obtain ⟨own, replaced⟩ := ofElement_replaceVersion rfl h
    exact ⟨versionElement_eq_iff.mp own, replaced .v1⟩
  · rintro ⟨rfl, h⟩
    obtain ⟨-, replaced⟩ := ofElement_replaceVersion rfl h
    exact replaced tbs.version

end TbsCertificate

/-! ## Path lengths -/

namespace BasicConstraints

theorem pathLengthOfElement_eq_ok {element : Element} {length : UInt32} :
    pathLengthOfElement element = .ok length ↔ element = pathLengthElement length := by
  constructor
  · intro h
    obtain ⟨n, read, rest⟩ := Except.bind_eq_ok.mp h
    obtain rfl := Element.value_eq_ok.mp (Except.mapError_eq_ok.mp read)
    split at rest
    · rename_i narrowed
      obtain rfl := Except.ok.inj rest
      obtain ⟨rfl, kept⟩ := Integer.toNat_of_narrow? narrowed
      rw [pathLengthElement, kept]
    · simp at rest
  · rintro rfl
    exact pathLengthOfElement_pathLengthElement length

theorem pathLengthElement_eq_iff {n : Int} {length : UInt32} :
    .primitive .integer n = pathLengthElement length ↔ n = length.toNat := by
  simp [pathLengthElement]

/-- The constraints have the length that their integer is, whether or not a flag comes first. -/
theorem ofElement_limited_eq_ok {flag : Option Bool} {n : Int} {constraints : BasicConstraints} :
    ofElement (.sequence ((flag.map (.primitive .boolean)).toList ++ [.primitive .integer n])) =
        .ok constraints ↔
      constraints.isAuthority = flag.getD false ∧
        ∃ length, constraints.pathLength = some length ∧ n = length.toNat := by
  have fields : schema.decode
      ((flag.map (.primitive .boolean)).toList ++ [.primitive .integer n]) =
        .ok ⟨schema, [flag.map (.primitive .boolean), some (.primitive .integer n)], []⟩ := by
    cases flag <;> rfl
  have readFlag : (flag.map (.primitive .boolean)).mapM (Element.value .boolean) = .ok flag := by
    cases flag <;> rfl
  simp only [ofElement, Element.asSequence, Except.ok_mapError, Except.ok_bind, fields,
    Fields.positional?, List.getElem?_cons_zero, List.getElem?_cons_succ, Option.join_some,
    readFlag, Except.bind_eq_ok, Except.option_mapM_eq_ok, pathLengthOfElement_eq_ok]
  constructor
  · rintro ⟨_, ⟨⟨⟩, -⟩ | ⟨_, length, ⟨⟩, rfl, same⟩, read⟩
    obtain rfl := Except.ok.inj read
    exact ⟨rfl, length, rfl, pathLengthElement_eq_iff.mp same⟩
  · obtain ⟨isAuthority, pathLength⟩ := constraints
    rintro ⟨rfl, length, rfl, same⟩
    exact ⟨_, .inr ⟨_, length, rfl, rfl, pathLengthElement_eq_iff.mpr same⟩, rfl⟩

end BasicConstraints

/-! ## Configuration types -/

namespace ConfigurationType

theorem ofNumber?_eq_some {n : Int} {type : ConfigurationType} :
    ofNumber? n = some type ↔ n = type.number := by
  constructor
  · intro h
    have found := List.find?_some h
    exact (beq_iff_eq.mp found).symm
  · rintro rfl
    cases type <;> rfl

/-- The numbers of types are far within the range that is tried first. -/
theorem narrow?_bind_ofNumber?_eq_some {n : Int} {type : ConfigurationType} :
    (Integer.narrow? .signed32 n).bind ofNumber? = some type ↔ n = type.number := by
  simp only [Option.bind_eq_some_iff, Integer.narrow?_eq_some, ofNumber?_eq_some]
  constructor
  · rintro ⟨k, ⟨rfl, -⟩, same⟩
    exact same
  · rintro rfl
    exact ⟨_, ⟨rfl, by cases type <;> decide⟩, rfl⟩

theorem ofElement_eq_ok {n : Int} {type : ConfigurationType} :
    ofElement (.primitive .enumerated n) = .ok type ↔ n = type.number := by
  have sound : (Element.primitive .enumerated n).Sound := trivial
  have read : (Element.primitive .enumerated n).asPrimitive .enumerated = .ok n :=
    (Element.asPrimitive_eq_ok sound).mpr rfl
  rw [ofElement, read, Except.ok_mapError, Except.ok_bind, ← narrow?_bind_ofNumber?_eq_some]
  cases (Integer.narrow? .signed32 n).bind ofNumber? <;> simp

end ConfigurationType

/-! ## Numbers that a field keeps -/

/-- The fields that hold an integer of any size and keep a small number of it. -/
inductive NumberField where
  | version
  | pathLength
  | configurationType
deriving DecidableEq, Repr

namespace NumberField

/-- The least number that is too large for the field. -/
def limit : NumberField → Nat
  | version => 3
  | pathLength => 2 ^ 32
  | configurationType => 3

/-- The number that the field keeps of an integer, when it is accepted. -/
def kept? (n : Int) : NumberField → Option Nat
  | version =>
    (TbsCertificate.versionOfElement (.explicit 0 (.primitive .integer n))).toOption.map
      Version.number
  | pathLength =>
    (BasicConstraints.pathLengthOfElement (.primitive .integer n)).toOption.map UInt32.toNat
  | configurationType =>
    (ConfigurationType.ofElement (.primitive .enumerated n)).toOption.map ConfigurationType.number

/-- A reader whose values are told apart by their numbers, which are those below a limit. -/
theorem map_number_eq_some {ε α : Type} {read : Except ε α} {number : α → Nat} {n : Int}
    {limit k : Nat} (exact : ∀ a, read = .ok a ↔ n = number a)
    (onto : ∀ k, (∃ a, number a = k) ↔ k < limit) :
    read.toOption.map number = some k ↔ n = k ∧ k < limit := by
  simp only [Option.map_eq_some_iff, Except.toOption_eq_some, exact, ← onto]
  constructor
  · rintro ⟨a, rfl, rfl⟩
    exact ⟨rfl, a, rfl⟩
  · rintro ⟨rfl, a, rfl⟩
    exact ⟨a, rfl, rfl⟩

/-- The numbers of the values are those below the limit, in order. -/
theorem exists_number_iff {α : Type} {number : α → Nat} (all : List α) (every : ∀ a, a ∈ all)
    {limit : Nat} (range : all.map number = List.range limit) (k : Nat) :
    (∃ a, number a = k) ↔ k < limit := by
  rw [← List.mem_range, ← range, List.mem_map]
  simp only [every, true_and]

theorem kept?_eq_some {field : NumberField} {n : Int} {k : Nat} :
    field.kept? n = some k ↔ n = k ∧ k < field.limit := by
  cases field with
  | version =>
    refine map_number_eq_some (fun version => ?_)
      (exists_number_iff [.v1, .v2, .v3] (fun version => by cases version <;> simp) rfl)
    rw [TbsCertificate.versionOfElement_eq_ok, TbsCertificate.versionElement_eq_iff]
  | pathLength =>
    refine map_number_eq_some (fun length => ?_) fun k => ?_
    · rw [BasicConstraints.pathLengthOfElement_eq_ok, BasicConstraints.pathLengthElement_eq_iff]
    · constructor
      · rintro ⟨length, rfl⟩
        exact length.toNat_lt
      · intro small
        exact ⟨UInt32.ofNat k, UInt32.toNat_ofNat_of_lt' small⟩
  | configurationType =>
    exact map_number_eq_some (fun _ => ConfigurationType.ofElement_eq_ok)
      (exists_number_iff ConfigurationType.all (fun type => by cases type <;> decide) rfl)

theorem limit_le (field : NumberField) : field.limit ≤ 2 ^ 32 := by
  cases field <;> decide

theorem kept?_of_neg (field : NumberField) {n : Int} (negative : n < 0) :
    field.kept? n = none := by
  rw [Option.eq_none_iff_forall_ne_some]
  intro k kept
  obtain ⟨rfl, -⟩ := kept?_eq_some.mp kept
  omega

/-- Two integers that are the same in a word of 32 bits or more are not both accepted. -/
theorem eq_of_congruent {field : NumberField} {width : Nat} (wide : 32 ≤ width) {n m : Int}
    (congruent : n % 2 ^ width = m % 2 ^ width) {j k : Nat} (kept : field.kept? n = some j)
    (kept' : field.kept? m = some k) : n = m := by
  obtain ⟨rfl, small⟩ := kept?_eq_some.mp kept
  obtain ⟨rfl, small'⟩ := kept?_eq_some.mp kept'
  have word : field.limit ≤ 2 ^ width :=
    field.limit_le.trans (Nat.pow_le_pow_right (by decide) wide)
  have same : j % 2 ^ width = k % 2 ^ width := by exact_mod_cast congruent
  rw [Nat.mod_eq_of_lt (small.trans_le word), Nat.mod_eq_of_lt (small'.trans_le word)] at same
  rw [same]

/-- Content of any length is read as its value in two's complement, and each field accepts that
value when it is one of its numbers. Negative values are not accepted, nor values that are another
number of the field in a word of 32 bits or more. -/
theorem kept_exactly {content : Bytes} (filled : content ≠ []) {n : Int}
    (value : n = (BitVec.ofNat (8 * content.length) (BigEndian.value content)).toInt) :
    (∀ levels,
      Element.ofTlvWithin (levels + 1) ⟨Primitive.integer.tag, content⟩ =
        .ok (.primitive .integer n) ∧
      Element.ofTlvWithin (levels + 1) ⟨Primitive.enumerated.tag, content⟩ =
        .ok (.primitive .enumerated n)) ∧
    (∀ policy others tbs,
      (TbsCertificate.ofElement policy
          (.sequence (.explicit 0 (.primitive .integer n) :: others))).result = .ok tbs ↔
        n = tbs.version.number ∧ (TbsCertificate.ofElement policy
          (.sequence (.explicit 0 (.primitive .integer 0) :: others))).result =
            .ok { tbs with version := .v1 }) ∧
    (∀ (flag : Option Bool) constraints,
      BasicConstraints.ofElement
          (.sequence ((flag.map (.primitive .boolean)).toList ++ [.primitive .integer n])) =
            .ok constraints ↔
        constraints.isAuthority = flag.getD false ∧
          ∃ length, constraints.pathLength = some length ∧ n = length.toNat) ∧
    (∀ type, ConfigurationType.ofElement (.primitive .enumerated n) = .ok type ↔
      n = type.number) ∧
    ∀ field : NumberField,
      (∀ k, field.kept? n = some k ↔ n = k ∧ k < field.limit) ∧
      (n < 0 → field.kept? n = none) ∧
      ∀ width m, 32 ≤ width → n % 2 ^ width = m % 2 ^ width → n ≠ m →
        (field.kept? m).isSome = true → field.kept? n = none := by
  have decoded : Integer.decode content = .ok n :=
    Integer.decode_eq_ok.mpr ⟨filled, (TwosComplement.value_eq_toInt content).trans value.symm⟩
  refine ⟨fun levels => ⟨?_, ?_⟩, fun _ _ _ => TbsCertificate.ofElement_versioned_eq_ok,
    fun _ _ => BasicConstraints.ofElement_limited_eq_ok,
    fun _ => ConfigurationType.ofElement_eq_ok, fun field => ⟨fun _ => kept?_eq_some,
    field.kept?_of_neg, ?_⟩⟩
  · exact Element.ofTlvWithin_of_decode decoded
  · exact Element.ofTlvWithin_of_decode decoded
  · intro width m wide congruent other accepted
    obtain ⟨k, kept⟩ := Option.isSome_iff_exists.mp accepted
    rw [Option.eq_none_iff_forall_ne_some]
    intro j kept'
    exact other (eq_of_congruent wide congruent kept' kept)

/-- The number 2 with a bit set above 32 others, behind two octets of its sign. -/
theorem kept_exactly_congruent :
    (BitVec.ofNat 56 (BigEndian.value [0x00, 0x00, 0x01, 0x00, 0x00, 0x00, 0x02])).toInt =
        4294967298 ∧
      ∀ field : NumberField, field.kept? 2 = some 2 ∧ field.kept? 4294967298 = none := by
  have value : (4294967298 : Int) =
      (BitVec.ofNat 56 (BigEndian.value [0x00, 0x00, 0x01, 0x00, 0x00, 0x00, 0x02])).toInt := by
    decide +kernel
  obtain ⟨-, -, -, -, fields⟩ :=
    @kept_exactly [0x00, 0x00, 0x01, 0x00, 0x00, 0x00, 0x02] (List.cons_ne_nil _ _) _ value
  refine ⟨value.symm, fun field => ?_⟩
  have two : field.kept? 2 = some 2 := by
    cases field <;> exact kept?_eq_some.mpr ⟨rfl, by decide⟩
  obtain ⟨-, -, congruent⟩ := fields field
  have same : (4294967298 : Int) % 2 ^ 32 = 2 % 2 ^ 32 := by norm_num
  exact ⟨two, congruent 32 2 (by decide) same (by decide) (by rw [two]; rfl)⟩

end NumberField

end DerCodec
