import DerCodec.Proofs.Reencoding
import DerCodec.Proofs.TimeFraction

/-!
# When a tree is written in the fewest octets

A tree in which every GeneralizedTime is trimmed is written in no more octets than any form that it
can be read from. In every other tree the last zero of one fraction can be left out, and the octets
around it shrink with it.
-/

namespace DerCodec

namespace Primitive

/-- Only the fraction of a GeneralizedTime can end with a zero that says nothing. -/
def Trimmed : (type : Primitive) → type.Value → Prop
  | generalizedTime, t => GeneralizedTime.Trimmed t
  | _, _ => True

instance (type : Primitive) (value : type.Value) : Decidable (type.Trimmed value) := by
  cases type <;> (simp only [Trimmed]; infer_instance)

theorem Trimmed.writtenWithin_one {type : Primitive} {value : type.Value}
    (h : type.Trimmed value) : WrittenWithin 1 value := by
  intro content written read octets
  rw [Nat.one_mul]
  by_cases exact : type = generalizedTime
  · subst exact
    have parsed := GeneralizedTime.decode_eq_ok.mp (Except.mapError_eq_ok.mp read)
    exact GeneralizedTime.length_encode_le_of_trimmed h parsed (Except.mapError_eq_ok.mp octets)
  · exact length_encode_le_of_decode exact read octets

/-- A value that is not trimmed has shorter content than it is written in. -/
theorem exists_shorter_of_not_trimmed {type : Primitive} {value : type.Value} {written : Bytes}
    (carried : type.Carries value) (long : ¬type.Trimmed value)
    (octets : type.encode value = .ok written) :
    ∃ content, type.decode content = .ok value ∧ content.length < written.length := by
  cases type with
  | generalizedTime =>
    obtain ⟨content, read, shorter⟩ := GeneralizedTime.exists_shorter_of_not_trimmed carried long
      (Except.mapError_eq_ok.mp octets)
    exact ⟨content, Except.mapError_eq_ok.mpr (GeneralizedTime.decode_eq_ok.mpr read), shorter⟩
  | _ => exact absurd trivial long

end Primitive

namespace Element

/-- Every value in the tree is trimmed. -/
def Trimmed (root : Element) : Prop :=
  ∀ level type value, NodeBelow root level (.primitive type value) → type.Trimmed value

theorem trimmed_iff {root : Element} :
    root.Trimmed ↔ (∀ type value, root = .primitive type value → type.Trimmed value) ∧
      ∀ child ∈ root.children, child.Trimmed := by
  constructor
  · intro h
    refine ⟨?_, fun child member level type value below => h _ _ _ (.child member below)⟩
    rintro type value rfl
    exact h 0 type value (.root _)
  · rintro ⟨own, rest⟩ level type value below
    generalize node : primitive type value = leaf at below
    cases below with
    | root => exact own type value node.symm
    | child member below =>
      subst node
      exact rest _ member _ type value below

theorem trimmed_primitive {type : Primitive} {value : type.Value} :
    (primitive type value).Trimmed ↔ type.Trimmed value := by
  rw [trimmed_iff]
  constructor
  · intro h
    exact h.1 type value rfl
  · intro h
    refine ⟨?_, by simp [children]⟩
    rintro _ _ ⟨⟩
    exact h

theorem trimmed_of_children (root : Element) (other : ∀ type value, root ≠ .primitive type value) :
    root.Trimmed ↔ ∀ child ∈ root.children, child.Trimmed := by
  rw [trimmed_iff]
  exact and_iff_right fun type value same => absurd same (other type value)

mutual

def decidableTrimmed : (root : Element) → Decidable root.Trimmed
  | primitive type value => decidable_of_iff (type.Trimmed value) trimmed_primitive.symm
  | sequence children =>
    have := decidableAllTrimmed children
    decidable_of_iff (∀ child ∈ children, child.Trimmed)
      (trimmed_of_children (sequence children) (by simp)).symm
  | set children =>
    have := decidableAllTrimmed children
    decidable_of_iff (∀ child ∈ children, child.Trimmed)
      (trimmed_of_children (set children) (by simp)).symm
  | taggedList tag children =>
    have := decidableAllTrimmed children
    decidable_of_iff (∀ child ∈ children, child.Trimmed)
      (trimmed_of_children (taggedList tag children) (by simp)).symm
  | taggedOctets .. => .isTrue ((trimmed_of_children _ (by simp)).mpr nofun)
  | unknown _ => .isTrue ((trimmed_of_children _ (by simp)).mpr nofun)

def decidableAllTrimmed : (children : List Element) → Decidable (∀ child ∈ children, child.Trimmed)
  | [] => .isTrue nofun
  | child :: children =>
    have := decidableTrimmed child
    have := decidableAllTrimmed children
    decidable_of_iff (child.Trimmed ∧ ∀ child ∈ children, child.Trimmed)
      List.forall_mem_cons.symm

end

instance (root : Element) : Decidable root.Trimmed :=
  root.decidableTrimmed

theorem Trimmed.valuesWithin_one {root : Element} (h : root.Trimmed) : root.ValuesWithin 1 :=
  fun level type value below => (h level type value below).writtenWithin_one

theorem Trimmed.length_encode_le {root : Element} (h : root.Trimmed) {bytes written : Bytes}
    (read : decode bytes = .ok root) (octets : root.encode = .ok written) :
    written.length ≤ bytes.length := by
  have bound := length_encode_le_mul_of_decode Length.scales_one h.valuesWithin_one read octets
  rwa [Nat.one_mul] at bound

/-! ## Shorter forms of other trees -/

theorem cases_of_not_trimmed {root : Element} (h : ¬root.Trimmed) :
    (∃ type value, root = .primitive type value ∧ ¬type.Trimmed value) ∨
      ∃ child ∈ root.children, ¬child.Trimmed := by
  rw [trimmed_iff, not_and_or] at h
  simpa only [not_forall, exists_prop] using h

/-- The node is read from content that is shorter than what is written. -/
def Shrinks (ofNode : Tlv → Except ElementError Element) (node : Element) (written : Tlv) : Prop :=
  ∃ tlv, ofNode tlv = .ok node ∧ tlv.tag = written.tag ∧
    tlv.content.length < written.content.length

/-- When one node of a run shrinks and the others can be read back, the run is read from fewer
octets. -/
theorem exists_shorter_run {ofChild : Tlv → Except ElementError Element} {children : List Element}
    {written : List Tlv} (run : toTlvs children = .ok written)
    (inverse : ∀ child ∈ children, ∀ tlv ∈ written, toTlv child = .ok tlv → ofChild tlv = .ok child)
    {child : Element} (member : child ∈ children)
    (shrinks : ∀ tlv ∈ written, toTlv child = .ok tlv → Shrinks ofChild child tlv) :
    ∃ tlvs, tlvs.mapM ofChild = .ok children ∧
      (Tlv.encodeAll tlvs).length < (Tlv.encodeAll written).length := by
  rw [toTlvs_eq_mapM] at run
  simp only [Except.mapM_eq_ok] at run ⊢
  induction run with
  | nil => simp at member
  | @cons first front rest others framed each ih =>
    simp only [List.forall_mem_cons] at inverse shrinks
    rcases List.mem_cons.mp member with rfl | later
    · obtain ⟨tlv, read, tag, content⟩ := shrinks.1 framed
      have tail := Except.mapM_inverse (Except.mapM_eq_ok.mpr each)
        fun child among tlv member written => (inverse.2 child among).2 tlv member written
      refine ⟨tlv :: others, .cons read (Except.mapM_eq_ok.mp tail), ?_⟩
      have shorter := Tlv.length_encode_lt tag content
      simp only [Tlv.encodeAll, List.flatMap_cons, List.length_append]
      omega
    · have behind := fun child among => (inverse.2 child among).2
      obtain ⟨tlvs, read, shorter⟩ := ih behind later shrinks.2
      refine ⟨front :: tlvs, .cons (inverse.1.1 framed) read, ?_⟩
      simp only [Tlv.encodeAll, List.flatMap_cons, List.length_append] at shorter ⊢
      omega

/-- A list shrinks with one of its children. -/
theorem shrinks_constructed {ofChild ofNode : Tlv → Except ElementError Element} {node : Element}
    {tag : Tag} {children : List Element} {written : List Tlv}
    (run : toTlvs children = .ok written) (countable : (Tlv.constructed tag written).Countable)
    (list : ∀ tlvs, ofChildren ofChild (.constructed tag tlvs) = .ok children →
      ofNode (.constructed tag tlvs) = .ok node)
    (inverse : ∀ child ∈ children, ∀ tlv, toTlv child = .ok tlv → tlv.Countable →
      ofChild tlv = .ok child)
    {child : Element} (member : child ∈ children)
    (shrinks : ∀ tlv, toTlv child = .ok tlv → tlv.Countable → Shrinks ofChild child tlv) :
    Shrinks ofNode node (.constructed tag written) := by
  obtain ⟨tlvs, read, shorter⟩ := exists_shorter_run run
    (fun child among tlv member framed => inverse child among tlv framed (countable.child member))
    member fun tlv member framed => shrinks tlv framed (countable.child member)
  have small : (Tlv.constructed tag tlvs).Countable := Nat.lt_trans shorter countable
  refine ⟨.constructed tag tlvs, ?_, rfl, shorter⟩
  exact list tlvs (ofChildren_eq_ok.mpr ⟨tlvs, Tlv.children_constructed small, read⟩)

theorem shrinks_of_not_trimmed {levels : Nat} {element : Element} {written : Tlv}
    (valid : element.WellFormedWithin levels) (h : toTlv element = .ok written)
    (countable : written.Countable) (loose : ¬element.Trimmed) :
    Shrinks (ofTlvWithin levels) element written := by
  -- The reader counts levels, so the induction follows it down to the time that is not trimmed.
  induction levels generalizing element written with
  | zero => exact absurd valid element.not_wellFormedWithin_zero
  | succ levels ih =>
    have inverse : ∀ child ∈ element.children, ∀ tlv, toTlv child = .ok tlv → tlv.Countable →
        ofTlvWithin levels tlv = .ok child :=
      fun child member tlv framed small => ofTlvWithin_of_toTlv (valid.child member) framed small
    rcases cases_of_not_trimmed loose with ⟨type, value, rfl, long⟩ | ⟨child, member, long⟩
    · obtain ⟨content, octets⟩ := Primitive.exists_encode valid.sound
      obtain rfl := Except.ok.inj ((Primitive.valueToTlv_eq valid.sound octets).symm.trans h)
      obtain ⟨shorter, read, less⟩ :=
        Primitive.exists_shorter_of_not_trimmed valid.sound long octets
      refine ⟨⟨type.tag, shorter⟩, ?_, rfl, less⟩
      rw [ofTlvWithin_primitive, read]
      rfl
    · have shrinks : ∀ tlv, toTlv child = .ok tlv → tlv.Countable →
          Shrinks (ofTlvWithin levels) child tlv :=
        fun tlv framed small => ih (valid.child member) framed small long
      cases element with
      | primitive => simp [children] at member
      | taggedOctets => simp [children] at member
      | unknown => simp [children] at member
      | sequence children =>
        obtain ⟨tlvs, run, rfl⟩ := Except.map_eq_ok.mp h
        refine shrinks_constructed run countable ?_ inverse member shrinks
        exact fun tlvs read => Except.map_eq_ok.mpr ⟨children, read, rfl⟩
      | set children =>
        obtain ⟨tlvs, run, rfl⟩ := Except.map_eq_ok.mp h
        refine shrinks_constructed run countable ?_ inverse member shrinks
        exact fun tlvs read => Except.map_eq_ok.mpr ⟨children, read, rfl⟩
      | taggedList tag children =>
        obtain ⟨tlvs, run, rfl⟩ := Except.map_eq_ok.mp h
        obtain ⟨foreign, flag⟩ := valid.sound
        have same : tag.withConstructed true = tag := by
          rw [Tag.withConstructed, ← flag]
        refine shrinks_constructed run countable ?_ inverse member shrinks
        intro tlvs read
        simp only [Tlv.constructed, same] at read ⊢
        rw [ofTlvWithin_taggedList foreign flag, read]
        rfl

/-- A tree is read from no fewer octets than it is written in exactly when it is trimmed. -/
theorem length_encode_le_iff_trimmed {element : Element} {written : Bytes}
    (valid : element.WellFormed) (octets : element.encode = .ok written)
    (size : written.length < UInt64.size) :
    (∀ bytes, decode bytes = .ok element → written.length ≤ bytes.length) ↔ element.Trimmed := by
  constructor
  · intro shortest
    by_contra loose
    obtain ⟨framed, node, same⟩ := Except.bind_eq_ok.mp octets
    obtain rfl := Except.ok.inj same
    have countable := Tlv.countable_of_encode size
    obtain ⟨tlv, read, tag, shorter⟩ :=
      shrinks_of_not_trimmed (wellFormed_iff.mp valid) node countable loose
    have small : tlv.Countable := Nat.lt_trans shorter countable
    have whole : decode tlv.encode = .ok element := by
      rw [decode, Tlv.decode_encode small, Except.ok_mapError, Except.ok_bind]
      exact read
    exact absurd (shortest _ whole) (Nat.not_le.mpr (Tlv.length_encode_lt tag shorter))
  · intro trimmed bytes read
    exact trimmed.length_encode_le read octets

end Element

end DerCodec
