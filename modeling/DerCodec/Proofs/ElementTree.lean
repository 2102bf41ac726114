import DerCodec.Element.Wire
import DerCodec.Proofs.Framing
import DerCodec.Proofs.Primitive

/-!
# Element trees round trip

`Element.WellFormed` asks something of every node by itself, and bounds its distance from the root.
Exactly the well-formed trees are read back from what they are written as: every tree that is read
is well-formed, and a well-formed tree loses nothing when it is written.
-/

namespace DerCodec

namespace Universal

theorem ofNumber?_number (type : Universal) : ofNumber? type.number = some type := by
  cases type with
  | primitive type => cases type <;> rfl
  | sequence => rfl
  | set => rfl

end Universal

namespace Element

/-! ## Well-formed trees -/

def children : Element → List Element
  | sequence children => children
  | set children => children
  | taggedList _ children => children
  | _ => []

/-- The tag of the node is one that its kind is read under, and its value one that can be read. -/
def Sound : Element → Prop
  | primitive type value => type.Carries value
  | sequence _ => True
  | set _ => True
  | taggedOctets tag _ => tag.tagClass ≠ .universal ∧ tag.constructed = false
  | taggedList tag _ => tag.tagClass ≠ .universal ∧ tag.constructed = true
  | unknown tlv => tlv.tag.tagClass = .universal ∧ Universal.ofNumber? tlv.tag.number = none

instance (element : Element) : Decidable element.Sound := by
  cases element <;> (simp only [Sound]; infer_instance)

/-- `node` lies the given number of levels below the root of the tree. -/
inductive NodeBelow : Element → Nat → Element → Prop
  | root (root : Element) : NodeBelow root 0 root
  | child {root child node : Element} {level : Nat} (member : child ∈ root.children)
      (below : NodeBelow child level node) : NodeBelow root (level + 1) node

mutual

/-- All nodes of the tree, the root first. -/
def nodes : Element → List Element
  | primitive type value => [primitive type value]
  | sequence children => sequence children :: nodesOfAll children
  | set children => set children :: nodesOfAll children
  | taggedOctets tag content => [taggedOctets tag content]
  | taggedList tag children => taggedList tag children :: nodesOfAll children
  | unknown tlv => [unknown tlv]

/-- All nodes of the trees, one tree after the other. -/
def nodesOfAll : List Element → List Element
  | [] => []
  | root :: roots => nodes root ++ nodesOfAll roots

end

theorem nodesOfAll_eq (roots : List Element) : nodesOfAll roots = roots.flatMap nodes := by
  induction roots with
  | nil => rfl
  | cons root roots ih => rw [nodesOfAll, ih, List.flatMap_cons]

theorem nodes_eq (root : Element) : root.nodes = root :: root.children.flatMap nodes := by
  cases root <;> simp [nodes, children, nodesOfAll_eq]

/-- What holds of a node when it holds of its children holds of all nodes. -/
@[elab_as_elim]
theorem induction_children {P : Element → Prop}
    (node : ∀ root, (∀ child ∈ root.children, P child) → P root) (root : Element) : P root := by
  refine node root fun child member => ?_
  have smaller : sizeOf child < sizeOf root := by
    cases root <;> simp only [children, List.not_mem_nil] at member
    all_goals
      have := List.sizeOf_lt_of_mem member
      simp only [sequence.sizeOf_spec, set.sizeOf_spec, taggedList.sizeOf_spec]
      omega
  exact induction_children node child
termination_by sizeOf root

/-- The nodes are what lies at some level below the root. -/
theorem mem_nodes_iff {root node : Element} :
    node ∈ root.nodes ↔ ∃ level, NodeBelow root level node := by
  constructor
  · induction root using induction_children with
    | node root ih =>
      intro member
      rw [nodes_eq, List.mem_cons, List.mem_flatMap] at member
      rcases member with rfl | ⟨child, among, inside⟩
      · exact ⟨0, .root _⟩
      · obtain ⟨level, below⟩ := ih child among inside
        exact ⟨level + 1, .child among below⟩
  · rintro ⟨level, below⟩
    induction below with
    | root root =>
      rw [nodes_eq]
      exact List.mem_cons_self
    | child member _ ih =>
      rw [nodes_eq]
      exact List.mem_cons_of_mem _ (List.mem_flatMap.mpr ⟨_, member, ih⟩)

section each

variable {P : Element → Prop}

/-- Every node has the property and the tree has at most `levels` levels. -/
def EachWithin (P : Element → Prop) (levels : Nat) (root : Element) : Prop :=
  ∀ level node, NodeBelow root level node → P node ∧ level < levels

theorem not_eachWithin_zero (root : Element) : ¬root.EachWithin P 0 := by
  intro h
  exact Nat.not_lt_zero 0 (h 0 root (.root root)).2

theorem eachWithin_succ {levels : Nat} {root : Element} :
    root.EachWithin P (levels + 1) ↔
      P root ∧ ∀ child ∈ root.children, child.EachWithin P levels := by
  constructor
  · intro h
    refine ⟨(h 0 root (.root root)).1, ?_⟩
    intro child member level node below
    obtain ⟨holds, bound⟩ := h (level + 1) node (.child member below)
    exact ⟨holds, Nat.lt_of_succ_lt_succ bound⟩
  · rintro ⟨holds, rest⟩ level node below
    cases below with
    | root => exact ⟨holds, Nat.succ_pos levels⟩
    | child member below =>
      obtain ⟨nodeHolds, bound⟩ := rest _ member _ node below
      exact ⟨nodeHolds, Nat.succ_lt_succ bound⟩

instance decidableEachWithin [DecidablePred P] : (levels : Nat) → (root : Element) →
    Decidable (root.EachWithin P levels)
  | 0, root => .isFalse root.not_eachWithin_zero
  | levels + 1, root =>
    have := decidableEachWithin levels
    decidable_of_iff (P root ∧ ∀ child ∈ root.children, child.EachWithin P levels)
      eachWithin_succ.symm

end each

/-- Every node is sound and the tree has at most `levels` levels. -/
def WellFormedWithin (levels : Nat) (root : Element) : Prop :=
  root.EachWithin Sound levels

/-- Every node is sound and none lies more than 64 levels below the root. -/
def WellFormed (root : Element) : Prop :=
  ∀ level node, NodeBelow root level node → node.Sound ∧ level ≤ depthLimit

theorem wellFormed_iff {root : Element} :
    root.WellFormed ↔ root.WellFormedWithin (depthLimit + 1) := by
  simp only [WellFormed, WellFormedWithin, EachWithin, Nat.lt_succ_iff]

theorem not_wellFormedWithin_zero (root : Element) : ¬root.WellFormedWithin 0 :=
  root.not_eachWithin_zero

theorem wellFormedWithin_succ {levels : Nat} {root : Element} :
    root.WellFormedWithin (levels + 1) ↔
      root.Sound ∧ ∀ child ∈ root.children, child.WellFormedWithin levels :=
  eachWithin_succ

theorem wellFormedWithin_primitive {levels : Nat} {type : Primitive} {value : type.Value} :
    (primitive type value).WellFormedWithin (levels + 1) ↔ type.Carries value :=
  wellFormedWithin_succ.trans (and_iff_left nofun)

theorem wellFormedWithin_sequence {levels : Nat} {children : List Element} :
    (sequence children).WellFormedWithin (levels + 1) ↔
      ∀ child ∈ children, child.WellFormedWithin levels :=
  wellFormedWithin_succ.trans (and_iff_right trivial)

theorem wellFormedWithin_set {levels : Nat} {children : List Element} :
    (set children).WellFormedWithin (levels + 1) ↔
      ∀ child ∈ children, child.WellFormedWithin levels :=
  wellFormedWithin_succ.trans (and_iff_right trivial)

instance (levels : Nat) (root : Element) : Decidable (root.WellFormedWithin levels) :=
  inferInstanceAs (Decidable (root.EachWithin Sound levels))

instance (root : Element) : Decidable root.WellFormed :=
  decidable_of_iff _ wellFormed_iff.symm

theorem WellFormedWithin.sound {levels : Nat} {root : Element} (h : root.WellFormedWithin levels) :
    root.Sound :=
  (h 0 root (.root root)).1

theorem WellFormedWithin.child {levels : Nat} {root child : Element}
    (h : root.WellFormedWithin (levels + 1)) (member : child ∈ root.children) :
    child.WellFormedWithin levels :=
  (wellFormedWithin_succ.mp h).2 child member

theorem WellFormedWithin.child_sound {levels : Nat} {root child : Element}
    (h : root.WellFormedWithin levels) (member : child ∈ root.children) : child.Sound :=
  (h 1 child (.child member (.root child))).1

/-- A tree stays well-formed when sound nodes take the place of its root and its children. -/
theorem WellFormedWithin.rebuild {levels : Nat} {root root' : Element}
    (h : root.WellFormedWithin levels) (sound : root'.Sound)
    (each : ∀ inner, (∀ child ∈ root.children, child.WellFormedWithin inner) →
      ∀ child ∈ root'.children, child.WellFormedWithin inner) : root'.WellFormedWithin levels := by
  cases levels with
  | zero => exact absurd h root.not_wellFormedWithin_zero
  | succ levels =>
    exact wellFormedWithin_succ.mpr ⟨sound, each levels (wellFormedWithin_succ.mp h).2⟩

/-! ## Reading one node -/

theorem ofTlvWithin_primitive (levels : Nat) (type : Primitive) (content : Bytes) :
    ofTlvWithin (levels + 1) ⟨type.tag, content⟩ =
      (type.decode content).map (.primitive type) := by
  have known := Universal.ofNumber?_number (.primitive type)
  simp only [Universal.number] at known
  simp only [ofTlvWithin, Primitive.tag, Tag.universal, if_true, known, Universal.tag]

theorem ofTlvWithin_unknown {levels : Nat} {tlv : Tlv} (h : (unknown tlv).Sound) :
    ofTlvWithin (levels + 1) tlv = .ok (unknown tlv) := by
  simp only [ofTlvWithin, if_pos h.1, h.2]

theorem ofTlvWithin_taggedOctets {levels : Nat} {tag : Tag} {content : Bytes}
    (h : (taggedOctets tag content).Sound) :
    ofTlvWithin (levels + 1) ⟨tag, content⟩ = .ok (taggedOctets tag content) := by
  simp only [ofTlvWithin, if_neg h.1, h.2, Bool.false_eq_true, if_false]

theorem ofTlvWithin_taggedList {levels : Nat} {tag : Tag} {content : Bytes}
    (foreign : tag.tagClass ≠ .universal) (constructed : tag.constructed = true) :
    ofTlvWithin (levels + 1) ⟨tag, content⟩ =
      (ofChildren (ofTlvWithin levels) ⟨tag, content⟩).map (.taggedList tag) := by
  simp only [ofTlvWithin, if_neg foreign, constructed, if_true]

/-- A node that is read is sound, and its children are read one level further down. -/
theorem sound_of_ofTlvWithin {levels : Nat} {tlv : Tlv} {element : Element}
    (h : ofTlvWithin (levels + 1) tlv = .ok element) :
    element.Sound ∧ (element.children = [] ∨
      ofChildren (ofTlvWithin levels) tlv = .ok element.children) := by
  simp only [ofTlvWithin] at h
  split at h
  · rename_i universal
    split at h
    · rename_i missing
      obtain rfl := Except.ok.inj h
      exact ⟨⟨universal, missing⟩, .inl rfl⟩
    · rename_i type known
      split at h
      · cases type with
        | primitive type =>
          obtain ⟨value, read, rfl⟩ := Except.map_eq_ok.mp h
          exact ⟨Primitive.carries_of_decode read, .inl rfl⟩
        | sequence =>
          obtain ⟨children, read, rfl⟩ := Except.map_eq_ok.mp h
          exact ⟨trivial, .inr read⟩
        | set =>
          obtain ⟨children, read, rfl⟩ := Except.map_eq_ok.mp h
          exact ⟨trivial, .inr read⟩
      · simp at h
  · rename_i foreign
    split at h
    · rename_i constructed
      obtain ⟨children, read, rfl⟩ := Except.map_eq_ok.mp h
      exact ⟨⟨foreign, constructed⟩, .inr read⟩
    · rename_i primitive
      obtain rfl := Except.ok.inj h
      exact ⟨⟨foreign, by simpa using primitive⟩, .inl rfl⟩

theorem ofChildren_eq_ok {ofChild : Tlv → Except ElementError Element} {tlv : Tlv}
    {elements : List Element} :
    ofChildren ofChild tlv = .ok elements ↔
      ∃ tlvs, tlv.children = .ok tlvs ∧ tlvs.mapM ofChild = .ok elements := by
  simp only [ofChildren, Except.bind_eq_ok, Except.mapError_eq_ok]

/-- Every tree that is read is well-formed. -/
theorem wellFormedWithin_of_ofTlvWithin {levels : Nat} {tlv : Tlv} {element : Element}
    (h : ofTlvWithin levels tlv = .ok element) : element.WellFormedWithin levels := by
  induction levels generalizing tlv element with
  | zero => simp [ofTlvWithin] at h
  | succ levels ih =>
    rw [wellFormedWithin_succ]
    obtain ⟨sound, leaf | inner⟩ := sound_of_ofTlvWithin h
    · exact ⟨sound, by simp [leaf]⟩
    · refine ⟨sound, ?_⟩
      intro child member
      obtain ⟨tlvs, -, run⟩ := ofChildren_eq_ok.mp inner
      obtain ⟨childTlv, -, read⟩ := Except.exists_of_mem_mapM run member
      exact ih read

/-! ## Writing and reading back -/

theorem toTlvs_eq_mapM (elements : List Element) : toTlvs elements = elements.mapM toTlv := by
  induction elements with
  | nil => rfl
  | cons element elements ih => simp only [toTlvs, ih, List.mapM_cons]

/-- Nodes that are read from one run and written as another relate them place by place. -/
theorem forall₂_of_toTlvs {ofChild : Tlv → Except ElementError Element} {R : Tlv → Tlv → Prop}
    {elements : List Element} {tlvs written : List Tlv}
    (each : ∀ element ∈ elements, ∀ tlv again, ofChild tlv = .ok element →
      toTlv element = .ok again → R tlv again)
    (read : tlvs.mapM ofChild = .ok elements) (h : toTlvs elements = .ok written) :
    List.Forall₂ R tlvs written := by
  rw [toTlvs_eq_mapM, Except.mapM_eq_ok] at h
  rw [Except.mapM_eq_ok] at read
  induction read generalizing written with
  | nil =>
    cases h
    exact .nil
  | cons first _ ih =>
    obtain ⟨own, others⟩ := List.forall_mem_cons.mp each
    cases h with
    | cons again rest => exact .cons (own _ _ first again) (ih others rest)

/-- What a writer of nodes does with a list: it frames all children, one after the other. -/
theorem exists_toTlvs {elements : List Element}
    (h : ∀ element ∈ elements, ∃ tlv, toTlv element = .ok tlv) :
    ∃ tlvs, toTlvs elements = .ok tlvs := by
  induction elements with
  | nil => exact ⟨[], rfl⟩
  | cons element elements ih =>
    obtain ⟨tlv, first⟩ := h element List.mem_cons_self
    obtain ⟨tlvs, rest⟩ := ih fun e member => h e (List.mem_cons_of_mem _ member)
    exact ⟨tlv :: tlvs, by simp [toTlvs, first, rest]⟩

theorem exists_toTlv {levels : Nat} {element : Element} (h : element.WellFormedWithin levels) :
    ∃ tlv, toTlv element = .ok tlv := by
  induction levels generalizing element with
  | zero => exact absurd h element.not_wellFormedWithin_zero
  | succ levels ih =>
    -- Leaves have no children, so the list can be written before the kind of node is known.
    have list : ∃ tlvs, toTlvs element.children = .ok tlvs :=
      exists_toTlvs fun child member => ih (h.child member)
    obtain ⟨tlvs, run⟩ := list
    cases element with
    | primitive type value =>
      obtain ⟨content, written⟩ := Primitive.exists_encode h.sound
      exact ⟨_, Primitive.valueToTlv_eq h.sound written⟩
    | sequence children => exact ⟨_, Except.map_eq_ok.mpr ⟨tlvs, run, rfl⟩⟩
    | set children => exact ⟨_, Except.map_eq_ok.mpr ⟨tlvs, run, rfl⟩⟩
    | taggedOctets tag content => exact ⟨_, rfl⟩
    | taggedList tag children => exact ⟨_, Except.map_eq_ok.mpr ⟨tlvs, run, rfl⟩⟩
    | unknown tlv => exact ⟨_, rfl⟩

/-- Children that are read back one by one are read back from the content of their parent. -/
theorem ofChildren_constructed {ofChild : Tlv → Except ElementError Element} {tag : Tag}
    {children : List Element} {tlvs : List Tlv} (run : toTlvs children = .ok tlvs)
    (countable : (Tlv.constructed tag tlvs).Countable)
    (inverse : ∀ child ∈ children, ∀ tlv, toTlv child = .ok tlv → tlv.Countable →
      ofChild tlv = .ok child) :
    ofChildren ofChild (.constructed tag tlvs) = .ok children := by
  rw [toTlvs_eq_mapM] at run
  refine ofChildren_eq_ok.mpr ⟨tlvs, Tlv.children_constructed countable, ?_⟩
  apply Except.mapM_inverse run
  intro child among tlv member written
  exact inverse child among tlv written (countable.child member)

theorem ofTlvWithin_of_toTlv {levels : Nat} {element : Element} {tlv : Tlv}
    (h : element.WellFormedWithin levels) (written : toTlv element = .ok tlv)
    (countable : tlv.Countable) : ofTlvWithin levels tlv = .ok element := by
  -- The reader counts levels and the writer does not, so the induction is on the levels.
  induction levels generalizing element tlv with
  | zero => exact absurd h element.not_wellFormedWithin_zero
  | succ levels ih =>
    have inverse : ∀ child ∈ element.children, ∀ tlv, toTlv child = .ok tlv → tlv.Countable →
        ofTlvWithin levels tlv = .ok child :=
      fun child member tlv framed small => ih (h.child member) framed small
    cases element with
    | primitive type value =>
      obtain ⟨content, octets⟩ := Primitive.exists_encode h.sound
      obtain rfl := Except.ok.inj ((Primitive.valueToTlv_eq h.sound octets).symm.trans written)
      rw [ofTlvWithin_primitive, Primitive.decode_of_encode h.sound octets]
      rfl
    | sequence children =>
      obtain ⟨tlvs, run, rfl⟩ := Except.map_eq_ok.mp written
      exact Except.map_eq_ok.mpr ⟨children, ofChildren_constructed run countable inverse, rfl⟩
    | set children =>
      obtain ⟨tlvs, run, rfl⟩ := Except.map_eq_ok.mp written
      exact Except.map_eq_ok.mpr ⟨children, ofChildren_constructed run countable inverse, rfl⟩
    | taggedOctets tag content =>
      obtain rfl := Except.ok.inj written
      exact ofTlvWithin_taggedOctets h.sound
    | taggedList tag children =>
      obtain ⟨tlvs, run, rfl⟩ := Except.map_eq_ok.mp written
      obtain ⟨foreign, flag⟩ := h.sound
      -- The writer sets the flag, which a sound list has already.
      have same : tag.withConstructed true = tag := by
        rw [Tag.withConstructed, ← flag]
      have inner := ofChildren_constructed run countable inverse
      simp only [Tlv.constructed, same] at inner ⊢
      rw [ofTlvWithin_taggedList foreign flag, inner]
      rfl
    | unknown =>
      obtain rfl := Except.ok.inj written
      exact ofTlvWithin_unknown h.sound

/-! ## Octets -/

theorem wellFormed_of_decode {bytes : Bytes} {element : Element}
    (h : decode bytes = .ok element) : element.WellFormed := by
  obtain ⟨tlv, -, read⟩ := Except.bind_eq_ok.mp h
  exact wellFormed_iff.mpr (wellFormedWithin_of_ofTlvWithin read)

theorem exists_encode {element : Element} (h : element.WellFormed) :
    ∃ bytes, element.encode = .ok bytes := by
  obtain ⟨tlv, written⟩ := exists_toTlv (wellFormed_iff.mp h)
  exact ⟨tlv.encode, by simp [encode, written]⟩

theorem decode_of_encode {element : Element} {bytes : Bytes} (h : element.WellFormed)
    (written : element.encode = .ok bytes) (size : bytes.length < UInt64.size) :
    decode bytes = .ok element := by
  obtain ⟨tlv, framed, octets⟩ := Except.bind_eq_ok.mp written
  obtain rfl := Except.ok.inj octets
  have countable := Tlv.countable_of_encode size
  simp only [decode, Tlv.decode_encode countable, Except.ok_mapError, Except.ok_bind]
  exact ofTlvWithin_of_toTlv (wellFormed_iff.mp h) framed countable

/-- Sound, where of a GeneralizedTime nothing is asked but its year. -/
def SoundByYear : Element → Prop
  | primitive .generalizedTime time => GeneralizedTime.hasYear time.year = true
  | element => element.Sound

instance : DecidablePred SoundByYear := by
  intro element
  unfold SoundByYear
  split <;> infer_instance

end Element

end DerCodec
