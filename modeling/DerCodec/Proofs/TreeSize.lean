import DerCodec.Proofs.ElementTree
import DerCodec.Proofs.ShortestForm

/-!
# The size of what is read

Each step of a run takes an element off the front of the octets, and with it two octets or more
besides the content: a tag and a length. So a run stops after no more steps than half the octets,
also one that fails. The same count, from the leaves to the root, bounds the nodes of a tree.
-/

namespace DerCodec

/-! ## Runs of elements -/

namespace Tlv

/-- An element takes two octets or more besides its content. -/
theorem length_of_read {tlv : Tlv} {bytes rest : Bytes} (h : read bytes = .ok (tlv, rest)) :
    rest.length + (tlv.content.length + 2) ≤ bytes.length := by
  obtain ⟨afterTag, readTag, readLength⟩ := parts_of_read h
  have tag := tagRead_length readTag
  have length := lengthRead_length readLength
  rw [List.length_append] at length
  omega

/-- The steps of a run so far have taken the elements off the front and left some octets. -/
inductive Takes : Bytes → List Tlv → Bytes → Prop
  | nothing (bytes : Bytes) : Takes bytes [] bytes
  | step {bytes rest left : Bytes} {tlv : Tlv} {tlvs : List Tlv}
    (first : read bytes = .ok (tlv, rest)) (later : Takes rest tlvs left) :
    Takes bytes (tlv :: tlvs) left

namespace Takes

variable {bytes left : Bytes} {tlvs : List Tlv}

/-- Two octets a step, the contents and what is left are no more than all octets. -/
theorem length_le (h : Takes bytes tlvs left) :
    left.length + (tlvs.map fun tlv => tlv.content.length + 2).sum ≤ bytes.length := by
  induction h with
  | nothing bytes => simp
  | step first _ ih =>
    have taken := length_of_read first
    rw [List.map_cons, List.sum_cons]
    omega

theorem two_mul_length_le (h : Takes bytes tlvs left) :
    2 * tlvs.length + left.length ≤ bytes.length := by
  have each : ∀ n ∈ tlvs.map fun tlv => tlv.content.length + 2, 2 ≤ n := by simp
  have floor := List.card_nsmul_le_sum _ 2 each
  rw [List.length_map, Nat.nsmul_eq_mul] at floor
  have bound := h.length_le
  omega

end Takes

/-- A run goes on until no octets are left, or until the next element cannot be read. -/
theorem exists_takes (bytes : Bytes) : ∃ tlvs left, Takes bytes tlvs left ∧
    (left = [] ∧ decodeAll bytes = .ok tlvs ∨
      ∃ e, read left = .error e ∧ decodeAll bytes = .error e) := by
  fun_induction decodeAll bytes with
  | case1 bytes empty =>
    obtain rfl := List.isEmpty_iff.mp empty
    exact ⟨[], [], .nothing [], .inl ⟨rfl, rfl⟩⟩
  | case2 bytes _ e failed => exact ⟨[], bytes, .nothing bytes, .inr ⟨e, failed, rfl⟩⟩
  | case3 bytes _ tlv rest first shorter ih =>
    obtain ⟨tlvs, left, later, stop⟩ := ih
    refine ⟨tlv :: tlvs, left, .step first later, ?_⟩
    rcases stop with ⟨none, run⟩ | ⟨e, failed, run⟩
    · exact .inl ⟨none, by rw [run]; rfl⟩
    · exact .inr ⟨e, failed, by rw [run]; rfl⟩

theorem takes_of_decodeAll {bytes : Bytes} {tlvs : List Tlv} (h : decodeAll bytes = .ok tlvs) :
    Takes bytes tlvs [] := by
  obtain ⟨taken, left, steps, ⟨rfl, run⟩ | ⟨e, -, run⟩⟩ := exists_takes bytes
  · obtain rfl := Except.ok.inj (h.symm.trans run)
    exact steps
  · exact nomatch h.symm.trans run

end Tlv

/-! ## Trees -/

namespace Element

/-- Trees that are each bounded by their element are bounded together by the run of elements. -/
theorem two_mul_length_flatMap_nodes_le {tlvs : List Tlv} {roots : List Element}
    (each : List.Forall₂
      (fun tlv root => 2 * root.nodes.length ≤ tlv.content.length + 2) tlvs roots) :
    2 * (roots.flatMap nodes).length ≤ (tlvs.map fun tlv => tlv.content.length + 2).sum := by
  induction each with
  | nil => simp
  | cons first _ ih =>
    rw [List.flatMap_cons, List.length_append, List.map_cons, List.sum_cons]
    omega

/-- The root takes two octets besides the content, which bounds the trees of the children. -/
theorem two_mul_length_nodes_le {levels : Nat} {tlv : Tlv} {root : Element}
    (h : ofTlvWithin levels tlv = .ok root) :
    2 * root.nodes.length ≤ tlv.content.length + 2 := by
  -- The children are read from the content one level further down, so the induction is on the levels.
  induction levels generalizing tlv root with
  | zero => simp [ofTlvWithin] at h
  | succ levels ih =>
    rw [nodes_eq, List.length_cons]
    rcases (sound_of_ofTlvWithin h).2 with leaf | inner
    · simp [leaf]
    · obtain ⟨tlvs, framed, run⟩ := ofChildren_eq_ok.mp inner
      have content := (Tlv.takes_of_decodeAll (Tlv.children_eq_ok.mp framed).2).length_le
      have each := (Except.mapM_eq_ok.mp run).imp fun _ _ => ih
      have below := two_mul_length_flatMap_nodes_le each
      rw [List.length_nil] at content
      omega

/-- A tree has no more nodes than half the octets it is read from, none of them more than 64 levels
below the root, and a run no more elements. Whatever the octets are, each step of a run takes two of
them or more, and the run stops: with no octets left, or at the first element that cannot be
read. -/
theorem nodes_within_input (bytes : Bytes) :
    (∀ root, decode bytes = .ok root →
      2 * root.nodes.length ≤ bytes.length ∧
        ∀ level node, NodeBelow root level node → level ≤ 64) ∧
    (∀ tlvs, Tlv.decodeAll bytes = .ok tlvs → 2 * tlvs.length ≤ bytes.length) ∧
    (∀ tlv rest, Tlv.read bytes = .ok (tlv, rest) → rest.length + 2 ≤ bytes.length) ∧
    ∃ tlvs left, Tlv.Takes bytes tlvs left ∧ 2 * tlvs.length + left.length ≤ bytes.length ∧
      (left = [] ∧ Tlv.decodeAll bytes = .ok tlvs ∨
        ∃ e, Tlv.read left = .error e ∧ Tlv.decodeAll bytes = .error e) := by
  refine ⟨fun root h => ⟨?_, ?_⟩, fun tlvs h => ?_, fun tlv rest h => ?_, ?_⟩
  · obtain ⟨tlv, framed, tree⟩ := Except.bind_eq_ok.mp h
    have whole := Tlv.length_of_read (Tlv.read_of_decode (Except.mapError_eq_ok.mp framed))
    have nodes := two_mul_length_nodes_le tree
    rw [List.length_nil] at whole
    omega
  · intro level node below
    exact (wellFormed_of_decode h level node below).2
  · exact (Tlv.takes_of_decodeAll h).two_mul_length_le
  · have taken := Tlv.length_of_read h
    omega
  · obtain ⟨tlvs, left, steps, stop⟩ := Tlv.exists_takes bytes
    exact ⟨tlvs, left, steps, steps.two_mul_length_le, stop⟩

/-- Four nodes in eight octets, which are as few as can hold them; and a run that stops at its second
element. -/
theorem nodes_within_input_nested :
    let bytes : Bytes := [0xa0, 0x06, 0x30, 0x04, 0x05, 0x00, 0x05, 0x00]
    let null : Tlv := ⟨.universal 5 false, []⟩
    let root := taggedList (.contextConstructed 0)
      [sequence [primitive .null (), primitive .null ()]]
    decode bytes = .ok root ∧ root.nodes.length = 4 ∧ 2 * root.nodes.length ≤ bytes.length ∧
      NodeBelow root 2 (primitive .null ()) ∧ 2 ≤ 64 ∧
      Tlv.decodeAll [0x05, 0x00, 0x05, 0x00] = .ok [null, null] ∧ 2 * [null, null].length ≤ 4 ∧
      Tlv.read [0x05, 0x00, 0x04, 0x05] = .ok (null, [0x04, 0x05]) ∧ 2 + 2 ≤ 4 ∧
      ∃ tlvs left, Tlv.Takes [0x05, 0x00, 0x04, 0x05] tlvs left ∧
        2 * tlvs.length + left.length ≤ 4 := by
  intro bytes null root
  have tree : decode bytes = .ok root := Except.toOption_eq_some.mp (by decide +kernel)
  have run : Tlv.decodeAll [0x05, 0x00, 0x05, 0x00] = .ok [null, null] :=
    Except.toOption_eq_some.mp (by decide +kernel)
  have step : Tlv.read [0x05, 0x00, 0x04, 0x05] = .ok (null, [0x04, 0x05]) := by rfl
  have below : NodeBelow root 2 (primitive .null ()) :=
    .child List.mem_cons_self (.child List.mem_cons_self (.root _))
  obtain ⟨size, levels⟩ := (nodes_within_input bytes).1 root tree
  obtain ⟨-, -, taken, tlvs, left, steps, bound, -⟩ :=
    nodes_within_input [0x05, 0x00, 0x04, 0x05]
  exact ⟨tree, rfl, size, below, levels 2 _ below, run, (nodes_within_input _).2.1 _ run, step,
    taken _ _ step, tlvs, left, steps, bound⟩

end Element

end DerCodec
