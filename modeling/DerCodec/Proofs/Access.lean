import DerCodec.Element.Access
import DerCodec.Proofs.ElementTree

/-!
# What the readers of fields accept

Each reader of a field succeeds on exactly one element for every result, which its law names. An
implicitly tagged primitive field is the exception: it is also read from the typed element that is
framed the same way, but a tree that was decoded never holds that one under such a tag.
-/

namespace DerCodec

namespace BitString

theorem encode_of_decode {content : Bytes} {bits : BitString} (h : decode content = .ok bits) :
    bits.encode = content := by
  cases content with
  | nil => simp [decode] at h
  | cons unused octets =>
    simp only [decode, ofOctets] at h
    split at h
    · split at h
      · obtain rfl := Except.ok.inj h
        rfl
      · simp at h
    · simp at h

end BitString

namespace Element

theorem value_eq_ok {type : Primitive} {element : Element} {v : type.Value} :
    element.value type = .ok v ↔ element = primitive type v := by
  cases element with
  | primitive actual value =>
    by_cases same : actual = type
    · subst same
      simp [Element.value]
    · have differ : primitive actual value ≠ primitive type v := by
        intro equal
        injection equal with kinds
        exact same kinds
      simp [Element.value, same, differ]
  | _ => simp [Element.value]

theorem value_eq_error {type : Primitive} {element : Element} {e : ElementError}
    (h : element.value type = .error e) : e = element.unexpected type.formalName := by
  unfold Element.value at h
  split at h
  · split at h
    · simp at h
    · exact (Except.error.inj h).symm
  · exact (Except.error.inj h).symm

theorem asSequence_eq_ok {element : Element} {children : List Element} :
    element.asSequence = .ok children ↔ element = sequence children := by
  cases element <;> simp [asSequence]

theorem asSet_eq_ok {element : Element} {children : List Element} :
    element.asSet = .ok children ↔ element = set children := by
  cases element <;> simp [asSet]

/-- Under a tag of another class than UNIVERSAL there is only a tagged list. -/
theorem childrenUnder_eq_ok {tag : Tag} (foreign : tag.tagClass ≠ .universal) {element : Element}
    {children : List Element} :
    element.childrenUnder tag = .ok children ↔ element = taggedList tag children := by
  cases element with
  | sequence inner =>
    have differ : (sequence inner).tag ≠ tag := by
      rintro rfl
      exact foreign rfl
    simp [childrenUnder, differ]
  | set inner =>
    have differ : (set inner).tag ≠ tag := by
      rintro rfl
      exact foreign rfl
    simp [childrenUnder, differ]
  | taggedList actual inner =>
    by_cases same : actual = tag <;> simp [childrenUnder, same]
  | _ => simp [childrenUnder]

theorem explicitInner_eq_ok {number : UInt32} {element inner : Element} :
    element.explicitInner number = .ok inner ↔ element = explicit number inner := by
  have foreign : (Tag.contextConstructed number).tagClass ≠ .universal := nofun
  simp only [explicitInner, Except.bind_eq_ok, childrenUnder_eq_ok foreign, explicit]
  constructor
  · rintro ⟨children, rfl, single⟩
    split at single
    · obtain rfl := Except.ok.inj single
      rfl
    · simp at single
  · rintro rfl
    exact ⟨[inner], rfl, rfl⟩

theorem decodeAs_eq_ok_iff {type : Primitive} {tag : Tag} {element : Element} {v : type.Value} :
    element.decodeAs type tag = .ok v ↔
      ∃ content, element.toTlv = .ok ⟨tag, content⟩ ∧ type.decode content = .ok v := by
  simp only [decodeAs, Primitive.decodeAs, Except.bind_eq_ok]
  constructor
  · rintro ⟨⟨actual, content⟩, written, read⟩
    split at read
    · rename_i same
      obtain rfl : actual = tag := same
      exact ⟨content, written, read⟩
    · simp at read
  · rintro ⟨content, written, read⟩
    exact ⟨⟨tag, content⟩, written, by simpa using read⟩

/-- A list is never framed under a primitive tag. -/
theorem map_constructed_ne {tag : Tag} (bare : tag.constructed = false) (outer : Tag)
    (children : List Element) (content : Bytes) :
    (toTlvs children).map (Tlv.constructed outer) ≠ .ok ⟨tag, content⟩ := by
  intro written
  obtain ⟨tlvs, -, same⟩ := Except.map_eq_ok.mp written
  have flag := congrArg (·.tag.constructed) same
  simp [Tlv.constructed, Tag.withConstructed, bare] at flag

/-- A sound element of another class is read under a primitive tag from its raw content. -/
theorem decodeAs_eq_ok {type : Primitive} {tag : Tag} (foreign : tag.tagClass ≠ .universal)
    (bare : tag.constructed = false) {element : Element} (sound : element.Sound) {v : type.Value} :
    element.decodeAs type tag = .ok v ↔
      ∃ content, element = taggedOctets tag content ∧ type.decode content = .ok v := by
  rw [decodeAs_eq_ok_iff]
  refine exists_congr fun content => and_congr_left fun _ => ?_
  cases element with
  | primitive actual value =>
    obtain ⟨octets, written⟩ := Primitive.exists_encode sound
    have differ : actual.tag ≠ tag := by
      rintro rfl
      exact foreign rfl
    simp [toTlv, Primitive.valueToTlv_eq sound written, differ]
  | sequence children =>
    simpa [toTlv] using map_constructed_ne bare Universal.sequence.tag children content
  | set children =>
    simpa [toTlv] using map_constructed_ne bare Universal.set.tag children content
  | taggedOctets actual octets => simp [toTlv]
  | taggedList actual children =>
    simpa [toTlv] using map_constructed_ne bare actual children content
  | unknown tlv =>
    have differ : tlv ≠ ⟨tag, content⟩ := by
      rintro rfl
      exact foreign sound.1
    simp [toTlv, differ]

/-- A sound element is read as a primitive type under its own tag when it is one of that type. -/
theorem asPrimitive_eq_ok {type : Primitive} {element : Element} (sound : element.Sound)
    {v : type.Value} : element.asPrimitive type = .ok v ↔ element = primitive type v := by
  have own := Universal.ofNumber?_number (.primitive type)
  rw [asPrimitive, decodeAs_eq_ok_iff]
  constructor
  · rintro ⟨content, framed, read⟩
    cases element with
    | primitive actual value =>
      obtain ⟨octets, written⟩ := Primitive.exists_encode sound
      rw [toTlv, Primitive.valueToTlv_eq sound written] at framed
      obtain ⟨tags, rfl⟩ := Tlv.mk.inj (Except.ok.inj framed)
      have numbers : actual.number = type.number := congrArg Tag.number tags
      have other := Universal.ofNumber?_number (.primitive actual)
      change Universal.ofNumber? actual.number = _ at other
      rw [numbers] at other
      obtain rfl := Universal.primitive.inj (Option.some.inj (other.symm.trans own))
      obtain rfl := Except.ok.inj ((Primitive.decode_of_encode sound written).symm.trans read)
      rfl
    | sequence children => exact absurd framed (map_constructed_ne rfl _ children content)
    | set children => exact absurd framed (map_constructed_ne rfl _ children content)
    | taggedOctets tag octets =>
      obtain ⟨rfl, -⟩ := Tlv.mk.inj (Except.ok.inj framed)
      exact absurd rfl sound.1
    | taggedList tag children => exact absurd framed (map_constructed_ne rfl tag children content)
    | unknown tlv =>
      obtain rfl := Except.ok.inj framed
      have missing : Universal.ofNumber? type.number = none := sound.2
      have known : Universal.ofNumber? type.number = some (.primitive type) := own
      simp [missing] at known
  · rintro rfl
    obtain ⟨content, written⟩ := Primitive.exists_encode sound
    exact ⟨content, Primitive.valueToTlv_eq sound written, Primitive.decode_of_encode sound written⟩

/-! ## Fields under a tag of another class -/

/-- A primitive field is kept as its content. -/
theorem implicit_eq_ok {tag : Tag} (foreign : tag.tagClass ≠ .universal)
    (bare : tag.constructed = false) {type : Primitive} {value : type.Value} {element : Element} :
    Element.implicit type tag value = .ok element ↔
      ∃ content, type.encode value = .ok content ∧ element = taggedOctets tag content := by
  have sound (content : Bytes) : (taggedOctets tag content).Sound := ⟨foreign, bare⟩
  simp only [Element.implicit, Primitive.encodeAs, bare, Bool.false_eq_true, if_false,
    Except.bind_eq_ok, Except.pure_def, Except.ok.injEq, ofTlv]
  constructor
  · rintro ⟨_, ⟨content, octets, rfl⟩, framed⟩
    rw [ofTlvWithin_taggedOctets (sound content)] at framed
    exact ⟨content, octets, (Except.ok.inj framed).symm⟩
  · rintro ⟨content, octets, rfl⟩
    exact ⟨_, ⟨content, octets, rfl⟩, ofTlvWithin_taggedOctets (sound content)⟩

theorem context_foreign (number : UInt32) : (Tag.context number).tagClass ≠ .universal := nofun

theorem contextConstructed_foreign (number : UInt32) :
    (Tag.contextConstructed number).tagClass ≠ .universal := nofun

theorem decodeAs_taggedOctets (type : Primitive) (tag : Tag) (content : Bytes) :
    (taggedOctets tag content).decodeAs type tag = type.decode content := by
  simp [decodeAs, toTlv, Primitive.decodeAs]

theorem decodeAs_of_implicit {type : Primitive} {number : UInt32} {value : type.Value}
    {element : Element} (h : Element.implicit type (.context number) value = .ok element)
    (exact : ∀ value, type.kept value = value) :
    ∃ content, element = taggedOctets (.context number) content ∧
      decodeAs type (.context number) (taggedOctets (.context number) content) = .ok value := by
  obtain ⟨content, octets, rfl⟩ := (implicit_eq_ok (context_foreign number) rfl).mp h
  refine ⟨content, rfl, ?_⟩
  rw [decodeAs_taggedOctets]
  exact Primitive.decode_of_encode (Primitive.carries_of_encode exact octets) octets

/-- An optional field of a type in which each value has one content. -/
theorem mapM_decodeAs_eq_ok {type : Primitive} {tag : Tag} (foreign : tag.tagClass ≠ .universal)
    (bare : tag.constructed = false) {content : type.Value → Bytes}
    (only : ∀ octets value, type.decode octets = .ok value ↔ octets = content value)
    {slot : Option Element} (sound : ∀ element ∈ slot, element.Sound) {field : Option type.Value} :
    slot.mapM (decodeAs type tag) = .ok field ↔
      slot = field.map fun value => taggedOctets tag (content value) := by
  rw [Except.option_mapM_eq_ok]
  cases slot with
  | none => cases field <;> simp
  | some element =>
    cases field with
    | none => simp
    | some value => simp [decodeAs_eq_ok foreign bare (sound element rfl), only]

section optional

variable {type : Primitive} {content : type.Value → Bytes}
  (total : ∀ value, type.encode value = .ok (content value)) (number : UInt32)

include total

/-- An optional field of a type whose values can all be written. -/
theorem mapM_implicit (field : Option type.Value) :
    field.mapM (Element.implicit type (.context number)) =
      .ok (field.map fun value => taggedOctets (.context number) (content value)) := by
  rw [Except.option_mapM_eq_ok]
  cases field with
  | none => exact .inl ⟨rfl, rfl⟩
  | some value =>
    have framed := (implicit_eq_ok (context_foreign number) rfl).mpr ⟨_, total value, rfl⟩
    exact .inr ⟨value, _, rfl, rfl, framed⟩

theorem mapM_decodeAs (exact : ∀ value, type.kept value = value) (field : Option type.Value) :
    (field.map fun value => taggedOctets (.context number) (content value)).mapM
      (decodeAs type (.context number)) = .ok field := by
  rw [Except.option_mapM_eq_ok]
  cases field with
  | none => exact .inl ⟨rfl, rfl⟩
  | some value =>
    have read := Primitive.decode_of_encode (Primitive.carries_of_encode exact (total value))
      (total value)
    exact .inr ⟨_, value, rfl, rfl, (decodeAs_taggedOctets ..).trans read⟩

end optional

/-! ## Nodes of a decoded tree -/

theorem sound_of_mem_nodes {bytes : Bytes} {root node : Element} (h : decode bytes = .ok root)
    (among : node ∈ root.nodes) : node.Sound := by
  obtain ⟨level, below⟩ := mem_nodes_iff.mp among
  exact (wellFormed_of_decode h level node below).1

/-- In a tree that was decoded, framing a node again and reading it as a primitive type gives what
the getter of that type gives, which is the value of a node of this very type. Under a primitive
tag of another class a node is read when it stands under exactly that tag, from its raw content. -/
theorem reads_agree_with_getters {bytes : Bytes} {root : Element} (h : decode bytes = .ok root) :
    ∀ node ∈ root.nodes, ∀ (type : Primitive) (v : type.Value),
      (node.asPrimitive type = .ok v ↔ node.value type = .ok v) ∧
      (node.value type = .ok v ↔ node = primitive type v) ∧
      ∀ tag : Tag, tag.constructed = false → tag.tagClass ≠ .universal →
        (node.decodeAs type tag = .ok v ↔
          ∃ content, node = taggedOctets tag content ∧ type.decode content = .ok v) := by
  intro node among type v
  have sound := sound_of_mem_nodes h among
  refine ⟨?_, value_eq_ok, fun tag bare foreign => decodeAs_eq_ok foreign bare sound⟩
  rw [asPrimitive_eq_ok sound, value_eq_ok]

/-- The same content octet in an ENUMERATED and under the tag `[0]`: the first is read as no
INTEGER, and the second as one under its own tag. -/
theorem reads_agree_with_getters_sameContent :
    decode [0x30, 0x06, 0x0a, 0x01, 0x05, 0x80, 0x01, 0x05] =
        .ok (sequence [primitive .enumerated 5, taggedOctets (.context 0) [0x05]]) ∧
      (primitive .enumerated 5).asPrimitive .enumerated = .ok 5 ∧
      (primitive .enumerated 5).asPrimitive .integer ≠ .ok 5 ∧
      (taggedOctets (.context 0) [0x05]).decodeAs .integer (.context 0) = .ok 5 ∧
      (taggedOctets (.context 0) [0x05]).decodeAs .integer (.context 1) ≠ .ok 5 := by
  have read : decode [0x30, 0x06, 0x0a, 0x01, 0x05, 0x80, 0x01, 0x05] =
      .ok (sequence [primitive .enumerated 5, taggedOctets (.context 0) [0x05]]) :=
    Except.toOption_eq_some.mp (by decide +kernel)
  have first := reads_agree_with_getters read (primitive .enumerated 5)
    (by simp [nodes, nodesOfAll])
  have second := reads_agree_with_getters read (taggedOctets (.context 0) [0x05])
    (by simp [nodes, nodesOfAll]) .integer 5
  have five : Primitive.integer.decode [0x05] = .ok 5 := by rfl
  refine ⟨read, (first .enumerated 5).1.mpr rfl, fun wrong => ?_, ?_, fun wrong => ?_⟩
  · exact absurd ((first .integer 5).1.mp wrong) (by decide)
  · exact (second.2.2 (.context 0) rfl (context_foreign 0)).mpr ⟨_, rfl, five⟩
  · obtain ⟨content, same, -⟩ := (second.2.2 _ rfl (context_foreign 1)).mp wrong
    exact absurd (taggedOctets.inj same).1 (by decide)

end Element

end DerCodec
