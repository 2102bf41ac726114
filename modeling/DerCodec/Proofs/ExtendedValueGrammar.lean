import DerCodec.ExtendedValue
import DerCodec.Proofs.Access
import DerCodec.Proofs.Growth
import DerCodec.Proofs.SchemaRoundTrip

/-!
# The grammar of extended operation values

`ExtendedValue.Framed` says which framed element stands for a value, down to the octets of every
field and without trees or schemas. Each reader accepts exactly the elements that its grammar
frames, so an octet string is an error unless it frames a value of the operation.
-/

namespace DerCodec

/-! ## Grammar -/

namespace Tlv

/-- A SEQUENCE of exactly these elements, each in any valid framing. -/
def Holds (tlv : Tlv) (children : List Tlv) : Prop :=
  tlv.tag = Universal.sequence.tag ∧ decodeAll tlv.content = .ok children

/-- A SEQUENCE with one element for each of the values, in order. -/
def HoldsEach {α : Type} (Framed : Tlv → α → Prop) (tlv : Tlv) (values : List α) : Prop :=
  ∃ children, tlv.Holds children ∧ List.Forall₂ Framed children values

end Tlv

namespace OtpMechanism

/-- The fields that may follow the name, in the order in which they are written. -/
def optionalTlvs (mechanism : OtpMechanism) : List Tlv :=
  [mechanism.isSupported.map fun value => ⟨.context 1, [if value then 0xff else 0x00]⟩,
    mechanism.recipientId.map fun id => ⟨.context 2, Utf8.encode id⟩].filterMap id

/-- The name comes first. The other fields may come in any order. -/
def Framed (tlv : Tlv) (mechanism : OtpMechanism) : Prop :=
  ∃ rest, rest.Perm mechanism.optionalTlvs ∧
    tlv.Holds (⟨.context 0, Utf8.encode mechanism.name⟩ :: rest)

end OtpMechanism

namespace BackupCompatibility

def tlvs (request : BackupCompatibility) : List Tlv :=
  [⟨.context 0, request.source⟩, ⟨.context 1, request.target⟩]

/-- The two descriptors and nothing else. -/
def Framed (tlv : Tlv) (request : BackupCompatibility) : Prop :=
  tlv.Holds request.tlvs

end BackupCompatibility

namespace NotificationDestination

def IdFramed (tlv : Tlv) (id : String) : Prop :=
  tlv = ⟨Primitive.octetString.tag, Utf8.encode id⟩

def DetailsFramed : Tlv → List Bytes → Prop :=
  Tlv.HoldsEach fun tlv octets => tlv = ⟨Primitive.octetString.tag, octets⟩

end NotificationDestination

namespace NotificationSubscription

open NotificationDestination

def Framed (tlv : Tlv) (subscription : NotificationSubscription) : Prop :=
  ∃ id details, tlv.Holds [id, details] ∧ IdFramed id subscription.id ∧
    DetailsFramed details subscription.details

end NotificationSubscription

def NotificationDestination.Framed (tlv : Tlv) (destination : NotificationDestination) : Prop :=
  ∃ id details subscriptions, tlv.Holds [id, details, subscriptions] ∧
    IdFramed id destination.id ∧ DetailsFramed details destination.details ∧
    subscriptions.HoldsEach NotificationSubscription.Framed destination.subscriptions

/-- The element that an octet string must frame to carry the value. -/
def ExtendedValue.Framed (tlv : Tlv) : ExtendedValue → Prop
  | otpDelivery mechanisms => tlv.HoldsEach OtpMechanism.Framed mechanisms
  | backupCompatibility request => request.Framed tlv
  | notificationSubscriptions destinations =>
    tlv.HoldsEach NotificationDestination.Framed destinations

/-! ## Readers of elements -/

namespace Element

theorem ofTlvWithin_eq_octetString {levels : Nat} {tlv : Tlv} {octets : Bytes} :
    ofTlvWithin (levels + 1) tlv = .ok (primitive .octetString octets) ↔
      tlv = ⟨Primitive.octetString.tag, octets⟩ := by
  constructor
  · intro h
    cases nodeOf_of_ofTlvWithin h with
    | primitive read =>
      obtain rfl := Except.ok.inj read
      rfl
  · rintro rfl
    exact ofTlvWithin_primitive ..

theorem ofTlvWithin_eq_taggedOctets {levels : Nat} {tlv : Tlv} {tag : Tag} {content : Bytes}
    (foreign : tag.tagClass ≠ .universal) (bare : tag.constructed = false) :
    ofTlvWithin (levels + 1) tlv = .ok (taggedOctets tag content) ↔ tlv = ⟨tag, content⟩ := by
  constructor
  · intro h
    cases nodeOf_of_ofTlvWithin h with
    | taggedOctets => rfl
  · rintro rfl
    exact ofTlvWithin_taggedOctets ⟨foreign, bare⟩

theorem ofTlvWithin_eq_sequence {levels : Nat} {tlv : Tlv} {children : List Element} :
    ofTlvWithin (levels + 1) tlv = .ok (sequence children) ↔
      ∃ tlvs, tlv.Holds tlvs ∧ tlvs.mapM (ofTlvWithin levels) = .ok children := by
  constructor
  · intro h
    cases nodeOf_of_ofTlvWithin h with
    | sequence read =>
      obtain ⟨tlvs, framed, run⟩ := ofChildren_eq_ok.mp read
      exact ⟨tlvs, ⟨rfl, framed⟩, run⟩
  · rintro ⟨tlvs, ⟨same, framed⟩, run⟩
    obtain ⟨tag, content⟩ := tlv
    obtain rfl : tag = Universal.sequence.tag := same
    exact Except.map_eq_ok.mpr ⟨children, ofChildren_eq_ok.mpr ⟨tlvs, framed, run⟩, rfl⟩

/-- With so many levels to go, a reader of one element takes exactly what is framed so. -/
def Accepts {α : Type} (levels : Nat) (read : Element → Except ElementError α)
    (Framed : Tlv → α → Prop) : Prop :=
  ∀ tlv value, (∃ element, ofTlvWithin levels tlv = .ok element ∧ read element = .ok value) ↔
    Framed tlv value

/-- As above, for a reader of the elements of a SEQUENCE. -/
def AcceptsAll {α : Type} (levels : Nat) (read : List Element → Except ElementError α)
    (Framed : List Tlv → α → Prop) : Prop :=
  ∀ tlvs value, (∃ elements, tlvs.mapM (ofTlvWithin levels) = .ok elements ∧
    read elements = .ok value) ↔ Framed tlvs value

section Accepts

variable {α : Type} {levels : Nat}

theorem Accepts.mapM {read : Element → Except ElementError α} {Framed : Tlv → α → Prop}
    (h : Accepts levels read Framed) :
    AcceptsAll levels (List.mapM read) (List.Forall₂ Framed) := by
  intro tlvs values
  rw [Except.exists_mapM_mapM]
  simp only [h _ _]

theorem AcceptsAll.sequence {read : List Element → Except ElementError α}
    {Framed : List Tlv → α → Prop} (h : AcceptsAll levels read Framed) :
    Accepts (levels + 1) (fun element => element.asSequence >>= read)
      fun tlv value => ∃ tlvs, tlv.Holds tlvs ∧ Framed tlvs value := by
  intro tlv value
  simp only [Except.bind_eq_ok, asSequence_eq_ok, ← h _ _]
  constructor
  · rintro ⟨_, whole, children, rfl, read⟩
    obtain ⟨tlvs, framed, run⟩ := ofTlvWithin_eq_sequence.mp whole
    exact ⟨tlvs, framed, children, run, read⟩
  · rintro ⟨tlvs, framed, children, run, read⟩
    exact ⟨_, ofTlvWithin_eq_sequence.mpr ⟨tlvs, framed, run⟩, children, rfl, read⟩

theorem Accepts.sequenceOf {read : Element → Except ElementError α} {Framed : Tlv → α → Prop}
    (h : Accepts levels read Framed) :
    Accepts (levels + 1) (fun element => element.asSequence >>= List.mapM read)
      (Tlv.HoldsEach Framed) :=
  h.mapM.sequence

end Accepts

end Element

namespace NotificationDestination

theorem idOfElement_eq_ok {element : Element} {id : String} :
    idOfElement element = .ok id ↔ element = idToElement id := by
  simp only [idOfElement, Except.bind_eq_ok, Utf8.decode_eq_ok]
  constructor
  · rintro ⟨content, held, rfl⟩
    exact Element.value_eq_ok.mp held
  · rintro rfl
    exact ⟨_, Element.value_eq_ok.mpr rfl, rfl⟩

theorem accepts_id (levels : Nat) : Element.Accepts (levels + 1) idOfElement IdFramed := by
  intro tlv id
  simp only [idOfElement_eq_ok, exists_eq_right]
  exact Element.ofTlvWithin_eq_octetString

theorem accepts_details (levels : Nat) :
    Element.Accepts (levels + 2) detailsOfElement DetailsFramed := by
  apply Element.Accepts.sequenceOf
  intro tlv octets
  constructor
  · rintro ⟨element, whole, read⟩
    have sound := (Element.sound_of_ofTlvWithin whole).1
    obtain rfl := (Element.asPrimitive_eq_ok sound).mp read
    exact Element.ofTlvWithin_eq_octetString.mp whole
  · intro framed
    have sound : (Element.primitive .octetString octets).Sound := trivial
    exact ⟨_, Element.ofTlvWithin_eq_octetString.mpr framed,
      (Element.asPrimitive_eq_ok sound).mpr rfl⟩

end NotificationDestination

namespace NotificationSubscription

open NotificationDestination

theorem schema_exact : schema.Exact [Primitive.octetString.tag, Universal.sequence.tag] :=
  ⟨rfl, by decide, rfl, rfl⟩

theorem ofElement_eq_ok {element : Element} {subscription : NotificationSubscription} :
    ofElement element = .ok subscription ↔ ∃ id details, element = .sequence [id, details] ∧
      idOfElement id = .ok subscription.id ∧
      detailsOfElement details = .ok subscription.details := by
  simp only [ofElement, Except.bind_eq_ok, Except.mapError_eq_ok, Element.asSequence_eq_ok,
    schema_exact.decode_eq_ok]
  constructor
  · rintro ⟨elements, rfl, fields, ⟨tags, rfl⟩, rest⟩
    obtain ⟨id, details, rfl⟩ := List.length_eq_two.mp (by simpa using congrArg List.length tags)
    obtain ⟨_, ⟨⟩, idText, readId, _, ⟨⟩, octets, readDetails, ⟨⟩⟩ := rest
    exact ⟨id, details, rfl, readId, readDetails⟩
  · rintro ⟨id, details, rfl, readId, readDetails⟩
    obtain rfl := idOfElement_eq_ok.mp readId
    obtain ⟨octets, same, -⟩ := Except.bind_eq_ok.mp readDetails
    obtain rfl := Element.asSequence_eq_ok.mp same
    exact ⟨_, rfl, _, ⟨rfl, rfl⟩, _, rfl, _, readId, _, rfl, _, readDetails, rfl⟩

theorem accepts (levels : Nat) : Element.Accepts (levels + 3) ofElement Framed := by
  intro tlv subscription
  constructor
  · rintro ⟨element, whole, read⟩
    obtain ⟨id, details, rfl, readId, readDetails⟩ := ofElement_eq_ok.mp read
    obtain ⟨tlvs, framed, run⟩ := Element.ofTlvWithin_eq_sequence.mp whole
    obtain _ | ⟨idNode, _ | ⟨detailsNode, _ | _⟩⟩ := Except.mapM_eq_ok.mp run
    exact ⟨_, _, framed, (accepts_id _ _ _).mp ⟨id, idNode, readId⟩,
      (accepts_details _ _ _).mp ⟨details, detailsNode, readDetails⟩⟩
  · rintro ⟨idTlv, detailsTlv, framed, idFramed, detailsFramed⟩
    obtain ⟨id, idNode, readId⟩ := (accepts_id (levels + 1) _ _).mpr idFramed
    obtain ⟨details, detailsNode, readDetails⟩ := (accepts_details levels _ _).mpr detailsFramed
    have run := Except.mapM_eq_ok.mpr (.cons idNode (.cons detailsNode .nil))
    exact ⟨_, Element.ofTlvWithin_eq_sequence.mpr ⟨_, framed, run⟩,
      ofElement_eq_ok.mpr ⟨id, details, rfl, readId, readDetails⟩⟩

end NotificationSubscription

namespace NotificationDestination

theorem schema_exact : schema.Exact
    [Primitive.octetString.tag, Universal.sequence.tag, Universal.sequence.tag] :=
  ⟨rfl, by decide, rfl, rfl⟩

/-- The run of subscriptions in their SEQUENCE. -/
def subscriptionsOfElement (element : Element) :
    Except ElementError (List NotificationSubscription) :=
  element.asSequence >>= List.mapM NotificationSubscription.ofElement

theorem ofElement_eq_ok {element : Element} {destination : NotificationDestination} :
    ofElement element = .ok destination ↔ ∃ id details subscriptions,
      element = .sequence [id, details, subscriptions] ∧
      idOfElement id = .ok destination.id ∧ detailsOfElement details = .ok destination.details ∧
      subscriptionsOfElement subscriptions = .ok destination.subscriptions := by
  simp only [ofElement, subscriptionsOfElement, Except.bind_eq_ok, Except.mapError_eq_ok,
    Element.asSequence_eq_ok, schema_exact.decode_eq_ok]
  constructor
  · rintro ⟨elements, rfl, fields, ⟨tags, rfl⟩, rest⟩
    obtain ⟨id, details, subscriptions, rfl⟩ :=
      List.length_eq_three.mp (by simpa using congrArg List.length tags)
    obtain ⟨_, ⟨⟩, inner, same, found, run, _, ⟨⟩, idText, readId, _, ⟨⟩, octets, readDetails,
      ⟨⟩⟩ := rest
    exact ⟨id, details, subscriptions, rfl, readId, readDetails, inner, same, run⟩
  · rintro ⟨id, details, _, rfl, readId, readDetails, inner, rfl, run⟩
    obtain rfl := idOfElement_eq_ok.mp readId
    obtain ⟨octets, same, -⟩ := Except.bind_eq_ok.mp readDetails
    obtain rfl := Element.asSequence_eq_ok.mp same
    exact ⟨_, rfl, _, ⟨rfl, rfl⟩, _, rfl, inner, rfl, _, run, _, rfl, _, readId, _, rfl, _,
      readDetails, rfl⟩

theorem accepts (levels : Nat) : Element.Accepts (levels + 5) ofElement Framed := by
  intro tlv destination
  have subscriptionsLaw : Element.Accepts (levels + 4) subscriptionsOfElement
      (Tlv.HoldsEach NotificationSubscription.Framed) :=
    (NotificationSubscription.accepts levels).sequenceOf
  constructor
  · rintro ⟨element, whole, read⟩
    obtain ⟨id, details, subscriptions, rfl, readId, readDetails, readSubscriptions⟩ :=
      ofElement_eq_ok.mp read
    obtain ⟨tlvs, framed, run⟩ := Element.ofTlvWithin_eq_sequence.mp whole
    obtain _ | ⟨idNode, _ | ⟨detailsNode, _ | ⟨subscriptionsNode, _ | _⟩⟩⟩ :=
      Except.mapM_eq_ok.mp run
    exact ⟨_, _, _, framed, (accepts_id _ _ _).mp ⟨id, idNode, readId⟩,
      (accepts_details _ _ _).mp ⟨details, detailsNode, readDetails⟩,
      (subscriptionsLaw _ _).mp ⟨subscriptions, subscriptionsNode, readSubscriptions⟩⟩
  · rintro ⟨idTlv, detailsTlv, subscriptionsTlv, framed, idFramed, detailsFramed, listFramed⟩
    obtain ⟨id, idNode, readId⟩ := (accepts_id (levels + 3) _ _).mpr idFramed
    obtain ⟨details, detailsNode, readDetails⟩ :=
      (accepts_details (levels + 2) _ _).mpr detailsFramed
    obtain ⟨subscriptions, subscriptionsNode, readSubscriptions⟩ :=
      (subscriptionsLaw _ _).mpr listFramed
    have run := Except.mapM_eq_ok.mpr
      (.cons idNode (.cons detailsNode (.cons subscriptionsNode .nil)))
    exact ⟨_, Element.ofTlvWithin_eq_sequence.mpr ⟨_, framed, run⟩,
      ofElement_eq_ok.mpr ⟨id, details, subscriptions, rfl, readId, readDetails,
        readSubscriptions⟩⟩

end NotificationDestination

/-! ## Fields of another class -/

namespace Tlv

def IsField (tlv : Tlv) : Prop :=
  tlv.tag.tagClass ≠ .universal ∧ tlv.tag.constructed = false

/-- An element of another class stands in a tree as it is framed. -/
def asField (tlv : Tlv) : Element :=
  .taggedOctets tlv.tag tlv.content

theorem asField_injective : Function.Injective asField := by
  rintro ⟨tag, content⟩ ⟨tag', content'⟩ same
  obtain ⟨rfl, rfl⟩ := Element.taggedOctets.inj same
  rfl

theorem mapM_ofTlvWithin_fields (levels : Nat) {tlvs : List Tlv} (h : ∀ tlv ∈ tlvs, tlv.IsField) :
    tlvs.mapM (Element.ofTlvWithin (levels + 1)) = .ok (tlvs.map asField) := by
  induction tlvs with
  | nil => rfl
  | cons tlv tlvs ih =>
    obtain ⟨first, rest⟩ := List.forall_mem_cons.mp h
    rw [List.mapM_cons, (Element.ofTlvWithin_eq_taggedOctets first.1 first.2).mpr rfl, ih rest]
    rfl

theorem eq_map_asField {levels : Nat} {tlvs fields : List Tlv} {elements : List Element}
    (h : ∀ field ∈ fields, field.IsField)
    (read : tlvs.mapM (Element.ofTlvWithin (levels + 1)) = .ok elements)
    (among : ∀ element ∈ elements, element ∈ fields.map asField) :
    elements = tlvs.map asField := by
  have run := Except.mapM_eq_ok.mp read
  clear read
  induction run with
  | nil => rfl
  | cons first _ ih =>
    obtain ⟨own, rest⟩ := List.forall_mem_cons.mp among
    obtain ⟨field, member, rfl⟩ := List.mem_map.mp own
    obtain ⟨foreign, bare⟩ := h field member
    obtain rfl := (Element.ofTlvWithin_eq_taggedOctets foreign bare).mp first
    rw [ih rest, List.map_cons]

/-- Fields of another class are framed in any order in which they are read. -/
theorem exists_mapM_fields_iff {levels : Nat} {tlvs fields : List Tlv}
    (h : ∀ field ∈ fields, field.IsField) :
    (∃ elements, tlvs.mapM (Element.ofTlvWithin (levels + 1)) = .ok elements ∧
      elements.Perm (fields.map asField)) ↔ tlvs.Perm fields := by
  constructor
  · rintro ⟨elements, read, order⟩
    rw [eq_map_asField h read fun _ member => order.subset member] at order
    exact (List.map_perm_map_iff asField_injective).mp order
  · intro order
    exact ⟨_, mapM_ofTlvWithin_fields levels fun tlv member => h tlv (order.subset member),
      order.map asField⟩

theorem mapM_fields_iff {levels : Nat} {tlvs fields : List Tlv}
    (h : ∀ field ∈ fields, field.IsField) :
    tlvs.mapM (Element.ofTlvWithin (levels + 1)) = .ok (fields.map asField) ↔ tlvs = fields := by
  constructor
  · intro read
    exact (asField_injective.list_map (eq_map_asField h read fun _ member => member)).symm
  · rintro rfl
    exact mapM_ofTlvWithin_fields levels h

end Tlv

theorem Element.sound_of_mapM_ofTlvWithin {levels : Nat} {tlvs : List Tlv} {elements : List Element}
    (read : tlvs.mapM (ofTlvWithin (levels + 1)) = .ok elements) :
    ∀ element ∈ elements, element.Sound := by
  intro element member
  obtain ⟨tlv, -, node⟩ := Except.exists_of_mem_mapM read member
  exact (sound_of_ofTlvWithin node).1

theorem Element.decodeAs_octetString_eq_ok {tag : Tag} (foreign : tag.tagClass ≠ .universal)
    (bare : tag.constructed = false) {element : Element} (sound : element.Sound) {octets : Bytes} :
    element.decodeAs .octetString tag = .ok octets ↔ element = (Tlv.mk tag octets).asField := by
  rw [decodeAs_eq_ok foreign bare sound]
  constructor
  · rintro ⟨content, rfl, ⟨⟩⟩
    rfl
  · rintro rfl
    exact ⟨octets, rfl, rfl⟩

namespace BackupCompatibility

theorem schema_exact : schema.Exact [sourceTag, targetTag] :=
  ⟨rfl, by decide, rfl, rfl⟩

theorem isField_of_mem_tlvs (request : BackupCompatibility) :
    ∀ tlv ∈ request.tlvs, tlv.IsField := by
  simp [tlvs, Tlv.IsField, Tag.context]

theorem ofElements_eq_ok {elements : List Element} (sound : ∀ element ∈ elements, element.Sound)
    {request : BackupCompatibility} :
    ofElements elements = .ok request ↔ elements = request.tlvs.map Tlv.asField := by
  have descriptor (number : UInt32) {element : Element} (member : element ∈ elements)
      {octets : Bytes} : element.decodeAs .octetString (.context number) = .ok octets ↔
        element = (Tlv.mk (.context number) octets).asField :=
    Element.decodeAs_octetString_eq_ok (Element.context_foreign number) rfl (sound element member)
  simp only [ofElements, Except.bind_eq_ok, Except.mapError_eq_ok, schema_exact.decode_eq_ok]
  constructor
  · rintro ⟨fields, ⟨tags, rfl⟩, rest⟩
    obtain ⟨first, second, rfl⟩ := List.length_eq_two.mp (by simpa using congrArg List.length tags)
    obtain ⟨_, ⟨⟩, source, readSource, _, ⟨⟩, target, readTarget, ⟨⟩⟩ := rest
    rw [(descriptor 0 List.mem_cons_self).mp readSource,
      (descriptor 1 (List.mem_cons_of_mem _ List.mem_cons_self)).mp readTarget]
    rfl
  · rintro rfl
    exact ⟨_, ⟨rfl, rfl⟩, _, rfl, _, (descriptor 0 List.mem_cons_self).mpr rfl, _, rfl, _,
      (descriptor 1 (List.mem_cons_of_mem _ List.mem_cons_self)).mpr rfl, rfl⟩

theorem acceptsAll (levels : Nat) :
    Element.AcceptsAll (levels + 1) ofElements fun tlvs request => tlvs = request.tlvs := by
  intro tlvs request
  change _ ↔ tlvs = request.tlvs
  rw [← Tlv.mapM_fields_iff request.isField_of_mem_tlvs]
  constructor
  · rintro ⟨elements, read, decoded⟩
    obtain rfl := (ofElements_eq_ok (Element.sound_of_mapM_ofTlvWithin read)).mp decoded
    exact read
  · intro read
    exact ⟨_, read, (ofElements_eq_ok (Element.sound_of_mapM_ofTlvWithin read)).mpr rfl⟩

end BackupCompatibility

namespace OtpMechanism

/-- The slots of the optional fields, as a tree holds them. -/
def slots (mechanism : OtpMechanism) : List (Option Element) :=
  [mechanism.isSupported.map fun value => .taggedOctets isSupportedTag (Boolean.encode value),
    mechanism.recipientId.map fun id => .taggedOctets recipientIdTag (Utf8.encode id)]

theorem filterMap_slots (mechanism : OtpMechanism) :
    mechanism.slots.filterMap id = mechanism.optionalTlvs.map Tlv.asField := by
  obtain ⟨name, isSupported, recipientId⟩ := mechanism
  cases isSupported <;> cases recipientId <;> rfl

theorem placed_slots (mechanism : OtpMechanism) : schema.Placed mechanism.slots := by
  refine ⟨rfl, ?_⟩
  intro index element held
  match index with
  | 0 =>
    obtain ⟨value, -, rfl⟩ := Option.map_eq_some_iff.mp (Option.some.inj held)
    rfl
  | 1 =>
    obtain ⟨id, -, rfl⟩ := Option.map_eq_some_iff.mp (Option.some.inj held)
    rfl
  | _ + 2 => simp [slots] at held

theorem isField_of_mem_optionalTlvs (mechanism : OtpMechanism) :
    ∀ tlv ∈ mechanism.optionalTlvs, tlv.IsField := by
  obtain ⟨name, isSupported, recipientId⟩ := mechanism
  cases isSupported <;> cases recipientId <;>
    simp [optionalTlvs, Tlv.IsField, Tag.context]

theorem mapM_utf8Decode_eq_ok {what : String} {octets : Option Bytes} {text : Option String} :
    octets.mapM (Utf8.decode what) = .ok text ↔ octets = text.map Utf8.encode := by
  rw [Except.option_mapM_eq_ok]
  cases octets <;> cases text <;> simp [Utf8.decode_eq_ok]

/-- Optional fields are read as the values that their slots are written for. -/
theorem slots_eq_iff {supported recipient : Option Element}
    (sound : ∀ element ∈ [supported, recipient].filterMap id, element.Sound)
    {mechanism : OtpMechanism} :
    [supported, recipient] = mechanism.slots ↔
      supported.mapM (Element.decodeAs .boolean isSupportedTag) = .ok mechanism.isSupported ∧
      recipient.mapM (Element.decodeAs .octetString recipientIdTag) =
        .ok (mechanism.recipientId.map Utf8.encode) := by
  have soundSupported : ∀ element ∈ supported, element.Sound := by
    rintro element ⟨⟩
    exact sound element (Schema.mem_filterMap_id.mpr ⟨0, rfl⟩)
  have soundRecipient : ∀ element ∈ recipient, element.Sound := by
    rintro element ⟨⟩
    exact sound element (Schema.mem_filterMap_id.mpr ⟨1, rfl⟩)
  have first := @Element.mapM_decodeAs_eq_ok .boolean isSupportedTag (Element.context_foreign 1) rfl
    Boolean.encode (fun _ _ => Boolean.decode_eq_ok) _ soundSupported mechanism.isSupported
  have second := @Element.mapM_decodeAs_eq_ok .octetString recipientIdTag
    (Element.context_foreign 2) rfl id (fun _ _ => by rw [Primitive.decode, Except.ok.injEq]; rfl) _
    soundRecipient (mechanism.recipientId.map Utf8.encode)
  rw [first, second, Option.map_map]
  simp [slots, Function.comp_def]

theorem ofElement_eq_ok {elements : List Element} (sound : ∀ element ∈ elements, element.Sound)
    {mechanism : OtpMechanism} : ofElement (.sequence elements) = .ok mechanism ↔
      ∃ rest, elements = .taggedOctets nameTag (Utf8.encode mechanism.name) :: rest ∧
        rest.Perm (mechanism.optionalTlvs.map Tlv.asField) := by
  have named {element : Element} (member : element ∈ elements) {octets : Bytes} :
      element.decodeAs .octetString nameTag = .ok octets ↔ element = .taggedOctets nameTag octets :=
    Element.decodeAs_octetString_eq_ok (Element.context_foreign 0) rfl (sound element member)
  simp only [ofElement, Except.bind_eq_ok, Except.mapError_eq_ok, Element.asSequence_eq_ok,
    Schema.decode_strict_eq_ok (show schema.extensible = false from rfl) (by decide)]
  constructor
  · rintro ⟨_, ⟨⟩, fields, ⟨front, rest, slots, rfl, accepted, valid, order, rfl⟩, reads⟩
    obtain _ | ⟨_, _ | _⟩ := accepted
    obtain ⟨supported, recipient, rfl⟩ := List.length_eq_two.mp valid.1
    obtain ⟨_, ⟨⟩, octets, readName, isSupported, readSupported, recipientOctets, readRecipient,
      name, decodeName, recipientId, decodeRecipient, ⟨⟩⟩ := reads
    obtain rfl := Utf8.decode_eq_ok.mp decodeName
    obtain rfl := mapM_utf8Decode_eq_ok.mp decodeRecipient
    have later : ∀ element ∈ [supported, recipient].filterMap id, element.Sound :=
      fun element member => sound element (List.mem_cons_of_mem _ (order.symm.subset member))
    have filled : [supported, recipient] = OtpMechanism.slots ⟨name, isSupported, recipientId⟩ :=
      (slots_eq_iff later).mpr ⟨readSupported, readRecipient⟩
    rw [filled, filterMap_slots] at order
    exact ⟨rest, congrArg (· :: rest) ((named List.mem_cons_self).mp readName), order⟩
  · rintro ⟨rest, rfl, order⟩
    rw [← filterMap_slots] at order
    have later : ∀ element ∈ mechanism.slots.filterMap id, element.Sound :=
      fun element member => sound element (List.mem_cons_of_mem _ (order.symm.subset member))
    obtain ⟨readSupported, readRecipient⟩ := (slots_eq_iff later).mp rfl
    exact ⟨_, rfl, _, ⟨[_], rest, mechanism.slots, rfl, .cons rfl .nil, mechanism.placed_slots,
      order, rfl⟩, _, rfl, _, (named List.mem_cons_self).mpr rfl, _, readSupported, _,
      readRecipient, _, Utf8.decode_eq_ok.mpr rfl, _, mapM_utf8Decode_eq_ok.mpr rfl, rfl⟩

theorem accepts (levels : Nat) : Element.Accepts (levels + 2) ofElement Framed := by
  intro tlv mechanism
  constructor
  · rintro ⟨element, whole, read⟩
    obtain ⟨elements, same, -⟩ := Except.bind_eq_ok.mp read
    obtain rfl := Element.asSequence_eq_ok.mp same
    obtain ⟨tlvs, framed, run⟩ := Element.ofTlvWithin_eq_sequence.mp whole
    obtain ⟨rest, rfl, order⟩ := (ofElement_eq_ok (Element.sound_of_mapM_ofTlvWithin run)).mp read
    obtain _ | ⟨first, others⟩ := Except.mapM_eq_ok.mp run
    obtain rfl := (Element.ofTlvWithin_eq_taggedOctets (Element.context_foreign 0) rfl).mp first
    exact ⟨_, (Tlv.exists_mapM_fields_iff mechanism.isField_of_mem_optionalTlvs).mp
      ⟨rest, Except.mapM_eq_ok.mpr others, order⟩, framed⟩
  · rintro ⟨rest, order, framed⟩
    obtain ⟨elements, others, same⟩ :=
      (Tlv.exists_mapM_fields_iff mechanism.isField_of_mem_optionalTlvs).mpr order
    have first : Element.ofTlvWithin (levels + 1) ⟨nameTag, Utf8.encode mechanism.name⟩ = .ok _ :=
      (Element.ofTlvWithin_eq_taggedOctets (Element.context_foreign 0) rfl).mpr rfl
    have run := Except.mapM_eq_ok.mpr (.cons first (Except.mapM_eq_ok.mp others))
    exact ⟨_, Element.ofTlvWithin_eq_sequence.mpr ⟨_, framed, run⟩,
      (ofElement_eq_ok (Element.sound_of_mapM_ofTlvWithin run)).mpr ⟨elements, rfl, same⟩⟩

end OtpMechanism

namespace ExtendedValue

/-! ## Whole values -/

theorem elements_eq_ok {octets : Bytes} {elements : List Element} :
    ExtendedValue.elements octets = .ok elements ↔ ∃ tlv tlvs, Tlv.decode octets = .ok tlv ∧
      tlv.Holds tlvs ∧ tlvs.mapM (Element.ofTlvWithin Element.depthLimit) = .ok elements := by
  simp only [ExtendedValue.elements, Element.decode, Element.ofTlv, Except.bind_eq_ok,
    Except.mapError_eq_ok, Element.asSequence_eq_ok]
  constructor
  · rintro ⟨_, ⟨tlv, framed, whole⟩, rfl⟩
    obtain ⟨tlvs, holds, run⟩ := Element.ofTlvWithin_eq_sequence.mp whole
    exact ⟨tlv, tlvs, framed, holds, run⟩
  · rintro ⟨tlv, tlvs, framed, holds, run⟩
    exact ⟨_, ⟨tlv, framed, Element.ofTlvWithin_eq_sequence.mpr ⟨tlvs, holds, run⟩⟩, rfl⟩

/-- A reader of the elements of the value, by the grammar of these elements. -/
theorem bind_elements_eq_ok {α : Type} {read : List Element → Except ElementError α}
    {Framed : List Tlv → α → Prop} (law : Element.AcceptsAll Element.depthLimit read Framed)
    {wrap : α → ExtendedValue} {octets : Bytes} {value : ExtendedValue} :
    (ExtendedValue.elements octets >>= fun elements => read elements >>= fun a => pure (wrap a)) =
      .ok value ↔ ∃ a, wrap a = value ∧
        ∃ tlv, Tlv.decode octets = .ok tlv ∧ ∃ tlvs, tlv.Holds tlvs ∧ Framed tlvs a := by
  simp only [Except.bind_eq_ok, Except.pure_def, Except.ok.injEq, elements_eq_ok, ← law _ _]
  grind

theorem ofOctets_eq_ok {operation : ExtendedOperation} {octets : Bytes} {value : ExtendedValue} :
    ofOctets operation octets = .ok value ↔ value.operation = operation ∧
      ∃ tlv, Tlv.decode octets = .ok tlv ∧ value.Framed tlv := by
  cases operation with
  | otpDelivery =>
    refine (bind_elements_eq_ok (OtpMechanism.accepts 62).mapM).trans ?_
    cases value <;> simp [ExtendedValue.operation, ExtendedValue.Framed, Tlv.HoldsEach]
  | backupCompatibility =>
    refine (bind_elements_eq_ok (BackupCompatibility.acceptsAll 63)).trans ?_
    cases value <;> simp [ExtendedValue.operation, ExtendedValue.Framed, BackupCompatibility.Framed]
  | notificationSubscriptions =>
    refine (bind_elements_eq_ok (NotificationDestination.accepts 59).mapM).trans ?_
    cases value <;> simp [ExtendedValue.operation, ExtendedValue.Framed, Tlv.HoldsEach]

/-- The values of an operation are read from exactly the octets that frame them by its grammar, and
all other octets are an error. -/
theorem ofValue_iff_framed (operation : ExtendedOperation) (octets : Bytes) :
    (∀ value, ofValue operation (some octets) = .ok value ↔
      value.operation = operation ∧ ∃ tlv, Tlv.decode octets = .ok tlv ∧ value.Framed tlv) ∧
    ((∃ e, ofValue operation (some octets) = .error e) ↔
      ¬∃ value : ExtendedValue, value.operation = operation ∧
        ∃ tlv, Tlv.decode octets = .ok tlv ∧ value.Framed tlv) := by
  constructor
  · intro value
    exact Except.mapError_eq_ok.trans ofOctets_eq_ok
  · simp only [Except.exists_error_iff, ofValue, Except.mapError_eq_ok, ofOctets_eq_ok]

/-- The tags of the grammar, in octets. -/
example : [Universal.sequence.tag, Primitive.octetString.tag, .context 0, .context 1,
    .context 2].map Tag.encode = [[0x30], [0x04], [0x80], [0x81], [0x82]] := by decide

end ExtendedValue

end DerCodec
