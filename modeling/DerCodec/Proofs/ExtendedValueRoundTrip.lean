import DerCodec.Proofs.ExtendedValueGrammar

/-!
# Extended operation values round trip

Every value can be written, in one form that its grammar frames, and no octets that carry the value
are shorter than that form. So a value comes back from what it is written as, and so does a value
that was read from octets in memory, however these were framed.
-/

namespace DerCodec

/-! ## Forms that are written -/

namespace Tlv

/-- The elements in a SEQUENCE that can be counted are those it was written for. -/
theorem holds_constructed {tlvs : List Tlv}
    (h : (constructed Universal.sequence.tag tlvs).Countable) :
    (constructed Universal.sequence.tag tlvs).Holds tlvs :=
  ⟨rfl, decodeAll_encodeAll fun _ member => h.child member⟩

theorem Holds.length_encode_le {tlv : Tlv} {tlvs written : List Tlv} (h : tlv.Holds tlvs)
    (shorter : (encodeAll written).length ≤ (encodeAll tlvs).length) :
    (constructed Universal.sequence.tag written).encode.length ≤ tlv.encode.length := by
  apply length_encode_mono
  · exact h.1.symm
  · exact Nat.le_trans shorter (length_encodeAll_le_of_decodeAll h.2)

/-- Each value is framed by what is written for it, and by nothing shorter. -/
structure Shortest {α : Type} (Framed : Tlv → α → Prop) (write : α → Tlv) : Prop where
  frames : ∀ value, (write value).Countable → Framed (write value) value
  shortest : ∀ tlv value, Framed tlv value → (write value).encode.length ≤ tlv.encode.length

def ofEach {α : Type} (write : α → Tlv) (values : List α) : Tlv :=
  constructed Universal.sequence.tag (values.map write)

theorem Shortest.each {α : Type} {Framed : Tlv → α → Prop} {write : α → Tlv}
    (h : Shortest Framed write) : Shortest (HoldsEach Framed) (ofEach write) where
  frames values small := by
    refine ⟨_, holds_constructed small, ?_⟩
    rw [List.forall₂_map_left_iff, List.forall₂_same]
    intro value member
    exact h.frames value (small.child (List.mem_map_of_mem member))
  shortest tlv values framed := by
    obtain ⟨children, holds, each⟩ := framed
    apply holds.length_encode_le
    apply length_encodeAll_le
    rw [List.forall₂_map_left_iff]
    exact (each.imp fun child value => h.shortest child value).flip

end Tlv

namespace NotificationDestination

def idTlv (id : String) : Tlv :=
  ⟨Primitive.octetString.tag, Utf8.encode id⟩

def detailsTlv : List Bytes → Tlv :=
  Tlv.ofEach (Tlv.mk Primitive.octetString.tag)

theorem idTlv_shortest : Tlv.Shortest IdFramed idTlv where
  frames _ _ := rfl
  shortest _ _ framed := framed ▸ Nat.le_refl _

theorem detailsTlv_shortest : Tlv.Shortest DetailsFramed detailsTlv :=
  Tlv.Shortest.each ⟨fun _ _ => rfl, fun _ _ framed => framed ▸ Nat.le_refl _⟩

end NotificationDestination

namespace NotificationSubscription

open NotificationDestination

def tlv (subscription : NotificationSubscription) : Tlv :=
  .constructed Universal.sequence.tag [idTlv subscription.id, detailsTlv subscription.details]

theorem tlv_shortest : Tlv.Shortest Framed tlv where
  frames subscription small := by
    refine ⟨_, _, Tlv.holds_constructed small, ?_, ?_⟩
    · exact idTlv_shortest.frames _ (small.child (by simp))
    · exact detailsTlv_shortest.frames _ (small.child (by simp))
  shortest framing subscription framed := by
    obtain ⟨id, details, holds, idFramed, detailsFramed⟩ := framed
    apply holds.length_encode_le
    apply Tlv.length_encodeAll_le
    exact .cons (idTlv_shortest.shortest _ _ idFramed)
      (.cons (detailsTlv_shortest.shortest _ _ detailsFramed) .nil)

end NotificationSubscription

namespace NotificationDestination

def tlv (destination : NotificationDestination) : Tlv :=
  .constructed Universal.sequence.tag [idTlv destination.id, detailsTlv destination.details,
    Tlv.ofEach NotificationSubscription.tlv destination.subscriptions]

theorem tlv_shortest : Tlv.Shortest Framed tlv where
  frames destination small := by
    refine ⟨_, _, _, Tlv.holds_constructed small, ?_, ?_, ?_⟩
    · exact idTlv_shortest.frames _ (small.child (by simp))
    · exact detailsTlv_shortest.frames _ (small.child (by simp))
    · exact NotificationSubscription.tlv_shortest.each.frames _ (small.child (by simp))
  shortest framing destination framed := by
    obtain ⟨id, details, subscriptions, holds, idFramed, detailsFramed, listFramed⟩ := framed
    apply holds.length_encode_le
    apply Tlv.length_encodeAll_le
    exact .cons (idTlv_shortest.shortest _ _ idFramed)
      (.cons (detailsTlv_shortest.shortest _ _ detailsFramed)
        (.cons (NotificationSubscription.tlv_shortest.each.shortest _ _ listFramed) .nil))

end NotificationDestination

namespace OtpMechanism

def tlv (mechanism : OtpMechanism) : Tlv :=
  .constructed Universal.sequence.tag
    (⟨.context 0, Utf8.encode mechanism.name⟩ :: mechanism.optionalTlvs)

theorem tlv_shortest : Tlv.Shortest Framed tlv where
  frames mechanism small := ⟨_, .refl _, Tlv.holds_constructed small⟩
  shortest framing mechanism framed := by
    obtain ⟨rest, order, holds⟩ := framed
    apply holds.length_encode_le
    -- The order of the fields does not change how long they are together.
    have same := ((order.cons ⟨.context 0, Utf8.encode mechanism.name⟩).flatMap_right
      Tlv.encode).length_eq
    exact Nat.le_of_eq same.symm

end OtpMechanism

namespace BackupCompatibility

def tlv (request : BackupCompatibility) : Tlv :=
  .constructed Universal.sequence.tag request.tlvs

theorem tlv_shortest : Tlv.Shortest Framed tlv where
  frames _ small := Tlv.holds_constructed small
  shortest _ _ framed := framed.length_encode_le (Nat.le_refl _)

end BackupCompatibility

namespace ExtendedValue

def tlv : ExtendedValue → Tlv
  | otpDelivery mechanisms => .ofEach OtpMechanism.tlv mechanisms
  | backupCompatibility request => request.tlv
  | notificationSubscriptions destinations => .ofEach NotificationDestination.tlv destinations

theorem tlv_shortest : Tlv.Shortest Framed tlv where
  frames value small := by
    cases value with
    | otpDelivery mechanisms => exact OtpMechanism.tlv_shortest.each.frames mechanisms small
    | backupCompatibility request => exact BackupCompatibility.tlv_shortest.frames request small
    | notificationSubscriptions destinations =>
      exact NotificationDestination.tlv_shortest.each.frames destinations small
  shortest framing value framed := by
    cases value with
    | otpDelivery mechanisms => exact OtpMechanism.tlv_shortest.each.shortest _ _ framed
    | backupCompatibility request => exact BackupCompatibility.tlv_shortest.shortest _ _ framed
    | notificationSubscriptions destinations =>
      exact NotificationDestination.tlv_shortest.each.shortest _ _ framed

end ExtendedValue

/-! ## What the writers do -/

namespace Element

/-- Every value has an element, which is framed so. -/
def FramesAs {α : Type} (toElement : α → Except ElementError Element) (write : α → Tlv) : Prop :=
  ∀ value, ∃ element, toElement value = .ok element ∧ element.toTlv = .ok (write value)

theorem toTlv_sequence {elements : List Element} {tlvs : List Tlv}
    (h : List.Forall₂ (fun element tlv => element.toTlv = .ok tlv) elements tlvs) :
    (sequence elements).toTlv = .ok (.constructed Universal.sequence.tag tlvs) := by
  rw [toTlv, toTlvs_eq_mapM, Except.mapM_eq_ok.mpr h]
  rfl

theorem FramesAs.each {α : Type} {toElement : α → Except ElementError Element} {write : α → Tlv}
    (h : FramesAs toElement write) (values : List α) : ∃ elements,
      values.mapM toElement = .ok elements ∧
        (sequence elements).toTlv = .ok (.ofEach write values) := by
  obtain ⟨elements, built, framed⟩ := Except.exists_mapM_mapM.mpr
    (List.forall₂_map_right_iff.mpr (List.forall₂_same.mpr fun value _ => h value))
  exact ⟨elements, built, toTlv_sequence (Except.mapM_eq_ok.mp framed)⟩

end Element

namespace NotificationDestination

theorem toTlv_idToElement (id : String) : (idToElement id).toTlv = .ok (idTlv id) :=
  rfl

theorem toTlv_detailsToElement (details : List Bytes) :
    (detailsToElement details).toTlv = .ok (detailsTlv details) := by
  apply Element.toTlv_sequence
  rw [List.forall₂_map_left_iff, List.forall₂_map_right_iff, List.forall₂_same]
  intro octets _
  rfl

end NotificationDestination

namespace NotificationSubscription

open NotificationDestination

theorem framesAs : Element.FramesAs toElement tlv := by
  intro subscription
  let fields := [idToElement subscription.id, detailsToElement subscription.details]
  have laid : schema.encode (fields.map some) [] = .ok fields := schema_exact.encode rfl
  refine ⟨.sequence fields, Except.bind_eq_ok.mpr ⟨fields, Except.mapError_eq_ok.mpr laid, rfl⟩, ?_⟩
  apply Element.toTlv_sequence
  exact .cons (toTlv_idToElement _) (.cons (toTlv_detailsToElement _) .nil)

end NotificationSubscription

namespace NotificationDestination

theorem framesAs : Element.FramesAs toElement tlv := by
  intro destination
  obtain ⟨subscriptions, built, framed⟩ :=
    NotificationSubscription.framesAs.each destination.subscriptions
  let fields := [idToElement destination.id, detailsToElement destination.details,
    .sequence subscriptions]
  have laid : schema.encode (fields.map some) [] = .ok fields := schema_exact.encode rfl
  refine ⟨.sequence fields, ?_, ?_⟩
  · exact Except.bind_eq_ok.mpr ⟨subscriptions, built,
      Except.bind_eq_ok.mpr ⟨fields, Except.mapError_eq_ok.mpr laid, rfl⟩⟩
  · apply Element.toTlv_sequence
    exact .cons (toTlv_idToElement _) (.cons (toTlv_detailsToElement _) (.cons framed .nil))

end NotificationDestination

/-- A list of fields of another class is framed as these fields are. -/
theorem Tlv.toTlv_sequence_asField (fields : List Tlv) :
    (Element.sequence (fields.map asField)).toTlv =
      .ok (.constructed Universal.sequence.tag fields) := by
  apply Element.toTlv_sequence
  rw [List.forall₂_map_left_iff, List.forall₂_same]
  intro field _
  rfl

namespace OtpMechanism

theorem toElement_eq (mechanism : OtpMechanism) : mechanism.toElement =
    .ok (.sequence ((⟨.context 0, Utf8.encode mechanism.name⟩ ::
      mechanism.optionalTlvs).map Tlv.asField)) := by
  obtain ⟨name, isSupported, recipientId⟩ := mechanism
  cases isSupported <;> cases recipientId <;> rfl

theorem framesAs : Element.FramesAs toElement tlv :=
  fun mechanism => ⟨_, mechanism.toElement_eq, Tlv.toTlv_sequence_asField _⟩

end OtpMechanism

theorem BackupCompatibility.toElements_eq (request : BackupCompatibility) :
    request.toElements = .ok (request.tlvs.map Tlv.asField) :=
  rfl

namespace ExtendedValue

/-! ## Whole values -/

/-- The octets to send; there are none for an empty list of destinations. -/
def octets? : ExtendedValue → Option Bytes
  | notificationSubscriptions [] => none
  | value => some value.tlv.encode

theorem encode_sequence {elements : List Element} {tlv : Tlv}
    (h : (Element.sequence elements).toTlv = .ok tlv) :
    (Element.sequence elements).encode = .ok tlv.encode := by
  rw [Element.encode, h]
  rfl

theorem encode_eq (value : ExtendedValue) : value.encode = .ok value.octets? := by
  match value with
  | otpDelivery mechanisms =>
    obtain ⟨elements, built, framed⟩ := OtpMechanism.framesAs.each mechanisms
    simp only [encode, built, Except.ok_bind, encode_sequence framed, Except.pure_def]
    rfl
  | backupCompatibility request =>
    simp only [encode, request.toElements_eq, Except.ok_bind,
      encode_sequence (Tlv.toTlv_sequence_asField request.tlvs), Except.pure_def]
    rfl
  | notificationSubscriptions [] => rfl
  | notificationSubscriptions (destination :: destinations) =>
    obtain ⟨elements, built, framed⟩ :=
      NotificationDestination.framesAs.each (destination :: destinations)
    simp only [encode, built, Except.ok_bind, encode_sequence framed, Except.pure_def]
    rfl

end ExtendedValue

theorem ExtendedOperation.ofOid?_eq_some {oid : String} {operation : ExtendedOperation} :
    ofOid? oid = some operation ↔ oid = operation.oid := by
  constructor
  · intro found
    obtain ⟨same, -⟩ := List.find?_eq_some_iff_append.mp found
    exact (beq_iff_eq.mp same).symm
  · rintro rfl
    cases operation <;> decide

namespace ExtendedValue

theorem operation_of_ofValue {operation : ExtendedOperation} {octets : Option Bytes}
    {value : ExtendedValue} (h : ofValue operation octets = .ok value) :
    value.operation = operation := by
  cases octets with
  | none =>
    cases operation with
    | backupCompatibility => simp [ofValue, ofAbsent] at h
    | _ =>
      obtain rfl := Except.ok.inj h
      rfl
  | some octets => exact (ofOctets_eq_ok.mp (Except.mapError_eq_ok.mp h)).1

theorem result_decode_eq_some {oid : String} {octets : Option Bytes} {value : ExtendedValue} :
    (decode oid octets).result = .ok (some value) ↔
      oid = value.operation.oid ∧ ofValue value.operation octets = .ok value := by
  rw [← ExtendedOperation.ofOid?_eq_some, decode]
  cases ExtendedOperation.ofOid? oid with
  | none => simp
  | some operation =>
    simp only [Logged.result_debugFailure, Logged.result_ofExcept, Except.map_eq_ok,
      Option.some.injEq, exists_eq_right]
    constructor
    · intro read
      obtain rfl := operation_of_ofValue read
      exact ⟨rfl, read⟩
    · rintro ⟨rfl, read⟩
      exact read

theorem eq_of_mem_octets? {value : ExtendedValue} {bytes : Bytes} (h : bytes ∈ value.octets?) :
    bytes = value.tlv.encode := by
  unfold octets? at h
  split at h
  · simp at h
  · exact (Option.some.inj h).symm

/-- What is written for a value is read as the value when it can be counted. -/
theorem ofValue_octets? {value : ExtendedValue}
    (size : ∀ bytes ∈ value.octets?, bytes.length < UInt64.size) :
    ofValue value.operation value.octets? = .ok value := by
  have framed (written : value.octets? = some value.tlv.encode) :
      ofValue value.operation value.octets? = .ok value := by
    have small : value.tlv.Countable := Tlv.countable_of_encode (size _ written)
    rw [written]
    exact Except.mapError_eq_ok.mpr (ofOctets_eq_ok.mpr
      ⟨rfl, value.tlv, Tlv.decode_encode small, tlv_shortest.frames value small⟩)
  match value, framed with
  | otpDelivery _, framed => exact framed rfl
  | backupCompatibility _, framed => exact framed rfl
  | notificationSubscriptions [], _ => rfl
  | notificationSubscriptions (_ :: _), framed => exact framed rfl

/-- A value that was read from octets in memory is written in octets that fit there. -/
theorem length_octets?_lt {operation : ExtendedOperation} {octets : Option Bytes}
    {value : ExtendedValue} (read : ofValue operation octets = .ok value)
    (size : ∀ bytes ∈ octets, bytes.length < UInt64.size) :
    ∀ bytes ∈ value.octets?, bytes.length < UInt64.size := by
  intro bytes member
  cases octets with
  | none =>
    cases operation with
    | backupCompatibility => simp [ofValue, ofAbsent] at read
    | otpDelivery =>
      obtain rfl := Except.ok.inj read
      obtain rfl := Option.some.inj member
      decide
    | notificationSubscriptions =>
      obtain rfl := Except.ok.inj read
      simp [octets?] at member
  | some octets =>
    obtain ⟨-, tlv, framed, whole⟩ := ofOctets_eq_ok.mp (Except.mapError_eq_ok.mp read)
    obtain rfl := eq_of_mem_octets? member
    have outer := Tlv.length_encode_le_of_decode framed
    have inner := tlv_shortest.shortest tlv value whole
    have whole := size octets rfl
    omega

/-- Every value can be written and is read back under its own identifier. So is every value that
was read from octets in memory. -/
theorem encode_survives :
    (∀ value : ExtendedValue, ∃ written, value.encode = .ok written ∧
      ((∀ bytes ∈ written, bytes.length < UInt64.size) →
        (decode value.operation.oid written).result = .ok (some value))) ∧
    ∀ (oid : String) (octets : Option Bytes) (value : ExtendedValue),
      (∀ bytes ∈ octets, bytes.length < UInt64.size) →
      (decode oid octets).result = .ok (some value) →
        ∃ written, value.encode = .ok written ∧
          oid = value.operation.oid ∧ (decode oid written).result = .ok (some value) := by
  constructor
  · intro value
    refine ⟨value.octets?, value.encode_eq, fun size => ?_⟩
    exact result_decode_eq_some.mpr ⟨rfl, ofValue_octets? size⟩
  · intro oid octets value size read
    obtain ⟨rfl, parsed⟩ := result_decode_eq_some.mp read
    refine ⟨value.octets?, value.encode_eq, rfl, ?_⟩
    exact result_decode_eq_some.mpr ⟨rfl, ofValue_octets? (length_octets?_lt parsed size)⟩

/-- Mechanisms with and without their optional fields come back, and so do destinations that were
read from lengths in more octets than they need. -/
theorem encode_survives_nested :
    let mechanisms : ExtendedValue := .otpDelivery [⟨"a", some false, some ""⟩, ⟨"", none, none⟩]
    let destinations : ExtendedValue :=
      .notificationSubscriptions [⟨"a", [[0x01], []], [⟨"", [[0xff]]⟩]⟩]
    let loose : Bytes := [0x30, 0x81, 0x18, 0x30, 0x81, 0x15, 0x04, 0x01, 0x61, 0x30, 0x05, 0x04,
      0x01, 0x01, 0x04, 0x00, 0x30, 0x09, 0x30, 0x07, 0x04, 0x00, 0x30, 0x03, 0x04, 0x01, 0xff]
    (∃ written, mechanisms.encode = .ok written ∧
      (decode mechanisms.operation.oid written).result = .ok (some mechanisms)) ∧
    (decode "1.3.6.1.4.1.30221.2.6.41" (some loose)).result = .ok (some destinations) ∧
      ∃ written, destinations.encode = .ok written ∧
        (decode "1.3.6.1.4.1.30221.2.6.41" written).result = .ok (some destinations) := by
  intro mechanisms destinations loose
  have octets : mechanisms.encode = .ok (some [0x30, 0x0e, 0x30, 0x08, 0x80, 0x01, 0x61, 0x81, 0x01,
      0x00, 0x82, 0x00, 0x30, 0x02, 0x80, 0x00]) :=
    Except.toOption_eq_some.mp (by decide +kernel)
  have read : (decode "1.3.6.1.4.1.30221.2.6.41" (some loose)).result = .ok (some destinations) :=
    Except.toOption_eq_some.mp (by decide +kernel)
  refine ⟨?_, read, ?_⟩
  · obtain ⟨written, encoded, back⟩ := encode_survives.1 mechanisms
    refine ⟨written, encoded, back ?_⟩
    obtain rfl := Except.ok.inj (octets.symm.trans encoded)
    rintro _ ⟨⟩
    decide
  · obtain ⟨written, encoded, -, back⟩ := encode_survives.2 _ (some loose) destinations
      (by rintro _ ⟨⟩; decide) read
    exact ⟨written, encoded, back⟩

end ExtendedValue

end DerCodec
