import DerCodec.ExtendedValue
import DerCodec.Proofs.Certificate
import DerCodec.Proofs.ExtensionFailure

/-!
# Failures in decoding

Decoding never reports that something has no encoding, although it frames fields again on the way.
What fails is the framing, the shape or a value in the octets; only the comparison of the two
algorithms of a certificate adds a failure of another class.
-/

namespace DerCodec

/-! ## Parts of a certificate -/

theorem AlgorithmIdentifier.ofElement_blamesInput (element : Element) :
    (ofElement element).BlamesInput := by
  refine element.asSequence_blamesInput.bind fun children => ?_
  split
  · exact (Element.value_blamesInput .oid _).bind fun _ => .ok _ _
  · exact (Element.value_blamesInput .oid _).bind fun _ => .ok _ _
  · exact .error trivial

theorem CertificateTime.ofElement_blamesInput (element : Element) :
    (ofElement element).BlamesInput := by
  unfold ofElement
  split
  · exact .ok _ _
  · exact .ok _ _
  · exact .error trivial

theorem Validity.ofElement_blamesInput (element : Element) : (ofElement element).BlamesInput := by
  refine element.asSequence_blamesInput.bind fun children => ?_
  split
  · refine (CertificateTime.ofElement_blamesInput _).bind fun _ => ?_
    exact (CertificateTime.ofElement_blamesInput _).bind fun _ => .ok _ _
  · exact .error trivial

theorem SubjectPublicKeyInfo.ofElement_blamesInput (element : Element) :
    (ofElement element).result.BlamesInput := by
  have fields : (fieldsOfElement element).BlamesInput := by
    refine element.asSequence_blamesInput.bind fun children => ?_
    split
    · refine (AlgorithmIdentifier.ofElement_blamesInput _).bind fun _ => ?_
      exact (Element.value_blamesInput .bitString _).bind fun _ => .ok _ _
    · exact .error trivial
  simp only [ofElement, Logged.result_bind, Logged.result_ofExcept]
  exact fields.bind fun parts => .ok _ _

theorem Version.ofInteger_blamesInput (n : Int) : (ofInteger n).BlamesInput := by
  unfold ofInteger
  split
  · exact .ok _ _
  · exact .ok _ _
  · exact .ok _ _
  · exact .error trivial

namespace TbsCertificate

theorem versionOfElement_blamesInput (wrapped : Element) :
    (versionOfElement wrapped).BlamesInput := by
  refine .bind ((wrapped.explicitInner_blamesInput 0).mapError fun _ => rfl) fun inner => ?_
  refine .bind ((inner.value_blamesInput .integer).mapError fun _ => rfl) fun number => ?_
  exact Version.ofInteger_blamesInput number

theorem extensionElements_blamesInput (wrapped : Element) :
    (extensionElements wrapped).BlamesInput := by
  refine .bind ((wrapped.explicitInner_blamesInput 3).mapError fun _ => rfl) fun inner => ?_
  refine .bind (inner.asSequence_blamesInput.mapError fun _ => rfl) fun elements => ?_
  split
  · exact .error trivial
  · exact .ok _ _

theorem readField_blamesInput (fields : Fields) (index : Nat) (field : String)
    {read : Element → Except ElementError α} (each : ∀ element, (read element).BlamesInput) :
    (readField fields index field read).BlamesInput := by
  refine .bind ((fields.required_blamesInput index).mapError fun _ => rfl) fun element => ?_
  exact (each element).mapError fun _ => rfl

theorem uniqueId_blamesInput {fields : Fields} (h : fields.AllSound) (tag : Tag) (field : String) :
    (uniqueId fields tag field).BlamesInput :=
  (h.decodeAs_optional? .bitString tag).mapError fun _ => rfl

theorem versionAndNames_blamesInput (fields : Fields) : (versionAndNames fields).BlamesInput := by
  have version : ((fields.positional? 0).mapM versionOfElement).BlamesInput :=
    .option_mapM fun wrapped _ => versionOfElement_blamesInput wrapped
  refine version.bind fun _ => ?_
  refine (readField_blamesInput _ _ _ (Element.value_blamesInput .integer)).bind fun _ => ?_
  refine (readField_blamesInput _ _ _ AlgorithmIdentifier.ofElement_blamesInput).bind fun _ => ?_
  refine (readField_blamesInput _ _ _ Name.ofElement_blamesInput).bind fun _ => ?_
  refine (readField_blamesInput _ _ _ Validity.ofElement_blamesInput).bind fun _ => ?_
  refine (readField_blamesInput _ _ _ Name.ofElement_blamesInput).bind fun _ => ?_
  exact (readField_blamesInput _ _ _ fun key => .ok _ key).bind fun _ => .ok _ _

theorem readExtensions_blamesInput (policy : ExtensionPolicy) (elements : List Element) :
    (readExtensions policy elements).result.BlamesInput := by
  induction elements with
  | nil => exact .ok _ _
  | cons element elements ih =>
    simp only [readExtensions, Logged.result_bind, Logged.result_pure]
    refine (Extension.ofElement_blamesInput policy element).bind fun _ => ?_
    exact ih.bind fun _ => .ok _ _

theorem fieldsOfElement_yields {element : Element} (h : element.AllSound) :
    (fieldsOfElement element).Yields Fields.AllSound :=
  h.asSequence.bind fun _ each => (Fields.decode_yields schema each).mapError fun _ => rfl

theorem ofElement_blamesInput (policy : ExtensionPolicy) {element : Element}
    (h : element.AllSound) : (ofElement policy element).result.BlamesInput := by
  simp only [ofElement, Logged.result_bind, Logged.result_ofExcept, Logged.result_mapError,
    Logged.result_pure]
  refine .andThen ((fieldsOfElement_yields h).mapError fun _ => rfl) fun fields sound => ?_
  have wrapped : ((fields.optional? extensionsTag).mapM extensionElements).BlamesInput :=
    .option_mapM fun wrapped _ => extensionElements_blamesInput wrapped
  refine (versionAndNames_blamesInput fields).bind fun parts => ?_
  obtain ⟨_, _, _, _, _, _, key⟩ := parts
  refine .bind ((SubjectPublicKeyInfo.ofElement_blamesInput key).mapError fun _ => rfl) fun _ => ?_
  refine (uniqueId_blamesInput sound _ _).bind fun _ => ?_
  refine (uniqueId_blamesInput sound _ _).bind fun _ => ?_
  refine wrapped.bind fun elements => ?_
  exact (readExtensions_blamesInput policy _).bind fun _ => .ok _ _

end TbsCertificate

/-! ## Certificates -/

namespace Certificate

theorem partsOfElement_blamesInput (element : Element) : (partsOfElement element).BlamesInput := by
  refine element.asSequence_blamesInput.bind fun children => ?_
  split
  · exact .ok _ _
  · exact .error trivial

/-- The octets are to blame, or two identifiers that differ. -/
def Explained (cause : CertificateError) : Prop :=
  cause.kind.OfInput ∨
    ∃ outer inner, cause = .signatureAlgorithmMismatch outer inner ∧ outer ≠ inner

theorem inField_explained {x : Except ElementError α} (h : x.BlamesInput) (field : String) :
    (x.mapError (CertificateError.inField field)).FailsBy Explained :=
  Except.FailsBy.mapError h fun _ => .inl

theorem readSignature_explained (tbs : TbsCertificate) (algorithm signature : Element) :
    (readSignature tbs algorithm signature).FailsBy Explained := by
  have outer := AlgorithmIdentifier.ofElement_blamesInput algorithm
  refine (inField_explained outer "signatureAlgorithm").bind fun outer _ => ?_
  split
  · rename_i differ
    exact .error (.inr ⟨_, _, rfl, differ⟩)
  · have bits := signature.value_blamesInput .bitString
    exact (inField_explained bits "signatureValue").bind fun _ _ => .ok _ _

theorem ofElement_explained (policy : ExtensionPolicy) {element : Element} (h : element.AllSound) :
    (ofElement policy element).result.FailsBy Explained := by
  have parts := partsOfElement_blamesInput element
  simp only [ofElement, Logged.result_bind, Logged.result_ofExcept]
  -- Only the last step compares the algorithms; before it the octets alone are to blame.
  refine (inField_explained parts "Certificate").bind fun parts found => ?_
  obtain ⟨tbs, algorithm, signature⟩ := parts
  obtain rfl := partsOfElement_eq_ok.mp (Except.mapError_eq_ok.mp found)
  have signed := TbsCertificate.ofElement_blamesInput policy (h.child tbs List.mem_cons_self)
  refine (signed.mono fun _ => .inl).bind fun tbs _ => ?_
  exact readSignature_explained tbs algorithm signature

theorem decode_explained (options : DecodeOptions) (bytes : Bytes) :
    (decode options bytes).FailsBy Explained := by
  by_cases size : bytes.length ≤ options.maxEncodedLength
  · rw [decode_result size]
    have tree := Element.decode_yields bytes
    refine (inField_explained tree.blames "Certificate").bind fun element read => ?_
    exact ofElement_explained _ (tree.holds element (Except.mapError_eq_ok.mp read))
  · simp only [decode, decodeLogged, if_pos (Nat.not_le.mp size), Logged.result_bind,
      Logged.result_emit, Logged.result_fail, Except.ok_bind]
    exact .error (.inl trivial)

end Certificate

/-! ## Extended values -/

namespace OtpMechanism

theorem ofElement_blamesInput {element : Element} (h : element.AllSound) :
    (ofElement element).BlamesInput := by
  -- One line a step of the reader. That all nodes are sound is handed down to the fields, since
  -- those are framed again before they are read.
  refine .andThen h.asSequence fun elements each => ?_
  refine .andThen ((Fields.decode_yields schema each).mapError fun _ => rfl) fun fields sound => ?_
  have text (octets : Option Bytes) :
      (octets.mapM (Utf8.decode Primitive.octetString.formalName)).BlamesInput :=
    .option_mapM fun octets _ => Utf8.decode_blamesInput _ octets
  refine .andThen ((sound.required 0).mapError fun _ => rfl) fun _ name => ?_
  refine (name.decodeAs_blamesInput _ _).bind fun name => ?_
  refine (sound.decodeAs_optional? .boolean _).bind fun _ => ?_
  refine (sound.decodeAs_optional? .octetString _).bind fun recipient => ?_
  refine (Utf8.decode_blamesInput _ name).bind fun _ => ?_
  exact (text recipient).bind fun _ => .ok _ _

end OtpMechanism

namespace BackupCompatibility

theorem ofElements_blamesInput {elements : List Element}
    (each : ∀ element ∈ elements, element.AllSound) : (ofElements elements).BlamesInput := by
  refine .andThen ((Fields.decode_yields schema each).mapError fun _ => rfl) fun fields sound => ?_
  refine .andThen ((sound.required 0).mapError fun _ => rfl) fun _ source => ?_
  refine (source.decodeAs_blamesInput _ _).bind fun _ => ?_
  refine .andThen ((sound.required 1).mapError fun _ => rfl) fun _ target => ?_
  exact (target.decodeAs_blamesInput _ _).bind fun _ => .ok _ _

end BackupCompatibility

namespace NotificationDestination

theorem idOfElement_blamesInput (element : Element) : (idOfElement element).BlamesInput :=
  (element.value_blamesInput .octetString).bind fun octets => Utf8.decode_blamesInput _ octets

theorem detailsOfElement_blamesInput {element : Element} (h : element.AllSound) :
    (detailsOfElement element).BlamesInput := by
  refine .andThen h.asSequence fun elements each => ?_
  exact .mapM fun child member => (each child member).asPrimitive_blamesInput .octetString

end NotificationDestination

open NotificationDestination in
theorem NotificationSubscription.ofElement_blamesInput {element : Element} (h : element.AllSound) :
    (ofElement element).BlamesInput := by
  refine .andThen h.asSequence fun elements each => ?_
  refine .andThen ((Fields.decode_yields schema each).mapError fun _ => rfl) fun fields sound => ?_
  refine .bind ((fields.required_blamesInput 0).mapError fun _ => rfl) fun id => ?_
  refine (idOfElement_blamesInput id).bind fun _ => ?_
  refine .andThen ((sound.required 1).mapError fun _ => rfl) fun _ details => ?_
  exact (detailsOfElement_blamesInput details).bind fun _ => .ok _ _

namespace NotificationDestination

theorem ofElement_blamesInput {element : Element} (h : element.AllSound) :
    (ofElement element).BlamesInput := by
  refine .andThen h.asSequence fun elements each => ?_
  refine .andThen ((Fields.decode_yields schema each).mapError fun _ => rfl) fun fields sound => ?_
  refine .andThen ((sound.required 2).mapError fun _ => rfl) fun _ listSound => ?_
  refine .andThen listSound.asSequence fun inner each => ?_
  have subscriptions : (inner.mapM NotificationSubscription.ofElement).BlamesInput :=
    .mapM fun child member => NotificationSubscription.ofElement_blamesInput (each child member)
  refine subscriptions.bind fun _ => ?_
  refine .bind ((fields.required_blamesInput 0).mapError fun _ => rfl) fun id => ?_
  refine (idOfElement_blamesInput id).bind fun _ => ?_
  refine .andThen ((sound.required 1).mapError fun _ => rfl) fun _ details => ?_
  exact (detailsOfElement_blamesInput details).bind fun _ => .ok _ _

end NotificationDestination

namespace ExtendedValue

theorem elements_yields (value : Bytes) :
    (elements value).Yields fun children => ∀ child ∈ children, child.AllSound :=
  (Element.decode_yields value).bind fun _ sound => sound.asSequence

theorem ofOctets_blamesInput (operation : ExtendedOperation) (value : Bytes) :
    (ofOctets operation value).BlamesInput := by
  refine .andThen (elements_yields value) fun elements each => ?_
  cases operation with
  | otpDelivery =>
    have mechanisms : (elements.mapM OtpMechanism.ofElement).BlamesInput :=
      .mapM fun child member => OtpMechanism.ofElement_blamesInput (each child member)
    exact mechanisms.bind fun _ => .ok _ _
  | backupCompatibility =>
    exact (BackupCompatibility.ofElements_blamesInput each).bind fun _ => .ok _ _
  | notificationSubscriptions =>
    have destinations : (elements.mapM NotificationDestination.ofElement).BlamesInput :=
      .mapM fun child member => NotificationDestination.ofElement_blamesInput (each child member)
    exact destinations.bind fun _ => .ok _ _

/-- The octets are to blame, and the message starts with the name of what they should hold. -/
def Blames (name : String) (cause : ExtendedValueError) : Prop :=
  cause.kind.OfInput ∧ ∃ rest, cause.message = name ++ rest

theorem blames_tooLarge (name : String) (length limit : Nat) :
    Blames name (.tooLarge name length limit) := by
  constructor
  · exact trivial
  · refine ⟨": value is " ++ (toString length ++ (" bytes, limit is " ++ toString limit)), ?_⟩
    simp only [← String.append_assoc]
    rfl

theorem ofValue_blames (operation : ExtendedOperation) (value : Option Bytes) :
    (ofValue operation value).FailsBy (Blames operation.name) := by
  cases value with
  | none =>
    cases operation with
    | backupCompatibility => exact .error ⟨trivial, ": a value is required", rfl⟩
    | _ => exact .ok _ _
  | some octets =>
    refine Except.FailsBy.mapError (ofOctets_blamesInput operation octets) fun cause ofInput => ?_
    exact ⟨ofInput, ": " ++ cause.message, String.append_assoc⟩

/-- A value with an unregistered identifier is never refused. -/
theorem decode_blames (oid : String) (value : Option Bytes) :
    (decode oid value).result.FailsBy fun cause =>
      ∃ operation, ExtendedOperation.ofOid? oid = some operation ∧
        Blames operation.name cause := by
  unfold decode
  split
  · exact .ok _ none
  · rename_i operation registered
    rw [Logged.result_debugFailure, Logged.result_ofExcept]
    have read := (ofValue_blames operation value).map some
    exact read.mono fun cause blames => ⟨operation, registered, blames⟩

/-- What the message of a failure starts with. -/
def shownName (oid : String) : String :=
  ((ExtendedOperation.ofOid? oid).map ExtendedOperation.name).getD "extended value"

theorem decodeWithin_blames (limit : Nat) (oid : String) (value : Option Bytes) :
    (decodeWithin limit oid value).result.FailsBy fun cause =>
      Blames (shownName oid) cause ∧
        (ExtendedOperation.ofOid? oid = none → limit < (value.getD []).length) := by
  unfold decodeWithin
  dsimp only
  split
  · rename_i excess
    rw [Logged.result_fail]
    exact .error ⟨blames_tooLarge _ _ limit, fun _ => excess⟩
  · refine (decode_blames oid value).mono fun cause failed => ?_
    obtain ⟨operation, registered, blames⟩ := failed
    simp [shownName, registered, blames]

end ExtendedValue

/-- No failure to decode has to do with an encoding. The octets of a certificate are to blame, or
its two algorithms, which differ. Those of an extended value are, and the message starts with the
name of the operation; a value whose identifier is not registered is refused for its length alone.
The nodes of decoded trees, which are framed again on the way, always can be. -/
theorem decoding_blames_input :
    (∀ options bytes cause, Certificate.decode options bytes = .error cause →
      cause.kind.OfInput ∨ cause.kind = .crossCheck ∧
        ∃ outer inner, cause = .signatureAlgorithmMismatch outer inner ∧ outer ≠ inner) ∧
    (∀ oid value cause, (ExtendedValue.decode oid value).result = .error cause →
      ∃ operation, ExtendedOperation.ofOid? oid = some operation ∧ cause.kind.OfInput ∧
        ∃ rest, cause.message = operation.name ++ rest) ∧
    (∀ limit oid value cause,
      (ExtendedValue.decodeWithin limit oid value).result = .error cause → cause.kind.OfInput ∧
        match ExtendedOperation.ofOid? oid with
        | some operation => ∃ rest, cause.message = operation.name ++ rest
        | none => limit < (value.getD []).length ∧
            ∃ rest, cause.message = "extended value" ++ rest) ∧
    ∀ bytes root level node, Element.decode bytes = .ok root →
      Element.NodeBelow root level node → ∃ tlv, node.toTlv = .ok tlv ∧
        ∀ type, node.asPrimitive type = type.decodeAs type.tag tlv ∧
          ∀ tag, node.decodeAs type tag = type.decodeAs tag tlv := by
  refine ⟨?_, ?_, ?_, ?_⟩
  · intro options bytes cause failed
    rcases Certificate.decode_explained options bytes cause failed with ofInput | differ
    · exact .inl ofInput
    · obtain ⟨outer, inner, rfl, differ⟩ := differ
      exact .inr ⟨rfl, outer, inner, rfl, differ⟩
  · intro oid value cause failed
    exact ExtendedValue.decode_blames oid value cause failed
  · intro limit oid value cause failed
    obtain ⟨⟨ofInput, named⟩, excess⟩ :=
      ExtendedValue.decodeWithin_blames limit oid value cause failed
    refine ⟨ofInput, ?_⟩
    unfold ExtendedValue.shownName at named
    split
    · rename_i operation registered
      rwa [registered] at named
    · rename_i unregistered
      rw [unregistered] at named
      exact ⟨excess unregistered, named⟩
  · intro bytes root level node read below
    have sound := (Element.decode_yields bytes).holds root read
    obtain ⟨tlv, framed⟩ := (sound.node below).exists_toTlv
    refine ⟨tlv, framed, fun type => ⟨?_, fun tag => ?_⟩⟩
    · rw [Element.asPrimitive, Element.decodeAs, framed, Except.ok_bind]
    · rw [Element.decodeAs, framed, Except.ok_bind]

/-- A certificate whose outer algorithm is another one than the one in its signed part. -/
def mismatchedAlgorithms : Bytes :=
  [0x30, 0x43, 0x30, 0x38, 0x02, 0x01, 0x01, 0x30, 0x04, 0x06, 0x02, 0x2a, 0x03, 0x30, 0x00, 0x30,
    0x1e, 0x17, 0x0d, 0x32, 0x34, 0x30, 0x31, 0x30, 0x31, 0x30, 0x30, 0x30, 0x30, 0x30, 0x30, 0x5a,
    0x17, 0x0d, 0x32, 0x35, 0x30, 0x31, 0x30, 0x31, 0x30, 0x30, 0x30, 0x30, 0x30, 0x30, 0x5a, 0x30,
    0x00, 0x30, 0x09, 0x30, 0x04, 0x06, 0x02, 0x2a, 0x03, 0x03, 0x01, 0x00, 0x30, 0x04, 0x06, 0x02,
    0x2a, 0x04, 0x03, 0x01, 0x00]

/-- The algorithms disagree, a value is missing, one is too long, and a list in a tree is framed
again. -/
theorem decoding_blames_input_mismatched :
    (∃ cause outer inner, Certificate.decode {} mismatchedAlgorithms = .error cause ∧
      cause = .signatureAlgorithmMismatch outer inner ∧ outer ≠ inner) ∧
    (∃ cause rest, (ExtendedValue.decode "1.3.6.1.4.1.30221.2.6.32" none).result = .error cause ∧
      cause.message = ExtendedOperation.backupCompatibility.name ++ rest) ∧
    (∃ cause rest, (ExtendedValue.decodeWithin 1 "1.2.3" (some [0x30, 0x00])).result =
      .error cause ∧ cause.message = "extended value" ++ rest) ∧
    ∃ root tlv, Element.decode [0x30, 0x02, 0x05, 0x00] = .ok root ∧ root.toTlv = .ok tlv := by
  obtain ⟨certificates, values, limited, nodes⟩ := decoding_blames_input
  refine ⟨?_, ?_, ?_, ?_⟩
  · have crossed : (match Certificate.decode {} mismatchedAlgorithms with
        | .error cause => some cause.kind
        | .ok _ => none) = some .crossCheck := by decide +kernel
    split at crossed
    · rename_i cause failed
      have kind := Option.some.inj crossed
      rcases certificates _ _ cause failed with ofInput | ⟨-, outer, inner, same, differ⟩
      · rw [kind] at ofInput
        exact ofInput.elim
      · exact ⟨cause, outer, inner, failed, same, differ⟩
    · simp at crossed
  · have failed : (ExtendedValue.decode "1.3.6.1.4.1.30221.2.6.32" none).result =
        .error (.missingValue ExtendedOperation.backupCompatibility.name) := by
      rfl
    obtain ⟨operation, registered, -, rest, named⟩ := values _ _ _ failed
    obtain rfl : ExtendedOperation.backupCompatibility = operation :=
      Option.some.inj registered
    exact ⟨_, rest, failed, named⟩
  · have failed : (ExtendedValue.decodeWithin 1 "1.2.3" (some [0x30, 0x00])).result =
        .error (.tooLarge "extended value" 2 1) := by
      rfl
    obtain ⟨-, -, rest, named⟩ := limited _ _ _ _ failed
    exact ⟨_, rest, failed, named⟩
  · have read : Element.decode [0x30, 0x02, 0x05, 0x00] =
        .ok (.sequence [.primitive .null ()]) := Except.toOption_eq_some.mp (by decide +kernel)
    obtain ⟨tlv, framed, -⟩ := nodes _ _ _ _ read (.root _)
    exact ⟨_, tlv, read, framed⟩

end DerCodec
