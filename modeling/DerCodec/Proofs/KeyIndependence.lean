import DerCodec.Proofs.DecodedKey

/-!
# The bits of a key and the rest of a certificate

Two trees that differ only in the bits of the public key are both read or refused with the same
cause, and the certificates that they are read as differ only in those bits and in the key that is
decoded from them.
-/

namespace DerCodec

/-! ## Keys -/

namespace SubjectPublicKeyInfo

/-- Trees of keys with the same algorithm, whose bits may differ. -/
inductive SameButBits : Element → Element → Prop where
  | intro (algorithm : Element) (bits bits' : BitString) (rest : List Element) :
    SameButBits (.sequence (algorithm :: .primitive .bitString bits :: rest))
      (.sequence (algorithm :: .primitive .bitString bits' :: rest))

/-- Nothing but the bits and the key that is decoded from them may differ. -/
def SameButKey (info info' : SubjectPublicKeyInfo) : Prop :=
  ∃ bits key, info' = { info with bits, key }

theorem SameButBits.tag {element element' : Element} (h : SameButBits element element') :
    element.tag = Universal.sequence.tag ∧ element'.tag = Universal.sequence.tag := by
  cases h
  exact ⟨rfl, rfl⟩

theorem ofElement_agree {element element' : Element} (h : SameButBits element element') :
    Except.Agree SameButKey (ofElement element).result (ofElement element').result := by
  obtain ⟨algorithm, bits, bits', rest⟩ := h
  cases rest with
  | nil =>
    have read : ∀ bits, (ofElement (.sequence [algorithm, .primitive .bitString bits])).result =
        AlgorithmIdentifier.ofElement algorithm >>= fun id => .ok (ofBits id bits) := by
      intro bits
      simp only [ofElement, Logged.result_bind, Logged.result_ofExcept]
      change (AlgorithmIdentifier.ofElement algorithm >>= _) >>= _ = _
      cases AlgorithmIdentifier.ofElement algorithm <;> rfl
    rw [read, read]
    exact .after _ fun id _ => .ok ⟨bits', _, rfl⟩
  | cons extra rest => exact .error _

end SubjectPublicKeyInfo

/-! ## The signed part -/

namespace TbsCertificate

/-- How many elements come before the public key, one more when the first of them is a version. -/
def keyIndex (before : List Element) : Nat :=
  if before.head?.any (·.tag == versionTag) then 6 else 5

/-- Trees of signed parts that differ at most in the bits of the public key. -/
inductive SameButKeyBits : Element → Element → Prop where
  | intro {key key' : Element} (same : SubjectPublicKeyInfo.SameButBits key key')
      {before : List Element} (place : before.length = keyIndex before) (after : List Element) :
    SameButKeyBits (.sequence (before ++ key :: after)) (.sequence (before ++ key' :: after))

/-- Nothing but the bits of the public key and the key that is decoded from them may differ. -/
def SameButKey (tbs tbs' : TbsCertificate) : Prop :=
  ∃ publicKeyInfo, tbs.publicKeyInfo.SameButKey publicKeyInfo ∧ tbs' = { tbs with publicKeyInfo }

/-- The fields found in a signed part, its public key last among the positional ones. -/
def fieldsWith (front optional : List (Option Element)) (key : Element) : Fields :=
  ⟨schema, front ++ [some key], optional⟩

/-- The required fields before the public key. -/
def leadingFields : List Field :=
  [.required "serialNumber" Primitive.integer.tag, .required "signature" Universal.sequence.tag,
    .required "issuer" Universal.sequence.tag, .required "validity" Universal.sequence.tag,
    .required "subject" Universal.sequence.tag]

def keyField : Field := .required "subjectPublicKeyInfo" Universal.sequence.tag

theorem takePositional_leadingFields {before : List Element} (five : before.length = 5)
    {key : Element} (tag : key.tag = Universal.sequence.tag) (after : List Element) :
    schema.takePositional (leadingFields ++ [keyField]) (before ++ key :: after) =
      (schema.takePositional leadingFields before).map
        fun taken => (taken.1 ++ [some key], after) := by
  have last : schema.takePositional [keyField] (key :: after) = .ok ([some key], after) := by
    rw [Schema.takePositional_present (by rw [tag]; rfl)]
    rfl
  rw [Schema.takePositional_append schema (by decide) five, last]
  rfl

/-- The six slots before the public key are filled in the same way whatever comes then. -/
def FillsFront (before : List Element) : Prop :=
  ∃ front : Except SchemaError (List (Option Element)),
    (∀ slots, front = .ok slots → slots.length = 6) ∧
    ∀ key after, key.tag = Universal.sequence.tag →
      schema.takePositional schema.positional (before ++ key :: after) =
        front.map fun slots => (slots ++ [some key], after)

/-- The slot of the version is filled or passed over, and the required fields follow. -/
theorem fillsFront_of_slot {slot : Option Element} {before required : List Element}
    (five : required.length = 5)
    (first : ∀ rest, schema.takePositional schema.positional (before ++ rest) =
      (schema.takePositional (leadingFields ++ [keyField]) (required ++ rest)).map
        fun taken => (slot :: taken.1, taken.2)) :
    FillsFront before := by
  refine ⟨(schema.takePositional leadingFields required).map fun taken => slot :: taken.1, ?_, ?_⟩
  · intro slots filled
    obtain ⟨⟨later, rest⟩, taken, rfl⟩ := Except.map_eq_ok.mp filled
    have fits := (Schema.takePositional_eq_ok taken).2
    rw [List.length_cons, ← fits.length_eq]
    rfl
  · intro key after tag
    rw [first, takePositional_leadingFields five tag]
    cases schema.takePositional leadingFields required <;> rfl

theorem fillsFront {before : List Element} (place : before.length = keyIndex before) :
    FillsFront before := by
  cases before with
  | nil => simp [keyIndex] at place
  | cons first before =>
    by_cases version : (Field.defaulted "version" versionTag).accepts first.tag = true
    · have tagged : versionTag = first.tag := beq_iff_eq.mp version
      have five : before.length = 5 := by simpa [keyIndex, tagged] using place
      exact fillsFront_of_slot five fun rest => Schema.takePositional_present version
    · have other : ¬first.tag = versionTag := fun same => version (beq_iff_eq.mpr same.symm)
      have five : (first :: before).length = 5 := by simpa [keyIndex, other] using place
      exact fillsFront_of_slot five fun rest =>
        Schema.takePositional_absent rfl (Bool.eq_false_iff.mpr version)

theorem decode_agree {key key' : Element} (same : SubjectPublicKeyInfo.SameButBits key key')
    {before : List Element} (place : before.length = keyIndex before) (after : List Element) :
    Except.Agree (fun fields fields' => ∃ front optional, front.length = 6 ∧
        fields = fieldsWith front optional key ∧ fields' = fieldsWith front optional key')
      (schema.decode (before ++ key :: after)) (schema.decode (before ++ key' :: after)) := by
  obtain ⟨front, six, taken⟩ := fillsFront place
  simp only [Schema.decode, taken key after same.tag.1, taken key' after same.tag.2]
  cases found : front with
  | error cause => exact .error cause
  | ok slots =>
    exact .after (after.foldlM schema.place schema.emptySlots) fun optional _ =>
      .ok ⟨slots, optional, six slots found, rfl, rfl⟩

variable {front optional : List (Option Element)}

theorem positional?_fieldsWith (six : front.length = 6) (key : Element) {index : Nat}
    (before : index < 6) :
    (fieldsWith front optional key).positional? index = (front[index]?).join := by
  rw [Fields.positional?, fieldsWith, List.getElem?_append_left (six ▸ before)]

/-- A field before the public key is the same whatever the public key is. -/
theorem readField_fieldsWith (six : front.length = 6) (key key' : Element) {index : Nat}
    (before : index < 6) (field : String) (read : Element → Except ElementError α) :
    readField (fieldsWith front optional key) index field read =
      readField (fieldsWith front optional key') index field read := by
  simp only [readField, Fields.required, positional?_fieldsWith six _ before]
  rfl

theorem readField_key (six : front.length = 6) (key : Element) (field : String) :
    readField (fieldsWith front optional key) 6 field .ok = .ok key := by
  have slot : (fieldsWith front optional key).positional? 6 = some key := by
    simp [Fields.positional?, fieldsWith, ← six]
  exact readField_eq_ok.mpr ⟨key, slot, rfl⟩

theorem versionAndNames_agree (six : front.length = 6) (key key' : Element) :
    Except.Agree (fun found found' => ∃ version serialNumber signature issuer validity subject,
        found = (version, serialNumber, signature, issuer, validity, subject, key) ∧
          found' = (version, serialNumber, signature, issuer, validity, subject, key'))
      (versionAndNames (fieldsWith front optional key))
      (versionAndNames (fieldsWith front optional key')) := by
  have zero : 0 < 6 := by decide
  simp only [versionAndNames, positional?_fieldsWith six _ zero, readField_key six,
    readField_fieldsWith six key key' (show 1 < 6 by decide),
    readField_fieldsWith six key key' (show 2 < 6 by decide),
    readField_fieldsWith six key key' (show 3 < 6 by decide),
    readField_fieldsWith six key key' (show 4 < 6 by decide),
    readField_fieldsWith six key key' (show 5 < 6 by decide)]
  refine .after _ fun version _ => .after _ fun serialNumber _ => .after _ fun signature _ => ?_
  refine .after _ fun issuer _ => .after _ fun validity _ => .after _ fun subject _ => ?_
  exact .ok ⟨version.getD .v1, serialNumber, signature, issuer, validity, subject, rfl, rfl⟩

/-- The public key gives its bits to the signed part and nothing else. -/
theorem ofElement_agree (policy : ExtensionPolicy) {element element' : Element}
    (h : SameButKeyBits element element') :
    Except.Agree SameButKey (ofElement policy element).result
      (ofElement policy element').result := by
  obtain @⟨key, key', same, before, place, after⟩ := h
  simp only [ofElement, Logged.result_bind, Logged.result_ofExcept, Logged.result_mapError,
    Logged.result_pure]
  have found := (decode_agree same place after).mapError ElementError.schema
  refine (found.mapError (CertificateError.inField "TBSCertificate")).bind ?_
  rintro _ _ ⟨front, optional, six, rfl, rfl⟩
  refine (versionAndNames_agree six key key').bind ?_
  rintro _ _ ⟨version, serialNumber, signature, issuer, validity, subject, rfl, rfl⟩
  have keys := SubjectPublicKeyInfo.ofElement_agree same
  refine (keys.mapError (CertificateError.inField "subjectPublicKeyInfo")).bind ?_
  intro info info' related
  -- The fields after the public key are found by their tags among the optional slots.
  refine .after _ fun issuerUniqueId _ => .after _ fun subjectUniqueId _ => ?_
  refine .after _ fun elements _ => .after _ fun extensions _ => ?_
  exact .ok ⟨info', related, rfl⟩

end TbsCertificate

/-! ## The whole certificate -/

namespace Certificate

/-- Trees of certificates that differ at most in the bits of the public key. -/
inductive SameButKeyBits : Element → Element → Prop where
  | intro {tbs tbs' : Element} (same : TbsCertificate.SameButKeyBits tbs tbs')
      (rest : List Element) :
    SameButKeyBits (.sequence (tbs :: rest)) (.sequence (tbs' :: rest))

/-- Nothing but the bits of the public key and the key that is decoded from them may differ. -/
def SameButKey (certificate certificate' : Certificate) : Prop :=
  ∃ tbs, certificate.tbs.SameButKey tbs ∧ certificate' = { certificate with tbs }

theorem readSignature_agree {tbs tbs' : TbsCertificate} (h : tbs.SameButKey tbs')
    (algorithm signature : Element) :
    Except.Agree SameButKey (readSignature tbs algorithm signature)
      (readSignature tbs' algorithm signature) := by
  obtain ⟨info, related, rfl⟩ := h
  refine .after _ fun outer _ => ?_
  split_ifs
  · exact .error _
  · exact .after _ fun bits _ => .ok ⟨_, ⟨info, related, rfl⟩, rfl⟩

theorem ofElement_agree (policy : ExtensionPolicy) {element element' : Element}
    (h : SameButKeyBits element element') :
    Except.Agree SameButKey (ofElement policy element).result
      (ofElement policy element').result := by
  obtain ⟨same, rest⟩ := h
  match rest with
  | [algorithm, signature] =>
    rw [ofElement_result, ofElement_result]
    refine (TbsCertificate.ofElement_agree policy same).bind ?_
    intro tbs tbs' related
    exact readSignature_agree related algorithm signature
  | [] => exact .error _
  | [_] => exact .error _
  | _ :: _ :: _ :: _ => exact .error _

theorem key_isSome_iff {policy : ExtensionPolicy} {element : Element} {certificate : Certificate}
    (h : (ofElement policy element).result = .ok certificate) :
    certificate.tbs.publicKeyInfo.key.isSome = true ↔
      PublicKey.Readable certificate.tbs.publicKeyInfo.algorithm
        certificate.tbs.publicKeyInfo.bits := by
  rw [publicKeyInfo_eq h]
  exact SubjectPublicKeyInfo.key_isSome_iff

/-- The bits of the public key decide about the key that is decoded from them, and about nothing
else in a certificate: not whether it is read, not the cause of a failure and no other field. -/
theorem key_bits_stay_in_key (policy : ExtensionPolicy) :
    (∀ element element', SameButKeyBits element element' →
      Except.Agree SameButKey (ofElement policy element).result
        (ofElement policy element').result) ∧
    ∀ element certificate, (ofElement policy element).result = .ok certificate →
      (certificate.tbs.publicKeyInfo.key.isSome = true ↔
        PublicKey.Readable certificate.tbs.publicKeyInfo.algorithm
          certificate.tbs.publicKeyInfo.bits) := by
  constructor
  · intro element element' same
    exact ofElement_agree policy same
  · intro element certificate read
    exact key_isSome_iff read

/-- A certificate without extensions whose key is an RSA key. -/
def rsaTree (bits : BitString) : Element :=
  let time : Element := .primitive .utcTime ⟨⟨2023, 6, 15⟩, ⟨12, 0, 0, 0⟩, by decide, by decide⟩
  let algorithm : Element := .sequence [.primitive .oid ⟨[1, 2, 3]⟩]
  .sequence [.sequence ([.primitive .integer 1, algorithm, .sequence [], .sequence [time, time],
      .sequence []] ++ [.sequence [.sequence [.primitive .oid ⟨[1, 2, 840, 113549, 1, 1, 1]⟩],
        .primitive .bitString bits]]), algorithm, .primitive .bitString (.ofWholeOctets [])]

/-- The bits of the RSA key with modulus 15 and exponent 3. -/
def rsaBits : BitString :=
  .ofWholeOctets [0x30, 0x06, 0x02, 0x01, 0x0f, 0x02, 0x01, 0x03]

/-- Bits that hold no key leave the certificate without one. -/
theorem key_bits_stay_in_key_rsa : ∃ certificate certificate',
    (ofElement .strict (rsaTree rsaBits)).result = .ok certificate ∧
      (ofElement .strict (rsaTree (.ofWholeOctets [0xff]))).result = .ok certificate' ∧
      certificate.SameButKey certificate' ∧ certificate.tbs.publicKeyInfo.key.isSome = true ∧
      PublicKey.Readable certificate.tbs.publicKeyInfo.algorithm
        certificate.tbs.publicKeyInfo.bits ∧
      certificate'.tbs.publicKeyInfo.key = none := by
  obtain ⟨agree, reads⟩ := key_bits_stay_in_key .strict
  have found : ((ofElement .strict (rsaTree rsaBits)).result.toOption.any
      fun certificate => certificate.tbs.publicKeyInfo.key.isSome) = true := by decide +kernel
  have missing : ((ofElement .strict (rsaTree (.ofWholeOctets [0xff]))).result.toOption.any
      fun certificate => certificate.tbs.publicKeyInfo.key.isNone) = true := by decide +kernel
  obtain ⟨certificate, accepted, key⟩ := (Option.any_eq_true _ _).mp found
  obtain ⟨certificate', accepted', noKey⟩ := (Option.any_eq_true _ _).mp missing
  have read := Except.toOption_eq_some.mp accepted
  have read' := Except.toOption_eq_some.mp accepted'
  have related : SameButKeyBits (rsaTree rsaBits) (rsaTree (.ofWholeOctets [0xff])) :=
    .intro (.intro (.intro _ _ _ []) rfl []) _
  have both := agree _ _ related
  rw [read, read'] at both
  cases both with
  | ok same =>
    exact ⟨certificate, certificate', read, read', same, key, (reads _ _ read).mp key,
      Option.isNone_iff_eq_none.mp noKey⟩

end Certificate

end DerCodec
