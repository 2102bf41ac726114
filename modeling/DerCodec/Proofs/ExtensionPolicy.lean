import DerCodec.Proofs.NormalForm

/-!
# The two policies for extensions

The lenient policy accepts what the strict one accepts, as the same certificate. What it accepts
beyond that holds an extension that it kept with its octets alone although the identifier is
recognised, and the first such extension is the one that the strict policy gives as its error.
-/

namespace DerCodec

/-! ## One extension -/

namespace Extension

/-- Kept with its octets alone although its identifier is recognised. -/
def keptMalformed (extension : Extension) : Bool :=
  extension.isGeneric && (ExtensionValue.parse? extension.oid extension.raw).isSome

/-- The error that the strict policy gives for the extension. -/
def refusal? (extension : Extension) : Option CertificateError :=
  match ExtensionValue.parse? extension.oid extension.raw with
  | some (.error cause) => some (.invalidExtension extension.oid cause)
  | _ => none

/-- The error that the strict policy gives for a list of extensions. -/
def firstRefusal? (extensions : List Extension) : Option CertificateError :=
  (extensions.find? keptMalformed).bind refusal?

theorem readValue_lenient_of_strict {oid : Oid} {raw : Bytes} {value : ExtensionValue}
    (h : (readValue .strict oid raw).result = .ok value) :
    (readValue .lenient oid raw).result = .ok value := by
  unfold readValue at h ⊢
  split at h
  · exact h
  · exact h
  · simp at h

theorem ofElement_lenient_of_strict {element : Element} {extension : Extension}
    (h : (ofElement .strict element).result = .ok extension) :
    (ofElement .lenient element).result = .ok extension := by
  obtain ⟨parts, read⟩ := ofElement_eq_ok.mp h
  exact ofElement_eq_ok.mpr ⟨parts, readValue_lenient_of_strict read⟩

/-- What was kept although it is recognised is what has a value that cannot be read. -/
theorem keptMalformed_iff {extension : Extension}
    (read : (readValue .lenient extension.oid extension.raw).result = .ok extension.value) :
    extension.keptMalformed = true ↔
      ∃ cause, ExtensionValue.parse? extension.oid extension.raw = some (.error cause) := by
  rcases found : ExtensionValue.parse? extension.oid extension.raw with - | cause | value
  · simp [keptMalformed, found]
  · have generic : ExtensionValue.generic extension.raw = extension.value := by
      simpa [readValue, found] using read
    simp [keptMalformed, isGeneric, found, ← generic]
  · have typed : ExtensionValue.typed value = extension.value := by
      simpa [readValue, found] using read
    simp [keptMalformed, isGeneric, ← typed]

theorem refusal?_of_not_keptMalformed {extension : Extension}
    (read : (readValue .lenient extension.oid extension.raw).result = .ok extension.value)
    (kept : ¬extension.keptMalformed = true) : extension.refusal? = none := by
  rw [keptMalformed_iff read] at kept
  unfold refusal?
  split
  · rename_i cause found
    exact absurd ⟨cause, found⟩ kept
  · rfl

theorem readValue_strict {extension : Extension}
    (h : (readValue .lenient extension.oid extension.raw).result = .ok extension.value) :
    (readValue .strict extension.oid extension.raw).result =
      extension.refusal?.elim (.ok extension.value) .error := by
  rcases found : ExtensionValue.parse? extension.oid extension.raw with - | cause | value
  · simpa [readValue, refusal?, found] using h
  · simp [readValue, refusal?, found]
  · simpa [readValue, refusal?, found] using h

theorem ofElement_elementOf (policy : ExtensionPolicy) (oid : Oid) (flag : Option Bool)
    (raw : Bytes) :
    (ofElement policy (elementOf oid flag raw)).result =
      (readValue policy oid raw).result.map fun value => ⟨oid, flag.getD false, raw, value⟩ := by
  have parts : partsOfElement (elementOf oid flag raw) = .ok (oid, flag.getD false, raw) :=
    partsOfElement_eq_ok.mpr ⟨flag, rfl, rfl⟩
  simp only [ofElement, Logged.result_bind, Logged.result_ofExcept, parts, Except.ok_bind,
    Logged.result_pure]
  rfl

/-- The strict policy reads an extension as the lenient one did, or refuses it. -/
theorem ofElement_strict {element : Element} {extension : Extension}
    (h : (ofElement .lenient element).result = .ok extension) :
    (ofElement .strict element).result = extension.refusal?.elim (.ok extension) .error := by
  obtain ⟨⟨flag, rfl, critical⟩, read⟩ := ofElement_eq_ok.mp h
  rw [ofElement_elementOf, readValue_strict read, ← critical]
  cases extension.refusal? <;> rfl

/-- The strict policy reads the extensions as the lenient one did, or refuses the first that was
kept malformed. -/
theorem mapM_ofElement_strict {elements : List Element} {extensions : List Extension}
    (h : elements.mapM (fun e => (ofElement .lenient e).result) = .ok extensions) :
    elements.mapM (fun e => (ofElement .strict e).result) =
      (firstRefusal? extensions).elim (.ok extensions) .error := by
  have run := Except.mapM_eq_ok.mp h
  clear h
  induction run with
  | nil => rfl
  | @cons element extension elements extensions first rest ih =>
    have read := (ofElement_eq_ok.mp first).2
    rw [List.mapM_cons, ofElement_strict first, ih]
    -- The strict run stops at the head when that was kept malformed, and only then.
    by_cases kept : extension.keptMalformed = true
    · obtain ⟨cause, found⟩ := (keptMalformed_iff read).mp kept
      simp [firstRefusal?, kept, refusal?, found]
    · rw [refusal?_of_not_keptMalformed read kept, firstRefusal?, firstRefusal?,
        List.find?_cons_of_neg kept]
      cases (extensions.find? keptMalformed).bind refusal? <;> rfl

end Extension

/-! ## The whole certificate -/

namespace TbsCertificate

theorem ofElement_lenient_of_strict {element : Element} {tbs : TbsCertificate}
    (h : (ofElement .strict element).result = .ok tbs) :
    (ofElement .lenient element).result = .ok tbs := by
  obtain ⟨fields, key, read, names, readKey, issuerId, subjectId, exts, slot, readExts⟩ :=
    ofElement_eq_ok_steps.mp h
  have each := (Except.mapM_eq_ok.mp readExts).imp fun _ _ => Extension.ofElement_lenient_of_strict
  exact ofElement_eq_ok_steps.mpr ⟨fields, key, read, names, readKey, issuerId, subjectId, exts,
    slot, Except.mapM_eq_ok.mpr each⟩

/-- The policy comes into the reader with the extensions alone, after everything else. -/
theorem ofElement_strict {element : Element} {tbs : TbsCertificate}
    (h : (ofElement .lenient element).result = .ok tbs) :
    (ofElement .strict element).result =
      (Extension.firstRefusal? tbs.extensions).elim (.ok tbs) .error := by
  obtain ⟨fields, key, read, names, readKey, issuerId, subjectId, exts, slot, readExts⟩ :=
    ofElement_eq_ok_steps.mp h
  obtain ⟨found, wrapped, rfl⟩ := extensions_mapM_eq_ok.mpr slot
  simp only [ofElement, Logged.result_bind, Logged.result_ofExcept, Logged.result_mapError,
    Logged.result_pure, readExtensions_result, read, names, readKey, issuerId, subjectId, wrapped,
    Except.ok_mapError, Except.ok_bind, Extension.mapM_ofElement_strict readExts]
  cases Extension.firstRefusal? tbs.extensions <;> rfl

end TbsCertificate

namespace Certificate

theorem decode_lenient_of_strict {limit : Nat} {bytes : Bytes} {certificate : Certificate}
    (h : decode ⟨.strict, limit⟩ bytes = .ok certificate) :
    decode ⟨.lenient, limit⟩ bytes = .ok certificate := by
  obtain ⟨size, element, tree, read⟩ := decode_eq_ok.mp h
  obtain ⟨tbs, parts, signed, rest⟩ := ofElement_eq_ok.mp read
  have again := TbsCertificate.ofElement_lenient_of_strict signed
  exact decode_eq_ok.mpr ⟨size, element, tree, ofElement_eq_ok.mpr ⟨tbs, parts, again, rest⟩⟩

theorem readValue_of_decode {options : DecodeOptions} {bytes : Bytes} {certificate : Certificate}
    (h : decode options bytes = .ok certificate) {extension : Extension}
    (member : extension ∈ certificate.tbs.extensions) :
    (Extension.readValue options.extensionPolicy extension.oid extension.raw).result =
      .ok extension.value := by
  obtain ⟨-, element, -, read⟩ := decode_eq_ok.mp h
  obtain ⟨tbs, -, signed, -⟩ := ofElement_eq_ok.mp read
  obtain ⟨-, -, -, -, -, -, -, exts, -, readExts⟩ := TbsCertificate.ofElement_eq_ok_steps.mp signed
  obtain ⟨inner, -, readInner⟩ := Except.exists_of_mem_mapM readExts member
  exact (Extension.ofElement_eq_ok.mp readInner).2

theorem decode_strict {limit : Nat} {bytes : Bytes} {certificate : Certificate}
    (h : decode ⟨.lenient, limit⟩ bytes = .ok certificate) :
    decode ⟨.strict, limit⟩ bytes =
      (Extension.firstRefusal? certificate.tbs.extensions).elim (.ok certificate) .error := by
  obtain ⟨size, element, tree, read⟩ := decode_eq_ok.mp h
  obtain ⟨tbs, rfl, signed, canonical, same⟩ := ofElement_eq_ok.mp read
  have rest := readSignature_eq_ok.mpr ⟨rfl, rfl, canonical, same, rfl⟩
  have within : bytes.length ≤ (⟨.strict, limit⟩ : DecodeOptions).maxEncodedLength := size
  rw [decode_result within, tree, Except.ok_mapError, Except.ok_bind, ofElement_result,
    TbsCertificate.ofElement_strict signed]
  cases Extension.firstRefusal? certificate.tbs.extensions with
  | none => exact rest
  | some refusal => rfl

/-- The strict policy gives the certificate of the lenient one or refuses its first extension that
was kept malformed, and accepts nothing else. -/
theorem lenient_extends_strict (limit : Nat) (bytes : Bytes) :
    (∀ certificate, decode ⟨.strict, limit⟩ bytes = .ok certificate →
      decode ⟨.lenient, limit⟩ bytes = .ok certificate) ∧
    (∀ e, decode ⟨.lenient, limit⟩ bytes = .error e →
      ∃ e', decode ⟨.strict, limit⟩ bytes = .error e') ∧
    ∀ certificate, decode ⟨.lenient, limit⟩ bytes = .ok certificate →
      (certificate.tbs.extensions.find? Extension.keptMalformed = none →
        decode ⟨.strict, limit⟩ bytes = .ok certificate) ∧
      ∀ extension, certificate.tbs.extensions.find? Extension.keptMalformed = some extension →
        ∃ cause, ExtensionValue.parse? extension.oid extension.raw = some (.error cause) ∧
          decode ⟨.strict, limit⟩ bytes = .error (.invalidExtension extension.oid cause) := by
  refine ⟨fun _ => decode_lenient_of_strict, ?_, ?_⟩
  · intro e refused
    cases strict : decode ⟨.strict, limit⟩ bytes with
    | error e' => exact ⟨e', rfl⟩
    | ok certificate =>
      have accepted := decode_lenient_of_strict strict
      simp [refused] at accepted
  · intro certificate accepted
    rw [decode_strict accepted, Extension.firstRefusal?]
    constructor
    · intro clean
      rw [clean]
      rfl
    · intro extension first
      have read := readValue_of_decode accepted (List.mem_of_find?_eq_some first)
      obtain ⟨cause, found⟩ := (Extension.keptMalformed_iff read).mp (List.find?_some first)
      refine ⟨cause, found, ?_⟩
      simp [first, Extension.refusal?, found]

/-- A certificate with an extension that no kind has, then basic constraints and a key usage that
are malformed. -/
def twiceMalformed : Bytes :=
  [0x30, 0x6a, 0x30, 0x5f, 0x02, 0x01, 0x01, 0x30, 0x04, 0x06, 0x02, 0x2a, 0x03, 0x30, 0x00, 0x30,
    0x1e, 0x17, 0x0d, 0x32, 0x34, 0x30, 0x31, 0x30, 0x31, 0x30, 0x30, 0x30, 0x30, 0x30, 0x30, 0x5a,
    0x17, 0x0d, 0x32, 0x35, 0x30, 0x31, 0x30, 0x31, 0x30, 0x30, 0x30, 0x30, 0x30, 0x30, 0x5a, 0x30,
    0x00, 0x30, 0x09, 0x30, 0x04, 0x06, 0x02, 0x2a, 0x03, 0x03, 0x01, 0x00, 0x81, 0x01, 0x00, 0x82,
    0x01, 0x00, 0xa3, 0x1f, 0x30, 0x1d, 0x30, 0x07, 0x06, 0x02, 0x2a, 0x04, 0x04, 0x01, 0xaa, 0x30,
    0x09, 0x06, 0x03, 0x55, 0x1d, 0x13, 0x04, 0x02, 0x05, 0x00, 0x30, 0x07, 0x06, 0x03, 0x55, 0x1d,
    0x0f, 0x04, 0x00, 0x30, 0x04, 0x06, 0x02, 0x2a, 0x03, 0x03, 0x01, 0x00]

/-- The first of two malformed extensions is refused, and an extension of no kind is not. -/
theorem decode_twiceMalformed :
    (∃ certificate cause, decode { extensionPolicy := .lenient } twiceMalformed = .ok certificate ∧
      decode {} twiceMalformed = .error (.invalidExtension ⟨[2, 5, 29, 19]⟩ cause)) ∧
    (∃ certificate, decode { extensionPolicy := .lenient } settled = .ok certificate ∧
      decode {} settled = .ok certificate) ∧
    ∃ e, decode {} [] = .error e := by
  refine ⟨?_, ?_, ?_⟩
  · have first : ((decode { extensionPolicy := .lenient } twiceMalformed).toOption.bind
        fun certificate => (certificate.tbs.extensions.find? Extension.keptMalformed).map
          Extension.oid) = some ⟨[2, 5, 29, 19]⟩ := by decide +kernel
    obtain ⟨certificate, accepted, named⟩ := Option.bind_eq_some_iff.mp first
    obtain ⟨extension, found, oid⟩ := Option.map_eq_some_iff.mp named
    obtain ⟨-, -, reads⟩ := lenient_extends_strict 1048576 twiceMalformed
    have lenient := Except.toOption_eq_some.mp accepted
    obtain ⟨cause, -, refused⟩ := (reads certificate lenient).2 extension found
    exact ⟨certificate, cause, lenient, oid ▸ refused⟩
  · have clean : ((decode { extensionPolicy := .lenient } settled).toOption.any
        fun certificate => (certificate.tbs.extensions.find? Extension.keptMalformed).isNone) =
          true := by decide +kernel
    obtain ⟨certificate, accepted, none⟩ := (Option.any_eq_true _ _).mp clean
    obtain ⟨-, -, reads⟩ := lenient_extends_strict 1048576 settled
    have lenient := Except.toOption_eq_some.mp accepted
    exact ⟨certificate, lenient, (reads certificate lenient).1 (Option.isNone_iff_eq_none.mp none)⟩
  · have empty : decode { extensionPolicy := .lenient } [] =
        .error (.inField "Certificate" (.framing .endOfInput)) := rfl
    exact (lenient_extends_strict 1048576 []).2.1 _ empty

end Certificate

end DerCodec
