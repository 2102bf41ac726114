import DerCodec.Certificate
import DerCodec.Proofs.TbsCertificate

/-!
# Which certificates are accepted

`Certificate.decode_eq_ok` and `Certificate.ofElement_eq_ok` name the trees that a certificate is
read from. The algorithm next to the signature is compared with the one in the signed part, but only
by its identifier: parameters may differ in an accepted certificate.
-/

namespace DerCodec.Certificate

/-! ## The reader, part by part -/

theorem partsOfElement_eq_ok {element tbs algorithm signature : Element} :
    partsOfElement element = .ok (tbs, algorithm, signature) ↔
      element = .sequence [tbs, algorithm, signature] := by
  simp only [partsOfElement, Except.bind_eq_ok, Element.asSequence_eq_ok]
  constructor
  · rintro ⟨children, rfl, read⟩
    split at read
    · cases read
      rfl
    · simp at read
  · rintro rfl
    exact ⟨_, rfl, rfl⟩

/-- Once the outer algorithm is read, its identifier is compared, and then the signature is read. -/
theorem readSignature_eq {tbs : TbsCertificate} {element signature : Element}
    {outer : AlgorithmIdentifier} (read : AlgorithmIdentifier.ofElement element = .ok outer) :
    readSignature tbs element signature =
      if outer.algorithm ≠ tbs.signature.algorithm then
        .error (.signatureAlgorithmMismatch outer.algorithm tbs.signature.algorithm)
      else ((signature.value .bitString).mapError (.inField "signatureValue")).map
        fun bits => ⟨tbs, outer, bits⟩ := by
  simp only [readSignature, read, Except.ok_mapError, Except.ok_bind]
  rfl

theorem readSignature_eq_ok {tbs : TbsCertificate} {element signature : Element}
    {certificate : Certificate} :
    readSignature tbs element signature = .ok certificate ↔
      certificate.tbs = tbs ∧ element = certificate.signatureAlgorithm.toElement ∧
        certificate.signatureAlgorithm.Canonical ∧
        certificate.signatureAlgorithm.algorithm = tbs.signature.algorithm ∧
        signature = .primitive .bitString certificate.signature := by
  constructor
  · intro h
    obtain ⟨outer, found, -⟩ := Except.bind_eq_ok.mp h
    have read := Except.mapError_eq_ok.mp found
    rw [readSignature_eq read] at h
    split_ifs at h with same
    obtain ⟨bits, value, rfl⟩ := Except.map_eq_ok.mp h
    obtain ⟨tree, canonical⟩ := AlgorithmIdentifier.ofElement_eq_ok.mp read
    have signed := Element.value_eq_ok.mp (Except.mapError_eq_ok.mp value)
    exact ⟨rfl, tree, canonical, not_not.mp same, signed⟩
  · rintro ⟨rfl, tree, canonical, same, rfl⟩
    have read := AlgorithmIdentifier.ofElement_eq_ok.mpr ⟨tree, canonical⟩
    rw [readSignature_eq read, if_neg (not_not.mpr same)]
    rfl

theorem ofElement_result (policy : ExtensionPolicy) (tbs algorithm signature : Element) :
    (ofElement policy (.sequence [tbs, algorithm, signature])).result =
      (TbsCertificate.ofElement policy tbs).result >>=
        fun tbs => readSignature tbs algorithm signature := by
  have parts := partsOfElement_eq_ok.mpr (Eq.refl (Element.sequence [tbs, algorithm, signature]))
  simp only [ofElement, Logged.result_bind, Logged.result_ofExcept, parts, Except.ok_mapError,
    Except.ok_bind]

/-- What a certificate is read from. -/
theorem ofElement_eq_ok {policy : ExtensionPolicy} {element : Element}
    {certificate : Certificate} :
    (ofElement policy element).result = .ok certificate ↔ ∃ tbs,
      element = .sequence [tbs, certificate.signatureAlgorithm.toElement,
        .primitive .bitString certificate.signature] ∧
      (TbsCertificate.ofElement policy tbs).result = .ok certificate.tbs ∧
      certificate.signatureAlgorithm.Canonical ∧
      certificate.signatureAlgorithm.algorithm = certificate.tbs.signature.algorithm := by
  constructor
  · intro h
    have parts : ∃ tbs algorithm signature, element = .sequence [tbs, algorithm, signature] := by
      simp only [ofElement, Logged.result_bind, Logged.result_ofExcept, Except.bind_eq_ok,
        Except.mapError_eq_ok] at h
      obtain ⟨⟨tbs, algorithm, signature⟩, found, -⟩ := h
      exact ⟨tbs, algorithm, signature, partsOfElement_eq_ok.mp found⟩
    obtain ⟨tbs, algorithm, signature, rfl⟩ := parts
    rw [ofElement_result] at h
    obtain ⟨signed, read, rest⟩ := Except.bind_eq_ok.mp h
    obtain ⟨rfl, rfl, canonical, same, rfl⟩ := readSignature_eq_ok.mp rest
    exact ⟨tbs, rfl, read, canonical, same⟩
  · rintro ⟨tbs, rfl, read, canonical, same⟩
    rw [ofElement_result, read]
    exact readSignature_eq_ok.mpr ⟨rfl, rfl, canonical, same, rfl⟩

theorem decode_result {options : DecodeOptions} {bytes : Bytes}
    (size : bytes.length ≤ options.maxEncodedLength) :
    decode options bytes =
      (Element.decode bytes).mapError (.inField "Certificate") >>=
        fun element => (ofElement options.extensionPolicy element).result := by
  simp only [decode, decodeLogged, if_neg (Nat.not_lt.mpr size), Logged.result_debugFailure,
    ofOctets, Logged.result_bind, Logged.result_ofExcept]

theorem decode_eq_ok {options : DecodeOptions} {bytes : Bytes} {certificate : Certificate} :
    decode options bytes = .ok certificate ↔
      bytes.length ≤ options.maxEncodedLength ∧ ∃ element, Element.decode bytes = .ok element ∧
        (ofElement options.extensionPolicy element).result = .ok certificate := by
  by_cases size : bytes.length ≤ options.maxEncodedLength
  · simp only [decode_result size, Except.bind_eq_ok, Except.mapError_eq_ok, size, true_and]
  · simp [decode, decodeLogged, if_pos (Nat.not_le.mp size), size]

/-! ## The two algorithm identifiers -/

/-- The octets hold a signed part and an outer algorithm that can both be read, and then the
element of the signature. -/
structure Compared (options : DecodeOptions) (bytes : Bytes) (tbs : TbsCertificate)
    (outer : AlgorithmIdentifier) (signature : Element) : Prop where
  size : bytes.length ≤ options.maxEncodedLength
  parts : ∃ signed algorithm,
    Element.decode bytes = .ok (.sequence [signed, algorithm, signature]) ∧
      (TbsCertificate.ofElement options.extensionPolicy signed).result = .ok tbs ∧
      AlgorithmIdentifier.ofElement algorithm = .ok outer

theorem Compared.decode_eq {options : DecodeOptions} {bytes : Bytes} {tbs : TbsCertificate}
    {outer : AlgorithmIdentifier} {signature : Element}
    (h : Compared options bytes tbs outer signature) :
    decode options bytes =
      if outer.algorithm ≠ tbs.signature.algorithm then
        .error (.signatureAlgorithmMismatch outer.algorithm tbs.signature.algorithm)
      else ((signature.value .bitString).mapError (.inField "signatureValue")).map
        fun bits => ⟨tbs, outer, bits⟩ := by
  obtain ⟨size, signed, algorithm, tree, readSigned, readOuter⟩ := h
  rw [decode_result size, tree, Except.ok_mapError, Except.ok_bind, ofElement_result, readSigned,
    Except.ok_bind, readSignature_eq readOuter]

theorem compared_of_decode {options : DecodeOptions} {bytes : Bytes} {certificate : Certificate}
    (h : decode options bytes = .ok certificate) :
    Compared options bytes certificate.tbs certificate.signatureAlgorithm
      (.primitive .bitString certificate.signature) := by
  obtain ⟨size, element, tree, read⟩ := decode_eq_ok.mp h
  obtain ⟨signed, rfl, readSigned, canonical, -⟩ := ofElement_eq_ok.mp read
  have readOuter := AlgorithmIdentifier.ofElement_eq_ok.mpr ⟨rfl, canonical⟩
  exact ⟨size, signed, _, tree, readSigned, readOuter⟩

/-- The cross check fails exactly when the algorithms differ. -/
theorem Compared.crossCheck_iff {options : DecodeOptions} {bytes : Bytes} {tbs : TbsCertificate}
    {outer : AlgorithmIdentifier} {signature : Element}
    (h : Compared options bytes tbs outer signature) :
    (∃ e, decode options bytes = .error e ∧ e.kind = .crossCheck) ↔
      outer.algorithm ≠ tbs.signature.algorithm := by
  rw [h.decode_eq]
  by_cases differ : outer.algorithm ≠ tbs.signature.algorithm
  · rw [if_pos differ]
    exact iff_of_true ⟨_, rfl, rfl⟩ differ
  · rw [if_neg differ]
    refine iff_of_false ?_ differ
    rintro ⟨e, failed, kind⟩
    obtain ⟨cause, unread, rfl⟩ := Except.mapError_eq_error.mp (Except.map_eq_error.mp failed)
    obtain rfl := Element.value_eq_error unread
    simp [CertificateError.kind, ElementError.kind, Element.unexpected] at kind

/-- Identifiers that differ in their parameters alone are accepted. -/
theorem Compared.differ_iff {options : DecodeOptions} {bytes : Bytes} {tbs : TbsCertificate}
    {outer : AlgorithmIdentifier} {signature : Element}
    (h : Compared options bytes tbs outer signature) :
    (∃ certificate, decode options bytes = .ok certificate ∧
        certificate.signatureAlgorithm ≠ certificate.tbs.signature) ↔
      outer.algorithm = tbs.signature.algorithm ∧ outer.parameters ≠ tbs.signature.parameters ∧
        ∃ bits, signature = .primitive .bitString bits := by
  rw [h.decode_eq]
  constructor
  · rintro ⟨certificate, accepted, different⟩
    split_ifs at accepted with differ
    have same := not_not.mp differ
    obtain ⟨bits, value, rfl⟩ := Except.map_eq_ok.mp accepted
    refine ⟨same, ?_, bits, Element.value_eq_ok.mp (Except.mapError_eq_ok.mp value)⟩
    intro parameters
    exact different (AlgorithmIdentifier.eq_iff.mpr ⟨same, parameters⟩)
  · rintro ⟨same, different, bits, rfl⟩
    rw [if_neg (not_not.mpr same)]
    refine ⟨⟨tbs, outer, bits⟩, rfl, ?_⟩
    intro equal
    exact different (congrArg AlgorithmIdentifier.parameters equal)

/-- Accepted certificates agree in the algorithm. Once both identifiers are read, the cross check
fails exactly when the algorithms differ, and identifiers that differ in their parameters alone
are accepted with any signature. -/
theorem crossCheck_compares_algorithm (options : DecodeOptions) (bytes : Bytes) :
    (∀ certificate, decode options bytes = .ok certificate →
      certificate.signatureAlgorithm.algorithm = certificate.tbs.signature.algorithm) ∧
    ∀ tbs outer signature, Compared options bytes tbs outer signature →
      ((∃ e, decode options bytes = .error e ∧ e.kind = .crossCheck) ↔
        outer.algorithm ≠ tbs.signature.algorithm) ∧
      ((∃ certificate, decode options bytes = .ok certificate ∧
          certificate.signatureAlgorithm ≠ certificate.tbs.signature) ↔
        outer.algorithm = tbs.signature.algorithm ∧ outer.parameters ≠ tbs.signature.parameters ∧
          ∃ bits, signature = .primitive .bitString bits) := by
  constructor
  · intro certificate accepted
    obtain ⟨-, element, -, read⟩ := decode_eq_ok.mp accepted
    obtain ⟨signed, -, -, -, same⟩ := ofElement_eq_ok.mp read
    exact same
  · intro tbs outer signature compared
    exact ⟨compared.crossCheck_iff, compared.differ_iff⟩

/-- A certificate whose outer algorithm has NULL parameters and whose inner one has none. -/
def nullAgainstOmitted : Bytes :=
  [0x30, 0x45, 0x30, 0x38, 0x02, 0x01, 0x01, 0x30, 0x04, 0x06, 0x02, 0x2a, 0x03, 0x30, 0x00, 0x30,
    0x1e, 0x17, 0x0d, 0x32, 0x34, 0x30, 0x31, 0x30, 0x31, 0x30, 0x30, 0x30, 0x30, 0x30, 0x30, 0x5a,
    0x17, 0x0d, 0x32, 0x35, 0x30, 0x31, 0x30, 0x31, 0x30, 0x30, 0x30, 0x30, 0x30, 0x30, 0x5a, 0x30,
    0x00, 0x30, 0x09, 0x30, 0x04, 0x06, 0x02, 0x2a, 0x03, 0x03, 0x01, 0x00, 0x30, 0x06, 0x06, 0x02,
    0x2a, 0x03, 0x05, 0x00, 0x03, 0x01, 0x00]

theorem decode_nullAgainstOmitted : ∃ certificate,
    decode {} nullAgainstOmitted = .ok certificate ∧
      certificate.signatureAlgorithm = ⟨⟨[1, 2, 3]⟩, some .null⟩ ∧
      certificate.tbs.signature = ⟨⟨[1, 2, 3]⟩, none⟩ := by
  have result : ((decode {} nullAgainstOmitted).toOption.map fun certificate =>
      (certificate.signatureAlgorithm, certificate.tbs.signature)) =
        some (⟨⟨[1, 2, 3]⟩, some .null⟩, ⟨⟨[1, 2, 3]⟩, none⟩) := by decide +kernel
  obtain ⟨certificate, accepted, identifiers⟩ := Option.map_eq_some_iff.mp result
  exact ⟨certificate, Except.toOption_eq_some.mp accepted, Prod.mk.inj identifiers⟩

theorem nullAgainstOmitted_compared : ∃ tbs outer signature,
    Compared {} nullAgainstOmitted tbs outer signature ∧
      (¬∃ e, decode {} nullAgainstOmitted = .error e ∧ e.kind = .crossCheck) ∧
      ∃ certificate, decode {} nullAgainstOmitted = .ok certificate ∧
        certificate.signatureAlgorithm ≠ certificate.tbs.signature := by
  obtain ⟨certificate, accepted, outer, inner⟩ := decode_nullAgainstOmitted
  have compared := compared_of_decode accepted
  obtain ⟨crossCheck, differ⟩ :=
    (crossCheck_compares_algorithm {} nullAgainstOmitted).2 _ _ _ compared
  refine ⟨_, _, _, compared, ?_, differ.mpr ⟨?_, ?_, _, rfl⟩⟩
  · rw [crossCheck, outer, inner]
    exact not_not.mpr rfl
  · rw [outer, inner]
  · rw [outer, inner]
    decide

/-- An accepted certificate need not carry the same identifier twice. -/
theorem nullAgainstOmitted_differs : ∃ certificate,
    decode {} nullAgainstOmitted = .ok certificate ∧
      certificate.signatureAlgorithm ≠ certificate.tbs.signature := by
  obtain ⟨certificate, accepted, outer, inner⟩ := decode_nullAgainstOmitted
  refine ⟨certificate, accepted, ?_⟩
  rw [outer, inner]
  decide

end DerCodec.Certificate
