import DerCodec.Proofs.Certificate
import DerCodec.Proofs.OidText

/-!
# Which keys are decoded

`PublicKey.Readable` says what the bits of a key must hold under its algorithm, and a key is decoded
exactly then. One event reports a key of a known algorithm that is not.
-/

namespace DerCodec

/-! ## Keys of one algorithm -/

theorem RsaPublicKey.ofBits_eq_ok {bits : BitString} {key : RsaPublicKey} :
    ofBits bits = .ok key ↔ bits.unused = 0 ∧ Element.decode bits.octets =
      .ok (.sequence [.primitive .integer key.modulus, .primitive .integer key.exponent]) := by
  obtain ⟨modulus, exponent⟩ := key
  unfold ofBits
  split_ifs with whole
  · simp [whole]
  · simp only [Except.bind_eq_ok, Except.mapError_eq_ok, Element.asSequence_eq_ok, not_not.mp whole,
      true_and]
    constructor
    · rintro ⟨element, tree, children, rfl, read⟩
      split at read
      · obtain ⟨first, readFirst, rest⟩ := Except.bind_eq_ok.mp read
        obtain ⟨second, readSecond, same⟩ := Except.bind_eq_ok.mp rest
        obtain rfl := Element.value_eq_ok.mp (Except.mapError_eq_ok.mp readFirst)
        obtain rfl := Element.value_eq_ok.mp (Except.mapError_eq_ok.mp readSecond)
        cases same
        exact tree
      · simp at read
    · intro tree
      exact ⟨_, tree, _, rfl, rfl⟩

namespace CurvePoint

/-- The first octet tells the form of a point, and the form how many octets there are. -/
def IsPoint (octets : Bytes) : Prop :=
  octets.length = 65 ∧ octets.head? = some 0x04 ∨
    octets.length = 33 ∧ (octets.head? = some 0x02 ∨ octets.head? = some 0x03)

theorem exists_ofOctets?_iff {octets : Bytes} :
    (∃ point, ofOctets? octets = some point) ↔ IsPoint octets := by
  unfold ofOctets? IsPoint coordinateLength
  split
  · simp
  · simp
  · simp
  · rename_i uncompressed even odd
    cases octets with
    | nil => simp
    | cons first rest =>
      simp only [List.head?_cons, Option.some.injEq, reduceCtorEq, exists_false, false_iff]
      rintro (⟨-, rfl⟩ | ⟨-, rfl | rfl⟩)
      · exact uncompressed rest rfl
      · exact even rest rfl
      · exact odd rest rfl

theorem ofBits_eq_ok {bits : BitString} {point : CurvePoint} :
    ofBits bits = .ok point ↔ bits.unused = 0 ∧ ofOctets? bits.octets = some point := by
  unfold ofBits
  split_ifs with whole
  · simp [whole]
  · cases ofOctets? bits.octets <;> simp [not_not.mp whole]

end CurvePoint

namespace AlgorithmIdentifier

/-- The algorithm is the one of RSA keys. -/
def IsRsa (id : AlgorithmIdentifier) : Prop :=
  id.algorithm = ⟨[1, 2, 840, 113549, 1, 1, 1]⟩

/-- The algorithm is the one of elliptic curve keys. -/
def IsEllipticCurve (id : AlgorithmIdentifier) : Prop :=
  id.algorithm = ⟨[1, 2, 840, 10045, 2, 1]⟩

instance (id : AlgorithmIdentifier) : Decidable id.IsRsa :=
  inferInstanceAs (Decidable (_ = _))

instance (id : AlgorithmIdentifier) : Decidable id.IsEllipticCurve :=
  inferInstanceAs (Decidable (_ = _))

theorem isRsa_iff {id : AlgorithmIdentifier} : id.IsRsa ↔ id.algorithm.text = rsaEncryption := by
  rw [IsRsa, ← Oid.text_inj]
  rfl

theorem isEllipticCurve_iff {id : AlgorithmIdentifier} :
    id.IsEllipticCurve ↔ id.algorithm.text = ecPublicKey := by
  rw [IsEllipticCurve, ← Oid.text_inj]
  rfl

theorem namedCurve?_isSome_iff {id : AlgorithmIdentifier} :
    id.namedCurve?.isSome = true ↔
      ∃ curve, id.parameters = some (.element (.primitive .oid curve)) := by
  unfold namedCurve?
  split
  · simp_all
  · rename_i other
    simp only [Option.isSome_none, Bool.false_eq_true, false_iff, not_exists]
    exact other

end AlgorithmIdentifier

/-! ## Keys of any algorithm -/

namespace PublicKey

/-- The bits hold a key of the algorithm. -/
inductive Readable (algorithm : AlgorithmIdentifier) (bits : BitString) : Prop where
  | rsa (known : algorithm.IsRsa) (whole : bits.unused = 0)
      (integers : ∃ modulus exponent, Element.decode bits.octets =
        .ok (.sequence [.primitive .integer modulus, .primitive .integer exponent]))
  | ellipticCurve (known : algorithm.IsEllipticCurve)
      (named : ∃ curve, algorithm.parameters = some (.element (.primitive .oid curve)))
      (whole : bits.unused = 0) (point : CurvePoint.IsPoint bits.octets)

/-- The key is of the kind that the algorithm is for. A point needs a named curve. -/
def Suits : PublicKey → AlgorithmIdentifier → Prop
  | rsa _, algorithm => algorithm.IsRsa
  | ellipticCurve _, algorithm =>
    algorithm.IsEllipticCurve ∧ algorithm.namedCurve?.isSome = true

instance (key : PublicKey) (algorithm : AlgorithmIdentifier) : Decidable (key.Suits algorithm) := by
  cases key <;> (simp only [Suits]; infer_instance)

/-- The bits are read as the key. -/
def HeldBy : PublicKey → BitString → Prop
  | rsa pair, bits => RsaPublicKey.ofBits bits = .ok pair
  | ellipticCurve point, bits => CurvePoint.ofBits bits = .ok point

variable {algorithm : AlgorithmIdentifier} {bits : BitString}

theorem decode?_of_isRsa (h : algorithm.IsRsa) :
    decode? algorithm bits = some ((RsaPublicKey.ofBits bits).map rsa) := by
  rw [decode?, if_pos (AlgorithmIdentifier.isRsa_iff.mp h)]

theorem decode?_of_isEllipticCurve (h : algorithm.IsEllipticCurve) :
    decode? algorithm bits =
      if algorithm.namedCurve?.isNone then some (.error (.invalid "EC key without a named curve"))
      else some ((CurvePoint.ofBits bits).map ellipticCurve) := by
  have other : ¬algorithm.IsRsa := fun rsa => absurd (h.symm.trans rsa) (by decide)
  rw [decode?, if_neg (AlgorithmIdentifier.isRsa_iff.not.mp other),
    if_pos (AlgorithmIdentifier.isEllipticCurve_iff.mp h)]

theorem decode?_eq_none_iff :
    decode? algorithm bits = none ↔ ¬(algorithm.IsRsa ∨ algorithm.IsEllipticCurve) := by
  constructor
  · rintro none (rsa | curve)
    · simp [decode?_of_isRsa rsa] at none
    · rw [decode?_of_isEllipticCurve curve] at none
      split_ifs at none
  · intro unknown
    simp only [not_or, AlgorithmIdentifier.isRsa_iff, AlgorithmIdentifier.isEllipticCurve_iff]
      at unknown
    rw [decode?, if_neg unknown.1, if_neg unknown.2]

/-- A key is decoded when it is of the kind that the algorithm is for and the bits hold it. -/
theorem decode?_eq_ok {key : PublicKey} :
    decode? algorithm bits = some (.ok key) ↔ key.Suits algorithm ∧ key.HeldBy bits := by
  by_cases rsa : algorithm.IsRsa
  · have other : ¬algorithm.IsEllipticCurve :=
      fun curve => absurd (rsa.symm.trans curve) (by decide)
    rw [decode?_of_isRsa rsa, Option.some.injEq, Except.map_eq_ok]
    cases key <;> simp [Suits, HeldBy, rsa, other]
  by_cases curve : algorithm.IsEllipticCurve
  · rw [decode?_of_isEllipticCurve curve]
    cases named : algorithm.namedCurve? with
    | none => cases key <;> simp [Suits, rsa, named]
    | some id =>
      simp only [Option.isNone_some, Bool.false_eq_true, if_false, Option.some.injEq,
        Except.map_eq_ok]
      cases key <;> simp [Suits, HeldBy, rsa, curve, named]
  · rw [decode?_eq_none_iff.mpr (not_or.mpr ⟨rsa, curve⟩)]
    cases key <;> simp [Suits, rsa, curve]

theorem exists_decode?_iff : (∃ key, decode? algorithm bits = some (.ok key)) ↔
    Readable algorithm bits := by
  simp only [decode?_eq_ok]
  constructor
  · rintro ⟨pair | point, suits, held⟩
    · obtain ⟨whole, tree⟩ := RsaPublicKey.ofBits_eq_ok.mp held
      exact .rsa suits whole ⟨pair.modulus, pair.exponent, tree⟩
    · obtain ⟨whole, octets⟩ := CurvePoint.ofBits_eq_ok.mp held
      exact .ellipticCurve suits.1 (AlgorithmIdentifier.namedCurve?_isSome_iff.mp suits.2) whole
        (CurvePoint.exists_ofOctets?_iff.mp ⟨point, octets⟩)
  · rintro (⟨known, whole, modulus, exponent, tree⟩ | ⟨known, named, whole, octets⟩)
    · exact ⟨.rsa ⟨modulus, exponent⟩, known, RsaPublicKey.ofBits_eq_ok.mpr ⟨whole, tree⟩⟩
    · obtain ⟨point, found⟩ := CurvePoint.exists_ofOctets?_iff.mpr octets
      exact ⟨.ellipticCurve point, ⟨known, AlgorithmIdentifier.namedCurve?_isSome_iff.mpr named⟩,
        CurvePoint.ofBits_eq_ok.mpr ⟨whole, found⟩⟩

end PublicKey

namespace SubjectPublicKeyInfo

variable {algorithm : AlgorithmIdentifier} {bits : BitString}

theorem key_eq_some_iff {key : PublicKey} :
    (ofBits algorithm bits).key = some key ↔
      PublicKey.decode? algorithm bits = some (.ok key) := by
  simp only [ofBits, Option.bind_eq_some_iff, Except.toOption_eq_some, exists_eq_right]

/-- A key is decoded exactly when the bits hold one of the algorithm. -/
theorem key_isSome_iff :
    (ofBits algorithm bits).key.isSome = true ↔ PublicKey.Readable algorithm bits := by
  simp only [Option.isSome_iff_exists, key_eq_some_iff, PublicKey.exists_decode?_iff]

/-- The algorithm is one whose keys are decoded, and this key is not. -/
def Undecoded (info : SubjectPublicKeyInfo) : Prop :=
  (info.algorithm.IsRsa ∨ info.algorithm.IsEllipticCurve) ∧ info.key = none

instance (info : SubjectPublicKeyInfo) : Decidable info.Undecoded :=
  inferInstanceAs (Decidable (_ ∧ _))

theorem undecoded_iff : (ofBits algorithm bits).Undecoded ↔
    ∃ cause, PublicKey.decode? algorithm bits = some (.error cause) := by
  have unknown := @PublicKey.decode?_eq_none_iff algorithm bits
  simp only [Undecoded, ofBits]
  rcases found : PublicKey.decode? algorithm bits with - | cause | key <;>
    simp only [found, true_iff, reduceCtorEq, false_iff, not_not] at unknown <;>
    simp [unknown, Except.toOption]

/-- A key that should be decoded and is not is reported in one event. -/
theorem undecodedEvents_of_undecoded (h : (ofBits algorithm bits).Undecoded) :
    ∃ message, undecodedEvents algorithm bits = [⟨.trace, message⟩] := by
  obtain ⟨cause, failed⟩ := undecoded_iff.mp h
  exact ⟨_, by rw [undecodedEvents, failed]⟩

theorem undecodedEvents_of_not_undecoded (h : ¬(ofBits algorithm bits).Undecoded) :
    undecodedEvents algorithm bits = [] := by
  rw [undecoded_iff] at h
  unfold undecodedEvents
  split
  · rename_i cause failed
    exact absurd ⟨cause, failed⟩ h
  · rfl

end SubjectPublicKeyInfo

/-- The key of an accepted certificate is the one that its own algorithm finds in its own bits. -/
theorem Certificate.publicKeyInfo_eq {policy : ExtensionPolicy} {element : Element}
    {certificate : Certificate} (h : (ofElement policy element).result = .ok certificate) :
    certificate.tbs.publicKeyInfo = .ofBits certificate.tbs.publicKeyInfo.algorithm
      certificate.tbs.publicKeyInfo.bits := by
  obtain ⟨signed, -, read, -⟩ := ofElement_eq_ok.mp h
  obtain ⟨-, key, -, -, readKey, -⟩ := TbsCertificate.ofElement_eq_ok_steps.mp read
  obtain ⟨-, -, derived⟩ := SubjectPublicKeyInfo.ofElement_eq_ok.mp readKey
  exact derived

end DerCodec
