import DerCodec.Proofs.KeyBits

/-!
# Keys that agree with their algorithm and bits

A key is stored next to the bits that it can be read from. The two agree when the key comes from its
bits or from an element. When the key itself is given, they agree only if it is a key of the
algorithm: one of another kind is kept all the same, and lost when its element is read again.
-/

namespace DerCodec

namespace SubjectPublicKeyInfo

/-- The three ways to come by a key: from its bits, from the key itself and from an element. -/
inductive Constructed : SubjectPublicKeyInfo → Prop where
  | ofBits (algorithm : AlgorithmIdentifier) (bits : BitString) :
    Constructed (ofBits algorithm bits)
  | ofKey {algorithm : AlgorithmIdentifier} {key : PublicKey} {info : SubjectPublicKeyInfo}
    (made : ofKey algorithm key = .ok info) : Constructed info
  | ofElement {element : Element} {info : SubjectPublicKeyInfo}
    (read : (ofElement element).result = .ok info) : Constructed info

/-- The stored key is the one that the algorithm finds in the bits. -/
def Agrees (info : SubjectPublicKeyInfo) : Prop :=
  info.key = (ofBits info.algorithm info.bits).key

instance (info : SubjectPublicKeyInfo) : Decidable info.Agrees :=
  inferInstanceAs (Decidable (_ = _))

variable {algorithm : AlgorithmIdentifier} {key : PublicKey} {info : SubjectPublicKeyInfo}

theorem agrees_iff : info.Agrees ↔ info = ofBits info.algorithm info.bits := by
  constructor
  · intro same
    exact congrArg (SubjectPublicKeyInfo.mk info.algorithm info.bits) same
  · intro same
    exact congrArg SubjectPublicKeyInfo.key same

theorem ofKey_eq_ok : ofKey algorithm key = .ok info ↔
    info.algorithm = algorithm ∧ info.key = some key ∧ key.toBits = .ok info.bits := by
  obtain ⟨algorithm', bits, found⟩ := info
  simp only [ofKey, Except.bind_eq_ok, Except.pure_def, Except.ok.injEq]
  constructor
  · rintro ⟨bits', written, same⟩
    cases same
    exact ⟨rfl, rfl, written⟩
  · rintro ⟨rfl, rfl, written⟩
    exact ⟨bits, written, rfl⟩

/-- A key that was given agrees with its bits exactly when it is of the right kind. -/
theorem agrees_ofKey_iff (made : ofKey algorithm key = .ok info)
    (size : info.bits.octets.length < UInt64.size) : info.Agrees ↔ key.Suits algorithm := by
  obtain ⟨rfl, kept, written⟩ := ofKey_eq_ok.mp made
  have held := PublicKey.heldBy_of_toBits written size
  rw [Agrees, kept, eq_comm, key_eq_some_iff, PublicKey.decode?_eq_ok]
  exact and_iff_left held

theorem Constructed.agrees (made : info.Constructed) (size : info.bits.octets.length < UInt64.size)
    (suited : ∀ key, SubjectPublicKeyInfo.ofKey info.algorithm key = .ok info →
      key.Suits info.algorithm) : info.Agrees := by
  cases made with
  | ofBits algorithm bits => rfl
  | ofKey made =>
    obtain ⟨rfl, -⟩ := ofKey_eq_ok.mp made
    exact (agrees_ofKey_iff made size).mpr (suited _ made)
  | ofElement read => exact agrees_iff.mpr (ofElement_eq_ok.mp read).2.2

/-- However a key was come by, it agrees with its algorithm and bits exactly when it was not given
for an algorithm of another kind. Then it is there exactly when the bits hold one of the algorithm,
and reading its element gives it back; otherwise it is not given back. -/
theorem agrees_iff_suits (info : SubjectPublicKeyInfo) (made : info.Constructed)
    (size : info.bits.octets.length < UInt64.size) :
    (info.Agrees ↔ ∀ key, ofKey info.algorithm key = .ok info → key.Suits info.algorithm) ∧
    (info.Agrees →
      (info.key.isSome = true ↔ PublicKey.Readable info.algorithm info.bits)) ∧
    (AlgorithmIdentifier.ofElement info.algorithm.toElement = .ok info.algorithm →
      ((ofElement info.toElement).result = .ok info ↔ info.Agrees)) := by
  refine ⟨⟨?_, made.agrees size⟩, ?_, ?_⟩
  · intro agrees key given
    exact (agrees_ofKey_iff given size).mp agrees
  · intro agrees
    rw [agrees]
    exact key_isSome_iff
  · intro same
    have canonical := (AlgorithmIdentifier.ofElement_eq_ok.mp same).2
    rw [agrees_iff, ofElement_eq_ok]
    exact ⟨fun read => read.2.2, fun derived => ⟨rfl, canonical, derived⟩⟩

/-- An RSA key that is given for its own algorithm is given back. -/
theorem agrees_iff_suits_rsa :
    let algorithm : AlgorithmIdentifier := ⟨⟨[1, 2, 840, 113549, 1, 1, 1]⟩, some .null⟩
    let key : PublicKey := .rsa ⟨15, 3⟩
    let info : SubjectPublicKeyInfo :=
      ⟨algorithm, .ofWholeOctets [0x30, 0x06, 0x02, 0x01, 0x0f, 0x02, 0x01, 0x03], some key⟩
    ofKey algorithm key = .ok info ∧ PublicKey.Readable info.algorithm info.bits ∧
      (ofElement info.toElement).result = .ok info := by
  intro algorithm key info
  have made : ofKey algorithm key = .ok info :=
    Except.toOption_eq_some.mp (by decide +kernel)
  have suits : key.Suits algorithm := by decide
  obtain ⟨agrees, present, again⟩ := agrees_iff_suits info (.ofKey made) (by decide)
  have holds : info.Agrees := agrees.mpr fun other given => by
    obtain rfl : key = other := Option.some.inj (ofKey_eq_ok.mp given).2.1
    exact suits
  exact ⟨made, (present holds).mp rfl, (again rfl).mpr holds⟩

/-- An RSA key is kept for an algorithm without keys, and not given back. -/
theorem foreign_key_lost :
    let algorithm : AlgorithmIdentifier := ⟨⟨[1, 2, 3]⟩, none⟩
    let info : SubjectPublicKeyInfo :=
      ⟨algorithm, .ofWholeOctets [0x30, 0x06, 0x02, 0x01, 0x0f, 0x02, 0x01, 0x03],
        some (.rsa ⟨15, 3⟩)⟩
    info.Constructed ∧ ¬info.Agrees ∧
      AlgorithmIdentifier.ofElement algorithm.toElement = .ok algorithm ∧
      (ofElement info.toElement).result = .ok { info with key := none } := by
  intro algorithm info
  have made : ofKey algorithm (.rsa ⟨15, 3⟩) = .ok info :=
    Except.toOption_eq_some.mp (by decide +kernel)
  have foreign : ¬info.Agrees := by
    rw [agrees_ofKey_iff made (by decide)]
    decide
  refine ⟨.ofKey made, foreign, rfl, ofElement_eq_ok.mpr ⟨rfl, by decide, ?_⟩⟩
  exact agrees_iff.mp (by decide +kernel)

end SubjectPublicKeyInfo

end DerCodec
