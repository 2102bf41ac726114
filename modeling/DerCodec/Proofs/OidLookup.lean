import DerCodec.Proofs.BuiltCertificate
import DerCodec.Proofs.DecodedKey
import Mathlib.Data.List.Nodup

/-!
# Look-up by object identifier

Extensions and keys are recognised by the text that an identifier prints, and conventional names are
found by comparison with the keys of a table. Either way the entry that is selected is the one whose
key is read as the identifier.
-/

namespace DerCodec

/-! ## Tables of names -/

namespace OidTable

/-- Every key can be read, and no two keys are read as the same identifier. -/
def IsKeyed (table : OidTable) : Prop :=
  (∀ entry ∈ table, (Oid.ofText entry.1).toOption.isSome = true) ∧
    (table.map fun entry => (Oid.ofText entry.1).toOption).Nodup

instance (table : OidTable) : Decidable table.IsKeyed :=
  inferInstanceAs (Decidable (_ ∧ _))

namespace IsKeyed

variable {table : OidTable} {oid : Oid}

/-- A key that compares equal is read as the identifier, which has two arcs since the key has. -/
theorem matchesText_iff (h : table.IsKeyed) {entry : String × String} (among : entry ∈ table) :
    oid.matchesText entry.1 = true ↔ Oid.ofText entry.1 = .ok oid := by
  obtain ⟨known, some⟩ := Option.isSome_iff_exists.mp (h.1 entry among)
  obtain ⟨enough, equal⟩ := Oid.ofText_eq_ok.mp (Except.toOption_eq_some.mp some)
  rw [Oid.ofText_eq_ok, iff_and_self]
  intro matched
  rw [Oid.matchesText_iff] at equal matched
  rwa [← Except.ok.inj (equal.symm.trans matched)]

/-- The order of the entries does not matter. -/
theorem find?_eq_some_iff (h : table.IsKeyed) {entry : String × String} :
    (table.find? fun entry => oid.matchesText entry.1) = some entry ↔
      entry ∈ table ∧ Oid.ofText entry.1 = .ok oid := by
  have sound (first) (found : (table.find? fun entry => oid.matchesText entry.1) = some first) :
      first ∈ table ∧ Oid.ofText first.1 = .ok oid := by
    have among := List.mem_of_find?_eq_some found
    have matched := List.find?_some found
    exact ⟨among, (h.matchesText_iff among).mp matched⟩
  refine ⟨sound entry, ?_⟩
  rintro ⟨among, read⟩
  have some : (table.find? fun entry => oid.matchesText entry.1).isSome = true :=
    List.find?_isSome.mpr ⟨entry, among, (h.matchesText_iff among).mpr read⟩
  obtain ⟨first, found⟩ := Option.isSome_iff_exists.mp some
  obtain ⟨amongFirst, readFirst⟩ := sound first found
  have same := congrArg Except.toOption (readFirst.trans read.symm)
  rw [found, List.inj_on_of_nodup_map h.2 amongFirst among same]

theorem nameOf?_eq_some_iff (h : table.IsKeyed) {name : String} :
    table.nameOf? oid = some name ↔ ∃ key, (key, name) ∈ table ∧ Oid.ofText key = .ok oid := by
  rw [nameOf?, Option.map_eq_some_iff]
  constructor
  · rintro ⟨⟨key, name⟩, found, rfl⟩
    exact ⟨key, h.find?_eq_some_iff.mp found⟩
  · rintro ⟨key, selected⟩
    exact ⟨(key, name), h.find?_eq_some_iff.mpr selected, rfl⟩

end IsKeyed

end OidTable

/-! ## Recognised extensions and keys -/

theorem ExtensionKind.ofOid?_eq_some_iff {oid : Oid} {kind : ExtensionKind} :
    ofOid? oid = some kind ↔ Oid.ofText kind.oid.text = .ok oid := by
  have arcs : 2 ≤ kind.oid.arcs.length := by cases kind <;> decide
  rw [← Oid.text_eq_text_iff kind.oid arcs]
  constructor
  · intro found
    have same := List.find?_some found
    exact (beq_iff_eq.mp same).symm
  · intro same
    rw [Oid.text_inj.mp same, ofOid?_oid]

/-- The keys by which the kinds of extensions are recognised. -/
example : ExtensionKind.all.map (fun kind => kind.oid.text) =
    ["2.5.29.35", "2.5.29.19", "2.5.29.31", "2.5.29.37", "2.5.29.18", "2.5.29.15", "2.5.29.17",
      "2.5.29.14"] := by
  decide +kernel

theorem ExtensionValue.parse?_eq_some_iff {oid : Oid} {raw : Bytes}
    {result : Except ExtensionError TypedExtension} :
    parse? oid raw = some result ↔
      ∃ kind, Oid.ofText (ExtensionKind.oid kind).text = .ok oid ∧
        TypedExtension.parse kind raw = result := by
  simp only [parse?, Option.map_eq_some_iff, ExtensionKind.ofOid?_eq_some_iff]

theorem Extension.name?_eq_some_iff {oid : Oid} {name : String} :
    name? oid = some name ↔
      ∃ kind, Oid.ofText (ExtensionKind.oid kind).text = .ok oid ∧ kind.name = name := by
  simp only [name?, Option.map_eq_some_iff, ExtensionKind.ofOid?_eq_some_iff]

namespace AlgorithmIdentifier

theorem isRsa_iff_ofText {id : AlgorithmIdentifier} :
    id.IsRsa ↔ Oid.ofText rsaEncryption = .ok id.algorithm :=
  isRsa_iff.trans (Oid.text_eq_text_iff ⟨[1, 2, 840, 113549, 1, 1, 1]⟩ (by decide))

theorem isEllipticCurve_iff_ofText {id : AlgorithmIdentifier} :
    id.IsEllipticCurve ↔ Oid.ofText ecPublicKey = .ok id.algorithm :=
  isEllipticCurve_iff.trans (Oid.text_eq_text_iff ⟨[1, 2, 840, 10045, 2, 1]⟩ (by decide))

end AlgorithmIdentifier

/-- The bits are read as a key of the algorithm whose dotted text is read as the identifier. -/
theorem PublicKey.decode?_eq_some_iff {algorithm : AlgorithmIdentifier} {bits : BitString}
    {result : Except PublicKeyError PublicKey} :
    decode? algorithm bits = some result ↔
      Oid.ofText rsaEncryption = .ok algorithm.algorithm ∧
          (RsaPublicKey.ofBits bits).map rsa = result ∨
        Oid.ofText ecPublicKey = .ok algorithm.algorithm ∧
          (if algorithm.namedCurve?.isNone then .error (.invalid "EC key without a named curve")
            else (CurvePoint.ofBits bits).map ellipticCurve) = result := by
  rw [← AlgorithmIdentifier.isRsa_iff_ofText, ← AlgorithmIdentifier.isEllipticCurve_iff_ofText]
  by_cases rsa : algorithm.IsRsa
  · have other : ¬algorithm.IsEllipticCurve :=
      fun curve => absurd (rsa.symm.trans curve) (by decide)
    simp [decode?_of_isRsa rsa, rsa, other]
  by_cases curve : algorithm.IsEllipticCurve
  · rw [decode?_of_isEllipticCurve curve, ← apply_ite, Option.some.injEq]
    simp [rsa, curve]
  · simp [decode?_eq_none_iff.mpr (not_or.mpr ⟨rsa, curve⟩), rsa, curve]

/-! ## All comparisons agree -/

/-- A text compares equal to an identifier of two arcs or more exactly when it is read as that
identifier, as is the text that the identifier prints, and no two identifiers print alike. So the
kinds of extensions and keys, which are recognised by the printed text, and the conventional names,
which are found by comparison, are those of the entry whose key is read as the identifier. -/
theorem Oid.comparisons_agree :
    (∀ (oid : Oid) (text : String), 2 ≤ oid.arcs.length →
      (oid.matchesText text = true ↔ ofText text = .ok oid)) ∧
    (∀ oid : Oid, 2 ≤ oid.arcs.length → ofText oid.text = .ok oid) ∧
    (∀ a b : Oid, a.text = b.text → a = b) ∧
    (∀ (oid : Oid) (raw : Bytes) (result : Except ExtensionError TypedExtension),
      ExtensionValue.parse? oid raw = some result ↔
        ∃ kind : ExtensionKind, ofText kind.oid.text = .ok oid ∧
          TypedExtension.parse kind raw = result) ∧
    (∀ (oid : Oid) (name : String), Extension.name? oid = some name ↔
      ∃ kind : ExtensionKind, ofText kind.oid.text = .ok oid ∧ kind.name = name) ∧
    (∀ (algorithm : AlgorithmIdentifier) (bits : BitString)
        (result : Except PublicKeyError PublicKey),
      PublicKey.decode? algorithm bits = some result ↔
        ofText rsaEncryption = .ok algorithm.algorithm ∧
            (RsaPublicKey.ofBits bits).map .rsa = result ∨
          ofText ecPublicKey = .ok algorithm.algorithm ∧
            (if algorithm.namedCurve?.isNone then .error (.invalid "EC key without a named curve")
              else (CurvePoint.ofBits bits).map .ellipticCurve) = result) ∧
    ∀ table ∈ [signatureAlgorithms, publicKeyAlgorithms, namedCurves, NameAttribute.types,
        KeyPurpose.names],
      ∀ (oid : Oid) (name : String), OidTable.nameOf? table oid = some name ↔
        ∃ key, (key, name) ∈ table ∧ ofText key = .ok oid := by
  have keyed : ∀ table ∈ [signatureAlgorithms, publicKeyAlgorithms, namedCurves,
      NameAttribute.types, KeyPurpose.names], OidTable.IsKeyed table := by
    decide +kernel
  refine ⟨?_, fun oid => ofText_text_iff.mpr, fun a b => text_inj.mp,
    fun oid raw result => ExtensionValue.parse?_eq_some_iff,
    fun oid name => Extension.name?_eq_some_iff,
    fun algorithm bits result => PublicKey.decode?_eq_some_iff, ?_⟩
  · intro oid text enough
    rw [ofText_eq_ok, and_iff_right enough]
  · intro table among oid name
    exact (keyed table among).nameOf?_eq_some_iff

/-- The identifier of basic constraints may be spelled with a sign and with zeros in front, and the
curve secp256r1 is found under its key. -/
theorem Oid.comparisons_agree_spelled :
    Oid.matchesText ⟨[2, 5, 29, 19]⟩ "2.+5.029.19" = true ∧
      ofText (text ⟨[2, 5, 29, 19]⟩) = .ok ⟨[2, 5, 29, 19]⟩ ∧
      namedCurves.nameOf? ⟨[1, 2, 840, 10045, 3, 1, 7]⟩ = some "secp256r1" := by
  obtain ⟨compared, printed, -, -, -, -, named⟩ := comparisons_agree
  refine ⟨(compared _ _ (by decide)).mpr ?_, printed _ (by decide), ?_⟩
  · exact Except.toOption_eq_some.mp (by decide +kernel)
  · refine (named namedCurves (by simp) _ _).mpr ⟨"1.2.840.10045.3.1.7", by decide, ?_⟩
    exact Except.toOption_eq_some.mp (by decide +kernel)

end DerCodec
