import DerCodec.Extension
import DerCodec.Proofs.ElementFailure

/-!
# Failures in reading extensions

An extension fails for what stands in it, its typed value included: that value is decoded from
octets of its own, so every field of it that is framed again was decoded before.
-/

namespace DerCodec

/-! ## Names -/

theorem NameAttribute.ofElement_blamesInput (element : Element) :
    (ofElement element).BlamesInput := by
  refine element.asSequence_blamesInput.bind fun children => ?_
  split
  · exact (Element.value_blamesInput .oid _).bind fun _ => .ok _ _
  · exact .error trivial

theorem RelativeName.ofElement_blamesInput (element : Element) :
    (ofElement element).BlamesInput := by
  refine element.asSet_blamesInput.bind fun children => ?_
  have each : (children.mapM NameAttribute.ofElement).BlamesInput :=
    .mapM fun child _ => NameAttribute.ofElement_blamesInput child
  exact each.bind fun _ => .ok _ _

theorem Name.ofElement_blamesInput (element : Element) : (ofElement element).BlamesInput := by
  refine element.asSequence_blamesInput.bind fun children => ?_
  have each : (children.mapM RelativeName.ofElement).BlamesInput :=
    .mapM fun child _ => RelativeName.ofElement_blamesInput child
  exact each.bind fun _ => .ok _ _

namespace GeneralName

theorem directoryOfElement_blamesInput (element : Element) :
    (directoryOfElement element).BlamesInput :=
  (element.explicitInner_blamesInput 4).bind fun inner => Name.ofElement_blamesInput inner

variable {element : Element}

theorem ipOfElement_blamesInput (h : element.AllSound) : (ipOfElement element).BlamesInput := by
  have octets := h.decodeAs_blamesInput .octetString ipTag
  refine .bind (octets.mapError fun _ => rfl) fun octets => ?_
  split
  · exact .ok _ _
  · exact .error trivial

theorem ofElement_blamesInput (h : element.AllSound) : (ofElement element).BlamesInput := by
  have list (number : UInt32) :
      ((element.childrenUnder (.contextConstructed number)).mapError inElement).BlamesInput :=
    (element.childrenUnder_blamesInput _).mapError fun _ => rfl
  have ascii (tag : Tag) : ((element.decodeAs .ia5String tag).mapError inElement).BlamesInput :=
    (h.decodeAs_blamesInput .ia5String tag).mapError fun _ => rfl
  unfold ofElement
  dsimp only
  split
  · exact .error trivial
  · split
    · exact (list 0).map other
    · exact (ascii emailTag).map email
    · exact (ascii dnsTag).map dns
    · exact (list 3).map x400
    · apply Except.FailsBy.map
      exact (directoryOfElement_blamesInput element).mapError fun _ => rfl
    · exact (list 5).map ediParty
    · exact (ascii uriTag).map uri
    · exact (ipOfElement_blamesInput h).map ip
    · apply Except.FailsBy.map
      exact (h.decodeAs_blamesInput .oid registeredIdTag).mapError fun _ => rfl
    · exact .error trivial

theorem listOfElements_blamesInput (kind : ExtensionKind) {elements : List Element}
    (each : ∀ element ∈ elements, element.AllSound) :
    (listOfElements kind elements).BlamesInput := by
  unfold listOfElements
  split
  · exact .error trivial
  · exact .mapM fun element member => ofElement_blamesInput (each element member)

/-- Names in a list under a context-specific tag. -/
theorem listUnder_blamesInput (number : UInt32) {inElement : ElementError → ExtensionError}
    (same : ∀ cause, Cause.kind (inElement cause) = Cause.kind cause) (kind : ExtensionKind)
    (h : element.AllSound) :
    ((element.childrenUnder (.contextConstructed number)).mapError inElement >>=
      listOfElements kind).BlamesInput := by
  refine .andThen ((h.childrenUnder number).mapError same) fun elements each => ?_
  exact listOfElements_blamesInput kind each

end GeneralName

/-! ## Values -/

namespace AuthorityKeyIdentifier

variable {element : Element}

theorem ofElement_blamesInput (h : element.AllSound) : (ofElement element).BlamesInput := by
  refine .andThen (h.asSequence.mapError fun _ => rfl) fun elements each => ?_
  refine .andThen ((Fields.decode_yields schema each).mapError fun _ => rfl) fun fields sound => ?_
  have issuer : ((fields.optional? issuerTag).mapM issuerOfElement).BlamesInput :=
    .option_mapM fun inner held =>
      GeneralName.listUnder_blamesInput _ (fun _ => rfl) _ (sound.optional? inner held)
  refine .bind ((sound.decodeAs_optional? .octetString _).mapError fun _ => rfl) fun _ => ?_
  refine issuer.bind fun _ => ?_
  exact .bind ((sound.decodeAs_optional? .integer _).mapError fun _ => rfl) fun _ => .ok _ _

end AuthorityKeyIdentifier

namespace BasicConstraints

theorem pathLengthOfElement_blamesInput (element : Element) :
    (pathLengthOfElement element).BlamesInput := by
  have number := element.value_blamesInput .integer
  refine .bind (number.mapError fun _ => rfl) fun n => ?_
  split
  · exact .ok _ _
  · exact .error trivial

theorem ofElement_blamesInput {element : Element} (h : element.AllSound) :
    (ofElement element).BlamesInput := by
  refine .andThen (h.asSequence.mapError fun _ => rfl) fun elements each => ?_
  refine .andThen ((Fields.decode_yields schema each).mapError fun _ => rfl) fun fields _ => ?_
  have flag : ((fields.positional? 0).mapM (Element.value .boolean)).BlamesInput :=
    .option_mapM fun inner _ => inner.value_blamesInput .boolean
  have pathLength : ((fields.positional? 1).mapM pathLengthOfElement).BlamesInput :=
    .option_mapM fun inner _ => pathLengthOfElement_blamesInput inner
  refine .bind (flag.mapError fun _ => rfl) fun _ => ?_
  exact pathLength.bind fun _ => .ok _ _

end BasicConstraints

namespace DistributionPointName

theorem relativeOfElement_blamesInput (element : Element) :
    (relativeOfElement element).BlamesInput := by
  refine (element.childrenUnder_blamesInput _).bind fun children => ?_
  have each : (children.mapM NameAttribute.ofElement).BlamesInput :=
    .mapM fun child _ => NameAttribute.ofElement_blamesInput child
  exact each.bind fun _ => .ok _ _

theorem ofElement_blamesInput {element : Element} (h : element.AllSound) :
    (ofElement element).BlamesInput := by
  unfold ofElement
  split
  · refine .andThen ((h.childrenUnder 0).mapError fun _ => rfl) fun names each => ?_
    have list := GeneralName.listOfElements_blamesInput .crlDistributionPoints each
    exact list.bind fun _ => .ok _ _
  · split
    · apply Except.FailsBy.map
      exact (relativeOfElement_blamesInput element).mapError fun _ => rfl
    · exact .error trivial

end DistributionPointName

namespace DistributionPoint

variable {element : Element}

theorem nameOfElement_blamesInput (h : element.AllSound) :
    (nameOfElement element).BlamesInput := by
  refine .andThen ((h.explicitInner 0).mapError fun _ => rfl) fun inner sound => ?_
  exact DistributionPointName.ofElement_blamesInput sound

theorem ofElement_blamesInput (h : element.AllSound) : (ofElement element).BlamesInput := by
  refine .andThen (h.asSequence.mapError fun _ => rfl) fun elements each => ?_
  refine .andThen ((Fields.decode_yields schema each).mapError fun _ => rfl) fun fields sound => ?_
  have name : ((fields.optional? nameTag).mapM nameOfElement).BlamesInput :=
    .option_mapM fun inner held => nameOfElement_blamesInput (sound.optional? inner held)
  have issuer : ((fields.optional? crlIssuerTag).mapM crlIssuerOfElement).BlamesInput :=
    .option_mapM fun inner held =>
      GeneralName.listUnder_blamesInput _ (fun _ => rfl) _ (sound.optional? inner held)
  refine name.bind fun _ => ?_
  refine .bind ((sound.decodeAs_optional? .bitString _).mapError fun _ => rfl) fun _ => ?_
  exact issuer.bind fun _ => .ok _ _

end DistributionPoint

namespace TypedExtension

variable {element : Element}

theorem nonemptyList_yields (kind : ExtensionKind) (h : element.AllSound) :
    (nonemptyList kind element).Yields fun elements => ∀ child ∈ elements, child.AllSound := by
  refine .bind (h.asSequence.mapError fun _ => rfl) fun elements each => ?_
  split
  · exact .error trivial
  · exact .ok each

theorem namesOfElement_blamesInput (kind : ExtensionKind) (h : element.AllSound) :
    (namesOfElement kind element).BlamesInput := by
  refine .andThen (h.asSequence.mapError fun _ => rfl) fun elements each => ?_
  exact GeneralName.listOfElements_blamesInput kind each

theorem ofElement_blamesInput (kind : ExtensionKind) (h : element.AllSound) :
    (ofElement kind element).BlamesInput := by
  cases kind with
  | authorityKeyIdentifier => exact (AuthorityKeyIdentifier.ofElement_blamesInput h).map _
  | basicConstraints => exact (BasicConstraints.ofElement_blamesInput h).map _
  | crlDistributionPoints =>
    refine .andThen (nonemptyList_yields _ h) fun elements each => ?_
    have points : (elements.mapM DistributionPoint.ofElement).BlamesInput :=
      .mapM fun point member => DistributionPoint.ofElement_blamesInput (each point member)
    exact points.bind fun _ => .ok _ _
  | extendedKeyUsage =>
    refine .andThen (nonemptyList_yields _ h) fun elements _ => ?_
    have purposes : (elements.mapM (Element.value .oid)).BlamesInput :=
      .mapM fun purpose _ => purpose.value_blamesInput .oid
    exact .bind (purposes.mapError fun _ => rfl) fun _ => .ok _ _
  | issuerAltName => exact (namesOfElement_blamesInput _ h).map _
  | keyUsage =>
    exact .bind ((element.value_blamesInput .bitString).mapError fun _ => rfl) fun _ => .ok _ _
  | subjectAltName => exact (namesOfElement_blamesInput _ h).map _
  | subjectKeyIdentifier =>
    exact .bind ((element.value_blamesInput .octetString).mapError fun _ => rfl) fun _ => .ok _ _

/-- The octets of an extension are decoded on their own. -/
theorem parse_blamesInput (kind : ExtensionKind) (octets : Bytes) :
    (parse kind octets).BlamesInput := by
  unfold parse
  split
  · exact .error trivial
  · refine .andThen ((Element.decode_yields octets).mapError fun _ => rfl) fun element sound => ?_
    exact ofElement_blamesInput kind sound

end TypedExtension

namespace Extension

theorem partsOfElement_blamesInput (element : Element) : (partsOfElement element).BlamesInput := by
  refine .bind (element.asSequence_blamesInput.mapError fun _ => rfl) fun elements => ?_
  refine .bind ((schema.decode_blamesInput elements).mapError fun _ => rfl) fun fields => ?_
  have flag : ((fields.positional? 1).mapM (Element.value .boolean)).BlamesInput :=
    .option_mapM fun inner _ => inner.value_blamesInput .boolean
  refine .bind ((fields.required_blamesInput 0).mapError fun _ => rfl) fun oid => ?_
  refine .bind ((oid.value_blamesInput .oid).mapError fun _ => rfl) fun _ => ?_
  refine .bind (flag.mapError fun _ => rfl) fun _ => ?_
  refine .bind ((fields.required_blamesInput 2).mapError fun _ => rfl) fun raw => ?_
  exact .bind ((raw.value_blamesInput .octetString).mapError fun _ => rfl) fun _ => .ok _ _

theorem readValue_blamesInput (policy : ExtensionPolicy) (oid : Oid) (raw : Bytes) :
    (readValue policy oid raw).result.BlamesInput := by
  unfold readValue
  split
  · exact .ok _ _
  · exact .ok _ _
  · rename_i cause failed
    split
    · obtain ⟨kind, -, refused⟩ := Option.map_eq_some_iff.mp failed
      exact .error (TypedExtension.parse_blamesInput kind raw cause refused)
    · exact .ok _ _

theorem ofElement_blamesInput (policy : ExtensionPolicy) (element : Element) :
    (ofElement policy element).result.BlamesInput := by
  simp only [ofElement, Logged.result_bind, Logged.result_ofExcept]
  refine (partsOfElement_blamesInput element).bind fun parts => ?_
  obtain ⟨oid, critical, raw⟩ := parts
  exact (readValue_blamesInput policy oid raw).bind fun _ => .ok _ _

end Extension

end DerCodec
