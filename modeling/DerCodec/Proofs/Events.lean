import DerCodec.Proofs.DecodedKey
import DerCodec.Proofs.ExtensionPolicy

/-!
# Events and the outcome of reading a certificate

A failure is reported by one debug event, which comes last. A certificate that is read reports its
key when that should have been decoded and was not, and then each extension that was kept malformed,
in order.
-/

namespace DerCodec

/-! ## Computations with events -/

/-- Events that all have one level are found at that level and at no other. -/
theorem Event.filter_level {events : List Event} {level : EventLevel}
    (h : ∀ event ∈ events, event.level = level) (other : EventLevel) :
    events.filter (·.level = other) = if level = other then events else [] := by
  split_ifs with same
  · rw [List.filter_eq_self]
    intro event member
    exact decide_eq_true ((h event member).trans same)
  · rw [List.filter_eq_nil_iff]
    intro event member found
    exact same ((h event member).symm.trans (of_decide_eq_true found))

namespace Logged

variable {ε ε' α β : Type} {x : Logged ε α} {level : EventLevel}

def eventsAt (x : Logged ε α) (level : EventLevel) : List Event :=
  x.events.filter (·.level = level)

@[simp] theorem events_mapError (f : ε → ε') (x : Logged ε α) :
    (x.mapError f).events = x.events := rfl

@[simp] theorem events_emit (level : EventLevel) (message : String) :
    (emit level message : Logged ε Unit).events = [⟨level, message⟩] := rfl

theorem events_bind {f : α → Logged ε β} {a : α} (h : x.result = .ok a) :
    (x >>= f).events = x.events ++ (f a).events := by
  obtain ⟨events, result⟩ := x
  obtain rfl : result = .ok a := h
  rfl

/-- A step without events in front of a computation. -/
theorem events_ofExcept_bind {result : Except ε α} {f : α → Logged ε β} {a : α}
    (h : result = .ok a) : (ofExcept result >>= f).events = (f a).events := by
  rw [events_bind h, events_ofExcept, List.nil_append]

theorem mem_events_bind {f : α → Logged ε β} {event : Event} (h : event ∈ (x >>= f).events) :
    event ∈ x.events ∨ ∃ a, event ∈ (f a).events := by
  cases stopped : x.result with
  | error cause =>
    obtain ⟨events, result⟩ := x
    obtain rfl : result = .error cause := stopped
    exact .inl h
  | ok a =>
    rw [events_bind stopped, List.mem_append] at h
    exact h.imp_right fun later => ⟨a, later⟩

/-- No event has the given level. -/
def Lacks (level : EventLevel) (x : Logged ε α) : Prop :=
  ∀ event ∈ x.events, event.level ≠ level

namespace Lacks

theorem ofExcept (level : EventLevel) (result : Except ε α) : Lacks level (ofExcept result) :=
  nofun

theorem pure (level : EventLevel) (a : α) : Lacks level (Pure.pure a : Logged ε α) :=
  nofun

theorem fail (level : EventLevel) (e : ε) : Lacks level (fail e : Logged ε α) :=
  nofun

theorem emit {level other : EventLevel} (h : other ≠ level) (message : String) :
    Lacks level (emit other message : Logged ε Unit) := by
  simpa [Lacks] using h

theorem mapError (h : Lacks level x) (f : ε → ε') : Lacks level (x.mapError f) :=
  h

theorem bind {f : α → Logged ε β} (first : Lacks level x) (rest : ∀ a, Lacks level (f a)) :
    Lacks level (x >>= f) := by
  intro event member
  rcases mem_events_bind member with early | ⟨a, late⟩
  · exact first event early
  · exact rest a event late

end Lacks

theorem events_debugFailure_of_error {message : ε → String} {e : ε} (h : x.result = .error e) :
    (x.debugFailure message).events = x.events ++ [⟨.debug, message e⟩] := by
  obtain ⟨events, result⟩ := x
  obtain rfl : result = .error e := h
  rfl

theorem events_debugFailure_of_ok {message : ε → String} {a : α} (h : x.result = .ok a) :
    (x.debugFailure message).events = x.events := by
  obtain ⟨events, result⟩ := x
  obtain rfl : result = .ok a := h
  rfl

end Logged

/-! ## Extensions -/

namespace Extension

/-- The event for an extension that is kept although its value cannot be read. -/
def warning (extension : Extension) (cause : ExtensionError) : Event :=
  let name := (name? extension.oid).getD "?"
  ⟨.warn, s!"keeping malformed {name} extension as generic: {cause.message}"⟩

/-- The event reports the extension, with the cause for which its value cannot be read. -/
def ReportedBy (extension : Extension) (event : Event) : Prop :=
  ∃ cause, ExtensionValue.parse? extension.oid extension.raw = some (.error cause) ∧
    event = extension.warning cause

def warnings (extension : Extension) : List Event :=
  match ExtensionValue.parse? extension.oid extension.raw with
  | some (.error cause) => [extension.warning cause]
  | _ => []

theorem readValue_events {policy : ExtensionPolicy} {extension : Extension}
    (h : (readValue policy extension.oid extension.raw).result = .ok extension.value) :
    (readValue policy extension.oid extension.raw).events = extension.warnings := by
  rcases found : ExtensionValue.parse? extension.oid extension.raw with - | cause | value
  · simp [readValue, warnings, found]
  · cases policy with
    | strict => simp [readValue, found] at h
    | lenient =>
      simp only [readValue, warnings, found]
      rfl
  · simp [readValue, warnings, found]

theorem ofElement_events {policy : ExtensionPolicy} {element : Element} {extension : Extension}
    (h : (ofElement policy element).result = .ok extension) :
    (ofElement policy element).events = extension.warnings := by
  obtain ⟨parts, read⟩ := ofElement_eq_ok.mp h
  rw [ofElement, Logged.events_ofExcept_bind (partsOfElement_eq_ok.mpr parts),
    Logged.events_bind read, readValue_events read, Logged.events_pure, List.append_nil]

theorem keptMalformed_iff_of_readValue {policy : ExtensionPolicy} {extension : Extension}
    (read : (readValue policy extension.oid extension.raw).result = .ok extension.value) :
    extension.keptMalformed = true ↔
      ∃ cause, ExtensionValue.parse? extension.oid extension.raw = some (.error cause) := by
  cases policy with
  | strict => exact keptMalformed_iff (readValue_lenient_of_strict read)
  | lenient => exact keptMalformed_iff read

/-- The extensions that were kept malformed are reported, each by one event and in order. -/
theorem forall₂_reportedBy {policy : ExtensionPolicy} {extensions : List Extension}
    (read : ∀ extension ∈ extensions,
      (readValue policy extension.oid extension.raw).result = .ok extension.value) :
    List.Forall₂ ReportedBy (extensions.filter keptMalformed) (extensions.flatMap warnings) := by
  induction extensions with
  | nil => exact .nil
  | cons extension extensions ih =>
    have rest := ih fun e member => read e (List.mem_cons_of_mem _ member)
    have kept := keptMalformed_iff_of_readValue (read extension List.mem_cons_self)
    rw [List.flatMap_cons]
    by_cases malformed : extension.keptMalformed = true
    · obtain ⟨cause, found⟩ := kept.mp malformed
      have reported : extension.warnings = [extension.warning cause] := by
        simp only [warnings, found]
      rw [List.filter_cons_of_pos malformed, reported]
      exact .cons ⟨cause, found, rfl⟩ rest
    · have silent : extension.warnings = [] := by
        unfold warnings
        split
        · rename_i cause found
          exact absurd (kept.mpr ⟨cause, found⟩) malformed
        · rfl
      rw [List.filter_cons_of_neg malformed, silent]
      exact rest

/-- The strict policy keeps nothing malformed. -/
theorem filter_keptMalformed_of_strict {extensions : List Extension}
    (read : ∀ extension ∈ extensions,
      (readValue .strict extension.oid extension.raw).result = .ok extension.value) :
    extensions.filter keptMalformed = [] := by
  rw [List.filter_eq_nil_iff]
  intro extension member malformed
  have accepted := read extension member
  obtain ⟨cause, found⟩ := (keptMalformed_iff_of_readValue accepted).mp malformed
  simp [readValue, found] at accepted

theorem level_of_mem_warnings {extension : Extension} {event : Event}
    (h : event ∈ extension.warnings) : event.level = .warn := by
  unfold warnings at h
  split at h
  · obtain rfl := List.mem_singleton.mp h
    rfl
  · simp at h

end Extension

/-! ## The signed part -/

theorem SubjectPublicKeyInfo.level_of_mem_undecodedEvents {algorithm : AlgorithmIdentifier}
    {bits : BitString} {event : Event} (h : event ∈ undecodedEvents algorithm bits) :
    event.level = .trace := by
  unfold undecodedEvents at h
  split at h
  · obtain rfl := List.mem_singleton.mp h
    rfl
  · simp at h

theorem SubjectPublicKeyInfo.ofElement_events {element : Element} {info : SubjectPublicKeyInfo}
    (h : (ofElement element).result = .ok info) :
    (ofElement element).events = undecodedEvents info.algorithm info.bits := by
  obtain ⟨tree, canonical, -⟩ := ofElement_eq_ok.mp h
  have fields := fieldsOfElement_eq_ok.mpr ⟨tree, canonical⟩
  rw [ofElement, Logged.events_ofExcept_bind fields]
  rfl

namespace TbsCertificate

theorem readExtensions_events {policy : ExtensionPolicy} {elements : List Element}
    {extensions : List Extension} (h : (readExtensions policy elements).result = .ok extensions) :
    (readExtensions policy elements).events = extensions.flatMap Extension.warnings := by
  induction elements generalizing extensions with
  | nil =>
    obtain rfl := Except.ok.inj h
    rfl
  | cons element elements ih =>
    simp only [readExtensions, Logged.result_bind, Logged.result_pure, Except.bind_eq_ok] at h
    obtain ⟨extension, first, later, rest, same⟩ := h
    obtain rfl := Except.ok.inj same
    rw [readExtensions, Logged.events_bind first, Logged.events_bind rest,
      Extension.ofElement_events first, ih rest, Logged.events_pure, List.append_nil,
      List.flatMap_cons]

/-- The events of a signed part that is read: on its key first and then on its extensions. -/
def reports (tbs : TbsCertificate) : List Event :=
  SubjectPublicKeyInfo.undecodedEvents tbs.publicKeyInfo.algorithm tbs.publicKeyInfo.bits ++
    tbs.extensions.flatMap Extension.warnings

theorem ofElement_events {policy : ExtensionPolicy} {element : Element} {tbs : TbsCertificate}
    (h : (ofElement policy element).result = .ok tbs) :
    (ofElement policy element).events = tbs.reports := by
  obtain ⟨fields, key, read, names, readKey, issuerId, subjectId, exts, slot, readExts⟩ :=
    ofElement_eq_ok_steps.mp h
  obtain ⟨found, wrapped, rfl⟩ := extensions_mapM_eq_ok.mpr slot
  rw [← readExtensions_result] at readExts
  have keyRead : ((SubjectPublicKeyInfo.ofElement key).mapError
      (CertificateError.inField "subjectPublicKeyInfo")).result = .ok tbs.publicKeyInfo :=
    Except.mapError_eq_ok.mpr readKey
  rw [ofElement, Logged.events_ofExcept_bind (Except.mapError_eq_ok.mpr read),
    Logged.events_ofExcept_bind names, Logged.events_bind keyRead, Logged.events_mapError,
    SubjectPublicKeyInfo.ofElement_events readKey, Logged.events_ofExcept_bind issuerId,
    Logged.events_ofExcept_bind subjectId, Logged.events_ofExcept_bind wrapped,
    Logged.events_bind readExts, readExtensions_events readExts, Logged.events_pure,
    List.append_nil, reports]

theorem filter_reports (tbs : TbsCertificate) (level : EventLevel) :
    tbs.reports.filter (·.level = level) =
      (if EventLevel.trace = level then SubjectPublicKeyInfo.undecodedEvents
        tbs.publicKeyInfo.algorithm tbs.publicKeyInfo.bits else []) ++
      if EventLevel.warn = level then tbs.extensions.flatMap Extension.warnings else [] := by
  have onExtensions : ∀ event ∈ tbs.extensions.flatMap Extension.warnings, event.level = .warn := by
    intro event member
    obtain ⟨extension, -, among⟩ := List.mem_flatMap.mp member
    exact Extension.level_of_mem_warnings among
  rw [reports, List.filter_append,
    Event.filter_level fun _ => SubjectPublicKeyInfo.level_of_mem_undecodedEvents,
    Event.filter_level onExtensions]

end TbsCertificate

/-! ## Computations without debug events -/

theorem Extension.readValue_lacks_debug (policy : ExtensionPolicy) (oid : Oid) (raw : Bytes) :
    (readValue policy oid raw).Lacks .debug := by
  unfold readValue
  split
  · exact .pure _ _
  · exact .pure _ _
  · cases policy with
    | strict => exact .fail _ _
    | lenient => exact .bind (.emit (by decide) _) fun _ => .pure _ _

theorem Extension.ofElement_lacks_debug (policy : ExtensionPolicy) (element : Element) :
    (ofElement policy element).Lacks .debug := by
  refine .bind (.ofExcept _ _) ?_
  rintro ⟨oid, critical, raw⟩
  exact .bind (readValue_lacks_debug policy oid raw) fun _ => .pure _ _

theorem SubjectPublicKeyInfo.ofElement_lacks_debug (element : Element) :
    (ofElement element).Lacks .debug := by
  refine .bind (.ofExcept _ _) ?_
  rintro ⟨algorithm, bits⟩ event member
  rw [level_of_mem_undecodedEvents member]
  decide

theorem TbsCertificate.readExtensions_lacks_debug (policy : ExtensionPolicy)
    (elements : List Element) : (readExtensions policy elements).Lacks .debug := by
  induction elements with
  | nil => exact .pure _ _
  | cons element elements ih =>
    exact .bind (Extension.ofElement_lacks_debug policy element) fun _ => .bind ih fun _ =>
      .pure _ _

theorem TbsCertificate.ofElement_lacks_debug (policy : ExtensionPolicy) (element : Element) :
    (ofElement policy element).Lacks .debug := by
  refine .bind (.ofExcept _ _) fun fields => .bind (.ofExcept _ _) ?_
  rintro ⟨version, serialNumber, signature, issuer, validity, subject, key⟩
  refine .bind ((SubjectPublicKeyInfo.ofElement_lacks_debug key).mapError _) fun info => ?_
  refine .bind (.ofExcept _ _) fun issuerId => .bind (.ofExcept _ _) fun subjectId => ?_
  refine .bind (.ofExcept _ _) fun elements => ?_
  exact .bind (readExtensions_lacks_debug policy _) fun _ => .pure _ _

namespace Certificate

theorem ofOctets_lacks_debug (policy : ExtensionPolicy) (bytes : Bytes) :
    (ofOctets policy bytes).Lacks .debug := by
  refine .bind (.ofExcept _ _) fun element => .bind (.ofExcept _ _) ?_
  rintro ⟨tbs, algorithm, signature⟩
  exact .bind (TbsCertificate.ofElement_lacks_debug policy tbs) fun _ => .ofExcept _ _

/-! ## The whole certificate -/

theorem ofElement_events {policy : ExtensionPolicy} {element : Element} {certificate : Certificate}
    (h : (ofElement policy element).result = .ok certificate) :
    (ofElement policy element).events = certificate.tbs.reports := by
  obtain ⟨tbs, rfl, signed, canonical, same⟩ := ofElement_eq_ok.mp h
  have parts := partsOfElement_eq_ok.mpr (Eq.refl (Element.sequence [tbs,
    certificate.signatureAlgorithm.toElement, .primitive .bitString certificate.signature]))
  rw [ofElement, Logged.events_ofExcept_bind (Except.mapError_eq_ok.mpr parts),
    Logged.events_bind signed, TbsCertificate.ofElement_events signed, Logged.events_ofExcept,
    List.append_nil]

/-- A certificate that is read reports its key and its extensions and nothing else. -/
theorem decodeLogged_events_of_ok {options : DecodeOptions} {bytes : Bytes}
    {certificate : Certificate} (h : (decodeLogged options bytes).result = .ok certificate) :
    (decodeLogged options bytes).events = certificate.tbs.reports := by
  obtain ⟨size, element, tree, read⟩ := decode_eq_ok.mp h
  have decoded : (ofOctets options.extensionPolicy bytes).result = .ok certificate := by
    simp only [ofOctets, Logged.result_bind, Logged.result_ofExcept, tree, Except.ok_mapError,
      Except.ok_bind, read]
  rw [decodeLogged, if_neg (Nat.not_lt.mpr size), Logged.events_debugFailure_of_ok decoded,
    ofOctets, Logged.events_ofExcept_bind (Except.mapError_eq_ok.mpr tree), ofElement_events read]

theorem decodeLogged_events_of_tooLarge {options : DecodeOptions} {bytes : Bytes}
    (large : options.maxEncodedLength < bytes.length) :
    (decodeLogged options bytes).events =
      let limit := options.maxEncodedLength
      [⟨.debug, s!"certificate of {bytes.length} bytes exceeds the {limit} byte limit"⟩] := by
  rw [decodeLogged, if_pos large]
  rfl

/-- A failure is reported last, in the only debug event. -/
theorem decodeLogged_events_of_error {options : DecodeOptions} {bytes : Bytes}
    {e : CertificateError} (h : (decodeLogged options bytes).result = .error e) :
    ∃ earlier message, (decodeLogged options bytes).events = earlier ++ [⟨.debug, message⟩] ∧
      ∀ event ∈ earlier, event.level ≠ .debug := by
  by_cases large : options.maxEncodedLength < bytes.length
  · exact ⟨[], _, decodeLogged_events_of_tooLarge large, nofun⟩
  · have failed : (ofOctets options.extensionPolicy bytes).result = .error e := by
      simpa only [decodeLogged, if_neg large, Logged.result_debugFailure] using h
    rw [decodeLogged, if_neg large, Logged.events_debugFailure_of_error failed]
    exact ⟨_, _, rfl, ofOctets_lacks_debug options.extensionPolicy bytes⟩

theorem eventsAt_of_ok {options : DecodeOptions} {bytes : Bytes} {certificate : Certificate}
    (h : (decodeLogged options bytes).result = .ok certificate) (level : EventLevel) :
    (decodeLogged options bytes).eventsAt level =
      (if EventLevel.trace = level then SubjectPublicKeyInfo.undecodedEvents
        certificate.tbs.publicKeyInfo.algorithm certificate.tbs.publicKeyInfo.bits else []) ++
      if EventLevel.warn = level then certificate.tbs.extensions.flatMap Extension.warnings
      else [] := by
  rw [Logged.eventsAt, decodeLogged_events_of_ok h, TbsCertificate.filter_reports]

/-- The events tell the outcome. A failure has one debug event, its last, and it is the only event
over the limit. A success has none; then each extension that was kept malformed has its warning,
in order, and the key has a trace when it should have been decoded and was not. -/
theorem events_tell_outcome (options : DecodeOptions) (bytes : Bytes) :
    let run := decodeLogged options bytes
    (∀ e, run.result = .error e → ∃ earlier message, run.events = earlier ++ [⟨.debug, message⟩] ∧
      ∀ event ∈ earlier, event.level ≠ .debug) ∧
    (options.maxEncodedLength < bytes.length → ∃ message, run.events = [⟨.debug, message⟩]) ∧
    ∀ certificate, run.result = .ok certificate →
      run.eventsAt .debug = [] ∧
      List.Forall₂ Extension.ReportedBy
        (certificate.tbs.extensions.filter Extension.keptMalformed) (run.eventsAt .warn) ∧
      (options.extensionPolicy = .strict → run.eventsAt .warn = []) ∧
      (certificate.tbs.publicKeyInfo.Undecoded →
        ∃ message, run.eventsAt .trace = [⟨.trace, message⟩]) ∧
      (¬certificate.tbs.publicKeyInfo.Undecoded → run.eventsAt .trace = []) := by
  intro run
  refine ⟨?_, ?_, ?_⟩
  · intro e failed
    exact decodeLogged_events_of_error failed
  · intro large
    exact ⟨_, decodeLogged_events_of_tooLarge large⟩
  · intro certificate accepted
    obtain ⟨-, element, -, read⟩ := decode_eq_ok.mp accepted
    have values := fun extension => @readValue_of_decode _ _ _ accepted extension
    have warned : run.eventsAt .warn = certificate.tbs.extensions.flatMap Extension.warnings := by
      simp [run, eventsAt_of_ok accepted]
    have traced : run.eventsAt .trace = SubjectPublicKeyInfo.undecodedEvents
        certificate.tbs.publicKeyInfo.algorithm certificate.tbs.publicKeyInfo.bits := by
      simp [run, eventsAt_of_ok accepted]
    have reported := Extension.forall₂_reportedBy values
    refine ⟨?_, ?_, ?_, ?_, ?_⟩
    · simp [run, eventsAt_of_ok accepted]
    · rw [warned]
      exact reported
    · intro strict
      rw [strict] at values
      rw [Extension.filter_keptMalformed_of_strict values] at reported
      rw [warned]
      exact List.forall₂_nil_left_iff.mp reported
    · rw [traced, publicKeyInfo_eq read]
      exact SubjectPublicKeyInfo.undecodedEvents_of_undecoded
    · rw [traced, publicKeyInfo_eq read]
      exact SubjectPublicKeyInfo.undecodedEvents_of_not_undecoded

/-- A certificate whose RSA key is not one, with an extension that no kind has and then basic
constraints and a key usage that are malformed. -/
def halfRead : Bytes :=
  [0x30, 0x6c, 0x30, 0x61, 0x02, 0x01, 0x01, 0x30, 0x04, 0x06, 0x02, 0x2a, 0x03, 0x30, 0x00, 0x30,
    0x1e, 0x17, 0x0d, 0x32, 0x34, 0x30, 0x31, 0x30, 0x31, 0x30, 0x30, 0x30, 0x30, 0x30, 0x30, 0x5a,
    0x17, 0x0d, 0x32, 0x35, 0x30, 0x31, 0x30, 0x31, 0x30, 0x30, 0x30, 0x30, 0x30, 0x30, 0x5a, 0x30,
    0x00, 0x30, 0x11, 0x30, 0x0b, 0x06, 0x09, 0x2a, 0x86, 0x48, 0x86, 0xf7, 0x0d, 0x01, 0x01, 0x01,
    0x03, 0x02, 0x00, 0xff, 0xa3, 0x1f, 0x30, 0x1d, 0x30, 0x07, 0x06, 0x02, 0x2a, 0x04, 0x04, 0x01,
    0xaa, 0x30, 0x09, 0x06, 0x03, 0x55, 0x1d, 0x13, 0x04, 0x02, 0x05, 0x00, 0x30, 0x07, 0x06, 0x03,
    0x55, 0x1d, 0x0f, 0x04, 0x00, 0x30, 0x04, 0x06, 0x02, 0x2a, 0x03, 0x03, 0x01, 0x00]

theorem events_tell_outcome_halfRead :
    (∃ certificate message,
      decode { extensionPolicy := .lenient } halfRead = .ok certificate ∧
      ((decodeLogged { extensionPolicy := .lenient } halfRead).eventsAt .warn).length = 2 ∧
      (decodeLogged { extensionPolicy := .lenient } halfRead).eventsAt .trace =
        [⟨.trace, message⟩]) ∧
    (∃ certificate, decode {} settled = .ok certificate ∧
      (decodeLogged {} settled).eventsAt .warn = [] ∧
      (decodeLogged {} settled).eventsAt .trace = []) ∧
    (∃ earlier message, (decodeLogged {} halfRead).events = earlier ++ [⟨.debug, message⟩] ∧
      ∀ event ∈ earlier, event.level ≠ .debug) ∧
    ∃ message, (decodeLogged { maxEncodedLength := 109 } halfRead).events =
      [⟨.debug, message⟩] := by
  refine ⟨?_, ?_, ?_, ?_⟩
  · have found : ((decode { extensionPolicy := .lenient } halfRead).toOption.any
        fun certificate => decide (certificate.tbs.publicKeyInfo.Undecoded ∧
          (certificate.tbs.extensions.filter Extension.keptMalformed).length = 2)) = true := by
      decide +kernel
    obtain ⟨certificate, accepted, expected⟩ := (Option.any_eq_true _ _).mp found
    obtain ⟨undecoded, two⟩ := of_decide_eq_true expected
    have read := Except.toOption_eq_some.mp accepted
    obtain ⟨-, -, tell⟩ := events_tell_outcome { extensionPolicy := .lenient } halfRead
    obtain ⟨-, warned, -, traced, -⟩ := tell certificate read
    obtain ⟨message, trace⟩ := traced undecoded
    exact ⟨certificate, message, read, warned.length_eq ▸ two, trace⟩
  · have found : ((decode {} settled).toOption.any
        fun certificate => decide ¬certificate.tbs.publicKeyInfo.Undecoded) = true := by
      decide +kernel
    obtain ⟨certificate, accepted, decoded⟩ := (Option.any_eq_true _ _).mp found
    have read := Except.toOption_eq_some.mp accepted
    obtain ⟨-, -, tell⟩ := events_tell_outcome {} settled
    obtain ⟨-, -, strict, -, traced⟩ := tell certificate read
    exact ⟨certificate, read, strict rfl, traced (of_decide_eq_true decoded)⟩
  · have refused : ∃ e, decode {} halfRead = .error e := by
      have failed : (decode {} halfRead).toOption = none := by decide +kernel
      cases found : decode {} halfRead with
      | error e => exact ⟨e, rfl⟩
      | ok certificate =>
        rw [found] at failed
        nomatch failed
    obtain ⟨e, failed⟩ := refused
    exact (events_tell_outcome {} halfRead).1 e failed
  · exact (events_tell_outcome { maxEncodedLength := 109 } halfRead).2.1 (by decide)

end Certificate

end DerCodec
