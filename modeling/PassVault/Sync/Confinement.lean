import PassVault.Lib.Runs
import PassVault.Sync.CallbackErrors

/-!
# What a peer can make a session store

Every revision that a session stores or receives comes from a header that was delivered after the
peer was accepted, and no header is used twice. Whether the session has asked for it is up to the
peer.
-/

namespace PassVault

open Async

/-- The headers that the peer sends once it is accepted. -/
def deliveredHeaders (log : List (Peer × PeerEvent)) : List RevisionHeader :=
  log.filterMap fun (s, event) =>
    match event with
    | .delivered (.ok (.revisionHeader header)) =>
      if s.session.remoteDeviceId.isSome then some header else none
    | _ => none

/-- The revision is the one that the header announces. -/
structure RevisionHeader.Describes (header : RevisionHeader) (revision : Revision) : Prop where
  id : revision.id = header.revisionId
  vaultId : revision.vaultId = header.vaultId
  hash : revision.hash = header.hash
  parentIds : revision.parentIds = header.parentIds

/-- The headers of the transfers that a session has not yet begun to ingest. -/
def Session.headers (s : Session) : List RevisionHeader :=
  s.inboundWork.map (·.1.header) ++ s.assemblers.map (·.2.1.header)

namespace Session

variable {s t : Session}

theorem SameInbound.headers (h : s.SameInbound t) : t.headers = s.headers := by
  rw [Session.headers, Session.headers, h.1, h.2.2.1]

theorem ProgramStep.headers (h : s.ProgramStep t) : t.headers = s.headers := by
  rw [Session.headers, Session.headers, h.assemblers, h.inboundWork]

/-- The transfers other than one, and that one. -/
theorem subperm_assemblers {transferSeq : Nat} {header : InboundHeader}
    {assembler : ChunkAssembler} (h : (transferSeq, header, assembler) ∈ s.assemblers) :
    ((s.dropAssembler transferSeq).assemblers.map (·.2.1.header) ++ [header.header]).Subperm
      (s.assemblers.map (·.2.1.header)) := by
  have hperm := List.filter_append_perm (fun entry => decide (entry.1 ≠ transferSeq)) s.assemblers
  refine List.Subperm.trans ?_ (hperm.map (·.2.1.header)).subperm
  rw [List.map_append]
  refine (List.subperm_append_left _).mpr (List.singleton_subperm_iff.mpr ?_)
  exact List.mem_map.mpr ⟨(transferSeq, header, assembler), by simp [h], rfl⟩

/-- No elementary step duplicates a header. -/
theorem headers_frameStep (h : FrameStep s t) : t.headers.Subperm s.headers := by
  cases h with
  | same hsame => exact hsame.headers ▸ List.Subperm.refl _
  | orphan | release => exact List.Subperm.refl _
  | chunk transferSeq frame header assembler after hmem haccept =>
    refine (List.subperm_append_left _).mpr ?_
    have h := subperm_assemblers hmem
    simpa [setAssembler, dropAssembler] using h
  | complete transferSeq frame header assembler after hmem haccept hcomplete =>
    have h := subperm_assemblers hmem
    rw [Session.headers, Session.headers]
    simp only [queueIngest, dropAssembler, List.map_append, List.map_cons, List.map_nil,
      List.append_assoc] at h ⊢
    refine (List.subperm_append_left _).mpr (List.Subperm.trans ?_ h)
    exact List.perm_append_comm.subperm
  | drop transferSeq =>
    refine (List.subperm_append_left _).mpr ?_
    exact (List.filter_sublist.map _).subperm

theorem headers_frameSteps (h : FrameSteps s t) : t.headers.Subperm s.headers :=
  keeps_steps (P := fun t => t.headers.Subperm s.headers)
    (fun _ _ hstep hs => (headers_frameStep hstep).trans hs) h (List.Subperm.refl _)

end Session

theorem deliveredHeaders_append (log later : List (Peer × PeerEvent)) :
    deliveredHeaders (log ++ later) = deliveredHeaders log ++ deliveredHeaders later :=
  List.filterMap_append

/-- A control payload adds no header but the one it delivers. -/
theorem headers_accept (payload : Except Failure Message) (s : Peer) :
    (s.session.accept payload).1.headers.Subperm
      (s.session.headers ++ deliveredHeaders [(s, .delivered payload)]) := by
  rcases Session.accept_cases payload s.session with ⟨message, -, -, -, haccept⟩ |
    ⟨header, fromDeviceId, assembler, rfl, hremote, -, hsteps⟩ | hsteps
  · rw [haccept, (Session.sameInbound_enqueue message s.session).headers]
    exact (List.sublist_append_left _ _).subperm
  · have hnew : deliveredHeaders [(s, .delivered (.ok (.revisionHeader header)))] = [header] := by
      simp [deliveredHeaders, hremote]
    rw [hnew]
    refine (Session.headers_frameSteps hsteps).trans ?_
    rw [Session.headers, Session.headers, List.append_assoc]
    refine (List.subperm_append_left _).mpr ?_
    simp only [Session.setAssembler, List.map_append, List.map_cons, List.map_nil]
    exact ((List.filter_sublist.map _).append (List.Sublist.refl _)).subperm
  · exact (Session.headers_frameSteps hsteps).trans (List.sublist_append_left _ _).subperm

/-! ## The chain of ingests -/

/-- Where a program of the pool is: `run` before and after it has read what was received, a
callback, and a link of the `inboundWork` chain before it takes its transfer, before and after it
has received the revision. -/
inductive IngestStage where
  | run
  | reading (received : List RevisionId)
  | callback
  | starting (inbound : InboundHeader)
  | holding (inbound : InboundHeader)
  | finished

/-- The header that a link is about to ingest. -/
def IngestStage.held : IngestStage → Option RevisionHeader
  | holding inbound => some inbound.header
  | _ => none

/-- A transfer is taken off the chain once, and received once. -/
inductive Ingests : IngestStage → Peer → List PeerEvent → Peer → IngestStage → Prop where
  | program {g : IngestStage} {s t : Peer} {events : List PeerEvent}
      (hmove : s.session.ProgramStep t.session)
      (hunsaved : ∀ revision, .engine (.saved revision) ∉ events) : Ingests g s events t g
  | authenticated {g : IngestStage} {s : Peer} (deviceId : DeviceId) :
    Ingests g s [] { s with session := { s.session with remoteDeviceId := some deviceId } } g
  | read {s : Peer} : Ingests .run s [] s (.reading s.session.received)
  | ended {g : IngestStage} {s : Peer} {result : Except Failure SessionResult}
      (h : ∀ r, result = .ok r → g = .reading r.received) :
    Ingests g s [] { s with session := { s.session with outcome := some result } } g
  | control {s : Peer} (payload : Except Failure Message) :
    Ingests .callback s (.delivered payload :: (s.session.accept payload).2.map .output)
      { s with session := (s.session.accept payload).1 } .callback
  | bulk {s : Peer} (frame : Bytes) :
    Ingests .callback s (.arrived frame :: (s.session.acceptBulk frame).2.map .output)
      { s with session := (s.session.acceptBulk frame).1 } .callback
  | take {s : Peer} {inbound : InboundHeader} {bytes : Bytes}
      (h : s.session.inboundWork.head? = some (inbound, bytes)) :
    Ingests (.starting inbound) s []
      { s with session :=
        { s.session with inboundWork := s.session.inboundWork.tail, ingesting := true } }
      (.holding inbound)
  | store {s t : Peer} {events : List PeerEvent} {inbound : InboundHeader}
      (hmove : s.session.ProgramStep t.session)
      (hsaved : ∀ revision, .engine (.saved revision) ∈ events →
        inbound.header.Describes revision) :
    Ingests (.holding inbound) s events t (.holding inbound)
  | accepted {s : Peer} {inbound : InboundHeader} :
    Ingests (.holding inbound) s
      ((s.session.accepted inbound.header.revisionId).2.map .output)
      { s with session := (s.session.accepted inbound.header.revisionId).1 } .finished

/-- What holds between the programs, the session and what was delivered. -/
structure Accounted (stages : List IngestStage) (s : Peer) (log : List (Peer × PeerEvent)) : Prop where
  count : ∀ id, (s.session.received ++
      (stages.filterMap IngestStage.held ++ s.session.headers).map (·.revisionId)).count id ≤
    ((deliveredHeaders log).map (·.revisionId)).count id
  delivered : ∀ header ∈ stages.filterMap IngestStage.held ++ s.session.headers,
    header ∈ deliveredHeaders log
  saved : ∀ x ∈ log, ∀ revision, x.2 = .engine (.saved revision) →
    ∃ header ∈ deliveredHeaders log, header.Describes revision
  reading : ∀ received, .reading received ∈ stages → received <+: s.session.received
  outcome : ∀ result, s.session.outcome = some (.ok result) →
    result.received <+: s.session.received

section Accounted

variable {stages stages' : List IngestStage} {s t : Peer} {log : List (Peer × PeerEvent)}
  {events : List PeerEvent}

/-- A step that uses no header but the old ones and those it delivers. -/
theorem Accounted.move (h : Accounted stages s log)
    (hcount : ∀ id, (t.session.received ++
        (stages'.filterMap IngestStage.held ++ t.session.headers).map (·.revisionId)).count id ≤
      (s.session.received ++
        (stages.filterMap IngestStage.held ++ s.session.headers).map (·.revisionId)).count id +
      ((deliveredHeaders (events.map (s, ·))).map (·.revisionId)).count id)
    (hheaders : ∀ header ∈ stages'.filterMap IngestStage.held ++ t.session.headers,
      header ∈ stages.filterMap IngestStage.held ++ s.session.headers ∨
        header ∈ deliveredHeaders (events.map (s, ·)))
    (hsaved : ∀ revision, .engine (.saved revision) ∈ events →
      ∃ header ∈ stages.filterMap IngestStage.held, header.Describes revision)
    (hreading : ∀ received, .reading received ∈ stages' → received <+: t.session.received)
    (houtcome : ∀ result, t.session.outcome = some (.ok result) →
      result.received <+: t.session.received) :
    Accounted stages' t (log ++ events.map (s, ·)) := by
  have hmono : ∀ header ∈ deliveredHeaders log,
      header ∈ deliveredHeaders (log ++ events.map (s, ·)) := by
    intro header hmem
    rw [deliveredHeaders_append]
    exact List.mem_append_left _ hmem
  refine ⟨fun id => ?_, fun header hmem => ?_, fun x hx revision hrevision => ?_, hreading,
    houtcome⟩
  · have hold := h.count id
    have hnew := hcount id
    rw [deliveredHeaders_append]
    simp only [List.map_append, List.count_append] at hold hnew ⊢
    omega
  · rcases hheaders header hmem with hold | hnew
    · exact hmono header (h.delivered header hold)
    · rw [deliveredHeaders_append]
      exact List.mem_append_right _ hnew
  · rcases List.mem_append.mp hx with hx | hx
    · obtain ⟨header, hmem, hdescribes⟩ := h.saved x hx revision hrevision
      exact ⟨header, hmono header hmem, hdescribes⟩
    · obtain ⟨e, he, rfl⟩ := List.mem_map.mp hx
      obtain ⟨header, hmem, hdescribes⟩ := hsaved revision (hrevision ▸ he)
      exact ⟨header, hmono header (h.delivered header (List.mem_append_left _ hmem)), hdescribes⟩

/-- A step of a program that holds no other header than before. -/
theorem Accounted.same (h : Accounted stages s log)
    (hheaders : t.session.headers.Subperm
      (s.session.headers ++ deliveredHeaders (events.map (s, ·))))
    (hresult : s.session.SameResult t.session)
    (hsaved : ∀ revision, .engine (.saved revision) ∈ events →
      ∃ header ∈ stages.filterMap IngestStage.held, header.Describes revision) :
    Accounted stages t (log ++ events.map (s, ·)) := by
  obtain ⟨hreceived, houtcome⟩ := hresult
  refine h.move (fun id => ?_) (fun header hmem => ?_) hsaved (hreceived ▸ h.reading)
    (by rw [hreceived, houtcome]; exact h.outcome)
  · obtain ⟨kept, hperm, hsub⟩ := hheaders
    have hle := (hsub.map (·.revisionId)).count_le id
    rw [(hperm.map (·.revisionId)).count_eq id] at hle
    rw [List.map_append, List.count_append] at hle
    simp only [hreceived, List.map_append, List.count_append]
    omega
  · rcases List.mem_append.mp hmem with hmem | hmem
    · exact .inl (List.mem_append_left _ hmem)
    · rcases List.mem_append.mp (hheaders.subset hmem) with hold | hnew
      · exact .inl (List.mem_append_right _ hold)
      · exact .inr hnew

/-- What a program holds is held apart from what the others do. -/
theorem held_set {i : Nat} {g : IngestStage} (hi : stages[i]? = some g) (g' : IngestStage) :
    ∃ before after, stages.filterMap IngestStage.held = before ++ (g.held.toList ++ after) ∧
      (stages.set i g').filterMap IngestStage.held = before ++ (g'.held.toList ++ after) := by
  obtain ⟨hlt, hget⟩ := List.getElem?_eq_some_iff.mp hi
  have hexists : ∃ before after, stages = before ++ stages[i] :: after ∧ before.length = i ∧
      stages.set i g' = before ++ g' :: after := List.exists_of_set hlt
  obtain ⟨before, after, hsplit, -, hset⟩ := hexists
  have hcons : ∀ g : IngestStage, (g :: after).filterMap IngestStage.held =
      g.held.toList ++ after.filterMap IngestStage.held := by
    intro g
    cases hheld : g.held with
    | none => simp [hheld]
    | some header => simp [hheld]
  refine ⟨before.filterMap IngestStage.held, after.filterMap IngestStage.held, ?_, ?_⟩
  · rw [hget] at hsplit
    rw [hsplit, List.filterMap_append, hcons]
  · rw [hset, List.filterMap_append, hcons]

theorem mem_held {i : Nat} {inbound : InboundHeader} (hi : stages[i]? = some (.holding inbound)) :
    inbound.header ∈ stages.filterMap IngestStage.held :=
  List.mem_filterMap.mpr ⟨_, List.mem_of_getElem? hi, rfl⟩

theorem Accounted.step {i : Nat} {g g' : IngestStage} (hi : stages[i]? = some g)
    (h : Accounted stages s log) (hstep : Ingests g s events t g') :
    Accounted (stages.set i g') t (log ++ events.map (s, ·)) := by
  have hsame : stages.set i g = stages := by
    obtain ⟨hlt, hget⟩ := List.getElem?_eq_some_iff.mp hi
    rw [← hget, List.set_getElem_self]
  have hnone : ∀ {revision : Revision} {event : PeerEvent} {outputs : List Output},
      (∀ r, event ≠ .engine (.saved r)) →
      .engine (.saved revision) ∈ event :: outputs.map .output →
      ∃ header ∈ stages.filterMap IngestStage.held, header.Describes revision := by
    intro revision event outputs hevent hmem
    rcases List.mem_cons.mp hmem with hmem | hmem
    · exact (hevent revision hmem.symm).elim
    · obtain ⟨_, _, hevent⟩ := List.mem_map.mp hmem
      cases hevent
  cases hstep with
  | program hmove hunsaved =>
    rw [hsame]
    exact h.same (hmove.headers ▸ (List.sublist_append_left _ _).subperm)
      ⟨hmove.received, hmove.outcome⟩ fun revision hmem => (hunsaved revision hmem).elim
  | authenticated deviceId =>
    rw [hsame]
    exact h.same (List.sublist_append_left _ _).subperm ⟨rfl, rfl⟩ (by simp)
  | control payload =>
    rw [hsame]
    refine h.same ?_ (Session.steps_accept payload s.session).sameResult
      (fun revision => hnone (by simp))
    have hevents : deliveredHeaders ((.delivered payload :: (s.session.accept payload).2.map
        PeerEvent.output).map (s, ·)) = deliveredHeaders [(s, .delivered payload)] := by
      rw [List.map_cons, ← List.singleton_append, deliveredHeaders_append]
      simp [deliveredHeaders]
    rw [hevents]
    exact headers_accept payload s
  | bulk frame =>
    rw [hsame]
    have hsteps := Session.steps_acceptBulk frame s.session
    exact h.same ((Session.headers_frameSteps hsteps).trans (List.sublist_append_left _ _).subperm)
      hsteps.inbound.sameResult fun revision => hnone (by simp)
  | store hmove hsaved =>
    rw [hsame]
    exact h.same (hmove.headers ▸ (List.sublist_append_left _ _).subperm)
      ⟨hmove.received, hmove.outcome⟩
      fun revision hmem => ⟨_, mem_held hi, hsaved revision hmem⟩
  | read =>
    obtain ⟨before, after, hheld, hheld'⟩ := held_set hi (.reading s.session.received)
    simp only [IngestStage.held, Option.toList_none] at hheld hheld'
    refine h.move (fun id => by rw [hheld, hheld']; omega) (fun header hmem => .inl ?_) (by simp)
      (fun received hmem => ?_) h.outcome
    · rw [hheld'] at hmem
      rw [hheld]
      exact hmem
    · rcases List.mem_or_eq_of_mem_set hmem with hmem | heq
      · exact h.reading received hmem
      · cases heq
        exact List.prefix_refl _
  | ended hresult =>
    rw [hsame]
    refine h.move (fun id => Nat.le_add_right _ _) (fun header hmem => .inl hmem) (by simp) h.reading
      fun result houtcome => ?_
    cases houtcome
    exact h.reading _ (hresult result rfl ▸ List.mem_of_getElem? hi)
  | @take _ inbound bytes hhead =>
    obtain ⟨before, after, hheld, hheld'⟩ := held_set hi (.holding inbound)
    simp only [IngestStage.held, Option.toList_none, Option.toList_some] at hheld hheld'
    obtain ⟨rest, hwork⟩ := List.head?_eq_some_iff.mp hhead
    have hheaders : s.session.headers = inbound.header :: Session.headers
        { s.session with inboundWork := s.session.inboundWork.tail, ingesting := true } := by
      rw [Session.headers, Session.headers, hwork]
      rfl
    refine h.move (fun id => ?_) (fun header hmem => .inl ?_) (by simp) (fun received hmem => ?_)
      h.outcome
    · rw [hheld, hheld', hheaders]
      simp only [List.map_append, List.map_cons, List.map_nil, List.count_append, List.count_cons,
        List.count_nil]
      omega
    · rw [hheld'] at hmem
      rw [hheld, hheaders]
      simp only [List.mem_append, List.mem_cons, List.not_mem_nil] at hmem ⊢
      tauto
    · rcases List.mem_or_eq_of_mem_set hmem with hmem | heq
      · exact h.reading received hmem
      · cases heq
  | @accepted _ inbound =>
    obtain ⟨before, after, hheld, hheld'⟩ := held_set hi .finished
    simp only [IngestStage.held, Option.toList_none, Option.toList_some] at hheld hheld'
    have haccepted := Session.programStep_accepted inbound.header.revisionId s.session
    have hheaders : (s.session.accepted inbound.header.revisionId).1.headers = s.session.headers :=
      haccepted.headers
    have hprefix : s.session.received <+:
        (s.session.accepted inbound.header.revisionId).1.received := by
      rw [haccepted.received]
      exact List.prefix_append _ _
    refine h.move (fun id => ?_) (fun header hmem => .inl ?_) (fun revision hmem => ?_)
      (fun received hmem => ?_) fun result houtcome => ?_
    · dsimp only
      rw [hheld, hheld', hheaders, haccepted.received]
      simp only [List.map_append, List.map_cons, List.map_nil, List.count_append, List.count_cons,
        List.count_nil]
      omega
    · rw [hheld', hheaders] at hmem
      rw [hheld]
      simp only [List.mem_append, List.mem_cons, List.not_mem_nil] at hmem ⊢
      tauto
    · obtain ⟨_, _, hevent⟩ := List.mem_map.mp hmem
      cases hevent
    · rcases List.mem_or_eq_of_mem_set hmem with hmem | heq
      · exact (h.reading received hmem).trans hprefix
      · cases heq
    · rw [haccepted.outcome] at houtcome
      exact (h.outcome result houtcome).trans hprefix

/-- A program that is started holds no header. -/
theorem Accounted.start (h : Accounted stages s log) {g : IngestStage} (hheld : g.held = none)
    (hreading : ∀ received, g ≠ .reading received) : Accounted (stages ++ [g]) s log := by
  have hsame : (stages ++ [g]).filterMap IngestStage.held = stages.filterMap IngestStage.held := by
    simp [hheld]
  refine ⟨hsame ▸ h.count, hsame ▸ h.delivered, h.saved, fun received hmem => ?_, h.outcome⟩
  rcases List.mem_append.mp hmem with hmem | hmem
  · exact h.reading received hmem
  · exact (hreading received (List.mem_singleton.mp hmem).symm).elim

end Accounted

/-! ## The programs -/

section Programs

variable {s : Peer} {α : Type} {onFail : IngestStage → Peer → Prop}

theorem follows_program {g : IngestStage} {p : Async Peer PeerEvent Failure α}
    (hp : Within ProgramAccess p) (hfail : ∀ s, onFail g s) :
    Follows Ingests (fun g' _ _ => g' = g) onFail p g s :=
  hp.follows (fun _ _ _ h => .program h.step h.unsaved) (fun _ _ => rfl) hfail

open SyncSession in
/-- The result says what was received when it was read. -/
theorem follows_exchange (deps : SessionDeps) (remote : RemoteDevice) :
    Follows Ingests (fun g _ result => g = .reading result.received) (fun _ _ => True)
      (exchange deps remote) .run s := by
  have hrun : ∀ {α : Type} {s : Peer} {p : Async Peer PeerEvent Failure α},
      Within ProgramAccess p →
      Follows Ingests (fun g _ _ => g = .run) (fun _ _ => True) p .run s :=
    fun hp => follows_program hp fun _ => trivial
  have hconclude : ∀ (vaultId : VaultId) (graph : RevisionGraph) (head : Option RevisionId)
      (s : Peer), Follows Ingests (fun g _ result => g = .reading result.received)
        (fun _ _ => True) (conclude remote vaultId graph head) .run s := by
    intro vaultId graph head s
    refine ⟨.reading s.session.received, .read, ?_⟩
    refine Follows.bind (p := classify vaultId graph head) ?_
      (follows_program (within_storeOnly (storeOnly_classify _ _ _)) fun _ => trivial)
    rintro _ _ _ rfl
    exact rfl
  refine Follows.bind ?_ (hrun (within_exchangeVaultSummary deps))
  rintro _ s ⟨vaultId, remoteHead⟩ rfl
  refine Follows.bind ?_ (hrun (within_exchangeHistory vaultId))
  rintro _ s summary rfl
  refine Follows.bind ?_ (hrun (Within.ofExcept _))
  rintro _ s _ rfl
  refine Follows.bind ?_ (hrun (within_storeOnly (storeOnly_computeWants _ _ _)))
  rintro _ s wanted rfl
  refine Follows.bind ?_ (hrun (within_output
    (fun _ => .same ⟨rfl, rfl, rfl, rfl, rfl, rfl, rfl, rfl⟩) (by rintro ⟨⟩)))
  rintro _ s _ rfl
  refine Follows.bind ?_ (hrun (within_send (by rintro ⟨⟩)))
  rintro _ s _ rfl
  refine Follows.bind ?_ (hrun (within_expect _))
  rintro _ s answer rfl
  split
  · rename_i theirWants
    refine Follows.bind ?_ (hrun (within_exchangeRevisions deps theirWants))
    rintro _ s _ rfl
    refine Follows.bind ?_ (hrun (within_send (by rintro ⟨⟩)))
    rintro _ s _ rfl
    refine Follows.bind ?_ (hrun within_awaitCompletion)
    rintro _ s _ rfl
    refine Follows.bind ?_ (hrun within_awaitInbound)
    rintro _ s _ rfl
    dsimp only
    cases remoteHead with
    | some head =>
      refine Follows.bind ?_ (hrun (within_storeOnly (storeOnly_recordPeerHead _ _ _ _)))
      rintro _ s _ rfl
      exact hconclude _ _ _ s
    | none => exact hconclude _ _ _ s
  · trivial

theorem parks_run (config : SessionDeps) : Parks Ingests (runToEnd config) .run := by
  intro s
  have hhandshake : Follows Ingests (fun g _ _ => g = .run) (fun _ _ => True)
      (SyncSession.handshake 0 config.auth) .run s := by
    refine (SyncSession.within_handshake config.auth).follows (fun s events t h => ?_)
      (fun _ _ => rfl) fun _ => trivial
    cases h with
    | program h => exact .program h.step h.unsaved
    | proves => exact .program (.refl _) (by simp)
    | authenticated deviceId => exact .authenticated deviceId
  have hrun : Follows Ingests (fun g _ result => g = .reading result.received) (fun _ _ => True)
      (SyncSession.run 0 config fun _ => return ()) .run s := by
    rw [SyncSession.run_eq]
    refine Follows.bind ?_ hhandshake
    rintro _ s remote rfl
    exact follows_exchange config remote
  have hattempt : Follows Ingests
      (fun g _ result => ∀ r, result = .ok r → g = .reading r.received) (fun _ _ => True)
      (SyncSession.run 0 config fun _ => return ()).attempt .run s := by
    refine hrun.attempt (fun g s a ha r hr => ?_) fun _ _ _ _ r hr => ?_
    · cases hr
      exact ha
    · cases hr
  refine Follows.bind ?_ hattempt
  intro g s result hresult
  exact ⟨g, .ended hresult, trivial⟩

/-- What a link stores is what its header announces. -/
theorem within_ingestReceived (deps : EngineDeps) (now : Nat) (inbound : InboundHeader)
    (bytes : Bytes) :
    Within (fun s events t => s.session.ProgramStep t.session ∧
      ∀ revision, .engine (.saved revision) ∈ events → inbound.header.Describes revision)
      (SyncEngine.ingestReceivedRevision deps now ⟨inbound.header.vaultId,
        inbound.header.revisionId, inbound.header.parentIds, inbound.header.hash, bytes,
        inbound.fromDeviceId, inbound.header.message⟩ :
          Async Peer PeerEvent Failure IngestResult) := by
  have honly : StoreOnly (fun e => ∀ revision, e = .saved revision →
      inbound.header.Describes revision)
      (SyncEngine.ingestReceivedRevision deps now ⟨inbound.header.vaultId,
        inbound.header.revisionId, inbound.header.parentIds, inbound.header.hash, bytes,
        inbound.fromDeviceId, inbound.header.message⟩ :
          Async Peer PeerEvent Failure IngestResult) := by
    apply storeOnly_ingest deps now
    intro revision hdescribes stored hstored
    cases hstored
    exact ⟨hdescribes.id, hdescribes.vaultId, hdescribes.hash, hdescribes.parentIds⟩
  apply honly.within
  intro s events t hst hevents
  refine ⟨Peer.session_storeStep hst ▸ .refl s.session, fun revision hmem => ?_⟩
  obtain ⟨event, hevent, hstored⟩ := hevents _ hmem
  cases hevent
  exact hstored revision rfl

theorem follows_ingestNext (deps : EngineDeps) (now : Nat) {inbound : InboundHeader}
    {bytes : Bytes} (h : s.session.inboundWork.head? = some (inbound, bytes)) :
    Follows Ingests (fun _ _ _ => True) (fun _ _ => True)
      (SyncSession.ingestNext 0 deps now inbound bytes) (.starting inbound) s := by
  have hreject : ∀ (reason : String) (s : Peer) (g : IngestStage),
      Follows Ingests (fun _ _ _ => True) (fun _ _ => True)
        (SyncSession.onSession 0 (·.reject inbound.header.revisionId reason)) g s := by
    intro reason s g
    refine ⟨g, .program (Session.programStep_reject _ reason _) ?_, trivial⟩
    simp [Session.reject]
  have hattempt : ∀ {p : Async Peer PeerEvent Failure Unit} {g : IngestStage} {s : Peer},
      Follows Ingests (fun _ _ _ => True) (fun _ _ => True) p g s →
      Follows Ingests (fun _ _ _ => True) (fun _ _ => True) p.attempt g s :=
    fun hp => hp.attempt (fun _ _ _ h => h) fun _ _ _ h => h
  refine ⟨.holding inbound, .take h, ?_⟩
  have hingest : ∀ s : Peer, Follows Ingests (fun _ _ _ => True) (fun _ _ => True)
      (SyncSession.ingest 0 deps now inbound bytes) (.holding inbound) s := by
    intro s
    have hstored : Follows Ingests (fun g _ _ => g = .holding inbound) (fun _ _ => True) _
        (.holding inbound) s :=
      (within_ingestReceived deps now inbound bytes).follows
        (fun _ _ _ hstore => .store hstore.1 hstore.2) (fun _ _ => rfl) fun _ => trivial
    refine Follows.bind ?_ hstored
    rintro _ s result rfl
    split
    · exact hreject _ s _
    · exact ⟨.finished, .accepted, trivial⟩
  have hrejected : ∀ s : Peer, Follows Ingests (fun _ _ _ => True) (fun _ _ => True)
      (SyncSession.ingestOrReject 0 deps now inbound bytes) (.holding inbound) s := by
    intro s
    refine Follows.bind ?_ (hattempt (hingest s))
    intro g s outcome _
    split
    · trivial
    · exact hreject _ s g
  refine Follows.bind (p := (SyncSession.ingestOrReject 0 deps now inbound bytes).attempt) ?_
    (hattempt (hrejected _))
  intro g s _ _
  exact ⟨g, .program (.same ⟨rfl, rfl, rfl, rfl, rfl, rfl, rfl, rfl⟩) (by simp), trivial⟩

/-- Each program starts at its stage. -/
theorem follows_ingestSystem {deps : EngineDeps} {command : PeerCommand}
    {p : Async Peer PeerEvent Failure Unit} (h : peerSystem deps command s = some p) :
    ∃ g, g.held = none ∧ (∀ received, g ≠ .reading received) ∧
      Follows Ingests (fun _ _ _ => True) (fun _ _ => True) p g s := by
  have hprogram : ∀ {p : Async Peer PeerEvent Failure Unit}, Within ProgramAccess p →
      ∃ g, g.held = none ∧ (∀ received, g ≠ .reading received) ∧
        Follows Ingests (fun _ _ _ => True) (fun _ _ => True) p g s := by
    intro p hp
    refine ⟨.callback, rfl, by simp, ?_⟩
    exact hp.follows (fun _ _ _ h => .program h.step h.unsaved) (fun _ _ => trivial)
      fun _ => trivial
  cases command with
  | control payload =>
    cases h
    exact ⟨.callback, rfl, by simp, .callback, .control payload, trivial⟩
  | bulk frame =>
    cases h
    exact ⟨.callback, rfl, by simp, .callback, .bulk frame, trivial⟩
  | close =>
    cases h
    exact ⟨.callback, rfl, by simp, .callback,
      .program (Session.programStep_onClose s.session) (by simp), trivial⟩
  | timeout =>
    rw [peerSystem] at h
    split at h
    · cases h
      exact hprogram (SyncSession.within_update Session.programStep_timeout)
    · cases h
  | buffered | closeBulk =>
    cases h
    exact hprogram (SyncSession.within_note fun _ => ⟨rfl, rfl, rfl, rfl, rfl, rfl, rfl, rfl⟩)
  | ingestNext now =>
    rw [peerSystem] at h
    split at h
    · cases h
    · obtain ⟨⟨inbound, bytes⟩, hhead, rfl⟩ := Option.map_eq_some_iff.mp h
      exact ⟨.starting inbound, rfl, by simp, follows_ingestNext deps now hhead⟩

end Programs

/-- Whatever is played, what is stored and received was announced by a header. -/
theorem accounted_record {deps : EngineDeps} {config : SessionDeps}
    {w₀ w : Pool Peer PeerEvent Failure} {moves : List (Move PeerCommand)}
    {log : List (Peer × PeerEvent)} (hstart : Starting config w₀)
    (h : w₀.record (peerSystem deps) moves = some (w, log)) :
    ∃ stages, Accounted stages w.state log := by
  obtain ⟨hsession, htasks⟩ := hstart
  have hempty : Accounted [.run] w₀.state [] := by
    have houtcome : w₀.state.session.outcome = none := by rw [hsession]; rfl
    have hheaders : w₀.state.session.headers = [] := by rw [hsession]; rfl
    have hreceived : w₀.state.session.received = [] := by rw [hsession]; rfl
    have hheld : [IngestStage.run].filterMap IngestStage.held = [] := rfl
    exact ⟨by simp [hheaders, hreceived, hheld], by simp [hheaders, hheld], by simp, by simp,
      by simp [houtcome]⟩
  have hfollows : w₀.Follows Ingests Accounted [.run] [] := by
    refine ⟨hempty, by rw [htasks]; rfl, fun i p g hp hg => ?_⟩
    rw [htasks] at hp
    rw [List.mem_singleton.mp (List.mem_of_getElem? hp),
      List.mem_singleton.mp (List.mem_of_getElem? hg)]
    exact fun _ s _ => parks_run config s
  refine hfollows.record ?_ ?_ h
  · exact fun stages i g s log events t g' hi hs hstep => hs.step hi hstep
  · intro stages command s log p hs hp
    obtain ⟨g, hheld, hreading, hfollows⟩ := follows_ingestSystem hp
    exact ⟨g, hs.start hheld hreading, hfollows⟩

/-! ## What was asked for -/

/-- The vault that a session settled on, and the revisions it asks for. -/
def requestOf (log : List (Peer × PeerEvent)) : Option (VaultId × List RevisionId) :=
  log.findSome? fun (_, event) =>
    match event with
    | .output (.control (.wantRevisions vaultId wanted)) => some (vaultId, wanted)
    | _ => none

/-- The history summary that a session accepts is the first that it is sent. -/
def acceptedSummary (log : List (Peer × PeerEvent)) : List HistorySummaryEntry :=
  (log.findSome? fun (_, event) =>
    match event with
    | .delivered (.ok (.historySummary _ revisions)) => some revisions
    | _ => none).getD []

def storedRevisions (log : List (Peer × PeerEvent)) : List Revision :=
  log.filterMap fun (_, event) =>
    match event with
    | .engine (.saved revision) => some revision
    | _ => none

/-- Asked for, with the hash and the parents that the summary announces. -/
def Requested (log : List (Peer × PeerEvent)) (vaultId : VaultId) (revisionId : RevisionId)
    (hash : Sha256Hex) (parentIds : List RevisionId) : Prop :=
  (∃ wanted, requestOf log = some (vaultId, wanted) ∧ revisionId ∈ wanted) ∧
    ∃ entry ∈ acceptedSummary log, entry.revisionId = revisionId ∧ entry.hash = hash ∧
      ∀ id, id ∈ entry.parentIds ↔ id ∈ parentIds

/-- A peer that only sends headers for what was requested, and one for each revision, makes a
session store nothing else, and receive nothing else or twice. -/
theorem inbound_confined (deps : EngineDeps) (config : SessionDeps)
    {w₀ w : Pool Peer PeerEvent Failure} {moves : List (Move PeerCommand)}
    {log : List (Peer × PeerEvent)} (hstart : Starting config w₀)
    (h : w₀.record (peerSystem deps) moves = some (w, log))
    (hrequested : ∀ header ∈ deliveredHeaders log,
      Requested log header.vaultId header.revisionId header.hash header.parentIds)
    (honce : ((deliveredHeaders log).map (·.revisionId)).Nodup) :
    (∀ revision ∈ storedRevisions log,
      Requested log revision.vaultId revision.id revision.hash revision.parentIds) ∧
    ∀ result, w.state.session.outcome = some (.ok result) → result.received.Nodup ∧
      ∀ id ∈ result.received, ∃ vaultId wanted, requestOf log = some (vaultId, wanted) ∧
        id ∈ wanted := by
  obtain ⟨stages, haccounted⟩ := accounted_record hstart h
  constructor
  · intro revision hmem
    obtain ⟨⟨s, event⟩, hx, hevent⟩ := List.mem_filterMap.mp hmem
    have hsaved : event = .engine (.saved revision) := by
      dsimp only at hevent
      split at hevent
      · rw [Option.some.inj hevent]
      · cases hevent
    obtain ⟨header, hheader, hdescribes⟩ := haccounted.saved _ hx revision hsaved
    rw [hdescribes.id, hdescribes.vaultId, hdescribes.hash, hdescribes.parentIds]
    exact hrequested header hheader
  · intro result houtcome
    have hreceived := haccounted.outcome result houtcome
    have hcount : ∀ id, w.state.session.received.count id ≤
        ((deliveredHeaders log).map (·.revisionId)).count id := by
      intro id
      have h := haccounted.count id
      rw [List.count_append] at h
      omega
    refine ⟨List.Nodup.sublist hreceived.sublist (List.nodup_iff_count_le_one.mpr fun id => ?_),
      fun id hid => ?_⟩
    · exact (hcount id).trans (List.nodup_iff_count_le_one.mp honce id)
    · have hpos := List.count_pos_iff.mpr (hreceived.subset hid)
      have hmem := List.count_pos_iff.mp (Nat.lt_of_lt_of_le hpos (hcount id))
      obtain ⟨header, hheader, rfl⟩ := List.mem_map.mp hmem
      obtain ⟨⟨wanted, hwanted, hid⟩, -⟩ := hrequested header hheader
      exact ⟨_, wanted, hwanted, hid⟩

/-! A phone that shares an empty revision `r`. -/

/-- SHA-256 of no bytes. -/
def emptyHash : Sha256Hex :=
  ⟨"e3b0c44298fc1c149afbf4c8996fb92427ae41e4649b934ca495991b7852b855"⟩

open SessionEnd in
def emptyDeps : EngineDeps := { deskDeps with sha256 := fun _ => emptyHash }

def phone (message : Message) : Move PeerCommand := .start (.control (parseMessage message))

/-- The desk adopts the phone's vault, and asks for `r`. -/
def phoneShares : List (Move PeerCommand) :=
  phonePairs ++
    [phone (.vaultSummary ⟨"vault"⟩ "Vault" (some ⟨"r"⟩) 1), .resume 0, .resume 0, .resume 0,
      .resume 0, phone (.historySummary ⟨"vault"⟩ [⟨⟨"r"⟩, emptyHash, 0, []⟩]), .resume 0,
      .resume 0, phone (.wantRevisions ⟨"vault"⟩ []), .resume 0]

def phoneHeader (revisionId : RevisionId) : RevisionHeader :=
  ⟨1, ⟨"vault"⟩, revisionId, emptyHash, 0, [], 1, none⟩

/-- The phone sends one revision, and completes. -/
def phoneSends (revisionId : RevisionId) : List (Move PeerCommand) :=
  [phone (.revisionHeader (phoneHeader revisionId)), .start (.bulk (uint32Bytes 1 ++ uint32Bytes 0)),
    .start (.ingestNext 0), .resume 8, .resume 8, .resume 8, phone (.syncComplete ⟨"vault"⟩),
    .resume 0, .resume 0, .resume 0, .resume 0, .resume 0]

/-- What the session received, if it ended well. -/
def Session.resultReceived (s : Session) : Option (List RevisionId) :=
  match s.outcome with
  | some (.ok result) => some result.received
  | _ => none

open SessionEnd in
theorem inbound_confined_phone :
    ∃ w log, deskStart.record (peerSystem emptyDeps) (phoneShares ++ phoneSends ⟨"r"⟩) =
        some (w, log) ∧ deliveredHeaders log = [phoneHeader ⟨"r"⟩] ∧
      (∀ revision ∈ storedRevisions log,
        Requested log revision.vaultId revision.id revision.hash revision.parentIds) ∧
      ∀ result, w.state.session.outcome = some (.ok result) → result.received.Nodup ∧
        ∀ id ∈ result.received, ∃ vaultId wanted, requestOf log = some (vaultId, wanted) ∧
          id ∈ wanted := by
  have hplay : (deskStart.record (peerSystem emptyDeps) (phoneShares ++ phoneSends ⟨"r"⟩)).map
      (fun run => (deliveredHeaders run.2, requestOf run.2, acceptedSummary run.2)) =
      some ([phoneHeader ⟨"r"⟩], some (⟨"vault"⟩, [⟨"r"⟩]), [⟨⟨"r"⟩, emptyHash, 0, []⟩]) := by
    decide +kernel
  obtain ⟨⟨w, log⟩, hrecord, hlog⟩ := Option.map_eq_some_iff.mp hplay
  obtain ⟨hheaders, hrequest, hsummary⟩ : deliveredHeaders log = [phoneHeader ⟨"r"⟩] ∧
      requestOf log = some (⟨"vault"⟩, [⟨"r"⟩]) ∧
      acceptedSummary log = [⟨⟨"r"⟩, emptyHash, 0, []⟩] := by
    simpa only [Prod.mk.injEq] using hlog
  refine ⟨w, log, hrecord, hheaders, inbound_confined emptyDeps deskConfig ⟨rfl, rfl⟩ hrecord ?_ ?_⟩
  · intro header hheader
    rw [hheaders, List.mem_singleton] at hheader
    rw [hheader]
    exact ⟨⟨_, hrequest, by simp [phoneHeader]⟩, _, hsummary ▸ List.mem_singleton_self _, rfl, rfl,
      fun _ => Iff.rfl⟩
  · rw [hheaders]
    exact List.nodup_singleton _

open SessionEnd in
/-- Asked for `r`, the phone sends `s`, and the desk stores it. -/
theorem inbound_unconfined :
    ∃ w log, Starting deskConfig deskStart ∧
      deskStart.record (peerSystem emptyDeps) (phoneShares ++ phoneSends ⟨"s"⟩) = some (w, log) ∧
      requestOf log = some (⟨"vault"⟩, [⟨"r"⟩]) ∧
      (∃ revision ∈ storedRevisions log, revision.id = ⟨"s"⟩ ∧
        ¬ Requested log revision.vaultId revision.id revision.hash revision.parentIds) ∧
      w.state.session.resultReceived = some [⟨"s"⟩] := by
  have hplay : (deskStart.record (peerSystem emptyDeps) (phoneShares ++ phoneSends ⟨"s"⟩)).map
      (fun run => (requestOf run.2, (storedRevisions run.2).map (·.id),
        run.1.state.session.resultReceived)) =
      some (some (⟨"vault"⟩, [⟨"r"⟩]), [⟨"s"⟩], some [⟨"s"⟩]) := by
    decide +kernel
  obtain ⟨⟨w, log⟩, hrecord, hlog⟩ := Option.map_eq_some_iff.mp hplay
  obtain ⟨hrequest, hstored, hreceived⟩ : requestOf log = some (⟨"vault"⟩, [⟨"r"⟩]) ∧
      (storedRevisions log).map (·.id) = [⟨"s"⟩] ∧
      w.state.session.resultReceived = some [⟨"s"⟩] := by
    simpa only [Prod.mk.injEq] using hlog
  obtain ⟨revision, hmem, hid⟩ := List.mem_map.mp (hstored ▸ List.mem_singleton_self _)
  refine ⟨w, log, ⟨rfl, rfl⟩, hrecord, hrequest, ⟨revision, hmem, hid, ?_⟩, hreceived⟩
  rintro ⟨⟨wanted, hwanted, hin⟩, -⟩
  obtain ⟨-, rfl⟩ := Prod.mk.inj (Option.some.inj (hrequest.symm.trans hwanted))
  rw [hid] at hin
  exact absurd hin (by decide)

end PassVault
