import PassVault.Sync.Chronicle
import PassVault.Sync.Outbound

/-!
# Devices that share a history

Sessions send the headers of what is stored, and ingest what they are told. So devices that keep
to one chronicle tell each other nothing else, whatever else the network delivers.
-/

namespace PassVault

open Async Relation

variable {c : Chronicle}

/-! ## Sessions -/

/-- Anything but a revision header. -/
def Output.Bare (output : Output) : Prop := ∀ header, output ≠ .control (.revisionHeader header)

theorem Session.Answer.bare {output : Output} (h : Answer output) : output.Bare := by
  intro header
  rcases h with ⟨_, _, _, rfl⟩ | ⟨_, _, rfl⟩ | ⟨_, rfl⟩
  · simp
  · simp
  · simp

theorem Node.KeepsTo.setSession {s : Node} (h : s.KeepsTo c) {k : Nat} {x : Session}
    (hx : ∀ header ∈ x.headers, c.entry header.revisionId = some header.content) :
    (setSession k x s : Node).KeepsTo c := by
  refine ⟨h.store, fun j header hmem => ?_⟩
  change header ∈ (Function.update s.sessions k x j).headers at hmem
  by_cases hj : j = k
  · rw [hj, Function.update_self] at hmem
    exact hx header hmem
  · rw [Function.update_of_ne hj] at hmem
    exact h.headers j header hmem

theorem honest_output {k : Nat} {output : Output} (h : output.Bare) :
    c.Honest (.output k output) := by
  intro header hsent
  unfold NodeEvent.sent at hsent
  split at hsent
  · rename_i hevent
    cases hevent
    exact (h _ rfl).elim
  · cases hsent

namespace SyncSession

variable {k : Nat} {α : Type}

theorem chronicles_onSession {f : Session → Session × List Output}
    (hheaders : ∀ s, ∀ header ∈ (f s).1.headers, header ∈ s.headers)
    (hbare : ∀ s, ∀ output ∈ (f s).2, output.Bare) :
    Within (Chronicles c) (onSession k f : Async Node NodeEvent Failure Unit) := by
  refine fun s => ⟨fun _ hs => ⟨hs.setSession fun header hmem => ?_, fun e hmem => ?_⟩, trivial⟩
  · exact hs.headers k header (hheaders _ header hmem)
  · obtain ⟨output, houtput, rfl⟩ := List.mem_map.mp hmem
    exact honest_output (hbare _ _ houtput)

theorem chronicles_update {f : Session → Session}
    (hheaders : ∀ s, (f s).headers = s.headers) :
    Within (Chronicles c) (update k f : Async Node NodeEvent Failure Unit) :=
  chronicles_onSession (fun s _ hmem => hheaders s ▸ hmem) (by simp)

theorem chronicles_event {f : Session → Session} {event : Session → SessionEvent}
    (hheaders : ∀ s, (f s).headers = s.headers) :
    Within (Chronicles c) (onSession k fun s => (f s, [.event (event s)]) :
      Async Node NodeEvent Failure Unit) := by
  refine chronicles_onSession (fun s _ hmem => hheaders s ▸ hmem) fun s output hmem header => ?_
  rw [List.mem_singleton.mp hmem]
  simp

theorem chronicles_emit (event : SessionEvent) :
    Within (Chronicles c) (emit k event : Async Node NodeEvent Failure Unit) :=
  chronicles_event fun _ => rfl

theorem chronicles_send {message : Message}
    (h : ∀ header, message ≠ .revisionHeader header) :
    Within (Chronicles c) (send k message : Async Node NodeEvent Failure Unit) := by
  refine chronicles_onSession (fun _ _ h => h) fun s output hmem header heq => ?_
  rw [List.mem_singleton.mp hmem] at heq
  exact h header (Output.control.inj heq)

theorem chronicles_header (header : RevisionHeader)
    (h : c.entry header.revisionId = some header.content) :
    Within (Chronicles c) (send k (.revisionHeader header) :
      Async Node NodeEvent Failure Unit) := by
  refine fun s => ⟨fun _ hs => ⟨hs.setSession (hs.headers k), fun e hmem => ?_⟩, trivial⟩
  obtain ⟨output, houtput, rfl⟩ := List.mem_map.mp hmem
  rw [List.mem_singleton.mp houtput]
  intro header' hsent
  cases hsent
  exact h

theorem chronicles_readSession (f : Session → α) :
    Within (Chronicles c) (readSession k f : Async Node NodeEvent Failure α) :=
  fun s => ⟨chronicles_idle s, trivial⟩

theorem chronicles_takeOutcome :
    Within (Chronicles c) (takeOutcome k : Async Node NodeEvent Failure Message) := by
  refine (chronicles_readSession _).bind fun waiting => ?_
  refine Within.bind (p := update k _) (chronicles_update fun _ => rfl) fun _ => ?_
  split
  · exact Within.ofExcept _
  · trivial

theorem chronicles_expect (type : MessageType) :
    Within (Chronicles c) (expect k type : Async Node NodeEvent Failure Message) :=
  (chronicles_update fun s => (Session.programStep_expect type s).headers).bind
    fun _ => chronicles_takeOutcome

theorem chronicles_fromBase64 (text reason : String) :
    Within (Chronicles c) (fromBase64 text reason : Async Node NodeEvent Failure Bytes) := by
  unfold fromBase64
  split
  · trivial
  · trivial

theorem chronicles_handshake (auth : PeerAuthenticator) :
    Within (Chronicles c) (handshake k auth : Async Node NodeEvent Failure RemoteDevice) := by
  refine (chronicles_send (by simp)).bind fun _ => (chronicles_expect _).bind fun hello => ?_
  split
  · dsimp only
    split
    · exact (chronicles_send (by simp)).bind fun _ => trivial
    refine (chronicles_fromBase64 _ _).bind fun key => ?_
    refine (chronicles_fromBase64 _ _).bind fun nonce => ?_
    refine Within.bind (p := send k _) (chronicles_send (by simp)) fun _ => ?_
    refine (chronicles_expect _).bind fun answer => ?_
    split
    · refine (chronicles_fromBase64 _ _).bind fun signature => ?_
      refine Within.bind (p := Async.pause) trivial fun _ => ?_
      split
      · exact (chronicles_send (by simp)).bind fun _ => trivial
      · refine Within.bind (p := update k _) (chronicles_update fun _ => rfl) fun _ => ?_
        refine (chronicles_emit _).bind fun _ => ?_
        exact (chronicles_emit _).bind fun _ => trivial
    · trivial
  · trivial

theorem chronicles_localVault (vaultId : Option VaultId) :
    Within (Chronicles c) (localVault vaultId : Async Node NodeEvent Failure (Option Vault)) := by
  cases vaultId with
  | none => trivial
  | some vaultId => exact chronicles_query (·.getVault vaultId)

theorem chronicles_advertise (vault : Option Vault) :
    Within (Chronicles c) (advertise k vault : Async Node NodeEvent Failure Unit) := by
  cases vault with
  | none => exact chronicles_send (by simp)
  | some vault => exact (chronicles_query _).bind fun _ => chronicles_send (by simp)

theorem chronicles_exchangeVaultSummary (deps : SessionDeps) :
    Within (Chronicles c) (exchangeVaultSummary k deps fun _ => return () :
      Async Node NodeEvent Failure (VaultId × Option RevisionId)) := by
  refine (chronicles_localVault _).bind fun vault => ?_
  dsimp only
  split
  · exact (chronicles_send (by simp)).bind fun _ => trivial
  refine (chronicles_advertise _).bind fun _ => (chronicles_expect _).bind fun summary => ?_
  split
  · split
    · split
      · trivial
      refine (SyncEngine.chronicles_adoptVault _ _ _).bind fun _ => ?_
      exact (chronicles_emit _).bind fun _ => trivial
    · split
      · trivial
      · trivial
  · trivial

theorem chronicles_exchangeHistory (vaultId : VaultId) :
    Within (Chronicles c) (exchangeHistory k vaultId :
      Async Node NodeEvent Failure (List HistorySummaryEntry)) := by
  refine (chronicles_query _).bind fun summary => (chronicles_send (by simp)).bind fun _ => ?_
  refine (chronicles_expect _).bind fun answer => ?_
  split
  · trivial
  · trivial

theorem chronicles_computeWants (vaultId : VaultId) (graph : RevisionGraph)
    (remoteHead : Option RevisionId) :
    Within (Chronicles c) (computeWants vaultId graph remoteHead :
      Async Node NodeEvent Failure (List RevisionId)) := by
  cases remoteHead with
  | none => trivial
  | some head => exact Within.bind (chronicles_query _) fun _ => Within.ofExcept _

theorem chronicles_classify (vaultId : VaultId) (graph : RevisionGraph)
    (remoteHead : Option RevisionId) :
    Within (Chronicles c) (classify vaultId graph remoteHead :
      Async Node NodeEvent Failure Divergence) := by
  refine (chronicles_query _).bind fun vault => ?_
  split
  · trivial
  · trivial
  · trivial
  · exact Within.bind (chronicles_query _) fun _ => trivial

theorem chronicles_sendChunks (deps : SessionDeps) (transferSeq : Nat) (bytes : Bytes)
    (indices : List Nat) :
    Within (Chronicles c) (sendChunks k deps transferSeq bytes indices :
      Async Node NodeEvent Failure Unit) := by
  induction indices with
  | nil => trivial
  | cons chunkIndex rest ih =>
    refine Within.bind ((chronicles_readSession _).bind fun buffered => ?_) fun _ => ?_
    · split
      · trivial
      · trivial
    refine (Within.ofExcept _).bind fun frame => ?_
    refine Within.bind (chronicles_onSession (fun _ _ h => h) ?_) fun _ => ih
    intro s output hmem header
    rw [List.mem_singleton.mp hmem]
    simp

theorem chronicles_takeAck :
    Within (Chronicles c) (takeAck k : Async Node NodeEvent Failure (Bool × Option String)) := by
  refine Within.bind (p := readSession k _) (chronicles_readSession _) fun ack => ?_
  refine Within.bind (p := update k _) (chronicles_update fun _ => rfl) fun _ => ?_
  split
  · trivial
  · trivial

/-- The header of a revision says what the revision does. -/
theorem chronicles_sendRevision (deps : SessionDeps) (transferSeq : Nat) {revision : Revision}
    (h : c.entry revision.id = some revision.content) (bytes : Bytes) (last : Bool) :
    Within (Chronicles c) (sendRevision k deps transferSeq revision bytes last :
      Async Node NodeEvent Failure Unit) := by
  refine (Within.ofExcept _).bind fun totalChunks => ?_
  refine (chronicles_header (headerFor revision transferSeq totalChunks) h).bind fun _ => ?_
  refine (chronicles_emit _).bind fun _ => ?_
  refine Within.bind (p := awaitAck k _) (chronicles_update fun _ => rfl) fun _ => ?_
  refine (chronicles_sendChunks _ _ _ _).bind fun _ => ?_
  refine Within.bind (p := update k _) (chronicles_update fun _ => rfl) fun _ => ?_
  refine chronicles_takeAck.bind ?_
  rintro ⟨accepted, reason⟩
  dsimp only
  split
  · exact chronicles_event fun _ => rfl
  · exact chronicles_emit _

theorem truthful_storeContract : StoreContract (truthful c) where
  idle _ _ := trivial
  quiet := fun f hf s hs _ =>
    ⟨trivial, (chronicles_changeStore (fun _ h => h.bookkeeping hf) s (by simp) hs).1⟩

/-- What is served is what is stored. -/
theorem faithful_serve (deps : SessionDeps) (revisionIds : List RevisionId) (transferSeq : Nat) :
    Faithful c (serve k deps revisionIds transferSeq) := by
  induction revisionIds generalizing transferSeq with
  | nil => exact faithful_of_chronicles (chronicles_update fun _ => rfl)
  | cons revisionId rest ih =>
    intro s hs
    refine Safe.bind (safe_query truthful_storeContract hs fun t _ ht => ?_)
    cases hget : s.store.tables.getRevision revisionId with
    | none =>
      exact ih transferSeq t ht
    | some revision =>
      have htold : c.entry revision.id = some revision.content := by
        rw [Tables.id_of_getRevision hget]
        exact hs.store.tables.told revisionId revision hget
      refine faithful_bind (faithful_of_chronicles (SyncEngine.chronicles_bytesOf _)) ?_ t ht
      intro bytes
      refine faithful_bind
        (faithful_of_chronicles (chronicles_sendRevision deps _ htold bytes _)) ?_
      exact fun _ => ih _

theorem faithful_exchangeRevisions (deps : SessionDeps) (theirWants : List RevisionId) :
    Faithful c (exchangeRevisions k deps theirWants) := by
  refine faithful_bind (p := startDrain k _)
    (faithful_of_chronicles (chronicles_update fun _ => rfl)) fun _ => ?_
  refine faithful_bind (faithful_serve _ _ _) fun _ => faithful_of_chronicles ?_
  trivial

theorem chronicles_awaitCompletion :
    Within (Chronicles c) (awaitCompletion k : Async Node NodeEvent Failure Unit) := by
  refine Within.bind (p := update k _) (chronicles_update fun _ => rfl) fun _ => ?_
  exact Within.bind (p := .await _ _) chronicles_takeOutcome fun _ => trivial

theorem chronicles_awaitInbound :
    Within (Chronicles c) (awaitInbound k : Async Node NodeEvent Failure Unit) :=
  (chronicles_readSession _).bind fun _ => trivial

theorem faithful_run (deps : SessionDeps) :
    Faithful c (run k deps fun _ => return ()) := by
  refine faithful_bind (faithful_of_chronicles (chronicles_handshake _)) fun remote => ?_
  refine faithful_bind (faithful_of_chronicles (chronicles_exchangeVaultSummary _)) ?_
  rintro ⟨vaultId, remoteHead⟩
  refine faithful_bind (faithful_of_chronicles (chronicles_exchangeHistory _)) fun summary => ?_
  refine faithful_bind (faithful_of_chronicles (Within.ofExcept _)) fun _ => ?_
  refine faithful_bind (faithful_of_chronicles (chronicles_computeWants _ _ _)) fun wanted => ?_
  refine faithful_bind (faithful_of_chronicles (chronicles_event fun _ => rfl)) fun _ => ?_
  refine faithful_bind (faithful_of_chronicles (chronicles_send (by simp))) fun _ => ?_
  refine faithful_bind (faithful_of_chronicles (chronicles_expect _)) fun answer => ?_
  split
  · refine faithful_bind (faithful_exchangeRevisions _ _) fun _ => faithful_of_chronicles ?_
    refine (chronicles_send (by simp)).bind fun _ => chronicles_awaitCompletion.bind fun _ => ?_
    refine chronicles_awaitInbound.bind fun _ => ?_
    cases remoteHead with
    | none =>
      refine (chronicles_readSession _).bind ?_
      rintro ⟨received, sent, missing⟩
      exact (chronicles_classify _ _ _).bind fun _ => trivial
    | some head =>
      refine (SyncEngine.chronicles_recordPeerHead _ _ _ _).bind fun _ => ?_
      refine (chronicles_readSession _).bind ?_
      rintro ⟨received, sent, missing⟩
      exact (chronicles_classify _ _ _).bind fun _ => trivial
  · exact faithful_of_chronicles trivial

theorem chronicles_ingestNext {deps : EngineDeps} (hsha : deps.sha256 = c.sha256) (now : Nat)
    {inbound : InboundHeader}
    (h : c.entry inbound.header.revisionId = some inbound.header.content) (bytes : Bytes) :
    Within (Chronicles c) (ingestNext k deps now inbound bytes :
      Async Node NodeEvent Failure Unit) := by
  have hreject : ∀ reason, Within (Chronicles c)
      (onSession k (·.reject inbound.header.revisionId reason) :
        Async Node NodeEvent Failure Unit) := fun reason =>
    chronicles_onSession (fun s _ h => (Session.programStep_reject _ reason s).headers ▸ h)
      fun s output hmem => (Session.answer_reject _ reason s output hmem).bare
  have haccept : Within (Chronicles c) (onSession k (·.accepted inbound.header.revisionId) :
      Async Node NodeEvent Failure Unit) :=
    chronicles_onSession (fun s _ h => (Session.programStep_accepted _ s).headers ▸ h)
      fun s output hmem => (Session.answer_accepted _ s output hmem).bare
  have hingest : Within (Chronicles c) (ingest k deps now inbound bytes :
      Async Node NodeEvent Failure Unit) := by
    refine (SyncEngine.chronicles_ingestReceivedRevision deps hsha now h).bind fun result => ?_
    split
    · exact hreject _
    · exact haccept
  refine Within.bind (p := update k _) ?_ fun _ => ?_
  · refine chronicles_onSession (fun s header hmem => ?_) (by simp)
    rcases List.mem_append.mp hmem with hmem | hmem
    · obtain ⟨entry, hentry, rfl⟩ := List.mem_map.mp hmem
      exact List.mem_append_left _ (List.mem_map_of_mem (List.mem_of_mem_tail hentry))
    · exact List.mem_append_right _ hmem
  · refine Within.bind (Within.attempt (hingest.attempt.bind fun outcome => ?_)) fun _ =>
      (chronicles_update fun _ => rfl)
    split
    · trivial
    · exact hreject _

end SyncSession

/-! ## Devices -/

namespace Node

theorem chronicles_deliver (k : Nat) (payload : Except Failure Message) :
    Within (Chronicles c) (deliver k payload) := by
  refine fun s => ⟨fun hadmits hs => ⟨hs.setSession fun header hmem => ?_, fun e hmem => ?_⟩,
    trivial⟩
  · have hheaders := headers_accept payload ⟨s.store, s.sessions k⟩
    rcases List.mem_append.mp (hheaders.subset hmem) with hmem | hmem
    · exact hs.headers k header hmem
    · obtain ⟨x, hx, hheader⟩ := List.mem_filterMap.mp hmem
      rw [List.mem_singleton.mp hx] at hheader
      dsimp only at hheader
      split at hheader
      · rename_i heq
        split at hheader
        · cases hheader
          cases heq
          exact (hadmits _ List.mem_cons_self).told header rfl
        · cases hheader
      · cases hheader
  · rcases List.mem_cons.mp hmem with rfl | hmem
    · intro header hsent
      cases hsent
    · obtain ⟨output, houtput, rfl⟩ := List.mem_map.mp hmem
      exact honest_output (Session.answer_accept payload _ _ houtput).bare

theorem faithful_connect (config : SessionDeps) : Faithful c (connect config) := by
  refine fun s hs _ => ⟨by simp, fun _ => ⟨trivial, ⟨hs.store, hs.headers⟩, ?_⟩⟩
  refine faithful_bind (faithful_attempt (SyncSession.faithful_run config)) (fun _ => ?_) _
    ⟨hs.store, hs.headers⟩
  exact faithful_of_chronicles trivial

theorem faithful_sessionSystem {deps : EngineDeps} (hsha : deps.sha256 = c.sha256) {k : Nat}
    {command : PeerCommand} {s : Node} {p : Async Node NodeEvent Failure Unit} (hs : s.KeepsTo c)
    (h : sessionSystem deps k command s = some p) : Faithful c p := by
  cases command with
  | control payload =>
    cases h
    exact faithful_of_chronicles (chronicles_deliver k payload)
  | bulk frame =>
    cases h
    refine faithful_of_chronicles (SyncSession.chronicles_onSession (fun s header hmem => ?_) ?_)
    · exact (Session.headers_frameSteps (Session.steps_acceptBulk frame s)).subset hmem
    · exact fun s output hmem => (Session.answer_acceptBulk frame s output hmem).bare
  | close =>
    cases h
    exact faithful_of_chronicles
      (SyncSession.chronicles_update fun s => (Session.programStep_onClose s).headers)
  | timeout =>
    rw [sessionSystem] at h
    split at h
    · cases h
      exact faithful_of_chronicles
        (SyncSession.chronicles_update fun s => (Session.programStep_timeout s).headers)
    · cases h
  | buffered | closeBulk =>
    cases h
    exact faithful_of_chronicles (SyncSession.chronicles_update fun _ => rfl)
  | ingestNext now =>
    rw [sessionSystem] at h
    split at h
    · cases h
    · obtain ⟨⟨inbound, bytes⟩, hhead, rfl⟩ := Option.map_eq_some_iff.mp h
      refine faithful_of_chronicles (SyncSession.chronicles_ingestNext hsha now ?_ bytes)
      have hmem := List.mem_of_mem_head? (Option.mem_def.mpr hhead)
      exact hs.headers k _ (List.mem_append_left _ (List.mem_map.mpr ⟨_, hmem, rfl⟩))

end Node

theorem keeps_truthful {deps : EngineDeps} (hsha : deps.sha256 = c.sha256) :
    Keeps (fun _ => truthful c) 0 (nodeSystem deps) where
  refl _ _ := trivial
  trans _ _ _ _ _ _ := trivial
  guar _ _ _ _ _ _ _ := trivial
  given _ _ _ := trivial
  inv _ _ _ h := h
  cond _ _ _ _ h := h
  prop _ _ _ _ h := h
  start := by
    intro _ _ command s p hs h
    refine (?_ : Faithful c p) s hs
    cases command with
    | engine operation =>
      rw [nodeSystem] at h
      split at h
      · rename_i hlocal
        cases h
        exact faithful_of_chronicles (SyncEngine.chronicles_call deps hsha hlocal)
      · cases h
    | connect config =>
      cases h
      exact Node.faithful_connect config
    | session k command =>
      rw [nodeSystem] at h
      split at h
      · exact Node.faithful_sessionSystem hsha hs h
      · cases h

/-! ## The household -/

section Household

variable {ι : Type} {log : List (ι × NodeEvent)}

theorem cooperates_truthful {deps : ι → EngineDeps} (hsha : ∀ i, (deps i).sha256 = c.sha256) :
    Cooperates (fun _ => truthful c) (fun i => nodeSystem (deps i)) Node.restart Heard
      (fun _ e => c.Honest e)
      fun _ e => ∀ revision ∈ e.created, c.entry revision.id = some revision.content where
  keeps i := keeps_truthful (hsha i)
  restart _ s hs := ⟨hs.store.reopen, fun _ _ hmem => by cases hmem⟩
  hears := by
    intro i s e log hgood hheard hcreated
    refine ⟨hcreated, fun header htold => ?_⟩
    obtain ⟨x, hmem, hsent⟩ := hheard header htold
    exact hgood x hmem header hsent
  tells _ _ _ h := h

/-- What the revisions that the devices made say. -/
def chronicleOf (sha256 : Bytes → Sha256Hex) (log : List (ι × NodeEvent)) : Chronicle where
  sha256 := sha256
  entry id := ((createdRevisions log).find? (·.id = id)).map Revision.content

variable {sha256 : Bytes → Sha256Hex}

theorem entry_created (hunique : ((createdRevisions log).map (·.id)).Nodup)
    {revision : Revision} (h : revision ∈ createdRevisions log) :
    (chronicleOf sha256 log).entry revision.id = some revision.content := by
  cases hfind : (createdRevisions log).find? (·.id = revision.id) with
  | none =>
    have hnone := List.find?_eq_none.mp hfind revision h
    simp at hnone
  | some found =>
    have hid : found.id = revision.id := by simpa using List.find?_some hfind
    have heq := List.inj_on_of_nodup_map hunique (List.mem_of_find?_eq_some hfind) h hid
    have hentry : (chronicleOf sha256 log).entry revision.id = some found.content :=
      congrArg (Option.map Revision.content) hfind
    rw [hentry, heq]

variable [DecidableEq ι] {deps : ι → EngineDeps} {n : ι → Pool Node NodeEvent Failure}

/-- Every device keeps to what was made. -/
theorem keepsTo_household (hsha : ∀ i, (deps i).sha256 = sha256) (h : Household deps n log)
    (hunique : ((createdRevisions log).map (·.id)).Nodup) (i : ι) :
    (n i).state.store.KeepsTo (chronicleOf sha256 log) := by
  have hnew : Node.new.KeepsTo (chronicleOf sha256 log) :=
    ⟨Store.keepsTo_empty, fun _ _ hmem => by cases hmem⟩
  have hsound := Parties.sound (cooperates_truthful hsha) (fun _ => Pool.sound_idle hnew) h
    fun x hx revision hcreated =>
      entry_created hunique (List.mem_filterMap.mpr ⟨x, hx, hcreated⟩)
  exact ((hsound.1 i).inv 0).store

namespace Tables.KeepsTo

variable {t t' : Tables}

theorem parent (h : t.KeepsTo c) (h' : t'.KeepsTo c) {x p : RevisionId}
    (hx : t'.hasRevision x = true) (hp : t.StoredParent x p) : t'.StoredParent x p := by
  obtain ⟨-, content, hcontent, hmem⟩ := h.edges x p hp
  obtain ⟨row, hrow⟩ := Table.has_iff.mp hx
  have htold := h'.told x _ (Tables.getRevision_eq_some.mpr ⟨row, hrow, rfl⟩)
  cases hcontent.symm.trans htold
  exact Tables.mem_parentsOf.mp hmem

/-- Where a revision is stored, so is all that it descends from. -/
theorem ancestor (h : t.KeepsTo c) (h' : t'.KeepsTo c) {x a : RevisionId}
    (hx : t'.hasRevision x = true) (ha : TransGen t.StoredParent x a) :
    TransGen t'.StoredParent x a := by
  induction ha using TransGen.head_induction_on with
  | single hp => exact .single (h.parent h' hx hp)
  | head hp _ ih =>
    have hp' := h.parent h' hx hp
    exact .head hp' (ih (h'.edges _ _ hp').1)

end Tables.KeepsTo

end Household

/-! The desk imports a vault, and the phone is sent its revision. -/

/-- A move of the first session of a device, of which `task` is the program. -/
def onNode (task : Nat) : Move PeerCommand → Move NodeCommand
  | .start command => .start (.session 0 command)
  | .resume i => .resume (task + i)

def deskServes : List (Move NodeCommand) :=
  .start (.engine (.importVault ⟨"home"⟩ ⟨⟨"h1"⟩, 1⟩ "home.kdbx" [1] none)) ::
    List.replicate 7 (.resume 0) ++
    .start (.connect homeConfig) :: (phoneWants ⟨"h1"⟩).tail.map (onNode 1)

open SessionEnd in
def phoneStores : List (Move NodeCommand) :=
  let told message := Move.start (PeerCommand.control (.ok message))
  .start (.connect deskConfig) ::
    List.map (onNode 0)
      [told (.hello protocolVersion ⟨"desk"⟩ "desk" "AA==" "AA=="), .resume 0, .resume 0,
        told (.auth "AA=="), .resume 0, .resume 0,
        told (.vaultSummary ⟨"home"⟩ "home.kdbx" (some ⟨"h1"⟩) 1), .resume 0, .resume 0, .resume 0,
        .resume 0, told (.historySummary ⟨"home"⟩ [⟨⟨"h1"⟩, ⟨"\x01"⟩, 1, []⟩]), .resume 0,
        .resume 0, told (.wantRevisions ⟨"home"⟩ []), .resume 0, told (.revisionHeader homeHeader),
        .start (.bulk (uint32Bytes 1 ++ uint32Bytes 0 ++ [1])), .start (.ingestNext 9), .resume 8,
        .resume 8, .resume 8]

end PassVault
