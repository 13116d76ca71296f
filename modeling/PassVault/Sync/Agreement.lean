import Mathlib.Data.Set.Function
import PassVault.Identity.Authenticator
import PassVault.Lib.Runs
import PassVault.Sync.Callbacks
import PassVault.Sync.SessionEnd

/-!
# Who has proven what to whom

Each session signs one challenge, the one it is asked for in the first hello, and accepts one peer,
for a signature that was delivered to it. Over a network that only cannot forge signatures, every
acceptance of an honest device goes back to a session of that device.
-/

namespace PassVault

open Async

def signatureOf : PeerEvent → Option String
  | .output (.control (.auth signature)) => some signature
  | _ => none

def acceptedOf : PeerEvent → Option DeviceId
  | .output (.event (.authenticated deviceId)) => some deviceId
  | _ => none

/-- A signature answers a hello, and a peer is accepted for a signature. -/
def ProofReason (auth : PeerAuthenticator) (event : PeerEvent) (before : List PeerEvent) : Prop :=
  (∀ text, signatureOf event = some text → ∃ challenger name key nonceText nonce,
    .delivered (.ok (.hello protocolVersion challenger name key nonceText)) ∈ before ∧
      decodeBase64 nonceText = some nonce ∧
      text = encodeBase64 (auth.signChallenge nonce challenger auth.deviceId)) ∧
  ∀ deviceId, acceptedOf event = some deviceId → ∃ text signature key name shown,
    .delivered (.ok (.auth text)) ∈ before ∧ decodeBase64 text = some signature ∧
      auth.verifyPeer deviceId key auth.nonce signature name = .ok shown

theorem not_proves_iff {event : PeerEvent} :
    ¬ Proves event ↔ signatureOf event = none ∧ acceptedOf event = none := by
  constructor
  · intro h
    refine ⟨?_, ?_⟩
    · unfold signatureOf
      split
      · exact (h (.auth _)).elim
      · rfl
    · unfold acceptedOf
      split
      · exact (h (.authenticated _)).elim
      · rfl
  · rintro ⟨hsignature, haccepted⟩ hproves
    cases hproves with
    | auth => cases hsignature
    | authenticated => cases haccepted

theorem proofReason_of_quiet {auth : PeerAuthenticator} {event : PeerEvent}
    {before : List PeerEvent} (h : ¬ Proves event) : ProofReason auth event before := by
  obtain ⟨hsignature, haccepted⟩ := not_proves_iff.mp h
  exact ⟨fun _ h => (by rw [hsignature] at h; cases h), fun _ h => (by rw [haccepted] at h; cases h)⟩

theorem ProofReason.mono {auth : PeerAuthenticator} (event : PeerEvent)
    (before later : List PeerEvent) (h : ProofReason auth event before) :
    ProofReason auth event (before ++ later) := by
  refine ⟨fun text htext => ?_, fun deviceId hid => ?_⟩
  · obtain ⟨challenger, name, key, nonceText, nonce, hmem, hrest⟩ := h.1 text htext
    exact ⟨challenger, name, key, nonceText, nonce, List.mem_append_left _ hmem, hrest⟩
  · obtain ⟨text, signature, key, name, shown, hmem, hrest⟩ := h.2 deviceId hid
    exact ⟨text, signature, key, name, shown, List.mem_append_left _ hmem, hrest⟩

/-! ## One session -/

/-- Where a program of the pool is: `run` before it has heard the hello, before and after it has
answered it, once it has heard the answer to its own, and once the peer is accepted; or another
program. -/
inductive ProofStage where
  | greeting
  | asked (hello : Message)
  | answered
  | judging (answer : Message)
  | judged
  | other

def ProofStage.hasSigned : ProofStage → Prop
  | answered | judging _ | judged => True
  | _ => False

/-- The message that the program is about to act on. -/
def ProofStage.message : ProofStage → Option Message
  | asked message | judging message => some message
  | _ => none

/-- One challenge is signed, and one peer is accepted. -/
inductive Proving (auth : PeerAuthenticator) :
    ProofStage → Peer → List PeerEvent → Peer → ProofStage → Prop where
  | quiet {g : ProofStage} {s t : Peer} {events : List PeerEvent}
      (hheard : ∀ message, t.session.Hears message →
        message.type = .syncComplete ∨ s.session.Hears message)
      (hquiet : ∀ e ∈ events, ¬ Proves e) : Proving auth g s events t g
  | control {s : Peer} (payload : Except Failure Message) :
    Proving auth .other s (.delivered payload :: (s.session.accept payload).2.map .output)
      { s with session := (s.session.accept payload).1 } .other
  | asked {s : Peer} {message : Message} (h : s.session.waiting = .settled (.ok message)) :
    Proving auth .greeting s [] s (.asked message)
  | answers {s : Peer} {challenger : DeviceId} {name key nonceText : String} {nonce : Bytes}
      (hnonce : decodeBase64 nonceText = some nonce) :
    Proving auth (.asked (.hello protocolVersion challenger name key nonceText)) s
      [.output (.control (.auth (encodeBase64
        (auth.signChallenge nonce challenger auth.deviceId))))] s .answered
  | heard {s : Peer} {message : Message} (h : s.session.waiting = .settled (.ok message)) :
    Proving auth .answered s [] s (.judging message)
  | accepts {s : Peer} {deviceId : DeviceId} {text name shown : String} {signature key : Bytes}
      (htext : decodeBase64 text = some signature)
      (hverify : auth.verifyPeer deviceId key auth.nonce signature name = .ok shown) :
    Proving auth (.judging (.auth text)) s [.output (.event (.authenticated deviceId))] s .judged

/-- What holds between the stages, the session and what was recorded of it. -/
structure Proven (auth : PeerAuthenticator) (stages : List ProofStage) (s : Peer)
    (log : List PeerEvent) : Prop where
  others : ∀ g ∈ stages.tail, g = .other
  heard : ∀ message, s.session.Hears message →
    message.type = .syncComplete ∨ .delivered (.ok message) ∈ log
  acting : ∀ g ∈ stages, ∀ message, g.message = some message →
    message.type = .syncComplete ∨ .delivered (.ok message) ∈ log
  signatures : (log.filterMap signatureOf).length ≤ 1
  unsigned : (∀ g ∈ stages, ¬ g.hasSigned) → log.filterMap signatureOf = []
  acceptances : (log.filterMap acceptedOf).length ≤ 1
  unjudged : .judged ∉ stages → log.filterMap acceptedOf = []
  reasons : Justified (ProofReason auth) log

section Proven

variable {auth : PeerAuthenticator} {stages : List ProofStage} {s t : Peer}
  {log events : List PeerEvent}

/-- Steps that neither sign nor accept. -/
theorem Proven.quiet (h : Proven auth stages s log) {stages' : List ProofStage}
    (hothers : ∀ g ∈ stages'.tail, g = .other)
    (hheard : ∀ message, t.session.Hears message → message.type = .syncComplete ∨
      s.session.Hears message ∨ .delivered (.ok message) ∈ events)
    (hacting : ∀ g ∈ stages', ∀ message, g.message = some message →
      message.type = .syncComplete ∨ .delivered (.ok message) ∈ log)
    (hsigned : (∀ g ∈ stages', ¬ g.hasSigned) → ∀ g ∈ stages, ¬ g.hasSigned)
    (hjudged : .judged ∉ stages' → .judged ∉ stages)
    (hquiet : ∀ e ∈ events, ¬ Proves e) : Proven auth stages' t (log ++ events) := by
  have hsignatures : (log ++ events).filterMap signatureOf = log.filterMap signatureOf := by
    have hnone : events.filterMap signatureOf = [] :=
      List.filterMap_eq_nil_iff.mpr fun e he => (not_proves_iff.mp (hquiet e he)).1
    rw [List.filterMap_append, hnone, List.append_nil]
  have hacceptances : (log ++ events).filterMap acceptedOf = log.filterMap acceptedOf := by
    have hnone : events.filterMap acceptedOf = [] :=
      List.filterMap_eq_nil_iff.mpr fun e he => (not_proves_iff.mp (hquiet e he)).2
    rw [List.filterMap_append, hnone, List.append_nil]
  refine ⟨hothers, fun message hmessage => ?_, fun g hg message hmessage => ?_,
    hsignatures ▸ h.signatures, fun hnone => hsignatures ▸ h.unsigned (hsigned hnone),
    hacceptances ▸ h.acceptances, fun hnone => hacceptances ▸ h.unjudged (hjudged hnone),
    h.reasons.append ProofReason.mono fun e he => proofReason_of_quiet (hquiet e he)⟩
  · rcases hheard message hmessage with hcomplete | hold | hnew
    · exact .inl hcomplete
    · exact (h.heard message hold).imp id (List.mem_append_left _)
    · exact .inr (List.mem_append_right _ hnew)
  · exact (hacting g hg message hmessage).imp id (List.mem_append_left _)

theorem Proven.step {i : Nat} {g g' : ProofStage} (hi : stages[i]? = some g)
    (h : Proven auth stages s log) (hstep : Proving auth g s events t g') :
    Proven auth (stages.set i g') t (log ++ events) := by
  have hsame : stages.set i g = stages := by
    obtain ⟨hlt, hget⟩ := List.getElem?_eq_some_iff.mp hi
    rw [← hget, List.set_getElem_self]
  have hmem := List.mem_of_getElem? hi
  have hold : ∀ g ∈ stages.tail, ∀ message, g.message = some message →
      message.type = .syncComplete ∨ .delivered (.ok message) ∈ log :=
    fun g hg => h.acting g (List.mem_of_mem_tail hg)
  cases hstep with
  | quiet hheard hquiet =>
    rw [hsame]
    exact h.quiet h.others (fun message ht => (hheard message ht).imp id .inl) h.acting id id hquiet
  | control payload =>
    rw [hsame]
    refine h.quiet h.others (fun message ht => ?_) h.acting id id fun e he => ?_
    · refine (Session.hears_accept ht).imp id (Or.imp id fun hpayload => ?_)
      rw [hpayload]
      exact List.mem_cons_self
    · rcases List.mem_cons.mp he with rfl | he
      · rintro ⟨⟩
      · obtain ⟨output, houtput, rfl⟩ := List.mem_map.mp he
        exact (Session.answer_accept payload s.session output houtput).not_proves
  | asked hwaiting | heard hwaiting =>
    obtain ⟨rfl, rest, rfl⟩ := head_of_tail h.others hi (by simp)
    rw [List.set_cons_zero]
    refine h.quiet h.others (fun message ht => .inr (.inl ht)) (fun g hg message hmessage => ?_)
      (by simp [ProofStage.hasSigned]) (by simp) (by simp)
    rcases List.mem_cons.mp hg with rfl | hg
    · cases hmessage
      exact h.heard _ (.inr hwaiting)
    · exact hold g hg message hmessage
  | @answers _ challenger name key nonceText nonce hnonce =>
    obtain ⟨rfl, rest, rfl⟩ := head_of_tail h.others hi (by simp)
    have hnone : log.filterMap signatureOf = [] := h.unsigned fun g hg => by
      rcases List.mem_cons.mp hg with rfl | hg
      · exact id
      · rw [h.others g hg]
        exact id
    have hasked := (h.acting _ hmem _ rfl).resolve_left (by simp [Message.type])
    rw [List.set_cons_zero]
    refine ⟨h.others, fun message hmessage => (h.heard message hmessage).imp id
      (List.mem_append_left _), fun g hg message hmessage => ?_, ?_, fun hall => ?_, ?_,
      fun hjudged => ?_, h.reasons.append ProofReason.mono fun e he => ?_⟩
    · rcases List.mem_cons.mp hg with rfl | hg
      · cases hmessage
      · exact (hold g hg message hmessage).imp id (List.mem_append_left _)
    · rw [List.filterMap_append, hnone]
      exact Nat.le_refl 1
    · exact (hall _ List.mem_cons_self trivial).elim
    · rw [List.filterMap_append]
      exact (List.append_nil _).symm ▸ h.acceptances
    · rw [List.filterMap_append, h.unjudged (by simpa using hjudged)]
      rfl
    · rw [List.mem_singleton.mp he]
      refine ⟨fun text htext => ?_, fun deviceId hid => by cases hid⟩
      cases htext
      exact ⟨challenger, name, key, nonceText, nonce, hasked, hnonce, rfl⟩
  | @accepts _ deviceId text name shown signature key htext hverify =>
    obtain ⟨rfl, rest, rfl⟩ := head_of_tail h.others hi (by simp)
    have hnone : log.filterMap acceptedOf = [] := h.unjudged fun hg => by
      rcases List.mem_cons.mp hg with hg | hg
      · cases hg
      · cases h.others _ hg
    have hheard := (h.acting _ hmem _ rfl).resolve_left (by simp [Message.type])
    rw [List.set_cons_zero]
    refine ⟨h.others, fun message hmessage => (h.heard message hmessage).imp id
      (List.mem_append_left _), fun g hg message hmessage => ?_, ?_, fun hall => ?_, ?_,
      fun hjudged => ?_, h.reasons.append ProofReason.mono fun e he => ?_⟩
    · rcases List.mem_cons.mp hg with rfl | hg
      · cases hmessage
      · exact (hold g hg message hmessage).imp id (List.mem_append_left _)
    · rw [List.filterMap_append]
      exact (List.append_nil _).symm ▸ h.signatures
    · exact (hall _ List.mem_cons_self trivial).elim
    · rw [List.filterMap_append, hnone]
      exact Nat.le_refl 1
    · exact (hjudged List.mem_cons_self).elim
    · rw [List.mem_singleton.mp he]
      refine ⟨fun text htext => (by cases htext), fun deviceId hid => ?_⟩
      cases hid
      exact ⟨text, signature, key, name, shown, hheard, htext, hverify⟩

/-- Another program is started. -/
theorem Proven.start (h : Proven auth stages s log) (hne : stages ≠ []) :
    Proven auth (stages ++ [.other]) s log := by
  refine ⟨fun g hg => ?_, h.heard, fun g hg message hmessage => ?_, h.signatures, fun hnone => ?_,
    h.acceptances, fun hnone => h.unjudged fun hmem => hnone (List.mem_append_left _ hmem),
    h.reasons⟩
  · rw [List.tail_append_of_ne_nil hne] at hg
    exact (List.mem_append.mp hg).elim (h.others g) List.mem_singleton.mp
  · rcases List.mem_append.mp hg with hg | hg
    · exact h.acting g hg message hmessage
    · rw [List.mem_singleton.mp hg] at hmessage
      cases hmessage
  · exact h.unsigned fun g hg => hnone g (List.mem_append_left _ hg)

end Proven

section Programs

variable {auth : PeerAuthenticator} {g : ProofStage} {s : Peer} {α : Type}

theorem Proving.program {t : Peer} {events : List PeerEvent} (h : ProgramAccess s events t) :
    Proving auth g s events t g :=
  .quiet (fun _ => h.step.hears) h.quiet

theorem proving_program {p : Async Peer PeerEvent Failure α} (hp : Within ProgramAccess p) :
    Follows (Proving auth) (fun g' _ _ => g' = g) (fun _ _ => True) p g s :=
  hp.follows (fun _ _ _ => .program) (fun _ _ => rfl) fun _ => trivial

/-- What is expected arrives, and is what the program goes on with. -/
theorem proving_expect {type : MessageType} {hear : Message → ProofStage}
    (hhear : ∀ (s : Peer) message, s.session.waiting = .settled (.ok message) →
      Proving auth g s [] s (hear message)) :
    Follows (Proving auth) (fun g' _ message => g' = hear message) (fun _ _ => True)
      (SyncSession.expect 0 type) g s := by
  refine Follows.bind ?_ (proving_program (SyncSession.within_update (Session.programStep_expect type)))
  rintro g _ _ rfl t _
  have hread : Follows (Proving auth) (fun g' _ (waiting : Waiting) =>
      ∀ message, waiting = .settled (.ok message) → g' = hear message) (fun _ _ => True)
      (SyncSession.readSession 0 (·.waiting)) g t := by
    by_cases hsettled : ∃ message, t.session.waiting = .settled (.ok message)
    · obtain ⟨message, hwaiting⟩ := hsettled
      refine ⟨hear message, hhear t message hwaiting, fun other hother => ?_⟩
      cases hwaiting.symm.trans hother
      rfl
    · exact ⟨g, .quiet (fun _ => .inr) (by simp), fun message hother => (hsettled ⟨message, hother⟩).elim⟩
  refine Follows.bind ?_ hread
  intro g' t waiting hwaiting
  refine Follows.bind ?_ (proving_program (SyncSession.within_update Session.programStep_idle))
  rintro _ u _ rfl
  split
  · rename_i outcome
    exact Follows.ofExcept (fun message hok => hwaiting message (hok ▸ rfl)) fun _ _ => trivial
  · trivial

theorem proving_fromBase64 {text reason : String} :
    Follows (Proving auth) (fun g' _ bytes => g' = g ∧ decodeBase64 text = some bytes)
      (fun _ _ => True) (SyncSession.fromBase64 text reason) g s := by
  unfold SyncSession.fromBase64
  split
  · rename_i bytes hbytes
    exact ⟨rfl, hbytes⟩
  · trivial

open SyncSession in
theorem proving_handshake :
    Follows (Proving auth) (fun _ _ _ => True) (fun _ _ => True) (handshake 0 auth) .greeting s := by
  refine Follows.bind ?_ (proving_program (within_send (by rintro ⟨⟩)))
  rintro _ s _ rfl
  refine Follows.bind ?_ (proving_expect fun _ _ => .asked)
  rintro _ s hello rfl
  split
  · rename_i version challenger name keyText nonceText
    dsimp only
    split
    · refine Follows.bind ?_ (proving_program (within_send (by rintro ⟨⟩)))
      exact fun _ _ _ _ => trivial
    rename_i hversion
    obtain rfl := not_not.mp hversion
    refine Follows.bind ?_ proving_fromBase64
    rintro _ s key ⟨rfl, -⟩
    refine Follows.bind ?_ proving_fromBase64
    rintro _ s nonce ⟨rfl, hnonce⟩
    intro s _
    refine ⟨.answered, .answers hnonce, ?_⟩
    refine Follows.bind (p := expect 0 .auth) ?_ (proving_expect fun _ _ => .heard)
    rintro _ s answer rfl
    split
    · rename_i text
      refine Follows.bind ?_ proving_fromBase64
      rintro _ s signature ⟨rfl, htext⟩
      intro s _
      split
      · refine Follows.bind (p := send 0 _) ?_ (proving_program (within_send (by rintro ⟨⟩)))
        exact fun _ _ _ _ => trivial
      · rename_i shown hverify
        refine ⟨.judging (.auth text), .quiet (fun _ => .inr) (by simp), ?_⟩
        refine Follows.bind (p := emit 0 _) ?_ (proving_program (within_emit (by rintro ⟨⟩)))
        rintro _ s _ rfl
        exact ⟨.judged, .accepts htext hverify, trivial⟩
    · trivial
  · trivial

theorem parks_proving (config : SessionDeps) :
    Parks (Proving config.auth) (runToEnd config) .greeting := by
  intro s
  have hrun : Follows (Proving config.auth) (fun _ _ _ => True) (fun _ _ => True)
      (SyncSession.run 0 config fun _ => return ()) .greeting s := by
    rw [SyncSession.run_eq]
    refine Follows.bind ?_ proving_handshake
    intro g s remote _
    exact (SyncSession.within_exchange config remote).follows (fun _ _ _ => .program)
      (fun _ _ => trivial) fun _ => trivial
  have hattempt : Follows (Proving config.auth) (fun _ _ _ => True) (fun _ _ => True)
      (SyncSession.run 0 config fun _ => return ()).attempt .greeting s :=
    hrun.attempt (fun _ _ _ _ => trivial) fun _ _ _ _ => trivial
  refine Follows.bind ?_ hattempt
  exact fun g s _ _ => ⟨g, .quiet (fun _ => .inr) (by simp), trivial⟩

/-- No other program signs or accepts. -/
theorem proving_peerSystem {deps : EngineDeps} {command : PeerCommand}
    {p : Async Peer PeerEvent Failure Unit} (h : peerSystem deps command s = some p) :
    Follows (Proving auth) (fun _ _ _ => True) (fun _ _ => True) p .other s := by
  have hprogram : ∀ {p : Async Peer PeerEvent Failure Unit}, Within ProgramAccess p →
      Follows (Proving auth) (fun _ _ _ => True) (fun _ _ => True) p .other s :=
    fun hp => hp.follows (fun _ _ _ => .program) (fun _ _ => trivial) fun _ => trivial
  cases command with
  | control payload =>
    cases h
    exact ⟨.other, .control payload, trivial⟩
  | bulk frame =>
    cases h
    refine ⟨.other, .quiet (Session.hears_frameSteps (Session.steps_acceptBulk frame _))
      fun e he => ?_, trivial⟩
    rcases List.mem_cons.mp he with rfl | he
    · rintro ⟨⟩
    · obtain ⟨output, houtput, rfl⟩ := List.mem_map.mp he
      exact (Session.answer_acceptBulk frame s.session output houtput).not_proves
  | close =>
    cases h
    refine ⟨.other, .quiet (fun _ => (Session.programStep_onClose s.session).hears)
      fun e he => ?_, trivial⟩
    rw [List.mem_singleton.mp he]
    rintro ⟨⟩
  | timeout =>
    rw [peerSystem] at h
    split at h
    · cases h
      exact hprogram (SyncSession.within_update Session.programStep_timeout)
    · cases h
  | buffered | closeBulk =>
    cases h
    exact hprogram (SyncSession.within_note fun _ => ⟨rfl, rfl, rfl, rfl, rfl, rfl, rfl, rfl⟩)
  | ingestNext now =>
    rw [peerSystem] at h
    split at h
    · cases h
    · obtain ⟨⟨inbound, bytes⟩, -, rfl⟩ := Option.map_eq_some_iff.mp h
      refine (SyncSession.within_ingestNext deps now inbound bytes).follows
        (fun s events t haccess => ?_) (fun _ _ => trivial) fun _ => trivial
      cases haccess with
      | program hmove hquiet => exact .quiet (fun _ => hmove.hears) hquiet
      | take => exact .quiet (fun _ => .inr) (by simp)
      | accepted revisionId =>
        refine .quiet (fun _ => (Session.programStep_accepted revisionId s.session).hears)
          fun e he => ?_
        obtain ⟨output, houtput, rfl⟩ := List.mem_map.mp he
        exact (Session.answer_accepted revisionId s.session output houtput).not_proves

end Programs

/-! ## A network of sessions -/

/-- A session of an honest device; the other sessions of the device share its key pair. -/
structure HonestSession (crypto : Crypto) where
  options : AuthenticatorOptions crypto
  nonce : Bytes
  engine : EngineDeps
  vaultId : Option VaultId
  chunkBytes : Nat
  highWaterBytes : Nat
  now : Nat

section Network

variable {crypto : Crypto} {ι : Type} [DecidableEq ι]

def HonestSession.keyPair (session : HonestSession crypto) : DeviceKeyPair crypto :=
  session.options.keyPair

def HonestSession.auth (session : HonestSession crypto) : PeerAuthenticator :=
  createAuthenticator session.options session.nonce

def HonestSession.deps (session : HonestSession crypto) : SessionDeps where
  vaultId := session.vaultId
  auth := session.auth
  chunkBytes := session.chunkBytes
  highWaterBytes := session.highWaterBytes
  now := session.now

abbrev Network (ι : Type) := ι → Pool Peer PeerEvent Failure

/-- One session moves, on what the network delivers to it or on its own; or something else on its
device changes the store. -/
inductive NetworkMove (ι : Type) where
  | session (k : ι) (move : Move PeerCommand)
  | store (k : ι) (store : Store)

def Network.step (sessions : ι → HonestSession crypto) (w : Network ι) :
    NetworkMove ι → Option (Network ι × List (ι × PeerEvent))
  | .session k move =>
    ((w k).step (peerSystem (sessions k).engine) move).map fun (v, trace) =>
      (Function.update w k v, trace.map fun x => (k, x.2))
  | .store k store =>
    some (Function.update w k { w k with state := { (w k).state with store } }, [])

def Network.record (sessions : ι → HonestSession crypto) :
    List (NetworkMove ι) → Network ι → Option (Network ι × List (ι × PeerEvent))
  | [], w => some (w, [])
  | move :: rest, w =>
    (w.step sessions move).bind fun (w', trace) =>
      (Network.record sessions rest w').map fun (w'', later) => (w'', trace ++ later)

/-- What was recorded of one session. -/
def eventsOf (k : ι) (log : List (ι × PeerEvent)) : List PeerEvent :=
  log.filterMap fun x => if x.1 = k then some x.2 else none

/-- Whatever signature is delivered, what it verifies for under the key was signed before in a
session of the device that holds the key. -/
def Unforgeable (sessions : ι → HonestSession crypto) (keyPair : DeviceKeyPair crypto) :
    List (ι × PeerEvent) → Prop :=
  Justified fun (_, event) before => ∀ text signature message,
    event = .delivered (.ok (.auth text)) → decodeBase64 text = some signature →
    crypto.verify keyPair.publicKey message signature = true →
    ∃ k, (sessions k).keyPair = keyPair ∧ (k, .output (.control (.auth
      (encodeBase64 (crypto.sign keyPair.privateKey message))))) ∈ before

/-- The session was asked to prove itself to the challenger with the nonce, and has. -/
def Signs (sessions : ι → HonestSession crypto) (log : List (ι × PeerEvent)) (k : ι)
    (challenger : DeviceId) (nonce : Bytes) : Prop :=
  (∃ name key nonceText,
    (k, .delivered (.ok (.hello protocolVersion challenger name key nonceText))) ∈ log ∧
      decodeBase64 nonceText = some nonce) ∧
  (k, .output (.control (.auth (encodeBase64 (crypto.sign (sessions k).keyPair.privateKey
    (authChallengeBytes nonce challenger (sessions k).keyPair.deviceId)))))) ∈ log

theorem mem_eventsOf {k : ι} {log : List (ι × PeerEvent)} {event : PeerEvent} :
    event ∈ eventsOf k log ↔ (k, event) ∈ log := by
  simp [eventsOf]

theorem eventsOf_append (k : ι) (log later : List (ι × PeerEvent)) :
    eventsOf k (log ++ later) = eventsOf k log ++ eventsOf k later := List.filterMap_append

theorem eventsOf_cons_self (k : ι) (event : PeerEvent) (log : List (ι × PeerEvent)) :
    eventsOf k ((k, event) :: log) = event :: eventsOf k log := by
  simp [eventsOf]

theorem eventsOf_trace (k k' : ι) (trace : List (Peer × PeerEvent)) :
    eventsOf k (trace.map fun x => (k', x.2)) = if k' = k then trace.map (·.2) else [] := by
  split
  · rename_i h
    simp [eventsOf, h, List.filterMap_map]
  · rename_i h
    simp [eventsOf, h, List.filterMap_map]

variable {sessions : ι → HonestSession crypto} {w w' : Network ι} {log : List (ι × PeerEvent)}

/-- Each session keeps to its own programs. -/
def Network.Follows (sessions : ι → HonestSession crypto) (w : Network ι)
    (log : List (ι × PeerEvent)) : Prop :=
  ∀ k, ∃ stages own, (w k).Follows (Proving (sessions k).auth)
    (fun stages s log => Proven (sessions k).auth stages s (log.map (·.2)) ∧ stages ≠ []) stages own ∧
    own.map (·.2) = eventsOf k log

theorem Network.Follows.step {move : NetworkMove ι} {trace : List (ι × PeerEvent)}
    (h : Network.Follows sessions w log) (hstep : w.step sessions move = some (w', trace)) :
    Network.Follows sessions w' (log ++ trace) := by
  intro k
  obtain ⟨stages, own, hfollows, hown⟩ := h k
  rw [eventsOf_append]
  cases move with
  | session k' move =>
    obtain ⟨⟨v, trace⟩, hmove, heq⟩ := Option.map_eq_some_iff.mp hstep
    cases heq
    rw [eventsOf_trace]
    by_cases hk : k' = k
    · subst hk
      obtain ⟨stages', hv⟩ := hfollows.step
        (fun stages i g s log events t g' hi hs hstep => by
          refine ⟨?_, by simpa using hs.2⟩
          rw [List.map_append, List.map_map]
          simpa [Function.comp_def] using hs.1.step hi hstep)
        (fun stages command s log p hs hp =>
          ⟨.other, ⟨hs.1.start hs.2, by simp⟩, proving_peerSystem hp⟩) hmove
      refine ⟨stages', own ++ trace, by simpa using hv, ?_⟩
      rw [List.map_append, hown, if_pos rfl]
    · refine ⟨stages, own, ?_, by rw [if_neg hk, List.append_nil, hown]⟩
      rwa [Function.update_of_ne (Ne.symm hk)]
  | store k' store =>
    cases hstep
    refine ⟨stages, own, ?_, by rw [hown]; exact (List.append_nil _).symm⟩
    by_cases hk : k' = k
    · subst hk
      obtain ⟨⟨hproven, hne⟩, hlength, htasks⟩ := hfollows
      rw [Function.update_self]
      exact ⟨⟨⟨hproven.others, hproven.heard, hproven.acting, hproven.signatures,
        hproven.unsigned, hproven.acceptances, hproven.unjudged, hproven.reasons⟩, hne⟩, hlength,
        htasks⟩
    · rwa [Function.update_of_ne (Ne.symm hk)]

theorem Network.Follows.record {moves : List (NetworkMove ι)} {later : List (ι × PeerEvent)}
    (h : Network.Follows sessions w log) (hrecord : w.record sessions moves = some (w', later)) :
    Network.Follows sessions w' (log ++ later) := by
  induction moves generalizing w log later with
  | nil =>
    cases hrecord
    rwa [List.append_nil]
  | cons move rest ih =>
    obtain ⟨⟨v, trace⟩, hstep, hrest⟩ := Option.bind_eq_some_iff.mp hrecord
    obtain ⟨⟨w', later'⟩, hlater, heq⟩ := Option.map_eq_some_iff.mp hrest
    cases heq
    rw [← List.append_assoc]
    exact ih (h.step hstep) hlater

theorem Network.follows_start (hstart : ∀ k, Starting (sessions k).deps (w k)) :
    Network.Follows sessions w [] := by
  intro k
  obtain ⟨hsession, htasks⟩ := hstart k
  refine ⟨[.greeting], [], ⟨⟨?_, by simp⟩, by rw [htasks]; rfl, fun i p g hp hg => ?_⟩, rfl⟩
  · refine ⟨by simp, fun message h => ?_, ?_, by simp, by simp, by simp, by simp, ?_⟩
    · rw [hsession] at h
      rcases h with h | h
      · cases h
      · cases h
    · intro g hg message hmessage
      rw [List.mem_singleton.mp hg] at hmessage
      cases hmessage
    · intro before e after hsplit
      simp at hsplit
  · rw [htasks] at hp
    rw [List.mem_singleton.mp (List.mem_of_getElem? hp),
      List.mem_singleton.mp (List.mem_of_getElem? hg)]
    exact fun _ s _ => parks_proving (sessions k).deps s

/-- Signatures of one device are the same for the same challenge only. -/
theorem HonestSession.challenge_inj (ideal : crypto.Ideal) (session : HonestSession crypto)
    {challenger challenger' : DeviceId} {nonce nonce' : Bytes}
    (h : encodeBase64 (session.auth.signChallenge nonce challenger session.auth.deviceId) =
      encodeBase64 (session.auth.signChallenge nonce' challenger' session.auth.deviceId)) :
    challenger = challenger' ∧ nonce = nonce' := by
  have hnewline := newline_notMem_deviceId session.keyPair
  obtain ⟨hchallenger, -, hnonce⟩ := authChallengeBytes_inj hnewline hnewline
    (ideal.sign_inj (encodeBase64_inj h))
  exact ⟨hchallenger, hnonce⟩

/-- A session signs one challenge. -/
theorem Network.Follows.signs_once (ideal : crypto.Ideal) (h : Network.Follows sessions w log)
    {k : ι} {challenger challenger' : DeviceId} {nonce nonce' : Bytes}
    (hsigns : Signs sessions log k challenger nonce)
    (hsigns' : Signs sessions log k challenger' nonce') :
    challenger = challenger' ∧ nonce = nonce' := by
  obtain ⟨stages, own, hfollows, hown⟩ := h k
  have hone := hfollows.holds.1.signatures
  rw [hown] at hone
  have hmem : _ ∈ (eventsOf k log).filterMap signatureOf :=
    List.mem_filterMap.mpr ⟨_, mem_eventsOf.mpr hsigns.2, rfl⟩
  have hmem' : _ ∈ (eventsOf k log).filterMap signatureOf :=
    List.mem_filterMap.mpr ⟨_, mem_eventsOf.mpr hsigns'.2, rfl⟩
  obtain ⟨text, hsingle⟩ := List.length_eq_one_iff.mp
    (Nat.le_antisymm hone (List.length_pos_of_mem hmem))
  rw [hsingle] at hmem hmem'
  exact (sessions k).challenge_inj ideal
    ((List.mem_singleton.mp hmem).trans (List.mem_singleton.mp hmem').symm)

/-- What a session signs, it was asked for. -/
theorem Network.Follows.signs (ideal : crypto.Ideal) (h : Network.Follows sessions w log)
    {before after : List (ι × PeerEvent)} (hlog : log = before ++ after) {k : ι}
    {challenger : DeviceId} {nonce : Bytes}
    (hmem : (k, .output (.control (.auth (encodeBase64 (crypto.sign
      (sessions k).keyPair.privateKey (authChallengeBytes nonce challenger
        (sessions k).keyPair.deviceId)))))) ∈ before) :
    Signs sessions before k challenger nonce := by
  obtain ⟨stages, own, hfollows, hown⟩ := h k
  have hreasons := hfollows.holds.1.reasons
  obtain ⟨early, late, rfl⟩ := List.append_of_mem hmem
  rw [hown, hlog, List.append_assoc, List.cons_append, eventsOf_append, eventsOf_cons_self]
    at hreasons
  obtain ⟨challenger', name, key, nonceText, nonce', hasked, hnonce, htext⟩ :=
    (hreasons _ _ _ rfl).1 _ rfl
  obtain ⟨rfl, rfl⟩ := (sessions k).challenge_inj ideal htext
  exact ⟨⟨name, key, nonceText, List.mem_append_left _ (mem_eventsOf.mp hasked), hnonce⟩, hmem⟩

/-- Over a network that cannot forge signatures, whoever accepts an honest device was answered by
a session of that device, which answered no one else. -/
theorem authentication_agreement (ideal : crypto.Ideal)
    (hdeviceId : Function.Injective (deviceIdFor crypto))
    (hnonce : Function.Injective fun k => (sessions k).nonce)
    (honest : Set (DeviceKeyPair crypto)) {moves : List (NetworkMove ι)}
    (hstart : ∀ k, Starting (sessions k).deps (w k))
    (hrun : w.record sessions moves = some (w', log))
    (hunforgeable : ∀ keyPair ∈ honest, Unforgeable sessions keyPair log) :
    (∀ k, ∀ device ∈ honest, ∀ before after,
      log = before ++ (k, .output (.event (.authenticated device.deviceId))) :: after →
      ∃ signer, (sessions signer).keyPair = device ∧
        Signs sessions before signer (sessions k).keyPair.deviceId (sessions k).nonce) ∧
    (∀ k k' signer, Signs sessions log signer (sessions k).keyPair.deviceId (sessions k).nonce →
      Signs sessions log signer (sessions k').keyPair.deviceId (sessions k').nonce → k = k') ∧
    (∀ k, ((eventsOf k log).filterMap acceptedOf).length ≤ 1) ∧
    ∀ (challenger responder : DeviceKeyPair crypto) (claimed : DeviceId) (nonce claimedNonce : Bytes),
      crypto.verify responder.publicKey
          (authChallengeBytes nonce challenger.deviceId responder.deviceId)
          (crypto.sign responder.privateKey
            (authChallengeBytes claimedNonce claimed responder.deviceId)) = true ↔
        claimed = challenger.deviceId ∧ claimedNonce = nonce := by
  have hfollows := (Network.follows_start hstart).record hrun
  rw [List.nil_append] at hfollows
  refine ⟨?_, fun k k' signer hk hk' => hnonce (hfollows.signs_once ideal hk hk').2, fun k => ?_,
    ideal.verify_challenge⟩
  · intro k device hhonest before after hlog
    obtain ⟨stages, own, hown, heq⟩ := hfollows k
    have hreasons := hown.holds.1.reasons
    rw [heq, hlog, eventsOf_append, eventsOf_cons_self] at hreasons
    obtain ⟨text, signature, key, name, shown, hdelivered, htext, hverify⟩ :=
      (hreasons _ _ _ rfl).2 _ rfl
    obtain ⟨hid, hverify⟩ := verifyPeer_ok hverify
    have hkey : key = device.publicKey := hdeviceId (hid.trans device.deviceId_eq)
    obtain ⟨early, late, rfl⟩ := List.append_of_mem (mem_eventsOf.mp hdelivered)
    rw [List.append_assoc] at hlog
    obtain ⟨signer, hsigner, hsigned⟩ := hunforgeable device hhonest early _ _ hlog text signature _
      rfl htext (hkey ▸ hverify)
    subst hsigner
    have hsigns := hfollows.signs ideal hlog hsigned
    refine ⟨signer, rfl, ?_, List.mem_append_left _ hsigns.2⟩
    obtain ⟨name, key, nonceText, hasked, hnonce⟩ := hsigns.1
    exact ⟨name, key, nonceText, List.mem_append_left _ hasked, hnonce⟩
  · obtain ⟨stages, own, hown, heq⟩ := hfollows k
    exact heq ▸ hown.holds.1.acceptances

end Network

/-! A desk that accepts its phone. -/

/-- Signatures that show their key and their message. -/
def openCrypto : Crypto where
  sha256 bytes := bytes
  getPublicKey privateKey := privateKey
  sign privateKey message := privateKey ++ message
  verify publicKey message signature := signature = publicKey ++ message

theorem openCrypto_ideal : openCrypto.Ideal where
  verify_sign _ _ := decide_eq_true rfl
  unambiguous _ _ _ h := (List.append_cancel_left (of_decide_eq_true h)).symm

theorem deviceIdFor_openCrypto : Function.Injective (deviceIdFor openCrypto) := fun _ _ h =>
  hexOf_inj (String.ofList_injective (DeviceId.mk.inj h))

def deskKeys : DeviceKeyPair openCrypto := generateDeviceKeyPair openCrypto [1]

def phoneKeys : DeviceKeyPair openCrypto := generateDeviceKeyPair openCrypto [2]

open SessionEnd in
def pairedSession (keyPair other : DeviceKeyPair openCrypto) (nonce : Bytes) :
    HonestSession openCrypto where
  options := ⟨keyPair, "honest", ⟨[⟨other.deviceId, other.publicKey, "honest", .paired⟩],
    List.nodup_singleton _⟩, false, none⟩
  nonce := nonce
  engine := deskDeps
  vaultId := none
  chunkBytes := 1024
  highWaterBytes := 1024
  now := 0

/-- The desk, and then the phone. -/
def pairedSessions : Bool → HonestSession openCrypto
  | false => pairedSession deskKeys phoneKeys [10]
  | true => pairedSession phoneKeys deskKeys [20]

def pairedStart : Network Bool := fun k =>
  ⟨⟨.empty, .new⟩, [.await (fun _ => true) (runToEnd (pairedSessions k).deps)]⟩

def pairedHello (session : HonestSession openCrypto) : Message :=
  .hello protocolVersion session.keyPair.deviceId "honest" (encodeBase64 session.keyPair.publicKey)
    (encodeBase64 session.nonce)

def phoneProof : Bytes :=
  openCrypto.sign phoneKeys.privateKey
    (authChallengeBytes [10] deskKeys.deviceId phoneKeys.deviceId)

def pairedMoves : List (NetworkMove Bool) :=
  let deliver k message := NetworkMove.session k (.start (.control (parseMessage message)))
  let resume k := NetworkMove.session k (.resume 0)
  [resume false, resume true, deliver true (pairedHello (pairedSessions false)), resume true,
    resume true, deliver false (pairedHello (pairedSessions true)), resume false, resume false,
    deliver false (.auth (encodeBase64 phoneProof)), resume false, resume false]

/-- The signatures that are sent, and those that are delivered. -/
def proofTraffic : Bool × PeerEvent → Option (Bool × Bool × String)
  | (k, .output (.control (.auth text))) => some (k, true, text)
  | (k, .delivered (.ok (.auth text))) => some (k, false, text)
  | _ => none

theorem mem_of_proofTraffic {log : List (Bool × PeerEvent)} {k : Bool} {text : String}
    (h : (k, true, text) ∈ log.filterMap proofTraffic) :
    (k, .output (.control (.auth text))) ∈ log := by
  obtain ⟨⟨k', event⟩, hmem, hevent⟩ := List.mem_filterMap.mp h
  unfold proofTraffic at hevent
  split at hevent
  · rename_i heq
    cases hevent
    cases heq
    exact hmem
  · cases hevent
  · cases hevent

/-- The one signature that is delivered was sent before by the phone. -/
theorem unforgeable_paired {log : List (Bool × PeerEvent)} {text : String}
    (h : log.filterMap proofTraffic =
      [(true, true, encodeBase64 phoneProof), (false, true, text),
        (false, false, encodeBase64 phoneProof)]) :
    Unforgeable pairedSessions phoneKeys log := by
  have hdecode : decodeBase64 (encodeBase64 phoneProof) = some phoneProof := by decide +kernel
  rintro before ⟨k, event⟩ after hlog delivered signature message rfl hsignature hverify
  rw [hlog, List.filterMap_append, List.filterMap_cons] at h
  simp only [proofTraffic] at h
  have hsent : (true, true, encodeBase64 phoneProof) ∈ before.filterMap proofTraffic ∧
      delivered = encodeBase64 phoneProof := by
    generalize before.filterMap proofTraffic = early at h
    match early, h with
    | [], h => simp at h
    | [_], h => simp at h
    | [first, _], h =>
      simp only [List.cons_append, List.nil_append, List.cons.injEq, Prod.mk.injEq] at h
      exact ⟨h.1 ▸ List.mem_cons_self, h.2.2.1.2.2⟩
    | _ :: _ :: _ :: _, h => simp at h
  obtain ⟨hsent, rfl⟩ := hsent
  cases hdecode.symm.trans hsignature
  have hmessage : message = authChallengeBytes [10] deskKeys.deviceId phoneKeys.deviceId :=
    (List.append_cancel_left (of_decide_eq_true hverify)).symm
  rw [hmessage]
  exact ⟨true, rfl, mem_of_proofTraffic hsent⟩

theorem authentication_agreement_paired :
    ∃ w log, pairedStart.record pairedSessions pairedMoves = some (w, log) ∧
      (eventsOf false log).filterMap acceptedOf = [phoneKeys.deviceId] ∧
      ∀ before after,
        log = before ++ (false, .output (.event (.authenticated phoneKeys.deviceId))) :: after →
        ∃ signer, (pairedSessions signer).keyPair = phoneKeys ∧
          Signs pairedSessions before signer deskKeys.deviceId [10] := by
  have hplay : (pairedStart.record pairedSessions pairedMoves).map (fun x =>
      ((eventsOf false x.2).filterMap acceptedOf, x.2.filterMap proofTraffic)) =
      some ([phoneKeys.deviceId], [(true, true, encodeBase64 phoneProof),
        (false, true, encodeBase64 (openCrypto.sign deskKeys.privateKey
          (authChallengeBytes [20] phoneKeys.deviceId deskKeys.deviceId))),
        (false, false, encodeBase64 phoneProof)]) := by
    decide +kernel
  obtain ⟨⟨w, log⟩, hrecord, hlog⟩ := Option.map_eq_some_iff.mp hplay
  obtain ⟨haccepted, htraffic⟩ := Prod.mk.inj hlog
  refine ⟨w, log, hrecord, haccepted, (authentication_agreement openCrypto_ideal
    deviceIdFor_openCrypto ?_ {phoneKeys} (fun _ => ⟨rfl, rfl⟩) hrecord ?_).1 false phoneKeys rfl⟩
  · intro k k' h
    cases k <;> cases k' <;> first | rfl | cases h
  · rintro _ rfl
    exact unforgeable_paired htraffic

end PassVault
