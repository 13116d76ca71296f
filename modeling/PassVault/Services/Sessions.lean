import PassVault.Identity.TrustStore

/-!
# Sessions and pairing

What the operations of `VaultServices` (`packages/services/src/vaultServices.ts`) about codes,
rooms, verifications and sessions do to the fields that they share. Sessions with any peers overlap;
what happens inside of one, between its steps here, is arbitrary.
-/

namespace PassVault

open Machine

structure Rendezvous where
  roomId : String
  inviteToken : String
  signalUrl : String
deriving DecidableEq, Repr

structure RendezvousRow where
  deviceId : DeviceId
  rendezvous : Rendezvous
  updatedAt : Nat
deriving DecidableEq, Repr

inductive SessionStage where
  | handshake
  /-- `confirmPairing` waits for a human. -/
  | asking (peer : DeviceId)
  | answered (peer : DeviceId) (confirmed : Bool)
  | authenticated (peer : DeviceId)
  | ended (completed : Bool)
deriving DecidableEq, Repr

/-- A session ends when it fails or, authenticated, completes. One that asks does not go on before
it is answered. -/
def SessionStage.mayEnd : SessionStage → Bool → Bool
  | asking _, _ | ended _, _ | handshake, true | answered .., true => false
  | _, _ => true

structure SessionRun where
  peerId : PeerId
  pairingMode : Bool
  stage : SessionStage
deriving DecidableEq, Repr

/-- What is on the screen. Resolving it is what the session waits for. -/
structure ShownVerification where
  session : Nat
  deviceId : DeviceId
  timer : Nat
deriving DecidableEq, Repr

structure Sessions where
  now : Nat
  pairingStartedAt : Option Nat
  pendingRendezvous : Option Rendezvous
  verification : Option ShownVerification
  /-- The timers that are set, and when they are due. -/
  timers : List (Nat × Nat)
  timersSet : Nat
  sessionsInFlight : List PeerId
  started : Nat
  sessions : Nat → Option SessionRun
  /-- The codes that wait for their short form. -/
  creating : Nat → Option Rendezvous
  created : Nat
  deviceRendezvous : Table RendezvousRow.deviceId
  devices : Devices
  /-- The rooms that the window was told to join. -/
  rooms : List Rendezvous
  /-- The room over which the channels to a peer were opened. -/
  channels : PeerId → Option Rendezvous

inductive SessionAction where
  | tick (elapsed : Nat)
  /-- `createPairingCode`, once the server has made a room. -/
  | createPairingCode (room : Rendezvous)
  /-- `createPairingCode` returns. -/
  | codeReturned (code : Nat)
  | readPairingCode (room : Rendezvous)
  | rendezvousFor (deviceId : DeviceId)
  /-- `standingRendezvous`, where this is the paired device met last. -/
  | standingRendezvous (deviceId : DeviceId)
  | peerOpened (peerId : PeerId) (room : Rendezvous)
  | peerGone (peerId : PeerId)
  | runSession (peerId : PeerId) (pairingMode : Bool)
  | onPeerInitiated (peerId : PeerId)
  | awaitPairingConfirmation (session : Nat) (peer : DeviceId)
  | answerVerification (confirmed : Bool)
  | timer (timer : Nat)
  | authenticated (session : Nat) (peer : DeviceId)
  | ends (session : Nat) (completed : Bool)
  | trustChanges (devices : Devices)
  | forgetDevice (deviceId : DeviceId)

namespace Sessions

def fiveMinutes : Nat := 5 * 60000

def opened (deviceRendezvous : Table RendezvousRow.deviceId) (devices : Devices) (now : Nat) :
    Sessions where
  now := now
  pairingStartedAt := none
  pendingRendezvous := none
  verification := none
  timers := []
  timersSet := 0
  sessionsInFlight := []
  started := 0
  sessions _ := none
  creating _ := none
  created := 0
  deviceRendezvous := deviceRendezvous
  devices := devices
  rooms := []
  channels _ := none

def pairingUnderway (s : Sessions) : Bool :=
  s.pairingStartedAt.any fun startedAt => s.now - startedAt < fiveMinutes

def setSession (i : Nat) (session : SessionRun) (s : Sessions) : Sessions :=
  { s with sessions := Function.update s.sessions i (some session) }

/-- The window is told to join a room. -/
def join (room : Rendezvous) (s : Sessions) : Sessions := { s with rooms := s.rooms ++ [room] }

def start (peerId : PeerId) (pairingMode : Bool) (s : Sessions) : Sessions :=
  if peerId ∈ s.sessionsInFlight then s
  else { s.setSession s.started ⟨peerId, pairingMode, .handshake⟩ with
    sessionsInFlight := s.sessionsInFlight ++ [peerId]
    started := s.started + 1 }

/-- The promise of a verification is settled. -/
def resolve (pending : ShownVerification) (confirmed : Bool) (s : Sessions) : Sessions :=
  match s.sessions pending.session with
  | some ⟨peerId, pairingMode, .asking peer⟩ =>
    s.setSession pending.session ⟨peerId, pairingMode, .answered peer confirmed⟩
  | _ => s

def settleVerification (confirmed : Bool) (s : Sessions) : Sessions :=
  match s.verification with
  | none => s
  | some pending =>
    { s.resolve pending confirmed with
      verification := none
      timers := s.timers.filter (·.1 ≠ pending.timer) }

def ask (i : Nat) (session : SessionRun) (peer : DeviceId) (s : Sessions) : Sessions :=
  match s.verification with
  | some _ => s.setSession i { session with stage := .answered peer false }
  | none => { s.setSession i { session with stage := .asking peer } with
      verification := some ⟨i, peer, s.timersSet⟩
      timers := s.timers ++ [(s.timersSet, s.now + fiveMinutes)]
      timersSet := s.timersSet + 1 }

def rememberRendezvous (deviceId : DeviceId) (room : Rendezvous) (s : Sessions) : Sessions :=
  let row : RendezvousRow := ⟨deviceId, room, s.now⟩
  { s with
    deviceRendezvous := s.deviceRendezvous.upsert row
      (fun old => { old with rendezvous := room, updatedAt := s.now }) fun _ => rfl }

/-- The `finally` of `runSession`. -/
def finish (i : Nat) (session : SessionRun) (completed : Bool) (s : Sessions) : Sessions :=
  let t := (s.setSession i { session with stage := .ended completed }).settleVerification false
  { t with sessionsInFlight := t.sessionsInFlight.erase session.peerId }

/-- The paired devices. -/
def isPaired (s : Sessions) (deviceId : DeviceId) : Bool :=
  (s.devices.find deviceId).any fun row => row.trust = .paired

def step (s : Sessions) : SessionAction → Option Sessions
  | .tick elapsed => some { s with now := s.now + elapsed }
  | .createPairingCode room =>
    some { s with
      pendingRendezvous := some room
      pairingStartedAt := some s.now
      creating := Function.update s.creating s.created (some room)
      created := s.created + 1 }
  | .codeReturned code =>
    (s.creating code).map fun room =>
      { s.join room with creating := Function.update s.creating code none }
  | .readPairingCode room =>
    some { s.join room with
      pendingRendezvous := some room
      pairingStartedAt := some s.now }
  | .rendezvousFor deviceId =>
    match s.deviceRendezvous.find deviceId with
    | none => some s
    | some row => some { s.join row.rendezvous with pendingRendezvous := some row.rendezvous }
  | .standingRendezvous deviceId =>
    match s.deviceRendezvous.find deviceId with
    | none => none
    | some row =>
      if s.isPaired deviceId ∧ ∀ other ∈ s.deviceRendezvous.rows, s.isPaired other.deviceId →
          other.updatedAt ≤ row.updatedAt then
        some { s.join row.rendezvous with pendingRendezvous := some row.rendezvous }
      else none
  | .peerOpened peerId room =>
    if s.channels peerId = none ∧ room ∈ s.rooms then
      some { s with channels := Function.update s.channels peerId (some room) }
    else none
  | .peerGone peerId => some { s with channels := Function.update s.channels peerId none }
  | .runSession peerId pairingMode => some (s.start peerId pairingMode)
  | .onPeerInitiated peerId => some (s.start peerId s.pairingUnderway)
  | .awaitPairingConfirmation i peer =>
    match s.sessions i with
    | some ⟨peerId, true, .handshake⟩ => some (s.ask i ⟨peerId, true, .handshake⟩ peer)
    | _ => none
  | .answerVerification confirmed => some (s.settleVerification confirmed)
  | .timer timer =>
    if ∃ due ∈ s.timers, due.1 = timer ∧ due.2 ≤ s.now then
      some (settleVerification false { s with timers := s.timers.filter (·.1 ≠ timer) })
    else none
  | .authenticated i peer =>
    match s.sessions i with
    | some session =>
      if (session.stage = .handshake ∨ session.stage = .answered peer true) ∧
          (s.channels session.peerId).isSome then
        let t := s.setSession i { session with stage := .authenticated peer }
        some (s.pendingRendezvous.elim t fun room => t.rememberRendezvous peer room)
      else none
    | none => none
  | .ends i completed =>
    match s.sessions i with
    | some session =>
      if session.stage.mayEnd completed then some (s.finish i session completed) else none
    | none => none
  | .trustChanges devices => some { s with devices }
  | .forgetDevice deviceId =>
    some { s with deviceRendezvous := s.deviceRendezvous.delete deviceId }

variable {s t : Sessions}

/-! ## The pairing window -/

/-- `createPairingCode` or `readPairingCode` returns. -/
def Returns : SessionAction → Prop
  | .codeReturned _ | .readPairingCode _ => True
  | _ => False

/-- A pairing starts. -/
def Starts : SessionAction → Prop
  | .createPairingCode _ | .readPairingCode _ => True
  | _ => False

def Completes : SessionAction → Prop
  | .ends _ true => True
  | _ => False

/-- A code was created or read less than five minutes ago, and no session has completed since. -/
def WindowOpen (start : Sessions) (before : List SessionAction) (s : Sessions) : Prop :=
  ∃ first action rest u, before = first ++ action :: rest ∧ Returns action ∧
    play step start first = some u ∧ s.now - u.now < fiveMinutes ∧ ∀ a ∈ rest, ¬ Completes a

/-- No peer starts a session in pairing mode outside of the window. -/
def Closes (start : Sessions) (actions : List SessionAction) : Prop :=
  ∀ before peerId after s t session, actions = before ++ .onPeerInitiated peerId :: after →
    play step start before = some s → step s (.onPeerInitiated peerId) = some t →
    t.started = s.started + 1 → t.sessions s.started = some session →
    session.pairingMode = true → WindowOpen start before s

/-- Since a code was returned last, none was created, and no session has completed. -/
def FreshCode (before : List SessionAction) : Prop :=
  ∃ first action rest, before = first ++ action :: rest ∧ Returns action ∧
    ∀ a ∈ rest, ¬ Starts a ∧ ¬ Completes a

theorem resolve_eq (pending : ShownVerification) (confirmed : Bool) (s : Sessions) :
    ∃ sessions, s.resolve pending confirmed = { s with sessions } := by
  unfold resolve
  split <;> exact ⟨_, rfl⟩

theorem settleVerification_eq (confirmed : Bool) (s : Sessions) :
    ∃ verification timers sessions, s.settleVerification confirmed =
      { s with verification, timers, sessions } := by
  unfold settleVerification
  split
  · exact ⟨_, _, _, rfl⟩
  · rename_i pending hpending
    obtain ⟨sessions, heq⟩ := resolve_eq pending confirmed s
    exact ⟨_, _, sessions, by rw [heq]⟩

/-- What an action does to the clock and to the start of the pairing. -/
theorem window_step {action : SessionAction} (h : step s action = some t) :
    s.now ≤ t.now ∧ (Starts action → t.pairingStartedAt = some s.now) ∧
      (¬ Starts action → t.pairingStartedAt = s.pairingStartedAt) := by
  have hsame : ∀ u : Sessions, u.now = s.now → u.pairingStartedAt = s.pairingStartedAt →
      ¬ Starts action → s.now ≤ u.now ∧ (Starts action → u.pairingStartedAt = some s.now) ∧
        (¬ Starts action → u.pairingStartedAt = s.pairingStartedAt) :=
    fun u hnow hstarted hnot => ⟨Nat.le_of_eq hnow.symm, fun h => absurd h hnot, fun _ => hstarted⟩
  cases action <;> simp only [step] at h
  case tick elapsed =>
    cases h
    exact ⟨Nat.le_add_right .., False.elim, fun _ => rfl⟩
  case createPairingCode room =>
    cases h
    exact ⟨Nat.le_refl _, fun _ => rfl, fun h => absurd trivial h⟩
  case codeReturned code =>
    obtain ⟨room, -, rfl⟩ := Option.map_eq_some_iff.mp h
    exact hsame _ rfl rfl id
  case readPairingCode room =>
    cases h
    exact ⟨Nat.le_refl _, fun _ => rfl, fun h => absurd trivial h⟩
  case rendezvousFor deviceId =>
    split at h <;> cases h <;> exact hsame _ rfl rfl id
  case standingRendezvous deviceId =>
    split at h
    · cases h
    · split at h <;> cases h
      exact hsame _ rfl rfl id
  case peerOpened peerId room =>
    split at h <;> cases h
    exact hsame _ rfl rfl id
  case runSession peerId pairingMode =>
    cases h
    unfold Sessions.start
    split <;> exact hsame _ rfl rfl id
  case onPeerInitiated peerId =>
    cases h
    unfold Sessions.start
    split <;> exact hsame _ rfl rfl id
  case awaitPairingConfirmation i peer =>
    split at h <;> cases h
    unfold ask
    split <;> exact hsame _ rfl rfl id
  case answerVerification confirmed =>
    cases h
    obtain ⟨_, _, _, heq⟩ := settleVerification_eq confirmed s
    rw [heq]
    exact hsame _ rfl rfl id
  case timer timer =>
    split at h <;> cases h
    obtain ⟨_, _, _, heq⟩ := settleVerification_eq false
      { s with timers := s.timers.filter (·.1 ≠ timer) }
    rw [heq]
    exact hsame _ rfl rfl id
  case authenticated i peer =>
    split at h
    · split at h <;> cases h
      cases s.pendingRendezvous <;> exact hsame _ rfl rfl id
    · cases h
  case ends i completed =>
    split at h
    · split at h <;> cases h
      unfold finish
      obtain ⟨_, _, _, heq⟩ := settleVerification_eq false (s.setSession i _)
      rw [heq]
      exact hsame _ rfl rfl id
    · cases h
  all_goals
    cases h
    exact hsame _ rfl rfl id

/-- As long as no pairing starts, the start of the last one stays, and the clock goes on. -/
theorem window_play {actions : List SessionAction} (h : play step s actions = some t)
    (hnot : ∀ a ∈ actions, ¬ Starts a) :
    s.now ≤ t.now ∧ t.pairingStartedAt = s.pairingStartedAt := by
  refine play_keeps (P := fun u => s.now ≤ u.now ∧ u.pairingStartedAt = s.pairingStartedAt)
    (fun a ha u u' hu hstep => ?_) h ⟨Nat.le_refl _, rfl⟩
  obtain ⟨hnow, -, hsame⟩ := window_step hstep
  exact ⟨Nat.le_trans hu.1 hnow, (hsame (hnot a ha)).trans hu.2⟩

/-- No pairing started in the future. -/
theorem startedAt_le {actions : List SessionAction} (h : play step s actions = some t)
    (hs : ∀ startedAt ∈ s.pairingStartedAt, startedAt ≤ s.now) :
    ∀ startedAt ∈ t.pairingStartedAt, startedAt ≤ t.now := by
  refine play_keeps (P := fun u => ∀ startedAt ∈ u.pairingStartedAt, startedAt ≤ u.now)
    (fun a _ u u' hu hstep startedAt hstarted => ?_) h hs
  obtain ⟨hnow, hstarts, hsame⟩ := window_step hstep
  by_cases ha : Starts a
  · rw [hstarts ha] at hstarted
    cases hstarted
    exact hnow
  · rw [hsame ha] at hstarted
    exact Nat.le_trans (hu startedAt hstarted) hnow

theorem pairingUnderway_eq (h : s.pairingUnderway = true) :
    ∃ startedAt, s.pairingStartedAt = some startedAt ∧ s.now - startedAt < fiveMinutes := by
  unfold pairingUnderway at h
  cases hstarted : s.pairingStartedAt with
  | none =>
    rw [hstarted] at h
    cases h
  | some startedAt =>
    rw [hstarted] at h
    exact ⟨startedAt, rfl, of_decide_eq_true h⟩

def kitchenRoom : Rendezvous := ⟨"kitchen", "token", "wss://signal.example"⟩

/-- What settles a verification: an answer, its timer, or the end of its session. -/
def Settles (pending : ShownVerification) : SessionAction → Prop
  | .answerVerification _ => True
  | .timer timer => timer = pending.timer
  | .ends i _ => i = pending.session
  | _ => False

/-- A verification stays until something of its own settles it, and an answer goes to the session
that asks, about the device that is shown. -/
structure Belongs (start : Sessions) (actions : List SessionAction) : Prop where
  settles : ∀ before action after s t pending, actions = before ++ action :: after →
    play step start before = some s → step s action = some t → s.verification = some pending →
    t.verification = some pending ∨ (t.verification = none ∧ Settles pending action)
  confirms : ∀ before action after s t i session peer, actions = before ++ action :: after →
    play step start before = some s → step s action = some t → t.sessions i = some session →
    session.stage = .answered peer true → s.sessions i ≠ some session →
    action = .answerVerification true ∧
      ∃ pending, s.verification = some pending ∧ pending.session = i ∧ pending.deviceId = peer

/-- No session ends while the verification of another one is shown. -/
def OwnEnd (s : Sessions) : SessionAction → Prop
  | .ends i _ => ∀ pending ∈ s.verification, pending.session = i
  | _ => True

instance (s : Sessions) : DecidablePred s.OwnEnd
  | .ends i _ => inferInstanceAs (Decidable (∀ pending ∈ s.verification, pending.session = i))
  | .tick _ | .createPairingCode _ | .codeReturned _ | .readPairingCode _ | .rendezvousFor _
  | .standingRendezvous _ | .peerOpened .. | .peerGone _ | .runSession .. | .onPeerInitiated _
  | .awaitPairingConfirmation .. | .answerVerification _ | .timer _ | .authenticated ..
  | .trustChanges _ | .forgetDevice _ => isTrue trivial

/-- The session of what is shown asks, and no other timer is set. -/
structure Shown (s : Sessions) : Prop where
  asks : ∀ pending ∈ s.verification, ∃ peerId pairingMode,
    s.sessions pending.session = some ⟨peerId, pairingMode, .asking pending.deviceId⟩
  timed : ∀ due ∈ s.timers, ∃ pending, s.verification = some pending ∧ pending.timer = due.1
  bound : ∀ i session, s.sessions i = some session → i < s.started

theorem resolve_asking {pending : ShownVerification} {confirmed : Bool} {peerId : PeerId}
    {pairingMode : Bool} {peer : DeviceId}
    (h : s.sessions pending.session = some ⟨peerId, pairingMode, .asking peer⟩) :
    s.resolve pending confirmed =
      s.setSession pending.session ⟨peerId, pairingMode, .answered peer confirmed⟩ := by
  unfold resolve
  rw [h]

/-- A session moves that is not the one that asks. -/
theorem Shown.move (hs : Shown s) {i : Nat} {session : SessionRun}
    (hother : ∀ pending ∈ s.verification, pending.session ≠ i) (hi : i < s.started) :
    Shown (s.setSession i session) where
  asks pending hpending := by
    obtain ⟨peerId, pairingMode, hasks⟩ := hs.asks pending hpending
    exact ⟨peerId, pairingMode,
      (Function.update_of_ne (hother pending hpending) ..).trans hasks⟩
  timed := hs.timed
  bound j session' hj := by
    by_cases hji : j = i
    · exact hji ▸ hi
    · exact hs.bound j session' ((Function.update_of_ne hji ..).symm.trans hj)

/-- Nothing is shown any more. -/
theorem Shown.settled (hs : Shown s) (confirmed : Bool) :
    Shown (s.settleVerification confirmed) ∧
      (s.settleVerification confirmed).verification = none := by
  unfold settleVerification
  split
  case h_1 hnone => exact ⟨hs, hnone⟩
  case h_2 pending hpending =>
    refine ⟨⟨nofun, fun due hdue => ?_, fun j session hj => ?_⟩, rfl⟩
    · obtain ⟨hmem, hne⟩ := List.mem_filter.mp hdue
      obtain ⟨pending', hpending', htimer⟩ := hs.timed due hmem
      cases hpending.symm.trans hpending'
      exact absurd htimer.symm (of_decide_eq_true hne)
    · obtain ⟨peerId, pairingMode, hasks⟩ := hs.asks pending hpending
      rw [resolve_asking hasks] at hj ⊢
      by_cases hji : j = pending.session
      · subst hji
        exact hs.bound _ _ hasks
      · exact hs.bound j session ((Function.update_of_ne hji ..).symm.trans hj)

/-- What is shown is not of a session that does not ask. -/
theorem Shown.ne (hs : Shown s) {i : Nat} {session : SessionRun}
    (hi : s.sessions i = some session) (hstage : ∀ peer, session.stage ≠ .asking peer) :
    ∀ pending ∈ s.verification, pending.session ≠ i := by
  rintro pending hpending rfl
  obtain ⟨peerId, pairingMode, hasks⟩ := hs.asks pending hpending
  cases hi.symm.trans hasks
  exact hstage pending.deviceId rfl

theorem Shown.start (hs : Shown s) (peerId : PeerId) (pairingMode : Bool) :
    Shown (s.start peerId pairingMode) := by
  unfold Sessions.start
  split
  · exact hs
  · refine ⟨fun pending hpending => ?_, hs.timed, fun j session hj => ?_⟩
    · obtain ⟨peerId', pairingMode', hasks⟩ := hs.asks pending hpending
      have hne : pending.session ≠ s.started := Nat.ne_of_lt (hs.bound _ _ hasks)
      exact ⟨peerId', pairingMode', (Function.update_of_ne hne ..).trans hasks⟩
    · show j < s.started + 1
      by_cases hji : j = s.started
      · omega
      · have hbound := hs.bound j session ((Function.update_of_ne hji ..).symm.trans hj)
        omega

theorem Shown.ask (hs : Shown s) {i : Nat} {session : SessionRun} {peer : DeviceId}
    (hi : s.sessions i = some session) (hstage : ∀ peer, session.stage ≠ .asking peer) :
    Shown (s.ask i session peer) := by
  unfold Sessions.ask
  split
  case h_1 pending hpending => exact hs.move (hs.ne hi hstage) (hs.bound i session hi)
  case h_2 hnone =>
    refine ⟨?_, fun due hdue => ⟨_, rfl, ?_⟩, fun j session' hj => ?_⟩
    · rintro pending ⟨⟩
      exact ⟨_, _, Function.update_self ..⟩
    · rcases List.mem_append.mp hdue with hold | hnew
      · obtain ⟨pending, hpending, -⟩ := hs.timed due hold
        cases hnone.symm.trans hpending
      · rw [List.mem_singleton.mp hnew]
    · by_cases hji : j = i
      · subst hji
        exact hs.bound j session hi
      · exact hs.bound j session' ((Function.update_of_ne hji ..).symm.trans hj)

theorem Shown.dropTimer (hs : Shown s) (timer : Nat) :
    Shown { s with timers := s.timers.filter (·.1 ≠ timer) } :=
  ⟨hs.asks, fun due hdue => hs.timed due (List.mem_filter.mp hdue).1, hs.bound⟩

theorem ne_asking_of_mayEnd {stage : SessionStage} {completed : Bool}
    (h : stage.mayEnd completed = true) (peer : DeviceId) : stage ≠ .asking peer := by
  rintro rfl
  cases h

/-- A session ends while nothing of its own is shown. -/
theorem Shown.ended (hs : Shown s) {i : Nat} {session : SessionRun} {completed : Bool}
    (hi : s.sessions i = some session) (hends : session.stage.mayEnd completed = true) :
    Shown (s.setSession i { session with stage := .ended completed }) :=
  hs.move (hs.ne hi (ne_asking_of_mayEnd hends)) (hs.bound i session hi)

theorem Shown.step {action : SessionAction} (hs : Shown s) (h : Sessions.step s action = some t) :
    Shown t := by
  cases action <;> simp only [Sessions.step] at h
  case codeReturned code =>
    obtain ⟨room, -, rfl⟩ := Option.map_eq_some_iff.mp h
    exact ⟨hs.asks, hs.timed, hs.bound⟩
  case rendezvousFor deviceId =>
    split at h <;> cases h <;> exact ⟨hs.asks, hs.timed, hs.bound⟩
  case standingRendezvous deviceId =>
    split at h
    · cases h
    · split at h <;> cases h
      exact ⟨hs.asks, hs.timed, hs.bound⟩
  case peerOpened peerId room =>
    split at h <;> cases h
    exact ⟨hs.asks, hs.timed, hs.bound⟩
  case runSession peerId pairingMode =>
    cases h
    exact hs.start peerId pairingMode
  case onPeerInitiated peerId =>
    cases h
    exact hs.start peerId _
  case awaitPairingConfirmation i peer =>
    split at h
    case h_1 peerId hi =>
      cases h
      exact hs.ask hi (by simp)
    case h_2 => cases h
  case answerVerification confirmed =>
    cases h
    exact (hs.settled confirmed).1
  case timer timer =>
    split at h <;> cases h
    exact ((hs.dropTimer timer).settled false).1
  case authenticated i peer =>
    split at h
    case h_1 session hi =>
      split at h <;> cases h
      rename_i hstage
      have hnot : ∀ peer, session.stage ≠ .asking peer := by
        rintro peer hasking
        rcases hstage.1 with h | h <;> cases hasking.symm.trans h
      have hmove : Shown (s.setSession i { session with stage := .authenticated peer }) :=
        hs.move (hs.ne hi hnot) (hs.bound i session hi)
      cases s.pendingRendezvous with
      | none => exact hmove
      | some room => exact ⟨hmove.asks, hmove.timed, hmove.bound⟩
    case h_2 => cases h
  case ends i completed =>
    split at h
    case h_1 session hi =>
      split at h <;> cases h
      rename_i hends
      obtain ⟨hsettled, -⟩ := (hs.ended hi hends).settled false
      exact ⟨hsettled.asks, hsettled.timed, hsettled.bound⟩
    case h_2 => cases h
  all_goals
    cases h
    exact ⟨hs.asks, hs.timed, hs.bound⟩

theorem Shown.settles {action : SessionAction} {pending : ShownVerification} (hs : Shown s)
    (hC : s.OwnEnd action) (h : Sessions.step s action = some t)
    (hpending : s.verification = some pending) :
    t.verification = some pending ∨ (t.verification = none ∧ Settles pending action) := by
  cases action <;> simp only [Sessions.step] at h
  case codeReturned code =>
    obtain ⟨room, -, rfl⟩ := Option.map_eq_some_iff.mp h
    exact .inl hpending
  case rendezvousFor deviceId =>
    split at h <;> cases h <;> exact .inl hpending
  case standingRendezvous deviceId =>
    split at h
    · cases h
    · split at h <;> cases h
      exact .inl hpending
  case peerOpened peerId room =>
    split at h <;> cases h
    exact .inl hpending
  case runSession peerId pairingMode =>
    cases h
    unfold Sessions.start
    split <;> exact .inl hpending
  case onPeerInitiated peerId =>
    cases h
    unfold Sessions.start
    split <;> exact .inl hpending
  case awaitPairingConfirmation i peer =>
    split at h <;> cases h
    unfold Sessions.ask
    rw [hpending]
    exact .inl hpending
  case answerVerification confirmed =>
    cases h
    exact .inr ⟨(hs.settled confirmed).2, trivial⟩
  case timer timer =>
    split at h <;> cases h
    rename_i hdue
    refine .inr ⟨((hs.dropTimer timer).settled false).2, ?_⟩
    obtain ⟨due, hmem, rfl, -⟩ := hdue
    obtain ⟨pending', hpending', htimer⟩ := hs.timed due hmem
    cases hpending.symm.trans hpending'
    exact htimer.symm
  case authenticated i peer =>
    split at h
    · split at h <;> cases h
      cases s.pendingRendezvous <;> exact .inl hpending
    · cases h
  case ends i completed =>
    split at h
    case h_1 session hi =>
      split at h <;> cases h
      rename_i hends
      exact .inr ⟨((hs.ended hi hends).settled false).2, (hC pending hpending).symm⟩
    case h_2 => cases h
  all_goals
    cases h
    exact .inl hpending

theorem Shown.sessions_settle (hs : Shown s) {confirmed : Bool} {i : Nat} {session : SessionRun}
    (h : (s.settleVerification confirmed).sessions i = some session) :
    s.sessions i = some session ∨ ∃ pending, s.verification = some pending ∧
      pending.session = i ∧ session.stage = .answered pending.deviceId confirmed := by
  unfold settleVerification at h
  split at h
  case h_1 => exact .inl h
  case h_2 pending hpending =>
    obtain ⟨peerId, pairingMode, hasks⟩ := hs.asks pending hpending
    rw [resolve_asking hasks] at h
    by_cases hi : i = pending.session
    · subst hi
      cases (Function.update_self ..).symm.trans h
      exact .inr ⟨pending, hpending, rfl, rfl⟩
    · exact .inl ((Function.update_of_ne hi ..).symm.trans h)

/-- Only an answer confirms, and it confirms what is shown. -/
theorem Shown.confirms {action : SessionAction} {i : Nat} {session : SessionRun} {peer : DeviceId}
    (hs : Shown s) (h : Sessions.step s action = some t) (hi : t.sessions i = some session)
    (hstage : session.stage = .answered peer true) (hnew : s.sessions i ≠ some session) :
    action = .answerVerification true ∧
      ∃ pending, s.verification = some pending ∧ pending.session = i ∧ pending.deviceId = peer := by
  have hset : ∀ (u : Sessions) j session', u.sessions = s.sessions →
      (u.setSession j session').sessions i = some session → session = session' := by
    intro u j session' hu hsession
    by_cases hij : i = j
    · subst hij
      cases (Function.update_self ..).symm.trans hsession
      rfl
    · exact absurd (hu ▸ (Function.update_of_ne hij ..).symm.trans hsession) hnew
  have hstart : ∀ peerId mode, (s.start peerId mode).sessions i = some session → False := by
    intro peerId mode hsession
    unfold Sessions.start at hsession
    split at hsession
    · exact hnew hsession
    · cases hset s _ _ rfl hsession
      cases hstage
  cases action <;> simp only [Sessions.step] at h
  case codeReturned code =>
    obtain ⟨room, -, rfl⟩ := Option.map_eq_some_iff.mp h
    exact absurd hi hnew
  case rendezvousFor deviceId =>
    split at h <;> cases h <;> exact absurd hi hnew
  case standingRendezvous deviceId =>
    split at h
    · cases h
    · split at h <;> cases h
      exact absurd hi hnew
  case peerOpened peerId room =>
    split at h <;> cases h
    exact absurd hi hnew
  case runSession peerId pairingMode =>
    cases h
    exact (hstart _ _ hi).elim
  case onPeerInitiated peerId =>
    cases h
    exact (hstart _ _ hi).elim
  case awaitPairingConfirmation j asked =>
    split at h <;> cases h
    unfold Sessions.ask at hi
    split at hi <;> cases hset s _ _ rfl hi <;> cases hstage
  case answerVerification confirmed =>
    cases h
    obtain ⟨pending, hpending, hsession, hanswer⟩ :=
      (hs.sessions_settle hi).resolve_left hnew
    cases hanswer.symm.trans hstage
    exact ⟨rfl, pending, hpending, hsession, rfl⟩
  case timer timer =>
    split at h <;> cases h
    obtain ⟨pending, -, -, hanswer⟩ :=
      ((hs.dropTimer timer).sessions_settle hi).resolve_left hnew
    cases hanswer.symm.trans hstage
  case authenticated j peer' =>
    split at h
    · split at h <;> cases h
      have hsession : session.stage = .authenticated peer' := by
        cases hroom : s.pendingRendezvous with
        | none =>
          rw [hroom] at hi
          rw [hset s _ _ rfl hi]
        | some room =>
          rw [hroom] at hi
          rw [hset s _ _ rfl hi]
      cases hsession.symm.trans hstage
    · cases h
  case ends j completed =>
    split at h
    case h_1 session' hj =>
      split at h <;> cases h
      rename_i hends
      rcases (hs.ended hj hends).sessions_settle hi with hsession | ⟨pending, -, -, hanswer⟩
      · cases hset s _ _ rfl hsession
        cases hstage
      · cases hanswer.symm.trans hstage
    case h_2 => cases h
  all_goals
    cases h
    exact absurd hi hnew

theorem shown_play {deviceRendezvous : Table RendezvousRow.deviceId} {devices : Devices} {now : Nat}
    {actions : List SessionAction}
    (h : play step (opened deviceRendezvous devices now) actions = some t) : Shown t :=
  play_keeps (fun _ _ _ _ hs hstep => hs.step hstep) h ⟨nofun, nofun, nofun⟩

/-- When a session ends, what is shown is settled. -/
theorem ownEnd_of_settles {action : SessionAction} (hs : Shown s)
    (h : Sessions.step s action = some t)
    (hsettles : ∀ pending, s.verification = some pending →
      t.verification = some pending ∨ (t.verification = none ∧ Settles pending action)) :
    s.OwnEnd action := by
  cases action <;> try trivial
  case ends i completed =>
    simp only [Sessions.step] at h
    intro pending hpending
    split at h
    case h_1 session hi =>
      split at h <;> cases h
      rename_i hends
      rcases hsettles pending hpending with hstays | ⟨-, hown⟩
      · cases (((hs.ended hi hends).settled false).2).symm.trans hstays
      · exact hown.symm
    case h_2 => cases h

/-- A verification belongs to its session in exactly those runs in which no session ends while that
of another one is shown. -/
theorem belongs_iff (deviceRendezvous : Table RendezvousRow.deviceId) (devices : Devices)
    (now : Nat) (actions : List SessionAction) (t : Sessions)
    (h : play step (opened deviceRendezvous devices now) actions = some t) :
    Belongs (opened deviceRendezvous devices now) actions ↔
      Meets step OwnEnd (opened deviceRendezvous devices now) actions := by
  rw [meets_iff h]
  constructor
  · intro hbelongs before action after s hsplit hs
    obtain ⟨u, u', hu, hstep, -⟩ := play_around (hsplit ▸ h)
    cases hs.symm.trans hu
    exact ownEnd_of_settles (shown_play hs) hstep fun pending hpending =>
      hbelongs.settles before action after s u' pending hsplit hs hstep hpending
  · intro hown
    refine ⟨fun before action after s u pending hsplit hs hstep hpending => ?_,
      fun before action after s u i session peer hsplit hs hstep hi hstage hnew => ?_⟩
    · exact (shown_play hs).settles (hown before action after s hsplit hs) hstep hpending
    · exact (shown_play hs).confirms hstep hi hstage hnew

/-- Two devices are met; the numbers of the first are compared. -/
theorem belongs_iff_answered : Belongs (opened (Table.empty _) (Table.empty _) 0)
    [.readPairingCode kitchenRoom, .peerOpened ⟨"phone"⟩ kitchenRoom, .runSession ⟨"phone"⟩ true,
      .awaitPairingConfirmation 0 ⟨"02"⟩, .answerVerification true, .authenticated 0 ⟨"02"⟩,
      .ends 0 true] :=
  (belongs_iff (Table.empty _) (Table.empty _) 0 _ _ rfl).mpr (by decide +kernel)

/-- Another session fails while the numbers of the phone are compared. -/
theorem not_belongs_failed : ¬ Belongs (opened (Table.empty _) (Table.empty _) 0)
    [.runSession ⟨"phone"⟩ true, .awaitPairingConfirmation 0 ⟨"02"⟩, .runSession ⟨"tablet"⟩ false,
      .ends 1 false] := by
  intro hbelongs
  rcases hbelongs.settles [.runSession ⟨"phone"⟩ true, .awaitPairingConfirmation 0 ⟨"02"⟩,
      .runSession ⟨"tablet"⟩ false] (.ends 1 false) [] _ _ _ rfl rfl rfl rfl with h | ⟨-, h⟩
  · cases h
  · cases h

/-! ## Where a device is met -/

/-- The device was met in this room: its row was there from the start, or a session with it
authenticated over a channel of the room. -/
def MetIn (start : Sessions) (before : List SessionAction) (deviceId : DeviceId)
    (room : Rendezvous) : Prop :=
  (∃ row ∈ start.deviceRendezvous.rows, row.deviceId = deviceId ∧ row.rendezvous = room) ∨
    ∃ first i rest s session, before = first ++ .authenticated i deviceId :: rest ∧
      play step start first = some s ∧ s.sessions i = some session ∧
      s.channels session.peerId = some room

/-- A device is remembered at the room of the channel, and to reconnect is to go where it was
met. -/
structure Remembered (start : Sessions) (actions : List SessionAction) : Prop where
  records : ∀ before i peer after s t session row,
    actions = before ++ .authenticated i peer :: after → play step start before = some s →
    step s (.authenticated i peer) = some t → s.sessions i = some session →
    s.pendingRendezvous.isSome = true → t.deviceRendezvous.find peer = some row →
    s.channels session.peerId = some row.rendezvous
  reconnects : ∀ before deviceId after s t, actions = before ++ .rendezvousFor deviceId :: after →
    play step start before = some s → step s (.rendezvousFor deviceId) = some t →
    t.rooms = s.rooms ∨ ∃ room, t.rooms = s.rooms ++ [room] ∧ MetIn start before deviceId room

/-- A session authenticates while the room that was to be joined last is that of its channel. -/
def JoinedLast (s : Sessions) : SessionAction → Prop
  | .authenticated i _ => ∀ session ∈ s.sessions i, ∀ room ∈ s.pendingRendezvous,
      s.channels session.peerId = some room
  | _ => True

instance (s : Sessions) : DecidablePred s.JoinedLast
  | .authenticated i _ => inferInstanceAs (Decidable
      (∀ session ∈ s.sessions i, ∀ room ∈ s.pendingRendezvous,
        s.channels session.peerId = some room))
  | .tick _ | .createPairingCode _ | .codeReturned _ | .readPairingCode _ | .rendezvousFor _
  | .standingRendezvous _ | .peerOpened .. | .peerGone _ | .runSession .. | .onPeerInitiated _
  | .awaitPairingConfirmation .. | .answerVerification _ | .timer _ | .ends ..
  | .trustChanges _ | .forgetDevice _ => isTrue trivial

theorem find_rememberRendezvous (deviceId : DeviceId) (room : Rendezvous) (s : Sessions)
    (k : DeviceId) : (s.rememberRendezvous deviceId room).deviceRendezvous.find k =
      if deviceId = k then some ((s.deviceRendezvous.find k).elim ⟨deviceId, room, s.now⟩
        fun old => { old with rendezvous := room, updatedAt := s.now })
      else s.deviceRendezvous.find k :=
  Table.find_upsert ..

theorem rendezvous_rememberRendezvous {deviceId : DeviceId} {room : Rendezvous}
    {row : RendezvousRow}
    (h : (s.rememberRendezvous deviceId room).deviceRendezvous.find deviceId = some row) :
    row.rendezvous = room := by
  rw [find_rememberRendezvous, if_pos rfl] at h
  cases hold : s.deviceRendezvous.find deviceId <;> rw [hold] at h <;> cases h <;> rfl

/-- What `authenticated` does. -/
theorem authenticated_step {i : Nat} {peer : DeviceId} (h : step s (.authenticated i peer) = some t) :
    ∃ session u, s.sessions i = some session ∧ u.deviceRendezvous = s.deviceRendezvous ∧
      t = s.pendingRendezvous.elim u fun room => u.rememberRendezvous peer room := by
  simp only [step] at h
  split at h
  case h_1 session hi =>
    split at h <;> cases h
    exact ⟨session, s.setSession i { session with stage := .authenticated peer }, hi, rfl, rfl⟩
  case h_2 => cases h

/-- A row stays, goes, or is recorded when a session authenticates. -/
theorem row_step {action : SessionAction} {row : RendezvousRow} (h : step s action = some t)
    (hrow : row ∈ t.deviceRendezvous.rows) : row ∈ s.deviceRendezvous.rows ∨
      ∃ i session, action = .authenticated i row.deviceId ∧ s.sessions i = some session ∧
        s.pendingRendezvous = some row.rendezvous := by
  cases action
  case authenticated i peer =>
    obtain ⟨session, u, hi, htable, rfl⟩ := authenticated_step h
    cases hroom : s.pendingRendezvous with
    | none =>
      rw [hroom] at hrow
      exact .inl (htable ▸ hrow)
    | some room =>
      rw [hroom] at hrow
      have hfind := Table.find_of_mem hrow
      by_cases hpeer : peer = row.deviceId
      · subst hpeer
        exact .inr ⟨i, session, rfl, hi, by rw [rendezvous_rememberRendezvous hfind]⟩
      · refine .inl (Table.mem_of_find (k := row.deviceId) ?_)
        rw [← htable]
        exact ((find_rememberRendezvous ..).trans (if_neg hpeer)).symm.trans hfind
  all_goals simp only [step] at h
  case codeReturned code =>
    obtain ⟨room, -, rfl⟩ := Option.map_eq_some_iff.mp h
    exact .inl hrow
  case rendezvousFor deviceId =>
    split at h <;> cases h <;> exact .inl hrow
  case standingRendezvous deviceId =>
    split at h
    · cases h
    · split at h <;> cases h
      exact .inl hrow
  case peerOpened peerId room =>
    split at h <;> cases h
    exact .inl hrow
  case runSession peerId pairingMode =>
    cases h
    unfold Sessions.start at hrow
    split at hrow <;> exact .inl hrow
  case onPeerInitiated peerId =>
    cases h
    unfold Sessions.start at hrow
    split at hrow <;> exact .inl hrow
  case awaitPairingConfirmation i peer =>
    split at h <;> cases h
    unfold ask at hrow
    split at hrow <;> exact .inl hrow
  case answerVerification confirmed =>
    cases h
    obtain ⟨_, _, _, heq⟩ := settleVerification_eq confirmed s
    rw [heq] at hrow
    exact .inl hrow
  case timer timer =>
    split at h <;> cases h
    obtain ⟨_, _, _, heq⟩ := settleVerification_eq false
      { s with timers := s.timers.filter (·.1 ≠ timer) }
    rw [heq] at hrow
    exact .inl hrow
  case ends i completed =>
    split at h
    · split at h <;> cases h
      unfold finish at hrow
      obtain ⟨_, _, _, heq⟩ := settleVerification_eq false (s.setSession i _)
      rw [heq] at hrow
      exact .inl hrow
    · cases h
  case forgetDevice deviceId =>
    cases h
    exact .inl (List.mem_filter.mp hrow).1
  all_goals
    cases h
    exact .inl hrow

theorem MetIn.append {start : Sessions} {before : List SessionAction} {deviceId : DeviceId}
    {room : Rendezvous} (h : MetIn start before deviceId room) (more : List SessionAction) :
    MetIn start (before ++ more) deviceId room := by
  rcases h with hold | ⟨first, i, rest, s, session, rfl, h⟩
  · exact .inl hold
  · exact .inr ⟨first, i, rest ++ more, s, session, by simp, h⟩

/-- Every row tells where its device was met. -/
theorem metIn_of_joinedLast {start : Sessions} {before : List SessionAction} {row : RendezvousRow}
    (hmeets : Meets step JoinedLast start before) (h : play step start before = some s)
    (hrow : row ∈ s.deviceRendezvous.rows) : MetIn start before row.deviceId row.rendezvous := by
  induction before using List.reverseRecOn generalizing s row with
  | nil =>
    cases h
    exact .inl ⟨row, hrow, rfl, rfl⟩
  | append_singleton before action ih =>
    obtain ⟨u, hu, hlast⟩ := play_split h
    obtain ⟨u', hstep, hu'⟩ := Option.bind_eq_some_iff.mp hlast
    cases hu'
    have hjoined := (meets_iff h).mp hmeets
    rcases row_step hstep hrow with hold | ⟨i, session, rfl, hi, hroom⟩
    · exact (ih hmeets.of_append hu hold).append _
    · refine .inr ⟨before, i, [], u, session, rfl, hu, hi, ?_⟩
      exact hjoined before _ [] u rfl hu session hi row.rendezvous hroom

/-- A device is remembered at the room it was met in, in exactly those runs in which every session
authenticates while the room that was to be joined last is that of its channel. -/
theorem remembered_iff (deviceRendezvous : Table RendezvousRow.deviceId) (devices : Devices)
    (now : Nat) (actions : List SessionAction) (t : Sessions)
    (h : play step (opened deviceRendezvous devices now) actions = some t) :
    Remembered (opened deviceRendezvous devices now) actions ↔
      Meets step JoinedLast (opened deviceRendezvous devices now) actions := by
  constructor
  · intro hremembered
    refine (meets_iff h).mpr fun before action after s hsplit hs => ?_
    cases action <;> try trivial
    case authenticated i peer =>
      intro session hi room hroom
      obtain ⟨u, u', hu, hstep, -⟩ := play_around (hsplit ▸ h)
      cases hs.symm.trans hu
      obtain ⟨_, v, -, -, rfl⟩ := authenticated_step hstep
      have hfind : ∃ row, (v.rememberRendezvous peer room).deviceRendezvous.find peer = some row :=
        ⟨_, (find_rememberRendezvous ..).trans (if_pos rfl)⟩
      obtain ⟨row, hrow⟩ := hfind
      rw [← rendezvous_rememberRendezvous hrow]
      refine hremembered.records before i peer after s _ session row hsplit hs hstep hi ?_ ?_
      · rw [Option.mem_def.mp hroom]
        rfl
      · rw [Option.mem_def.mp hroom]
        exact hrow
  · intro hmeets
    have hjoined := (meets_iff h).mp hmeets
    refine ⟨fun before i peer after s u session row hsplit hs hstep hi hpending hrow => ?_,
      fun before deviceId after s u hsplit hs hstep => ?_⟩
    · obtain ⟨room, hroom⟩ := Option.isSome_iff_exists.mp hpending
      obtain ⟨_, v, -, -, rfl⟩ := authenticated_step hstep
      rw [hroom] at hrow
      rw [rendezvous_rememberRendezvous hrow]
      exact hjoined before _ after s hsplit hs session hi room hroom
    · simp only [step] at hstep
      split at hstep
      case h_1 =>
        cases hstep
        exact .inl rfl
      case h_2 row hrow =>
        cases hstep
        refine .inr ⟨row.rendezvous, rfl, ?_⟩
        rw [← Table.key_of_find hrow]
        exact metIn_of_joinedLast (hsplit ▸ hmeets).of_append hs (Table.mem_of_find hrow)

/-- The phone is met in the kitchen. -/
theorem remembered_iff_met : Remembered (opened (Table.empty _) (Table.empty _) 0)
    [.readPairingCode kitchenRoom, .peerOpened ⟨"phone"⟩ kitchenRoom, .runSession ⟨"phone"⟩ true,
      .awaitPairingConfirmation 0 ⟨"02"⟩, .answerVerification true, .authenticated 0 ⟨"02"⟩,
      .rendezvousFor ⟨"02"⟩] :=
  (remembered_iff (Table.empty _) (Table.empty _) 0 _ _ rfl).mpr (by decide +kernel)

def gardenRoom : Rendezvous := ⟨"garden", "token", "wss://signal.example"⟩

/-- A second code is read before the session over the first room authenticates. -/
theorem not_remembered_elsewhere : ¬ Remembered (opened (Table.empty _) (Table.empty _) 0)
    [.readPairingCode kitchenRoom, .peerOpened ⟨"phone"⟩ kitchenRoom, .runSession ⟨"phone"⟩ true,
      .awaitPairingConfirmation 0 ⟨"02"⟩, .readPairingCode gardenRoom, .answerVerification true,
      .authenticated 0 ⟨"02"⟩] := by
  intro hremembered
  have hroom := hremembered.records
    [.readPairingCode kitchenRoom, .peerOpened ⟨"phone"⟩ kitchenRoom, .runSession ⟨"phone"⟩ true,
      .awaitPairingConfirmation 0 ⟨"02"⟩, .readPairingCode gardenRoom, .answerVerification true]
    0 ⟨"02"⟩ [] _ _ _ _ rfl rfl rfl rfl rfl rfl
  revert hroom
  decide +kernel

end Sessions

end PassVault
