import PassVault.Services.Sessions

/-!
# The window's syncs

What the window (`packages/ui/src/App.tsx`) does with the peers that it is connected to: whom it
asks `VaultServices` to run a session with when a peer is ready and when a change was recorded, in
any order with what the services do meanwhile.
-/

namespace PassVault

open Machine

namespace Sessions

variable {s t : Sessions}

/-- Whom a session is with. -/
def peerOf (s : Sessions) (i : Nat) : Option PeerId := (s.sessions i).map (·.peerId)

theorem peerOf_setSession (i : Nat) (session : SessionRun) (s : Sessions) :
    (s.setSession i session).peerOf = Function.update s.peerOf i (some session.peerId) := by
  funext j
  show (Function.update s.sessions i (some session) j).map (·.peerId) = _
  by_cases hji : j = i
  · subst hji
    rw [Function.update_self, Function.update_self]
    rfl
  · rw [Function.update_of_ne hji, Function.update_of_ne hji]
    rfl

/-- A session goes on with the same peer. -/
theorem peerOf_goesOn {i : Nat} {session : SessionRun} (hi : s.sessions i = some session)
    (stage : SessionStage) : (s.setSession i { session with stage }).peerOf = s.peerOf := by
  have hpeer : s.peerOf i = some session.peerId := by
    rw [peerOf, hi]
    rfl
  rw [peerOf_setSession, ← hpeer, Function.update_eq_self]

theorem peerOf_settleVerification (confirmed : Bool) (s : Sessions) :
    (s.settleVerification confirmed).peerOf = s.peerOf := by
  unfold settleVerification
  split
  · rfl
  · rename_i pending hpending
    show (s.resolve pending confirmed).peerOf = s.peerOf
    unfold resolve
    split
    · rename_i hsession
      exact peerOf_goesOn hsession _
    · rfl

/-- An action starts a session, or the sessions stay the same and no more of them are in flight. -/
theorem flight_step {action : SessionAction} (h : step s action = some t) :
    (∃ peerId pairingMode, t = s.start peerId pairingMode) ∨
      (t.peerOf = s.peerOf ∧ t.started = s.started ∧
        t.sessionsInFlight ⊆ s.sessionsInFlight) := by
  have hsettles : ∀ (confirmed : Bool) (u : Sessions), u.peerOf = s.peerOf →
      u.started = s.started → u.sessionsInFlight = s.sessionsInFlight →
      (u.settleVerification confirmed).peerOf = s.peerOf ∧
        (u.settleVerification confirmed).started = s.started ∧
        (u.settleVerification confirmed).sessionsInFlight = s.sessionsInFlight := by
    intro confirmed u hpeers hstarted hflight
    refine ⟨(peerOf_settleVerification confirmed u).trans hpeers, ?_⟩
    obtain ⟨_, _, _, heq⟩ := settleVerification_eq confirmed u
    rw [heq]
    exact ⟨hstarted, hflight⟩
  cases action <;> simp only [step] at h
  case codeReturned code =>
    obtain ⟨room, -, rfl⟩ := Option.map_eq_some_iff.mp h
    exact .inr ⟨rfl, rfl, List.Subset.refl _⟩
  case rendezvousFor deviceId =>
    split at h <;> cases h <;> exact .inr ⟨rfl, rfl, List.Subset.refl _⟩
  case standingRendezvous deviceId =>
    split at h
    · cases h
    · split at h <;> cases h
      exact .inr ⟨rfl, rfl, List.Subset.refl _⟩
  case peerOpened peerId room =>
    split at h <;> cases h
    exact .inr ⟨rfl, rfl, List.Subset.refl _⟩
  case runSession peerId pairingMode =>
    cases h
    exact .inl ⟨_, _, rfl⟩
  case onPeerInitiated peerId =>
    cases h
    exact .inl ⟨_, _, rfl⟩
  case awaitPairingConfirmation i peer =>
    split at h
    case h_1 peerId hi =>
      cases h
      unfold ask
      split <;> exact .inr ⟨peerOf_goesOn hi _, rfl, List.Subset.refl _⟩
    case h_2 => cases h
  case answerVerification confirmed =>
    cases h
    obtain ⟨hpeers, hstarted, hflight⟩ := hsettles confirmed s rfl rfl rfl
    exact .inr ⟨hpeers, hstarted, fun _ hmem => hflight ▸ hmem⟩
  case timer timer =>
    split at h <;> cases h
    obtain ⟨hpeers, hstarted, hflight⟩ :=
      hsettles false { s with timers := s.timers.filter (·.1 ≠ timer) } rfl rfl rfl
    exact .inr ⟨hpeers, hstarted, fun _ hmem => hflight ▸ hmem⟩
  case authenticated i peer =>
    split at h
    case h_1 session hi =>
      split at h <;> cases h
      cases s.pendingRendezvous <;>
        exact .inr ⟨peerOf_goesOn hi (.authenticated peer), rfl, List.Subset.refl _⟩
    case h_2 => cases h
  case ends i completed =>
    split at h
    case h_1 session hi =>
      split at h <;> cases h
      obtain ⟨hpeers, hstarted, hflight⟩ :=
        hsettles false (s.setSession i { session with stage := .ended completed })
          (peerOf_goesOn hi _) rfl rfl
      refine .inr ⟨hpeers, hstarted, fun peerId hmem => ?_⟩
      have hmem' := List.mem_of_mem_erase hmem
      rwa [hflight] at hmem'
    case h_2 => cases h
  all_goals
    cases h
    exact .inr ⟨rfl, rfl, List.Subset.refl _⟩

end Sessions

/-- `runSession`, which only the window calls. -/
def SessionAction.isCall : SessionAction → Bool
  | runSession .. => true
  | _ => false

/-- The call of `runSession` that `runSync` waits for. -/
inductive SyncCall where
  /-- On its way to the services. -/
  | sent (peerId : PeerId) (pairingMode : Bool)
  | running (session : Nat)
  /-- A session with that peer was in flight. -/
  | refused
deriving DecidableEq, Repr

structure App where
  services : Sessions
  readyPeers : List PeerId
  pairingMode : Bool
  /-- There is one while `syncing.current`. -/
  call : Option SyncCall
  /-- The notifications that the window has not got yet. -/
  suggestions : Nat
  /-- The peers that were ready when the last notification was raised. -/
  readyThen : List PeerId
  /-- How many sessions had started by then. -/
  startedThen : Nat

inductive AppAction where
  /-- The services have recorded a change and raise `onSyncSuggested`. -/
  | suggest
  | onSyncSuggested
  | onPeer (peerId : PeerId)
  | onClosed (peerId : PeerId)
  | setPairingMode (pairingMode : Bool)
  /-- The call gets to the services. -/
  | called
  /-- `runSession` returns to the window. -/
  | returned
  /-- Anything else that happens in the services. -/
  | services (action : SessionAction)

namespace App

def opened (deviceRendezvous : Table RendezvousRow.deviceId) (devices : Devices) (now : Nat) :
    App where
  services := .opened deviceRendezvous devices now
  readyPeers := []
  pairingMode := false
  call := none
  suggestions := 0
  readyThen := []
  startedThen := 0

def runSync (peerId : PeerId) (s : App) : App :=
  if s.call.isSome then s else { s with call := some (.sent peerId s.pairingMode) }

def step (s : App) : AppAction → Option App
  | .suggest => some { s with
      suggestions := s.suggestions + 1
      readyThen := s.readyPeers
      startedThen := s.services.started }
  | .onSyncSuggested =>
    match s.suggestions with
    | 0 => none
    | suggestions + 1 =>
      match s.readyPeers with
      | [] => some { s with suggestions }
      | peerId :: _ => some (runSync peerId { s with suggestions })
  | .onPeer peerId =>
    some (runSync peerId { s with
      readyPeers := if peerId ∈ s.readyPeers then s.readyPeers else s.readyPeers ++ [peerId] })
  | .onClosed peerId => some { s with readyPeers := s.readyPeers.filter (· ≠ peerId) }
  | .setPairingMode pairingMode => some { s with pairingMode }
  | .called =>
    match s.call with
    | some (.sent peerId pairingMode) =>
      if peerId ∈ s.services.sessionsInFlight then some { s with call := some .refused }
      else some { s with
        services := s.services.start peerId pairingMode
        call := some (.running s.services.started) }
    | _ => none
  | .returned =>
    match s.call with
    | some (.running i) =>
      match s.services.sessions i with
      | some ⟨_, _, .ended _⟩ => some { s with call := none }
      | _ => none
    | some .refused => some { s with call := none }
    | _ => none
  | .services action =>
    if action.isCall then none
    else (s.services.step action).map fun services => { s with services }

/-- The peer of a call that has not got to the services. -/
def asked (s : App) : Option PeerId :=
  match s.call with
  | some (.sent peerId _) => some peerId
  | _ => none

/-- The peer was ready when the last notification was raised, and no session with it has started
since. -/
def Owed (s : App) (peerId : PeerId) : Prop :=
  peerId ∈ s.readyThen ∧ ∀ i, s.startedThen ≤ i → s.services.peerOf i ≠ some peerId

/-- No session runs or is asked for, and no notification is on its way. -/
structure Quiescent (s : App) : Prop where
  flight : s.services.sessionsInFlight = []
  asked : s.asked = none
  suggestions : s.suggestions = 0

/-- A session with each peer that is ready and was when the last notification was raised has started
since then. -/
def Pushed (s : App) : Prop :=
  s.Quiescent → ∀ peerId ∈ s.readyPeers, peerId ∈ s.readyThen →
    ∃ i session, s.startedThen ≤ i ∧ s.services.sessions i = some session ∧
      session.peerId = peerId

/-- The last notification finds the window able to ask for the one peer that is owed a session, and
so does such a peer that comes back after it. -/
def Prompt (s : App) : AppAction → Prop
  | .onSyncSuggested => s.suggestions = 1 → ∀ peerId ∈ s.readyPeers, s.Owed peerId →
      (s.asked = some peerId ∨ s.call = none ∧ s.readyPeers.head? = some peerId) ∧
        peerId ∉ s.services.sessionsInFlight
  | .onPeer peerId => s.suggestions = 0 → s.Owed peerId →
      (s.asked = some peerId ∨ s.call = none) ∧ peerId ∉ s.services.sessionsInFlight
  | _ => True

/-- A notification is on its way, or each peer that is owed a session is asked for. -/
def Seen (s : App) : Prop :=
  s.suggestions = 0 → ∀ peerId ∈ s.readyPeers, s.Owed peerId →
    s.asked = some peerId ∧ peerId ∉ s.services.sessionsInFlight

variable {s t : App}

theorem pushed_of_seen (hs : s.Seen) : s.Pushed := by
  intro hquiescent peerId hready hthen
  by_contra hnone
  have howed : s.Owed peerId := by
    refine ⟨hthen, fun i hi hpeer => hnone ?_⟩
    obtain ⟨session, hsession, rfl⟩ := Option.map_eq_some_iff.mp hpeer
    exact ⟨i, session, hi, hsession, rfl⟩
  have hasked := (hs hquiescent.suggestions peerId hready howed).1
  rw [hquiescent.asked] at hasked
  cases hasked

/-- The sessions are counted. -/
structure Counted (s : App) : Prop where
  shown : s.services.Shown
  since : s.startedThen ≤ s.services.started

theorem Counted.bound (hs : s.Counted) {i : Nat} {p : PeerId}
    (hpeer : s.services.peerOf i = some p) : i < s.services.started := by
  obtain ⟨session, hsession, -⟩ := Option.map_eq_some_iff.mp hpeer
  exact hs.shown.bound i session hsession

/-- A session with a peer that is owed one after it has started is not with that peer, nor does it
get in its way. -/
theorem Counted.owed_start (hs : s.Counted) {q p : PeerId} {pairingMode : Bool}
    {call : Option SyncCall}
    (howed : Owed { s with services := s.services.start q pairingMode, call } p) :
    s.Owed p ∧ (p ∉ s.services.sessionsInFlight →
      p ≠ q ∧ p ∉ (s.services.start q pairingMode).sessionsInFlight) := by
  obtain ⟨hthen, hnone⟩ := howed
  by_cases hflight : q ∈ s.services.sessionsInFlight
  · have hsame : s.services.start q pairingMode = s.services := if_pos hflight
    rw [hsame]
    refine ⟨⟨hthen, fun i hi => ?_⟩, fun hp => ⟨?_, hp⟩⟩
    · rw [← hsame]
      exact hnone i hi
    · rintro rfl
      exact hp hflight
  · have hpeers : (s.services.start q pairingMode).peerOf =
        Function.update s.services.peerOf s.services.started (some q) := by
      unfold Sessions.start
      rw [if_neg hflight]
      exact Sessions.peerOf_setSession _ _ _
    have hne : p ≠ q := by
      rintro rfl
      refine hnone s.services.started hs.since ?_
      show (s.services.start p pairingMode).peerOf _ = _
      rw [hpeers, Function.update_self]
    refine ⟨⟨hthen, fun i hi hpeer => hnone i hi ?_⟩, fun hp => ⟨hne, ?_⟩⟩
    · show (s.services.start q pairingMode).peerOf i = _
      rw [hpeers, Function.update_of_ne (Nat.ne_of_lt (hs.bound hpeer)), hpeer]
    · unfold Sessions.start
      rw [if_neg hflight]
      simp [hp, hne]

/-- What the services do about a peer that is asked for. -/
theorem Seen.services (hs : s.Seen) (hcounted : s.Counted) {action : SessionAction}
    {services : Sessions} (h : s.services.step action = some services) :
    Seen { s with services } := by
  intro hnone p hready howed
  rcases Sessions.flight_step h with ⟨q, pairingMode, rfl⟩ | ⟨hpeers, -, hflight⟩
  · obtain ⟨hbefore, hclear⟩ := hcounted.owed_start howed
    obtain ⟨hasked, hp⟩ := hs hnone p hready hbefore
    exact ⟨hasked, (hclear hp).2⟩
  · have hbefore : s.Owed p := by
      refine ⟨howed.1, fun i hi => ?_⟩
      rw [← hpeers]
      exact howed.2 i hi
    obtain ⟨hasked, hp⟩ := hs hnone p hready hbefore
    exact ⟨hasked, fun hmem => hp (hflight hmem)⟩

theorem Counted.start (hs : s.Counted) (peerId : PeerId) (pairingMode : Bool) :
    s.startedThen ≤ (s.services.start peerId pairingMode).started := by
  have hsince := hs.since
  unfold Sessions.start
  split
  · exact hsince
  · show s.startedThen ≤ s.services.started + 1
    omega

theorem runSync_eq (peerId : PeerId) (s : App) : ∃ call, runSync peerId s = { s with call } := by
  unfold runSync
  split <;> exact ⟨_, rfl⟩

theorem Counted.step {action : AppAction} (hs : s.Counted) (h : step s action = some t) :
    t.Counted := by
  cases action <;> simp only [App.step] at h
  case onSyncSuggested =>
    split at h
    · cases h
    · split at h <;> cases h
      · exact ⟨hs.shown, hs.since⟩
      · obtain ⟨_, heq⟩ := runSync_eq ‹PeerId› { s with suggestions := ‹Nat› }
        rw [heq]
        exact ⟨hs.shown, hs.since⟩
  case onPeer peerId =>
    cases h
    obtain ⟨_, heq⟩ := runSync_eq peerId { s with
      readyPeers := if peerId ∈ s.readyPeers then s.readyPeers else s.readyPeers ++ [peerId] }
    rw [heq]
    exact ⟨hs.shown, hs.since⟩
  case called =>
    split at h
    · split at h <;> cases h
      · exact ⟨hs.shown, hs.since⟩
      · exact ⟨hs.shown.start _ _, hs.start _ _⟩
    · cases h
  case returned =>
    split at h
    · split at h <;> cases h
      exact ⟨hs.shown, hs.since⟩
    · cases h
      exact ⟨hs.shown, hs.since⟩
    · cases h
  case services action =>
    split at h
    · cases h
    · obtain ⟨services, hservices, rfl⟩ := Option.map_eq_some_iff.mp h
      refine ⟨hs.shown.step hservices, ?_⟩
      rcases Sessions.flight_step hservices with ⟨peerId, pairingMode, rfl⟩ | ⟨-, hstarted, -⟩
      · exact hs.start peerId pairingMode
      · exact hstarted ▸ hs.since
  case suggest =>
    cases h
    exact ⟨hs.shown, Nat.le_refl _⟩
  all_goals
    cases h
    exact ⟨hs.shown, hs.since⟩

/-- Whom the window asks for, once `runSync` is called. -/
theorem asked_runSync (peerId p : PeerId) (s : App) :
    (runSync peerId s).asked = some p ↔ s.asked = some p ∨ s.call = none ∧ peerId = p := by
  unfold runSync asked
  cases hcall : s.call <;> simp [hcall]

theorem seen_runSync (peerId : PeerId) (s : App) :
    (runSync peerId s).Seen ↔ (s.suggestions = 0 → ∀ p ∈ s.readyPeers, s.Owed p →
      (s.asked = some p ∨ s.call = none ∧ peerId = p) ∧ p ∉ s.services.sessionsInFlight) := by
  have hasked := fun p => asked_runSync peerId p s
  obtain ⟨call, heq⟩ := runSync_eq peerId s
  rw [heq] at hasked ⊢
  unfold Seen
  simp only [hasked]
  exact Iff.rfl

/-- While nothing is owed but what is asked for, a step keeps it so exactly if it is prompt. -/
theorem seen_iff_prompt {action : AppAction} (hcounted : s.Counted) (hs : s.Seen)
    (h : step s action = some t) : t.Seen ↔ s.Prompt action := by
  cases action <;> simp only [App.step] at h
  case suggest =>
    cases h
    exact ⟨fun _ => trivial, nofun⟩
  case onSyncSuggested =>
    split at h
    case h_1 => cases h
    case h_2 suggestions hsuggestions =>
      have hlast : s.suggestions = 1 ↔ suggestions = 0 := by omega
      unfold Prompt
      simp only [hlast]
      split at h <;> rename_i hready
      · cases h
        unfold Seen
        simp only [hready]
        exact iff_of_true nofun nofun
      · rename_i first others
        cases h
        rw [seen_runSync]
        simp only [hready, List.head?_cons, Option.some.injEq]
        exact Iff.rfl
  case onPeer peerId =>
    cases h
    rw [seen_runSync]
    refine ⟨fun hseen hnone howed => ?_, fun hprompt hnone p hready howed => ?_⟩
    · obtain ⟨hasked, hflight⟩ := hseen hnone peerId (by split <;> simp [*]) howed
      exact ⟨hasked.imp_right And.left, hflight⟩
    · by_cases hp : p = peerId
      · subst hp
        obtain ⟨hasked, hflight⟩ := hprompt hnone howed
        exact ⟨hasked.imp_right fun hcall => ⟨hcall, rfl⟩, hflight⟩
      · have hold : p ∈ s.readyPeers := by
          split at hready
          · exact hready
          · simpa [hp] using hready
        obtain ⟨hasked, hflight⟩ := hs hnone p hold howed
        exact ⟨.inl hasked, hflight⟩
  case onClosed peerId =>
    cases h
    exact ⟨fun _ => trivial, fun _ hnone p hp => hs hnone p (List.mem_of_mem_filter hp)⟩
  case setPairingMode pairingMode =>
    cases h
    exact ⟨fun _ => trivial, fun _ => hs⟩
  case called =>
    refine ⟨fun _ => trivial, fun _ hnone p hready howed => ?_⟩
    split at h
    case h_1 q pairingMode hcall =>
      have hasked : s.asked = some q := by
        rw [asked, hcall]
      split at h <;> cases h
      case isTrue hflight =>
        obtain ⟨hp, hclear⟩ := hs hnone p hready howed
        cases hasked.symm.trans hp
        exact absurd hflight hclear
      case isFalse hflight =>
        obtain ⟨hbefore, hclear⟩ := hcounted.owed_start howed
        obtain ⟨hp, hnotflight⟩ := hs hnone p hready hbefore
        cases hasked.symm.trans hp
        exact absurd rfl (hclear hnotflight).1
    case h_2 => cases h
  case returned =>
    refine ⟨fun _ => trivial, fun _ hnone p hready howed => ?_⟩
    have hkept : t = { s with call := none } ∧ s.asked = none := by
      unfold asked
      split at h
      case h_1 i hcall =>
        split at h <;> cases h
        exact ⟨rfl, by rw [hcall]⟩
      case h_2 hcall =>
        cases h
        exact ⟨rfl, by rw [hcall]⟩
      case h_3 => cases h
    obtain ⟨rfl, hasked⟩ := hkept
    have hp := (hs hnone p hready howed).1
    rw [hasked] at hp
    cases hp
  case services action =>
    split at h
    · cases h
    · obtain ⟨services, hservices, rfl⟩ := Option.map_eq_some_iff.mp h
      exact ⟨fun _ => trivial, fun _ => hs.services hcounted hservices⟩

theorem counted_play {deviceRendezvous : Table RendezvousRow.deviceId} {devices : Devices}
    {now : Nat} {actions : List AppAction}
    (h : play step (opened deviceRendezvous devices now) actions = some s) : s.Counted :=
  play_keeps (fun _ _ _ _ hs hstep => hs.step hstep) h ⟨⟨nofun, nofun, nofun⟩, Nat.le_refl _⟩

/-- In a run whose steps are all prompt, nothing is owed but what is on its way. -/
theorem seen_play {deviceRendezvous : Table RendezvousRow.deviceId} {devices : Devices} {now : Nat}
    {actions : List AppAction}
    (h : play step (opened deviceRendezvous devices now) actions = some s)
    (hprompt : Meets step Prompt (opened deviceRendezvous devices now) actions) : s.Seen := by
  have hkept : s.Counted ∧ s.Seen := by
    refine hprompt.keeps (P := fun s => s.Counted ∧ s.Seen) ?_ h
      ⟨⟨⟨nofun, nofun, nofun⟩, Nat.le_refl _⟩, nofun⟩
    intro s action t hs haction hstep
    exact ⟨hs.1.step hstep, (seen_iff_prompt hs.1 hs.2 hstep).mpr haction⟩
  exact hkept.2

/-- Every recorded change is pushed to whom is ready, in a run whose steps are all prompt. -/
theorem pushed_of_prompt (deviceRendezvous : Table RendezvousRow.deviceId) (devices : Devices)
    (now : Nat) (actions : List AppAction) (s : App)
    (h : play step (opened deviceRendezvous devices now) actions = some s)
    (hprompt : Meets step Prompt (opened deviceRendezvous devices now) actions) : s.Pushed :=
  pushed_of_seen (seen_play h hprompt)

/-- The phone is synchronised with, and again after a change. -/
def changedAfter : List AppAction :=
  [.onPeer ⟨"phone"⟩, .called, .services (.ends 0 false), .returned, .suggest, .onSyncSuggested,
    .called, .services (.ends 1 false), .returned]

theorem pushed_changedAfter : ∃ s,
    play step (opened (Table.empty _) (Table.empty _) 0) changedAfter = some s ∧ s.Pushed := by
  refine ⟨_, rfl, pushed_of_prompt (Table.empty _) (Table.empty _) 0 changedAfter _ rfl ?_⟩
  refine .cons (fun _ howed => nomatch howed.1) rfl <| .cons trivial rfl <| .cons trivial rfl <|
    .cons trivial rfl <| .cons trivial rfl <| .cons ?_ rfl <| .cons trivial rfl <|
    .cons trivial rfl <| .cons trivial rfl trivial
  intro _ peerId hready _
  cases List.mem_singleton.mp hready
  exact ⟨.inr ⟨rfl, rfl⟩, nofun⟩

/-- A change is recorded while the phone is synchronised with. -/
def changedMeanwhile : List AppAction :=
  [.services (.readPairingCode Sessions.kitchenRoom),
    .services (.peerOpened ⟨"phone"⟩ Sessions.kitchenRoom), .onPeer ⟨"phone"⟩, .called,
    .services (.authenticated 0 ⟨"02"⟩), .suggest, .onSyncSuggested, .services (.ends 0 true),
    .returned]

/-- Nothing tells the phone of it. -/
theorem not_pushed_changedMeanwhile : ∃ s,
    play step (opened (Table.empty _) (Table.empty _) 0) changedMeanwhile = some s ∧
      ¬ s.Pushed := by
  have hplay : play step (opened (Table.empty _) (Table.empty _) 0) changedMeanwhile = some _ := rfl
  refine ⟨_, hplay, fun hpushed => ?_⟩
  obtain ⟨i, session, hi, hsession, -⟩ :=
    hpushed ⟨rfl, rfl, rfl⟩ ⟨"phone"⟩ (List.mem_singleton.mpr rfl) (List.mem_singleton.mpr rfl)
  have hlt : i < 1 := (counted_play hplay).shown.bound i session hsession
  exact absurd hi (Nat.not_le_of_lt hlt)

end App

end PassVault
