import PassVault.Lib.Machine
import PassVault.Transport.PeerLinkHub

/-!
# The hello of a peer

The hub of the links to peers beside `runSession` and `onPeerInitiated` of `VaultServices`
(`packages/services/src/vaultServices.ts`): which session hears which frame. A call runs to its end
before the next frame arrives, the microtask in which `createLink` releases frames included.
-/

namespace PassVault

open Machine

structure PeerSessions where
  hub : PeerLinkHub
  /-- `sessionsInFlight`, and the link of each. -/
  inFlight : PeerId → Option Nat
  /-- The control frames that the session of a link has heard. -/
  heard : Nat → List PeerFrame
  /-- The links of the sessions that `onPeerInitiated` has started. -/
  invited : List Nat

inductive PeerSessionsAction where
  | deliverInbound (frame : PeerFrame)
  | runSession (peerId : PeerId)
  /-- The `finally` of `runSession`, however the session came to its end. -/
  | ends (peerId : PeerId)
  /-- The channels to the peer are gone. -/
  | peerClosed (peerId : PeerId)
deriving DecidableEq, Repr

namespace PeerSessions

def fresh : PeerSessions := ⟨.new, fun _ => none, fun _ => [], []⟩

def hear (link : Nat) (frame : PeerFrame) (s : PeerSessions) : PeerSessions :=
  { s with heard := Function.update s.heard link (s.heard link ++ [frame]) }

/-- What a frame does, and whether the hub invites the peer. -/
def deliver (parse : Text → Option Json) (frame : PeerFrame) (s : PeerSessions) :
    PeerSessions × Bool :=
  let (hub, delivery) := s.hub.deliverInbound parse frame
  let s := { s with hub }
  match delivery with
  | .control link _ => (s.hear link frame, false)
  | .held invited => (s, invited)
  | .bulk .. | .dropped => (s, false)

def runSession (parse : Text → Option Json) (invited : Bool) (peerId : PeerId)
    (s : PeerSessions) : PeerSessions :=
  match s.inFlight peerId with
  | some _ => s
  | none =>
    let link := s.hub.created
    let (hub, held) := s.hub.createLink peerId
    held.foldl (fun s frame => (s.deliver parse frame).1)
      { s with
        hub
        inFlight := Function.update s.inFlight peerId (some link)
        invited := if invited then link :: s.invited else s.invited }

def onPeerInitiated (parse : Text → Option Json) (peerId : PeerId) (s : PeerSessions) :
    PeerSessions :=
  if (s.inFlight peerId).isSome then s else s.runSession parse true peerId

def deliverInbound (parse : Text → Option Json) (frame : PeerFrame) (s : PeerSessions) :
    PeerSessions :=
  let (s, invited) := s.deliver parse frame
  if invited then s.onPeerInitiated parse frame.peerId else s

def closeLink (peerId : PeerId) (s : PeerSessions) : PeerSessions :=
  { s with hub := (s.hub.closeLink peerId).1 }

def step (parse : Text → Option Json) (s : PeerSessions) :
    PeerSessionsAction → Option PeerSessions
  | .deliverInbound frame => some (s.deliverInbound parse frame)
  | .runSession peerId => some (s.runSession parse false peerId)
  | .ends peerId => (s.inFlight peerId).map fun _ =>
    { s with inFlight := Function.update s.inFlight peerId none }.closeLink peerId
  | .peerClosed peerId => some (s.closeLink peerId)

/-- The session with the peer has heard no hello yet. -/
def WaitsForHello (parse : Text → Option Json) (s : PeerSessions) (peerId : PeerId) : Prop :=
  ∃ link ∈ s.inFlight peerId, s.hub.links peerId = some link ∧
    ∀ frame ∈ s.heard link, opensASession parse frame = false

instance (parse : Text → Option Json) (s : PeerSessions) : DecidablePred (s.WaitsForHello parse) :=
  fun peerId => inferInstanceAs (Decidable (∃ link ∈ s.inFlight peerId,
    s.hub.links peerId = some link ∧ ∀ frame ∈ s.heard link, opensASession parse frame = false))

/-- No hello is lost. -/
structure KeepsHellos (parse : Text → Option Json) (actions : List PeerSessionsAction) : Prop where
  /-- One that no session waits for is the first that a new session hears, which the hub has
  caused to start. -/
  starts : ∀ before frame after s t, actions = before ++ .deliverInbound frame :: after →
    play (step parse) fresh before = some s → step parse s (.deliverInbound frame) = some t →
    opensASession parse frame = true → ¬ s.WaitsForHello parse frame.peerId →
    ∃ link, s.hub.created ≤ link ∧ t.inFlight frame.peerId = some link ∧ link ∈ t.invited ∧
      (t.heard link).head? = some frame
  /-- A session that has heard its hello hears no other. -/
  once : ∀ before frame after s t link hello, actions = before ++ .deliverInbound frame :: after →
    play (step parse) fresh before = some s → step parse s (.deliverInbound frame) = some t →
    opensASession parse frame = true → hello ∈ s.heard link → opensASession parse hello = true →
    t.heard link = s.heard link
  /-- What waits in the hub leaves it only for a session. -/
  held : ∀ before action after s t peerId frame, actions = before ++ action :: after →
    play (step parse) fresh before = some s → step parse s action = some t →
    frame ∈ s.hub.waiting peerId → frame ∈ t.hub.waiting peerId ∨
      ∃ link, s.hub.created ≤ link ∧ frame ∈ t.heard link
  /-- Nothing waits there while no session is running. -/
  waits : ∀ before after s peerId, actions = before ++ after →
    play (step parse) fresh before = some s → s.hub.waiting peerId ≠ [] →
    (s.inFlight peerId).isSome = true

/-- A hello arrives while no session with the peer is in flight, or while it is waited for. -/
def Timely (parse : Text → Option Json) (s : PeerSessions) : PeerSessionsAction → Prop
  | .deliverInbound frame => opensASession parse frame = true →
    s.inFlight frame.peerId = none ∨ s.WaitsForHello parse frame.peerId
  | _ => True

instance (parse : Text → Option Json) (s : PeerSessions) : DecidablePred (s.Timely parse)
  | .deliverInbound frame => inferInstanceAs (Decidable (opensASession parse frame = true →
      s.inFlight frame.peerId = none ∨ s.WaitsForHello parse frame.peerId))
  | .runSession _ | .ends _ | .peerClosed _ => isTrue trivial

variable {parse : Text → Option Json} {s t : PeerSessions}

/-! ## What an action does -/

/-- The state in which a new session has heard `frames`. -/
def started (invited : Bool) (peerId : PeerId) (frames : List PeerFrame) (s : PeerSessions) :
    PeerSessions where
  hub := (s.hub.createLink peerId).1
  inFlight := Function.update s.inFlight peerId (some s.hub.created)
  heard := Function.update s.heard s.hub.created (s.heard s.hub.created ++ frames)
  invited := if invited then s.hub.created :: s.invited else s.invited

theorem text_of_opens {frame : PeerFrame} (h : opensASession parse frame = true) :
    frame.channel = .control ∧ ∃ text, frame.text = some text := by
  unfold opensASession at h
  split at h
  · rename_i text hchannel htext
    exact ⟨hchannel, text, htext⟩
  · cases h

/-- Where the peer has a link, its session hears the frame or nothing happens. -/
theorem deliver_open (parse : Text → Option Json) {frame : PeerFrame} {link : Nat}
    (hlink : s.hub.links frame.peerId = some link) :
    s.deliver parse frame = (s, false) ∨ s.deliver parse frame = (s.hear link frame, false) := by
  unfold deliver PeerLinkHub.deliverInbound
  rw [hlink]
  obtain ⟨peerId, channel, text, bytes⟩ := frame
  cases channel <;> cases text <;> cases bytes <;> first | exact .inl rfl | exact .inr rfl

theorem deliver_opens {frame : PeerFrame} {link : Nat} (hopens : opensASession parse frame = true)
    (hlink : s.hub.links frame.peerId = some link) :
    s.deliver parse frame = (s.hear link frame, false) := by
  obtain ⟨hchannel, text, htext⟩ := text_of_opens hopens
  unfold deliver PeerLinkHub.deliverInbound
  rw [hlink]
  dsimp only
  rw [hchannel, htext]

/-- What waits for the peer of a frame when the frame is held. -/
def holding (frame : PeerFrame) (s : PeerSessions) : List PeerFrame :=
  let waiting := s.hub.waiting frame.peerId
  if waiting.length < PeerLinkHub.maxWaiting then waiting ++ [frame] else waiting

def hold (frame : PeerFrame) (s : PeerSessions) : PeerSessions :=
  { s with
    hub := { s.hub with
      waiting := Function.update s.hub.waiting frame.peerId (s.holding frame) } }

theorem deliver_closed {frame : PeerFrame} (hopens : opensASession parse frame = true)
    (hlink : s.hub.links frame.peerId = none) :
    s.deliver parse frame = (s.hold frame, decide ((s.holding frame).length = 1)) := by
  unfold deliver PeerLinkHub.deliverInbound
  rw [hlink]
  dsimp only
  rw [if_pos hopens]
  rfl

theorem deliver_other {frame : PeerFrame} (hopens : opensASession parse frame = false)
    (hlink : s.hub.links frame.peerId = none) : s.deliver parse frame = (s, false) := by
  unfold deliver PeerLinkHub.deliverInbound
  rw [hlink]
  dsimp only
  rw [if_neg (by simp [hopens])]

/-- What is released is heard, in its order. -/
theorem release {peerId : PeerId} {link : Nat} {frames : List PeerFrame}
    (hframes : ∀ frame ∈ frames, opensASession parse frame = true ∧ frame.peerId = peerId)
    (hlink : s.hub.links peerId = some link) :
    frames.foldl (fun s frame => (s.deliver parse frame).1) s =
      { s with heard := Function.update s.heard link (s.heard link ++ frames) } := by
  induction frames generalizing s with
  | nil => simp
  | cons frame rest ih =>
    obtain ⟨hopens, rfl⟩ := hframes frame List.mem_cons_self
    have hrest := ih (s := s.hear link frame)
      (fun other hother => hframes other (List.mem_cons_of_mem _ hother)) hlink
    rw [List.foldl_cons, deliver_opens hopens hlink]
    refine hrest.trans ?_
    simp [hear]

theorem runSession_free {invited : Bool} {peerId : PeerId} (hfree : s.inFlight peerId = none)
    (hframes : ∀ frame ∈ s.hub.waiting peerId,
      opensASession parse frame = true ∧ frame.peerId = peerId) :
    s.runSession parse invited peerId = s.started invited peerId (s.hub.waiting peerId) := by
  unfold runSession
  rw [hfree]
  exact release hframes (Function.update_self ..)

/-- In a session or without one, a peer waits for nobody. -/
structure Sound (s : PeerSessions) : Prop where
  links : ∀ peerId link, s.hub.links peerId = some link → s.inFlight peerId = some link
  waits : ∀ peerId, s.hub.waiting peerId ≠ [] → (s.inFlight peerId).isSome = true
  created : ∀ peerId link, s.inFlight peerId = some link → link < s.hub.created
  unheard : ∀ link, s.hub.created ≤ link → s.heard link = []

theorem Sound.links_free (hs : s.Sound) {peerId : PeerId} (hfree : s.inFlight peerId = none) :
    s.hub.links peerId = none := by
  cases hlink : s.hub.links peerId with
  | none => rfl
  | some link => cases (hs.links peerId link hlink).symm.trans hfree

theorem Sound.waiting_free (hs : s.Sound) {peerId : PeerId} (hfree : s.inFlight peerId = none) :
    s.hub.waiting peerId = [] := by
  by_contra hwaiting
  have hsome := hs.waits peerId hwaiting
  rw [hfree] at hsome
  cases hsome

/-- A hello starts a session where none is in flight, and is the first that it hears. -/
theorem Sound.deliverInbound_free (hs : s.Sound) {frame : PeerFrame}
    (hopens : opensASession parse frame = true) (hfree : s.inFlight frame.peerId = none) :
    s.deliverInbound parse frame = s.started true frame.peerId [frame] := by
  have hholding : s.holding frame = [frame] := by
    unfold holding
    rw [hs.waiting_free hfree]
    rfl
  have hwaiting : (s.hold frame).hub.waiting frame.peerId = [frame] := by
    rw [← hholding]
    exact Function.update_self ..
  unfold deliverInbound
  rw [deliver_closed hopens (hs.links_free hfree), hholding]
  have hgo : (s.hold frame).onPeerInitiated parse frame.peerId =
      (s.hold frame).runSession parse true frame.peerId :=
    if_neg (by simp [hold, hfree])
  refine hgo.trans ((runSession_free (s := s.hold frame) hfree ?_).trans ?_)
  · rw [hwaiting]
    intro other hother
    rw [List.mem_singleton.mp hother]
    exact ⟨hopens, rfl⟩
  · rw [hwaiting]
    simp [started, hold, PeerLinkHub.createLink, PeerLinkHub.closeLink]

/-- A hello waits in vain while the session of a closed link is in flight. -/
theorem deliverInbound_busy {frame : PeerFrame} (hopens : opensASession parse frame = true)
    (hlink : s.hub.links frame.peerId = none) (hbusy : (s.inFlight frame.peerId).isSome = true) :
    s.deliverInbound parse frame = s.hold frame := by
  have hstay : (s.hold frame).onPeerInitiated parse frame.peerId = s.hold frame := if_pos hbusy
  unfold deliverInbound
  rw [deliver_closed hopens hlink]
  dsimp only
  rw [hstay, ite_self]

/-- What an action does: nothing, or a frame is heard or held, or a session starts, or a link is
closed. -/
theorem Sound.step_cases (hs : s.Sound) {action : PeerSessionsAction}
    (h : step parse s action = some t) :
    t = s ∨
    (∃ frame link, action = .deliverInbound frame ∧ s.hub.links frame.peerId = some link ∧
      t = s.hear link frame) ∨
    (∃ frame, action = .deliverInbound frame ∧ opensASession parse frame = true ∧
      s.hub.links frame.peerId = none ∧ (s.inFlight frame.peerId).isSome = true ∧
      t = s.hold frame) ∨
    (∃ invited peerId frames, s.inFlight peerId = none ∧ t = s.started invited peerId frames) ∨
    ∃ peerId inFlight, (∀ other ≠ peerId, inFlight other = s.inFlight other) ∧
      (∀ link ∈ inFlight peerId, s.inFlight peerId = some link) ∧
      t = { s with inFlight }.closeLink peerId := by
  cases action <;> simp only [step] at h
  case deliverInbound frame =>
    cases h
    cases hlink : s.hub.links frame.peerId with
    | some link =>
      unfold deliverInbound
      rcases deliver_open parse hlink with heq | heq <;> rw [heq]
      · exact .inl rfl
      · exact .inr (.inl ⟨frame, link, rfl, hlink, rfl⟩)
    | none =>
      cases hopens : opensASession parse frame with
      | false =>
        unfold deliverInbound
        rw [deliver_other hopens hlink]
        exact .inl rfl
      | true =>
        cases hin : s.inFlight frame.peerId with
        | none =>
          exact .inr (.inr (.inr (.inl
            ⟨true, frame.peerId, [frame], hin, hs.deliverInbound_free hopens hin⟩)))
        | some link =>
          have hbusy : (s.inFlight frame.peerId).isSome = true := by rw [hin]; rfl
          exact .inr (.inr (.inl
            ⟨frame, rfl, hopens, hlink, hbusy, deliverInbound_busy hopens hlink hbusy⟩))
  case runSession peerId =>
    cases h
    cases hin : s.inFlight peerId with
    | some link =>
      refine .inl ?_
      unfold runSession
      rw [hin]
    | none =>
      refine .inr (.inr (.inr (.inl ⟨false, peerId, _, hin, runSession_free hin ?_⟩)))
      rw [hs.waiting_free hin]
      exact fun _ hframe => absurd hframe List.not_mem_nil
  case ends peerId =>
    obtain ⟨link, -, rfl⟩ := Option.map_eq_some_iff.mp h
    refine .inr (.inr (.inr (.inr ⟨peerId, _, fun other hother => ?_, fun link hlink => ?_, rfl⟩)))
    · exact Function.update_of_ne hother ..
    · rw [Function.update_self] at hlink
      cases hlink
  case peerClosed peerId =>
    cases h
    exact .inr (.inr (.inr (.inr ⟨peerId, s.inFlight, fun _ _ => rfl, fun _ hlink => hlink, rfl⟩)))

theorem sound_fresh : fresh.Sound :=
  ⟨nofun, fun _ h => absurd rfl h, nofun, fun _ _ => rfl⟩

theorem Sound.hear (hs : s.Sound) {link : Nat} (frame : PeerFrame) (hlink : link < s.hub.created) :
    (s.hear link frame).Sound := by
  refine ⟨hs.links, hs.waits, hs.created, fun other hother => ?_⟩
  have hne : other ≠ link := by
    rintro rfl
    exact absurd hlink (Nat.not_lt.mpr hother)
  exact (Function.update_of_ne hne ..).trans (hs.unheard other hother)

theorem Sound.hold (hs : s.Sound) {frame : PeerFrame}
    (hbusy : (s.inFlight frame.peerId).isSome = true) : (s.hold frame).Sound := by
  refine ⟨hs.links, fun peerId hwaiting => ?_, hs.created, hs.unheard⟩
  by_cases hpeer : peerId = frame.peerId
  · rw [hpeer]
    exact hbusy
  · simp only [PeerSessions.hold, Function.update_of_ne hpeer] at hwaiting
    exact hs.waits peerId hwaiting

theorem Sound.started (hs : s.Sound) (invited : Bool) (peerId : PeerId)
    (frames : List PeerFrame) : (s.started invited peerId frames).Sound := by
  refine ⟨fun other link hlink => ?_, fun other hwaiting => ?_, fun other link hlink => ?_,
    fun link hlink => ?_⟩
  · by_cases hother : other = peerId
    · subst hother
      simp only [PeerSessions.started, PeerLinkHub.createLink, Function.update_self] at hlink ⊢
      exact hlink
    · simp only [PeerSessions.started, PeerLinkHub.createLink, PeerLinkHub.closeLink,
        Function.update_of_ne hother] at hlink ⊢
      exact hs.links other link hlink
  · by_cases hother : other = peerId
    · subst hother
      simp only [PeerSessions.started, Function.update_self]
      rfl
    · simp only [PeerSessions.started, PeerLinkHub.createLink, PeerLinkHub.closeLink,
        Function.update_of_ne hother] at hwaiting ⊢
      exact hs.waits other hwaiting
  · by_cases hother : other = peerId
    · subst hother
      simp only [PeerSessions.started, Function.update_self] at hlink
      cases hlink
      exact Nat.lt_succ_self _
    · simp only [PeerSessions.started, Function.update_of_ne hother] at hlink
      exact Nat.lt_succ_of_lt (hs.created other link hlink)
  · have hnext : s.hub.created < link := hlink
    exact (Function.update_of_ne (Nat.ne_of_gt hnext) ..).trans (hs.unheard link hnext.le)

theorem Sound.closeLink (hs : s.Sound) {peerId : PeerId} {inFlight : PeerId → Option Nat}
    (hothers : ∀ other ≠ peerId, inFlight other = s.inFlight other)
    (hpeer : ∀ link ∈ inFlight peerId, s.inFlight peerId = some link) :
    ({ s with inFlight }.closeLink peerId).Sound := by
  refine ⟨fun other link hlink => ?_, fun other hwaiting => ?_, fun other link hlink => ?_,
    hs.unheard⟩
  · by_cases hother : other = peerId
    · subst hother
      simp only [PeerSessions.closeLink, PeerLinkHub.closeLink, Function.update_self] at hlink
      cases hlink
    · simp only [PeerSessions.closeLink, PeerLinkHub.closeLink,
        Function.update_of_ne hother] at hlink
      exact (hothers other hother).trans (hs.links other link hlink)
  · by_cases hother : other = peerId
    · subst hother
      simp only [PeerSessions.closeLink, PeerLinkHub.closeLink, Function.update_self] at hwaiting
      exact absurd rfl hwaiting
    · simp only [PeerSessions.closeLink, PeerLinkHub.closeLink,
        Function.update_of_ne hother] at hwaiting
      simp only [PeerSessions.closeLink, hothers other hother]
      exact hs.waits other hwaiting
  · by_cases hother : other = peerId
    · subst hother
      exact hs.created other link (hpeer link hlink)
    · exact hs.created other link ((hothers other hother).symm.trans hlink)

theorem Sound.step {action : PeerSessionsAction} (hs : s.Sound)
    (h : PeerSessions.step parse s action = some t) : t.Sound := by
  rcases hs.step_cases h with rfl | ⟨frame, link, -, hlink, rfl⟩ | ⟨frame, -, -, -, hbusy, rfl⟩ |
    ⟨invited, peerId, frames, -, rfl⟩ | ⟨peerId, inFlight, hothers, hpeer, rfl⟩
  · exact hs
  · exact hs.hear frame (hs.created _ link (hs.links _ link hlink))
  · exact hs.hold hbusy
  · exact hs.started invited peerId frames
  · exact hs.closeLink hothers hpeer

/-- Between two actions nothing waits. -/
def Idle (s : PeerSessions) : Prop := ∀ peerId, s.hub.waiting peerId = []

theorem Idle.step {action : PeerSessionsAction} (hidle : s.Idle) (hs : s.Sound)
    (hC : s.Timely parse action) (h : PeerSessions.step parse s action = some t) : t.Idle := by
  rcases hs.step_cases h with rfl | ⟨frame, link, -, -, rfl⟩ |
    ⟨frame, rfl, hopens, hlink, hbusy, -⟩ | ⟨invited, peerId, frames, -, rfl⟩ |
    ⟨peerId, inFlight, -, -, rfl⟩
  · exact hidle
  · exact hidle
  · rcases hC hopens with hfree | ⟨link, -, hopen, -⟩
    · rw [hfree] at hbusy
      cases hbusy
    · cases hlink.symm.trans hopen
  · intro other
    by_cases hother : other = peerId
    · subst hother
      exact Function.update_self ..
    · exact (Function.update_of_ne hother ..).trans (hidle other)
  · intro other
    by_cases hother : other = peerId
    · subst hother
      exact Function.update_self ..
    · exact (Function.update_of_ne hother ..).trans (hidle other)

theorem sound_play {actions : List PeerSessionsAction}
    (h : play (step parse) fresh actions = some s) : s.Sound :=
  play_keeps (fun _ _ _ _ hs hstep => hs.step hstep) h sound_fresh

theorem idle_play {actions : List PeerSessionsAction}
    (hmeets : Meets (step parse) (Timely parse) fresh actions)
    (h : play (step parse) fresh actions = some s) : s.Idle := by
  have hboth : s.Idle ∧ s.Sound :=
    hmeets.keeps (P := fun s => s.Idle ∧ s.Sound)
      (fun _ _ _ hs hC hstep => ⟨hs.1.step hs.2 hC hstep, hs.2.step hstep⟩) h
      ⟨fun _ => rfl, sound_fresh⟩
  exact hboth.1

/-! ## Hellos -/

/-- A hello that no session waits for starts one only where none is in flight. -/
theorem free_of_starts (hs : s.Sound) {frame : PeerFrame} {link : Nat}
    (hopens : opensASession parse frame = true)
    (h : step parse s (.deliverInbound frame) = some t) (hnew : s.hub.created ≤ link)
    (hlink : t.inFlight frame.peerId = some link) : s.inFlight frame.peerId = none := by
  cases hin : s.inFlight frame.peerId with
  | none => rfl
  | some old =>
    have hsame : t.inFlight frame.peerId = some old := by
      cases h
      cases hopen : s.hub.links frame.peerId with
      | some current =>
        unfold deliverInbound
        rw [deliver_opens hopens hopen]
        exact hin
      | none =>
        rw [deliverInbound_busy hopens hopen (by rw [hin]; rfl)]
        exact hin
    cases hlink.symm.trans hsame
    exact absurd (hs.created _ _ hin) (Nat.not_lt.mpr hnew)

/-- Two hellos are heard by two sessions. -/
theorem Timely.once {frame hello : PeerFrame} {link : Nat}
    (hC : s.Timely parse (.deliverInbound frame)) (hs : s.Sound) (hopens : opensASession parse frame = true)
    (hheard : hello ∈ s.heard link) (hhello : opensASession parse hello = true)
    (h : step parse s (.deliverInbound frame) = some t) : t.heard link = s.heard link := by
  cases h
  rcases hC hopens with hfree | ⟨current, hin, hopen, hunheard⟩
  · rw [hs.deliverInbound_free hopens hfree]
    refine Function.update_of_ne ?_ ..
    rintro rfl
    rw [hs.unheard _ (Nat.le_refl _)] at hheard
    cases hheard
  · unfold deliverInbound
    rw [deliver_opens hopens hopen]
    refine Function.update_of_ne ?_ ..
    rintro rfl
    cases (hunheard hello hheard).symm.trans hhello

/-- **No hello is lost** in exactly those runs in which each arrives while no session with the peer
is in flight or while the session waits for it. -/
theorem keeps_hellos_iff (parse : Text → Option Json) (actions : List PeerSessionsAction)
    (t : PeerSessions) (h : play (step parse) fresh actions = some t) :
    KeepsHellos parse actions ↔ Meets (step parse) (Timely parse) fresh actions := by
  constructor
  · intro hkeeps
    rw [meets_iff h]
    intro before action after u hsplit hbefore
    cases action with
    | runSession | ends | peerClosed => trivial
    | deliverInbound frame =>
      intro hopens
      by_cases hwaits : u.WaitsForHello parse frame.peerId
      · exact .inr hwaits
      · subst hsplit
        obtain ⟨u', v, hu', hv, -⟩ := play_around h
        cases hbefore.symm.trans hu'
        obtain ⟨link, hnew, hlink, -, -⟩ :=
          hkeeps.starts before frame after u v rfl hbefore hv hopens hwaits
        exact .inl (free_of_starts (sound_play hbefore) hopens hv hnew hlink)
  · intro hmeets
    have htimely := (meets_iff h).mp hmeets
    constructor
    · intro before frame after s t hsplit hs hstep hopens hwaits
      have hfree := (htimely before _ after s hsplit hs hopens).resolve_right hwaits
      have hsound := sound_play hs
      cases hstep
      rw [hsound.deliverInbound_free hopens hfree]
      refine ⟨s.hub.created, Nat.le_refl _, Function.update_self .., List.mem_cons_self, ?_⟩
      simp only [started, Function.update_self, hsound.unheard _ (Nat.le_refl _)]
      rfl
    · intro before frame after s t link hello hsplit hs hstep hopens hheard hhello
      have hC := htimely before _ after s hsplit hs
      exact hC.once (sound_play hs) hopens hheard hhello hstep
    · intro before action after s t peerId frame hsplit hs hstep hwaiting
      rw [idle_play (hsplit ▸ hmeets).of_append hs peerId] at hwaiting
      cases hwaiting
    · intro before after s peerId hsplit hs hwaiting
      exact absurd (idle_play (hsplit ▸ hmeets).of_append hs peerId) hwaiting

def helloText : Text := utf16 "\x7b\"type\":\"hello\"\x7d"

/-- `JSON.parse` on one text. -/
def parseHello (text : Text) : Option Json :=
  if text = helloText then some (.object [(utf16 "type", .string (utf16 "hello"))]) else none

def phone : PeerId := ⟨"phone"⟩

def helloFrame : PeerFrame := ⟨phone, .control, some helloText, none⟩

/-- A second sync begins after the first one has ended here. -/
theorem keeps_hellos_iff_again : KeepsHellos parseHello
    [.deliverInbound helloFrame, .ends phone, .deliverInbound helloFrame] := by
  have hplays : (play (step parseHello) fresh
      [.deliverInbound helloFrame, .ends phone, .deliverInbound helloFrame]).isSome := by
    decide +kernel
  obtain ⟨t, ht⟩ := Option.isSome_iff_exists.mp hplays
  exact (keeps_hellos_iff parseHello _ t ht).mpr (by decide +kernel)

/-- It begins while the first one is still bringing the file up to date here. -/
theorem not_keeps_hellos_quick : ¬ KeepsHellos parseHello
    [.deliverInbound helloFrame, .deliverInbound helloFrame] := by
  intro hkeeps
  have hheard : ∃ s ∈ play (step parseHello) fresh [.deliverInbound helloFrame],
      ∃ t ∈ step parseHello s (.deliverInbound helloFrame),
        helloFrame ∈ s.heard 0 ∧ t.heard 0 ≠ s.heard 0 := by
    decide +kernel
  obtain ⟨s, hs, t, ht, hheard, hne⟩ := hheard
  exact hne (hkeeps.once [.deliverInbound helloFrame] helloFrame [] s t 0 helloFrame rfl hs ht
    (by decide +kernel) hheard (by decide +kernel))

end PeerSessions

end PassVault
