import PassVault.Core.Model
import PassVault.Lib.Machine
import PassVault.Lib.Table

/-!
# Which devices are there

`livePeers` of `packages/services/src/vaultServices.ts`: the peers whose channels are reported open,
and the device that a session has found behind each. The channels of a peer are told apart by how
often they were closed before. A session runs over the channels that its peer has, or gets next,
when it starts: closing them closes its link.
-/

namespace PassVault

open Machine

structure PresenceSession where
  channels : Nat
  authenticated : Bool
deriving DecidableEq, Repr

/-- `channels` and `authenticated` are kept for what is said about runs: the code reads neither. -/
structure Presence where
  livePeers : Table (Prod.fst : PeerId × Option DeviceId → PeerId)
  /-- `sessionsInFlight`. -/
  sessions : PeerId → Option PresenceSession
  /-- How often the channels of a peer were closed. -/
  channels : PeerId → Nat
  /-- Over which channels of which peer a session has authenticated as which device. -/
  authenticated : List (PeerId × Nat × DeviceId)

inductive PresenceAction where
  /-- Both channels of the peer are reported open. -/
  | peerOpened (peerId : PeerId)
  /-- The channels are gone: `peerGone` and `closeLink`. -/
  | peerClosed (peerId : PeerId)
  /-- A session starts, asked for here or by an inbound hello. -/
  | runSession (peerId : PeerId)
  /-- The session reports `authenticated`, whatever became of its link. -/
  | authenticated (peerId : PeerId) (deviceId : DeviceId)
  | ends (peerId : PeerId)
deriving DecidableEq, Repr

namespace Presence

def fresh : Presence := ⟨.empty _, fun _ => none, fun _ => 0, []⟩

def live (s : Presence) (peerId : PeerId) : Bool := s.livePeers.has peerId

/-- `livePeers.get(peerId)`. -/
def device (s : Presence) (peerId : PeerId) : Option DeviceId := (s.livePeers.find peerId).bind (·.2)

def peerOpened (peerId : PeerId) (s : Presence) : Presence :=
  if s.live peerId then s else { s with livePeers := s.livePeers.set (peerId, none) }

def peerGone (peerId : PeerId) (s : Presence) : Presence :=
  { s with livePeers := s.livePeers.delete peerId }

/-- The part of `onEvent` that deals with presence. -/
def onAuthenticated (peerId : PeerId) (deviceId : DeviceId) (s : Presence) : Presence :=
  if s.live peerId then { s with livePeers := s.livePeers.set (peerId, some deviceId) } else s

/-- The session that authenticated, over the channels it ran over. -/
def note (peerId : PeerId) (channels : Nat) (deviceId : DeviceId) (s : Presence) : Presence :=
  { s with
    sessions := Function.update s.sessions peerId (some ⟨channels, true⟩)
    authenticated := (peerId, channels, deviceId) :: s.authenticated }

/-- The channels of the peer are gone; what it has next are other ones. -/
def channelsClosed (peerId : PeerId) (s : Presence) : Presence :=
  { s.peerGone peerId with
    channels := Function.update s.channels peerId (s.channels peerId + 1) }

def onlineDeviceIds (s : Presence) : List DeviceId := s.livePeers.rows.filterMap (·.2)

def step (s : Presence) : PresenceAction → Option Presence
  | .peerOpened peerId => some (s.peerOpened peerId)
  | .peerClosed peerId => some (s.channelsClosed peerId)
  | .runSession peerId =>
    match s.sessions peerId with
    | some _ => some s
    | none =>
      some { s with
        sessions := Function.update s.sessions peerId (some ⟨s.channels peerId, false⟩) }
  | .authenticated peerId deviceId =>
    match s.sessions peerId with
    | some ⟨channels, false⟩ =>
      some ((s.onAuthenticated peerId deviceId).note peerId channels deviceId)
    | _ => none
  | .ends peerId =>
    (s.sessions peerId).map fun _ =>
      { s with sessions := Function.update s.sessions peerId none }

/-- Some session has authenticated as the device over the channels that the peer has now. -/
def Proved (s : Presence) (peerId : PeerId) (deviceId : DeviceId) : Prop :=
  (peerId, s.channels peerId, deviceId) ∈ s.authenticated

instance (s : Presence) (peerId : PeerId) (deviceId : DeviceId) :
    Decidable (s.Proved peerId deviceId) :=
  inferInstanceAs (Decidable ((peerId, s.channels peerId, deviceId) ∈ s.authenticated))

/-- A device is online where a peer whose channels are reported open has proved to be it over
them, and only there. -/
def Truthful (s : Presence) : Prop :=
  ∀ deviceId, deviceId ∈ s.onlineDeviceIds ↔
    ∃ peerId, s.live peerId = true ∧ s.Proved peerId deviceId

/-- Presence is truthful wherever the run comes by. -/
def AlwaysTruthful (actions : List PresenceAction) : Prop :=
  ∀ before after s, actions = before ++ after → play step fresh before = some s → s.Truthful

/-- Nobody has authenticated over channels before they are reported open. A session that
authenticates while channels of its peer are reported open runs over these, or finds the device
that was found there, and none has found another one there. -/
def Timely (s : Presence) : PresenceAction → Prop
  | .peerOpened peerId => s.live peerId = true ∨ ∀ deviceId, ¬ s.Proved peerId deviceId
  | .authenticated peerId deviceId => s.live peerId = true →
    ((s.sessions peerId).map (·.channels) = some (s.channels peerId) ∨ s.Proved peerId deviceId) ∧
      ∀ other, s.Proved peerId other → other = deviceId
  | _ => True

instance (s : Presence) : DecidablePred s.Timely
  | .peerOpened peerId =>
    decidable_of_iff (s.live peerId = true ∨
      ∀ p ∈ s.authenticated, ¬ (p.1 = peerId ∧ p.2.1 = s.channels peerId))
      (or_congr_right ⟨fun h deviceId hmem => h _ hmem ⟨rfl, rfl⟩,
        fun h ⟨_, _, deviceId⟩ hp ⟨hpeer, hchannels⟩ => h deviceId (by
          dsimp only at hpeer hchannels
          subst hpeer
          subst hchannels
          exact hp)⟩)
  | .authenticated peerId deviceId =>
    decidable_of_iff (s.live peerId = true →
      ((s.sessions peerId).map (·.channels) = some (s.channels peerId) ∨
          s.Proved peerId deviceId) ∧
        ∀ p ∈ s.authenticated, p.1 = peerId ∧ p.2.1 = s.channels peerId → p.2.2 = deviceId)
      (imp_congr_right fun _ => and_congr_right fun _ =>
        ⟨fun h other hmem => h _ hmem ⟨rfl, rfl⟩,
          fun h ⟨_, _, other⟩ hp ⟨hpeer, hchannels⟩ => h other (by
            dsimp only at hpeer hchannels
            subst hpeer
            subst hchannels
            exact hp)⟩)
  | .peerClosed _ => isTrue trivial
  | .runSession _ => isTrue trivial
  | .ends _ => isTrue trivial

/-- The device found behind each peer is the one that has been proved there, and there is no
other. -/
def Attributed (s : Presence) : Prop :=
  ∀ peerId deviceId, s.device peerId = some deviceId ↔
    s.live peerId = true ∧ s.Proved peerId deviceId

/-- No device has come under two peer ids. -/
def OnePeerId (s : Presence) : Prop :=
  ∀ p ∈ s.authenticated, ∀ q ∈ s.authenticated, p.2.2 = q.2.2 → p.1 = q.1

/-- What is known of a device found behind a peer: it has authenticated there at some time. -/
def Found (s : Presence) : Prop :=
  ∀ peerId deviceId, s.device peerId = some deviceId →
    ∃ channels, (peerId, channels, deviceId) ∈ s.authenticated

/-! ## Presence by peer -/

theorem mem_onlineDeviceIds {s : Presence} {deviceId : DeviceId} :
    deviceId ∈ s.onlineDeviceIds ↔ ∃ peerId, s.device peerId = some deviceId := by
  unfold onlineDeviceIds device
  rw [List.mem_filterMap]
  constructor
  · intro h
    obtain ⟨⟨peerId, found⟩, hmem, hfound⟩ := h
    have hfind : s.livePeers.find peerId = some (peerId, found) := Table.find_of_mem hmem
    refine ⟨peerId, ?_⟩
    rw [hfind]
    exact hfound
  · intro h
    obtain ⟨peerId, h⟩ := h
    obtain ⟨row, hrow, hdevice⟩ := Option.bind_eq_some_iff.mp h
    exact ⟨row, Table.mem_of_find hrow, hdevice⟩

theorem live_of_device {s : Presence} {peerId : PeerId} {deviceId : DeviceId}
    (h : s.device peerId = some deviceId) : s.live peerId = true := by
  obtain ⟨row, hrow, -⟩ := Option.bind_eq_some_iff.mp h
  exact Table.has_iff.mpr ⟨row, hrow⟩

theorem Attributed.truthful {s : Presence} (h : s.Attributed) : s.Truthful := by
  intro deviceId
  rw [mem_onlineDeviceIds]
  exact exists_congr fun peerId => h peerId deviceId

/-- Where no device has come under two peer ids, truth about the devices is truth about the
peers. -/
theorem Truthful.attributed {s : Presence} (h : s.Truthful) (hfound : s.Found)
    (hone : s.OnePeerId) : s.Attributed := by
  intro peerId deviceId
  constructor
  · intro hdevice
    obtain ⟨channels, hmem⟩ := hfound peerId deviceId hdevice
    obtain ⟨other, hlive, hproved⟩ := (h deviceId).mp (mem_onlineDeviceIds.mpr ⟨peerId, hdevice⟩)
    have hsame : peerId = other := hone _ hmem _ hproved rfl
    subst hsame
    exact ⟨hlive, hproved⟩
  · intro hproved
    obtain ⟨other, hdevice⟩ := mem_onlineDeviceIds.mp ((h deviceId).mpr ⟨peerId, hproved⟩)
    obtain ⟨channels, hmem⟩ := hfound other deviceId hdevice
    have hsame : other = peerId := hone _ hmem _ hproved.2 rfl
    subst hsame
    exact hdevice

/-! ## What an action does -/

theorem device_peerOpened {s : Presence} {peerId : PeerId} (h : s.live peerId = false)
    (other : PeerId) :
    (s.peerOpened peerId).device other = (if peerId = other then none else s.device other) ∧
      (s.peerOpened peerId).live other = (decide (peerId = other) || s.live other) := by
  rw [peerOpened, if_neg (by simp [h])]
  unfold device live Table.has
  rw [Table.find_set]
  by_cases hother : peerId = other <;> simp [hother]

theorem device_peerGone (s : Presence) (peerId other : PeerId) :
    (s.peerGone peerId).device other = (if peerId = other then none else s.device other) ∧
      (s.peerGone peerId).live other = (decide (peerId ≠ other) && s.live other) := by
  unfold peerGone device live Table.has
  rw [Table.find_delete]
  by_cases hother : peerId = other <;> simp [hother]

theorem device_onAuthenticated {s : Presence} {peerId : PeerId} (deviceId : DeviceId)
    (h : s.live peerId = true) (other : PeerId) :
    (s.onAuthenticated peerId deviceId).device other =
        (if peerId = other then some deviceId else s.device other) ∧
      (s.onAuthenticated peerId deviceId).live other = s.live other := by
  rw [onAuthenticated, if_pos h]
  unfold live at h ⊢
  unfold device
  rw [Table.has] at h ⊢
  rw [Table.has, Table.find_set]
  by_cases hother : peerId = other
  · subst hother
    simp [h]
  · simp [hother]

theorem proved_peerOpened {s : Presence} {peerId other : PeerId} {deviceId : DeviceId} :
    (s.peerOpened peerId).Proved other deviceId ↔ s.Proved other deviceId := by
  unfold peerOpened
  by_cases h : s.live peerId = true
  · rw [if_pos h]
  · rw [if_neg h]
    exact Iff.rfl

theorem proved_channelsClosed {s : Presence} {peerId other : PeerId} {deviceId : DeviceId}
    (h : peerId ≠ other) :
    (s.channelsClosed peerId).Proved other deviceId ↔ s.Proved other deviceId := by
  have hchannels : (s.channelsClosed peerId).channels other = s.channels other :=
    Function.update_of_ne h.symm _ _
  rw [Proved, hchannels]
  exact Iff.rfl

theorem channels_onAuthenticated (s : Presence) (peerId : PeerId) (deviceId : DeviceId) :
    (s.onAuthenticated peerId deviceId).channels = s.channels ∧
      (s.onAuthenticated peerId deviceId).authenticated = s.authenticated := by
  unfold onAuthenticated
  by_cases h : s.live peerId = true
  · rw [if_pos h]
    exact ⟨rfl, rfl⟩
  · rw [if_neg h]
    exact ⟨rfl, rfl⟩

theorem proved_authenticated {s : Presence} {peerId other : PeerId} {channels : Nat}
    {deviceId found : DeviceId} :
    ((s.onAuthenticated peerId deviceId).note peerId channels deviceId).Proved other found ↔
      (other = peerId ∧ s.channels peerId = channels ∧ found = deviceId) ∨ s.Proved other found := by
  obtain ⟨hchannels, hauthenticated⟩ := channels_onAuthenticated s peerId deviceId
  unfold Proved note
  simp only [hchannels, hauthenticated, List.mem_cons, Prod.mk.injEq]
  constructor
  · intro h
    rcases h with ⟨rfl, hchannels, hfound⟩ | h
    · exact .inl ⟨rfl, hchannels, hfound⟩
    · exact .inr h
  · intro h
    rcases h with ⟨rfl, hchannels, hfound⟩ | h
    · exact .inl ⟨rfl, hchannels, hfound⟩
    · exact .inr h

/-- An action leaves the devices attributed exactly if it is timely. -/
theorem step_attributed {s t : Presence} {action : PresenceAction} (hs : s.Attributed)
    (h : s.step action = some t) : t.Attributed ↔ s.Timely action := by
  cases action with
  | peerOpened peerId =>
    cases h
    by_cases hlive : s.live peerId = true
    · have heq : s.peerOpened peerId = s := by rw [peerOpened, if_pos hlive]
      rw [heq]
      exact iff_of_true hs (.inl hlive)
    · have hdead : s.live peerId = false := by simpa using hlive
      have hopened := device_peerOpened hdead
      simp only [Timely, hdead, Bool.false_eq_true, false_or]
      constructor
      · intro ht deviceId hmem
        have hfound := (ht peerId deviceId).mpr ⟨by simp [hopened], proved_peerOpened.mpr hmem⟩
        rw [(hopened peerId).1, if_pos rfl] at hfound
        cases hfound
      · intro hnone other deviceId
        rw [(hopened other).1, (hopened other).2, proved_peerOpened]
        by_cases hother : peerId = other
        · subst hother
          simp [hnone]
        · simp [hother, hs other deviceId]
  | peerClosed peerId =>
    cases h
    refine iff_of_true (fun other deviceId => ?_) trivial
    have hgone := device_peerGone s peerId other
    change (s.peerGone peerId).device other = _ ↔ (s.peerGone peerId).live other = true ∧ _
    rw [hgone.1, hgone.2]
    by_cases hother : peerId = other
    · simp [hother]
    · rw [proved_channelsClosed hother]
      simp [hother, hs other deviceId]
  | runSession peerId =>
    simp only [step] at h
    split at h <;> cases h <;> exact iff_of_true hs trivial
  | authenticated peerId deviceId =>
    simp only [step] at h
    split at h
    · rename_i channels hsession
      cases h
      -- A peer whose channels are not reported open has no device, and is to have none.
      have hother : ∀ other found, other ≠ peerId ∨ s.live peerId = false →
          (((s.onAuthenticated peerId deviceId).note peerId channels deviceId).device other =
              some found ↔
            ((s.onAuthenticated peerId deviceId).note peerId channels deviceId).live other = true ∧
              ((s.onAuthenticated peerId deviceId).note peerId channels deviceId).Proved other
                found) := by
        intro other found hor
        rw [proved_authenticated]
        change (s.onAuthenticated peerId deviceId).device other = some found ↔
          (s.onAuthenticated peerId deviceId).live other = true ∧ _
        by_cases hlive : s.live peerId = true
        · have hne : other ≠ peerId := hor.resolve_right (by simp [hlive])
          obtain ⟨hdevice, hlives⟩ := device_onAuthenticated deviceId hlive other
          rw [hdevice, hlives, if_neg (Ne.symm hne)]
          simp [hne, hs other found]
        · rw [onAuthenticated, if_neg hlive, hs other found]
          by_cases hne : other = peerId
          · subst hne
            simp [hlive]
          · simp [hne]
      by_cases hlive : s.live peerId = true
      · obtain ⟨hdevice, hlives⟩ := device_onAuthenticated deviceId hlive peerId
        rw [if_pos rfl] at hdevice
        have hpeer : ∀ found,
            (((s.onAuthenticated peerId deviceId).note peerId channels deviceId).device peerId =
                some found ↔
              ((s.onAuthenticated peerId deviceId).note peerId channels deviceId).live peerId =
                true ∧
                ((s.onAuthenticated peerId deviceId).note peerId channels deviceId).Proved peerId
                  found) ↔
            (deviceId = found ↔ (s.channels peerId = channels ∧ found = deviceId) ∨
              s.Proved peerId found) := by
          intro found
          rw [proved_authenticated]
          change ((s.onAuthenticated peerId deviceId).device peerId = some found ↔
            (s.onAuthenticated peerId deviceId).live peerId = true ∧ _) ↔ _
          rw [hdevice, hlives, hlive]
          simp
        simp only [Timely, hlive, hsession, Option.map_some, Option.some.injEq, forall_const]
        constructor
        · intro ht
          constructor
          · have hself := ((hpeer deviceId).mp (ht peerId deviceId)).mp rfl
            rcases hself with ⟨hchannels, -⟩ | hproved
            · exact .inl hchannels.symm
            · exact .inr hproved
          · intro other hproved
            exact (((hpeer other).mp (ht peerId other)).mpr (.inr hproved)).symm
        · intro htimely other found
          by_cases hne : other = peerId
          · subst hne
            rw [hpeer]
            constructor
            · intro hfound
              subst hfound
              rcases htimely.1 with hchannels | hproved
              · exact .inl ⟨hchannels.symm, rfl⟩
              · exact .inr hproved
            · intro h
              rcases h with ⟨-, hfound⟩ | hproved
              · exact hfound.symm
              · exact (htimely.2 found hproved).symm
          · exact hother other found (.inl hne)
      · have hdead : s.live peerId = false := by simpa using hlive
        apply iff_of_true
        · intro other found
          exact hother other found (.inr hdead)
        · intro h
          exact absurd h hlive
    · cases h
  | ends peerId =>
    obtain ⟨session, -, rfl⟩ := Option.map_eq_some_iff.mp h
    exact iff_of_true hs trivial

/-! ## Runs -/

theorem step_remembers {s t : Presence} {action : PresenceAction} (h : s.step action = some t) :
    ∀ p ∈ s.authenticated, p ∈ t.authenticated := by
  intro p hp
  cases action with
  | peerOpened peerId =>
    cases h
    unfold peerOpened
    split <;> exact hp
  | peerClosed peerId =>
    cases h
    exact hp
  | runSession peerId =>
    simp only [step] at h
    split at h <;> cases h <;> exact hp
  | authenticated peerId deviceId =>
    simp only [step] at h
    split at h <;> cases h
    apply List.mem_cons_of_mem
    rw [(channels_onAuthenticated s peerId deviceId).2]
    exact hp
  | ends peerId =>
    obtain ⟨session, -, rfl⟩ := Option.map_eq_some_iff.mp h
    exact hp

/-- A device that is found behind a peer was found there before, or has just authenticated. -/
theorem step_found {s t : Presence} {action : PresenceAction} (h : s.step action = some t)
    (hs : s.Found) : t.Found := by
  intro other found hfound
  have hkept : s.device other = some found → ∃ channels, (other, channels, found) ∈ t.authenticated := by
    intro hdevice
    obtain ⟨channels, hmem⟩ := hs other found hdevice
    exact ⟨channels, step_remembers h _ hmem⟩
  cases action with
  | peerOpened peerId =>
    cases h
    by_cases hlive : s.live peerId = true
    · rw [peerOpened, if_pos hlive] at hfound
      exact hkept hfound
    · rw [(device_peerOpened (by simpa using hlive) other).1] at hfound
      by_cases hother : peerId = other
      · rw [if_pos hother] at hfound
        cases hfound
      · rw [if_neg hother] at hfound
        exact hkept hfound
  | peerClosed peerId =>
    cases h
    change (s.peerGone peerId).device other = some found at hfound
    rw [(device_peerGone s peerId other).1] at hfound
    by_cases hother : peerId = other
    · rw [if_pos hother] at hfound
      cases hfound
    · rw [if_neg hother] at hfound
      exact hkept hfound
  | runSession peerId =>
    simp only [step] at h
    split at h <;> cases h <;> exact hkept hfound
  | authenticated peerId deviceId =>
    simp only [step] at h
    split at h <;> cases h
    rename_i channels _
    change (s.onAuthenticated peerId deviceId).device other = some found at hfound
    by_cases hlive : s.live peerId = true
    · rw [(device_onAuthenticated deviceId hlive other).1] at hfound
      by_cases hother : peerId = other
      · rw [if_pos hother] at hfound
        cases hfound
        exact ⟨channels, hother ▸ List.mem_cons_self⟩
      · rw [if_neg hother] at hfound
        exact hkept hfound
    · rw [onAuthenticated, if_neg hlive] at hfound
      exact hkept hfound
  | ends peerId =>
    obtain ⟨session, -, rfl⟩ := Option.map_eq_some_iff.mp h
    exact hkept hfound

theorem attributed_fresh : fresh.Attributed := by
  intro peerId deviceId
  constructor
  · intro h
    cases h
  · intro h
    cases h.1

theorem found_fresh : fresh.Found := by
  intro peerId deviceId h
  cases h

theorem play_remembers {s t : Presence} {actions : List PresenceAction}
    (h : play step s actions = some t) : ∀ p ∈ s.authenticated, p ∈ t.authenticated := by
  intro p hp
  exact play_keeps (P := fun u => p ∈ u.authenticated)
    (fun _ _ _ _ hu hstep => step_remembers hstep p hu) h hp

/-- **Presence is truthful** in every run whose steps are timely; and where no device comes under
two peer ids, in no other run. -/
theorem always_truthful {actions : List PresenceAction} {s : Presence}
    (h : play step fresh actions = some s) :
    (Meets step Timely fresh actions → AlwaysTruthful actions) ∧
      (s.OnePeerId → AlwaysTruthful actions → Meets step Timely fresh actions) := by
  constructor
  · intro hmeets before after u hsplit hu
    rw [hsplit] at hmeets
    have hattributed : u.Attributed :=
      hmeets.of_append.keeps (P := Attributed)
        (fun s action t hs htimely hstep => (step_attributed hs hstep).mpr htimely) hu
        attributed_fresh
    exact hattributed.truthful
  · intro hone htruthful
    -- At every point of the run the devices are attributed.
    have hattributed : ∀ before after u, actions = before ++ after →
        play step fresh before = some u → u.Attributed := by
      intro before after u hsplit hu
      apply (htruthful before after u hsplit hu).attributed
      · exact play_keeps (P := Found) (fun _ _ _ _ hs hstep => step_found hstep hs) hu found_fresh
      · rw [hsplit] at h
        obtain ⟨v, hv, hrest⟩ := play_split h
        cases hu.symm.trans hv
        intro p hp q hq
        exact hone p (play_remembers hrest p hp) q (play_remembers hrest q hq)
    rw [meets_iff h]
    intro before action after u hsplit hu
    rw [hsplit] at h
    obtain ⟨v, t, hv, hstep, -⟩ := play_around h
    cases hu.symm.trans hv
    apply (step_attributed (hattributed before _ u hsplit hu) hstep).mp
    exact hattributed (before ++ [action]) after t (by simpa using hsplit) (play_concat hu hstep)

/-- A phone comes, is found, goes, and comes back. -/
def phoneReturns : List PresenceAction :=
  [.peerOpened ⟨"p"⟩, .runSession ⟨"p"⟩, .authenticated ⟨"p"⟩ ⟨"phone"⟩, .ends ⟨"p"⟩,
    .peerClosed ⟨"p"⟩, .peerOpened ⟨"p"⟩, .runSession ⟨"p"⟩, .authenticated ⟨"p"⟩ ⟨"phone"⟩]

theorem always_truthful_phoneReturns : AlwaysTruthful phoneReturns := by
  obtain ⟨s, hs⟩ : ∃ s, play step fresh phoneReturns = some s :=
    Option.isSome_iff_exists.mp (by decide +kernel)
  exact (always_truthful hs).1 (by decide +kernel)

/-- While its pairing is being confirmed here, the phone goes, and another one opens channels under
its peer id. -/
def confirmedLate : List PresenceAction :=
  [.peerOpened ⟨"p"⟩, .runSession ⟨"p"⟩, .peerClosed ⟨"p"⟩, .peerOpened ⟨"p"⟩,
    .authenticated ⟨"p"⟩ ⟨"phone"⟩]

/-- The hello comes before both channels are reported open, and so does the proof. -/
def provedEarly : List PresenceAction :=
  [.runSession ⟨"p"⟩, .authenticated ⟨"p"⟩ ⟨"phone"⟩, .peerOpened ⟨"p"⟩]

/-- In the one run a device is online that has proved nothing over the channels there are; in the
other a device that has is not. -/
theorem not_always_truthful :
    ((play step fresh confirmedLate).isSome ∧ ¬ AlwaysTruthful confirmedLate) ∧
      (play step fresh provedEarly).isSome ∧ ¬ AlwaysTruthful provedEarly := by
  constructor
  · refine ⟨by decide +kernel, fun htruthful => ?_⟩
    have hend : (play step fresh confirmedLate).map
        (fun s => (s.onlineDeviceIds, s.authenticated, s.channels ⟨"p"⟩)) =
        some ([⟨"phone"⟩], [(⟨"p"⟩, 0, ⟨"phone"⟩)], 1) := by decide +kernel
    obtain ⟨s, hs, hfacts⟩ := Option.map_eq_some_iff.mp hend
    simp only [Prod.mk.injEq] at hfacts
    obtain ⟨honline, hauthenticated, hchannels⟩ := hfacts
    obtain ⟨peerId, -, hproved⟩ := (htruthful confirmedLate [] s (by simp) hs ⟨"phone"⟩).mp
      (by simp [honline])
    simp only [Proved, hauthenticated, List.mem_singleton, Prod.mk.injEq, and_true] at hproved
    rw [hproved.1, hchannels] at hproved
    exact absurd hproved.2 (by decide)
  · refine ⟨by decide +kernel, fun htruthful => ?_⟩
    have hend : (play step fresh provedEarly).map
        (fun s => (s.onlineDeviceIds, s.live ⟨"p"⟩, decide (s.Proved ⟨"p"⟩ ⟨"phone"⟩))) =
        some ([], true, true) := by decide +kernel
    obtain ⟨s, hs, hfacts⟩ := Option.map_eq_some_iff.mp hend
    simp only [Prod.mk.injEq, decide_eq_true_eq] at hfacts
    obtain ⟨honline, hlive, hproved⟩ := hfacts
    have hphone := (htruthful provedEarly [] s (by simp) hs ⟨"phone"⟩).mpr ⟨⟨"p"⟩, hlive, hproved⟩
    rw [honline] at hphone
    cases hphone

end Presence

end PassVault
