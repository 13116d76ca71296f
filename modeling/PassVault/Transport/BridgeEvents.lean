import PassVault.Transport.BridgePeers

/-!
# Late events

Connections are kept under the id of their peer, and what one of them raises may come when the bridge
already has a later connection to that peer. What is reported of each connection, and which late
events are not inert.
-/

namespace PassVault

open Machine

/-- What the bridge has said of a connection. -/
inductive ConnectionReport where
  | opened (connection : Nat)
  | closed (connection : Nat)
deriving DecidableEq, Repr

def BridgeOutput.report : BridgeOutput → Option ConnectionReport
  | peerOpen _ connection => connection.map .opened
  | peerClosed _ connection => connection.map .closed
  | _ => none

/-- Does it concern what is held for a peer? -/
def BridgeOutput.concernsPeer : BridgeOutput → Bool
  | closeChannel _ | closeConnection _ | peerOpen _ _ | peerClosed _ _ => true
  | _ => false

/-- Is it of the socket, or for the person? -/
def BridgeOutput.ofLink : BridgeOutput → Bool
  | status _ | notice _ | join _ _ | closeSocket _ => true
  | _ => false

theorem BridgeOutput.unconcerned_of_link {output : BridgeOutput} (h : output.ofLink = true) :
    output.concernsPeer = false := by
  cases output with
  | status | notice | join | closeSocket => rfl
  | signal | closeChannel | closeConnection | peerOpen | peerClosed => cases h

theorem BridgeOutput.report_of_unconcerned {output : BridgeOutput}
    (h : output.concernsPeer = false) : output.report = none := by
  cases output with
  | peerOpen | peerClosed => cases h
  | _ => rfl

theorem reports_of_unconcerned {outputs : List BridgeOutput}
    (h : ∀ o ∈ outputs, o.concernsPeer = false) : outputs.filterMap BridgeOutput.report = [] :=
  List.filterMap_eq_nil_iff.mpr fun o ho => BridgeOutput.report_of_unconcerned (h o ho)

theorem reports_of_link {outputs : List BridgeOutput} (h : ∀ o ∈ outputs, o.ofLink = true) :
    outputs.filterMap BridgeOutput.report = [] :=
  reports_of_unconcerned fun o ho => BridgeOutput.unconcerned_of_link (h o ho)

/-- A bridge and what it has reported, in order. -/
structure BridgeHistory where
  bridge : PeerBridge
  reports : List ConnectionReport

/-! ## What a step does to the peers -/

namespace BridgePeers

/-- Nothing that is held goes, and what comes is a new connection. -/
structure Grows (s t : BridgePeers) : Prop where
  keyed : s.Keyed → t.Keyed
  made : s.made.length ≤ t.made.length
  held : ∀ p n, s.connection p = some n → t.connection p = some n
  news : ∀ p n, t.connection p = some n → s.connection p = some n ∨ s.made.length ≤ n

theorem Grows.refl (s : BridgePeers) : s.Grows s :=
  ⟨id, Nat.le_refl _, fun _ _ h => h, fun _ _ h => .inl h⟩

variable {s t : BridgePeers}

theorem grows_openConnection (connection : BridgeConnection)
    (hnone : s.connection connection.peerId = none) (initiator : Bool) :
    s.Grows (s.openConnection connection initiator) where
  keyed hs := hs.openConnection connection initiator
  made := by
    rw [made_openConnection, List.length_append]
    exact Nat.le_add_right _ _
  held p n h := by
    rw [connection_openConnection]
    split
    · rename_i hp
      rw [← hp, hnone] at h
      cases h
    · exact h
  news p n h := by
    rw [connection_openConnection] at h
    split at h
    · cases h
      exact .inr (Nat.le_refl _)
    · exact .inl h

theorem grows_openNext (room : BridgeRoom) (s : BridgePeers) (peerIds : List PeerId) :
    s.Grows (PeerBridge.openNext room s peerIds).1 := by
  rw [peers_openNext]
  cases hnext : s.nextPeer peerIds with
  | none => exact .refl s
  | some p => exact grows_openConnection ⟨p, room⟩ (connection_of_nextPeer hnext) true

theorem reports_teardown (peerId : PeerId) (s : BridgePeers) :
    (s.teardown peerId).2.filterMap BridgeOutput.report =
      ((s.owner peerId).map ConnectionReport.closed).toList := by
  unfold teardown
  split
  · rename_i hidle
    rw [owner_of_idle hidle]
    rfl
  · have hchannel : ∀ o : Option Nat, (o.map BridgeOutput.closeChannel).toList.filterMap
        BridgeOutput.report = [] := by
      intro o
      cases o <;> rfl
    have hconnection : ∀ o : Option Nat, (o.map BridgeOutput.closeConnection).toList.filterMap
        BridgeOutput.report = [] := by
      intro o
      cases o <;> rfl
    simp only [List.filterMap_append, hchannel, hconnection, List.nil_append]
    cases s.owner peerId <;> rfl

theorem reports_maybeReady (peerId : PeerId) (s : BridgePeers) :
    (s.maybeReady peerId).2.filterMap BridgeOutput.report =
      if s.unreported peerId then ((s.owner peerId).map ConnectionReport.opened).toList
      else [] := by
  unfold maybeReady
  split
  · cases s.owner peerId <;> rfl
  · rfl

end BridgePeers

namespace PeerBridge

open BridgePeers

variable {s t : PeerBridge} {outputs : List BridgeOutput}

/-- The connection that raises an event, itself or through a channel. -/
def raiser (s : PeerBridge) : BridgeEvent → Option Nat
  | .iceCandidate n | .connectionState n _ | .dataChannel n _ => some n
  | .channelState c _ | .channelOpen c | .channelClose c => s.peers.connectionOf c
  | _ => none

/-- The peer that an event tears down. -/
def forgets (s : PeerBridge) : BridgeEvent → Option PeerId
  | .message socket (.peerLeft peerId) =>
    if (s.roomOf socket).isSome ∧ peerId ∉ s.peers.ready then some peerId else none
  | .connectionState n .failed | .connectionState n .closed => s.peerOf n
  | .channelClose c => s.channelPeer c
  | _ => none

/-- The peer that may be ready now. -/
def opens (s : PeerBridge) : BridgeEvent → Option PeerId
  | .channelOpen c => s.channelPeer c
  | _ => none

/-- Does the event end the stay in a room? -/
def leaves : BridgeEvent → Bool
  | .connect _ _ | .disconnect => true
  | _ => false

/-- The connection of a description that is to be sent now. -/
def describes (s : PeerBridge) : BridgeEvent → Option Nat
  | .settle i true =>
    match s.tasks i with
    | some (.describingOffer connection _ _ _) | some (.describingAnswer connection _) =>
      some connection
    | _ => none
  | _ => none

/-- A signal that goes over the current socket, which has opened. -/
def Sends (s : PeerBridge) (event : BridgeEvent) (output : BridgeOutput) : Prop :=
  ∃ socket p kind n, output = .signal socket p kind n ∧ s.link.socket = some socket ∧
    s.link.connecting = false ∧ (kind = .ice ∨ s.describes event = some n)

/-- All that a step can do to the peers. -/
inductive PeersStep (s : PeerBridge) (event : BridgeEvent) (t : PeerBridge)
    (outputs : List BridgeOutput) : Prop where
  | forget (p : PeerId) (others : List BridgeOutput) (hp : s.forgets event = some p)
    (hpeers : t.peers = (s.peers.teardown p).1)
    (hothers : ∀ o ∈ others, o.ofLink = true)
    (houtputs : outputs = others ++ (s.peers.teardown p).2)
  | ready (p : PeerId) (hforgets : s.forgets event = none) (hp : s.opens event = some p)
    (hpeers : t.peers = (s.peers.maybeReady p).1) (houtputs : outputs = (s.peers.maybeReady p).2)
  | leave (others : List BridgeOutput) (hleaves : leaves event = true)
    (hpeers : t.peers = (s.peers.teardownAll (s.peers.connections.rows.map (·.1))).1)
    (hothers : ∀ o ∈ others, o.ofLink = true)
    (houtputs : outputs =
      (s.peers.teardownAll (s.peers.connections.rows.map (·.1))).2 ++ others)
  | other (hforgets : s.forgets event = none) (hopens : s.opens event = none)
    (hgrows : s.peers.Grows t.peers)
    (houtputs : ∀ o ∈ outputs, o.ofLink = true ∨ s.Sends event o)

theorem ofLink_scheduleRetry (detail : String) (stillSyncing : Bool) (link : BridgeLink) :
    ∀ o ∈ (link.scheduleRetry detail stillSyncing).2, o.ofLink = true := by
  unfold BridgeLink.scheduleRetry
  split
  · nofun
  · split
    · nofun
    · dsimp only
      split
      · nofun
      · split <;> simp [BridgeOutput.ofLink]

theorem ofLink_openSocket (made stillSyncing : Bool) (link : BridgeLink) :
    ∀ o ∈ (link.openSocket made stillSyncing).2, o.ofLink = true := by
  unfold BridgeLink.openSocket
  split
  · nofun
  · dsimp only
    split
    · simp [BridgeOutput.ofLink]
    · intro o ho
      rcases List.mem_cons.mp ho with rfl | ho
      · rfl
      · exact ofLink_scheduleRetry _ _ _ o ho

theorem ofLink_wake (hidden made stillSyncing : Bool) (link : BridgeLink) :
    ∀ o ∈ (link.wake hidden made stillSyncing).2, o.ofLink = true := by
  unfold BridgeLink.wake
  split
  · nofun
  · exact ofLink_openSocket _ _ _

theorem ofLink_failed (socket : Nat) (detail : String) (stillSyncing : Bool)
    (link : BridgeLink) :
    ∀ o ∈ (link.failed socket detail stillSyncing).2, o.ofLink = true := by
  unfold BridgeLink.failed
  split
  · nofun
  · exact ofLink_scheduleRetry _ _ _

theorem ofLink_leave (link : BridgeLink) :
    ∀ o ∈ link.leave.2, o.ofLink = true := by
  unfold BridgeLink.leave
  cases link.socket <;> simp [BridgeOutput.ofLink]

variable {event : BridgeEvent}

theorem unconcerned_of_sends (h : ∀ o ∈ outputs, o.ofLink = true ∨ s.Sends event o) :
    ∀ o ∈ outputs, o.concernsPeer = false := by
  intro o ho
  rcases h o ho with hlink | ⟨socket, p, kind, n, rfl, -⟩
  · exact BridgeOutput.unconcerned_of_link hlink
  · rfl

theorem sends_sendSignal {peerId : PeerId} {kind : SignalKind} {connection : Nat}
    (h : s.sendSignal peerId kind connection = some outputs)
    (hkind : kind = .ice ∨ s.describes event = some connection) :
    ∀ o ∈ outputs, o.ofLink = true ∨ s.Sends event o := by
  unfold sendSignal at h
  split at h
  · cases h
    nofun
  · rename_i socket hsocket
    split at h
    · cases h
    · rename_i hopen
      cases h
      intro o ho
      obtain rfl := List.mem_singleton.mp ho
      exact .inr ⟨socket, peerId, kind, connection, rfl, hsocket, by simpa using hopen, hkind⟩

theorem sends_getD {peerId : PeerId} {kind : SignalKind} {connection : Nat}
    (hkind : kind = .ice ∨ s.describes event = some connection) :
    ∀ o ∈ (s.sendSignal peerId kind connection).getD [], o.ofLink = true ∨ s.Sends event o := by
  cases h : s.sendSignal peerId kind connection with
  | none => nofun
  | some outputs => exact sends_sendSignal h hkind

theorem peersStep_settle {i : Nat} {resolved : Bool} {task : BridgeTask}
    (htask : s.tasks i = some task) (h : s.onSettle i resolved task = (t, outputs)) :
    PeersStep s (.settle i resolved) t outputs := by
  unfold onSettle at h
  split at h
  case h_1 =>
    cases h
    exact .other rfl rfl (grows_openNext _ _ _) nofun
  case h_3 connection peerId rest room =>
    have hdescribes : s.describes (.settle i true) = some connection := by rw [describes, htask]
    split at h
    · cases h
      exact .other rfl rfl (.refl _) nofun
    · rename_i hsend
      cases h
      exact .other rfl rfl (.refl _) (sends_sendSignal hsend (.inr hdescribes))
  case h_6 connection peerId =>
    have hdescribes : s.describes (.settle i true) = some connection := by rw [describes, htask]
    cases h
    exact .other rfl rfl (.refl _) (sends_getD (.inr hdescribes))
  all_goals
    cases h
    exact .other rfl rfl (.refl _) nofun

theorem peersStep_message {socket : Nat} {room : BridgeRoom}
    {message : ServerSignalMessage SignalKind} (hroom : s.roomOf socket = some room)
    (h : s.handleSignal room message = (t, outputs)) :
    PeersStep s (.message socket message) t outputs := by
  cases message with
  | joined _ _ existingPeerIds =>
    cases h
    refine .other rfl rfl (grows_openNext room s.peers existingPeerIds) ?_
    simp [BridgeOutput.ofLink]
  | peerJoined peerId =>
    cases h
    refine .other rfl rfl ?_ nofun
    dsimp only [announce]
    split
    · exact .refl _
    · rename_i hnone
      exact grows_openConnection ⟨peerId, room⟩ (by simpa using hnone) false
  | peerLeft peerId =>
    rw [handleSignal] at h
    split at h
    · rename_i hready
      cases h
      refine .other ?_ rfl (.refl _) nofun
      rw [forgets, if_neg fun h => h.2 hready]
    · rename_i hready
      cases h
      refine .forget peerId [] ?_ rfl nofun rfl
      rw [forgets, if_pos ⟨by rw [hroom]; rfl, hready⟩]
  | signal fromPeerId kind =>
    cases h
    refine .other rfl rfl ?_ nofun
    rw [peers_applySignal]
    exact .refl _
  | error message =>
    cases h
    exact .other rfl rfl (.refl _) (by simp [BridgeOutput.ofLink])

/-- What a step does to the peers. -/
theorem peersStep (h : s.step event = some (t, outputs)) :
    PeersStep s event t outputs := by
  cases event with
  | connect room made =>
    cases h
    refine .leave (s.link.leave.2 ++ (s.link.leave.1.enter room made _).2) rfl rfl ?_
      (List.append_assoc ..)
    intro o ho
    rcases List.mem_append.mp ho with ho | ho
    · exact ofLink_leave _ o ho
    · exact ofLink_openSocket _ _ _ o ho
  | disconnect =>
    cases h
    exact .leave s.link.leave.2 rfl rfl (ofLink_leave _) rfl
  | wake hidden made =>
    cases h
    exact .other rfl rfl (.refl _) fun o ho => .inl (ofLink_wake _ _ _ _ o ho)
  | timer made =>
    rw [step] at h
    split at h
    · cases h
      exact .other rfl rfl (.refl _) fun o ho => .inl (ofLink_openSocket _ _ _ o ho)
    · cases h
  | socketOpen socket =>
    obtain ⟨room, -, heq⟩ := Option.map_eq_some_iff.mp h
    cases heq
    exact .other rfl rfl (.refl _) (by simp [BridgeOutput.ofLink, BridgeLink.onOpen])
  | socketFailed socket detail =>
    obtain ⟨room, -, heq⟩ := Option.map_eq_some_iff.mp h
    cases heq
    exact .other rfl rfl (.refl _) fun o ho => .inl (ofLink_failed _ _ _ _ o ho)
  | message socket message =>
    obtain ⟨room, hroom, heq⟩ := Option.map_eq_some_iff.mp h
    exact peersStep_message hroom heq
  | settle i resolved =>
    obtain ⟨task, htask, heq⟩ := Option.map_eq_some_iff.mp h
    exact peersStep_settle htask heq
  | iceCandidate connection =>
    obtain ⟨peerId, -, heq⟩ := Option.map_eq_some_iff.mp h
    cases heq
    exact .other rfl rfl (.refl _) (sends_getD (.inl rfl))
  | connectionState connection state =>
    obtain ⟨peerId, hpeer, heq⟩ := Option.map_eq_some_iff.mp h
    cases state with
    | failed =>
      cases heq
      refine .forget peerId [.status "Couldn't connect", .notice .noDirectConnection] hpeer rfl ?_ rfl
      simp [BridgeOutput.ofLink]
    | closed =>
      cases heq
      exact .forget peerId [] hpeer rfl nofun rfl
    | other =>
      cases heq
      exact .other rfl rfl (.refl _) nofun
  | dataChannel connection isBulk =>
    obtain ⟨peerId, hpeer, heq⟩ := Option.map_eq_some_iff.mp h
    cases heq
    refine .other rfl rfl ⟨fun hs => hs.attach hpeer, Nat.le_refl _, fun _ _ h => h,
      fun _ _ h => .inl h⟩ nofun
  | channelState channel isOpen =>
    obtain ⟨peerId, -, heq⟩ := Option.map_eq_some_iff.mp h
    cases heq
    exact .other rfl rfl ⟨fun hs => hs.setOpen _, Nat.le_refl _, fun _ _ h => h,
      fun _ _ h => .inl h⟩ nofun
  | channelOpen channel =>
    obtain ⟨peerId, hpeer, heq⟩ := Option.map_eq_some_iff.mp h
    cases heq
    exact .ready peerId rfl hpeer rfl rfl
  | channelClose channel =>
    obtain ⟨peerId, hpeer, heq⟩ := Option.map_eq_some_iff.mp h
    cases heq
    exact .forget peerId [] hpeer rfl nofun rfl

/-- An event of a connection does nothing to another one that is held for the same peer. -/
def Inert (s : PeerBridge) (event : BridgeEvent) (t : PeerBridge) (outputs : List BridgeOutput) :
    Prop :=
  ∀ n p m, s.raiser event = some n → s.peerOf n = some p → s.peers.connection p = some m → m ≠ n →
    t.peers.connection p = some m ∧ .closeConnection m ∉ outputs ∧
      .peerOpen p (some m) ∉ outputs ∧ .peerClosed p (some m) ∉ outputs

end PeerBridge

/-! ## What is reported -/

namespace BridgePeers

def Holds (s : BridgePeers) (n : Nat) : Prop := ∃ p, s.connection p = some n

/-- Where a connection is reported open, it is reported closed at most once from there on, and once
when it is no longer held. -/
def Balanced (s : BridgePeers) (reports : List ConnectionReport) : Prop :=
  ∀ before after n, reports = before ++ .opened n :: after →
    after.count (.closed n) ≤ 1 ∧ (¬ s.Holds n → after.count (.closed n) = 1)

/-- What is held has not been reported closed, and has its own number. -/
structure Told (s : BridgePeers) (reports : List ConnectionReport) : Prop where
  keyed : s.Keyed
  fresh : ∀ n, .opened n ∈ reports ∨ .closed n ∈ reports → n < s.made.length
  held : ∀ n, s.Holds n → .closed n ∉ reports
  balanced : s.Balanced reports

variable {s t : BridgePeers} {reports : List ConnectionReport} {peerId : PeerId}

theorem Told.grows (hs : s.Told reports) (hgrows : s.Grows t) : t.Told reports where
  keyed := hgrows.keyed hs.keyed
  fresh n hn := Nat.lt_of_lt_of_le (hs.fresh n hn) hgrows.made
  held n := by
    rintro ⟨p, hp⟩ hclosed
    rcases hgrows.news p n hp with hold | hnew
    · exact hs.held n ⟨p, hold⟩ hclosed
    · have hlt := hs.fresh n (.inr hclosed)
      omega
  balanced before after n hsplit := by
    obtain ⟨hle, hgone⟩ := hs.balanced before after n hsplit
    refine ⟨hle, fun hnot => hgone ?_⟩
    rintro ⟨p, hp⟩
    exact hnot ⟨p, hgrows.held p n hp⟩

theorem lt_of_peerOf {n : Nat} (h : s.peerOf n = some peerId) : n < s.made.length := by
  obtain ⟨c, hc, -⟩ := Option.map_eq_some_iff.mp h
  exact (List.getElem?_eq_some_iff.mp hc).1

/-- A peer is reported open, for the connection that is held for it. -/
theorem Told.opened (hs : s.Told reports) {n : Nat} (hheld : s.connection peerId = some n) :
    s.Told (reports ++ [.opened n]) where
  keyed := hs.keyed
  fresh m hm := by
    simp only [List.mem_append, List.mem_singleton, reduceCtorEq, or_false,
      ConnectionReport.opened.injEq] at hm
    rcases hm with (hm | rfl) | hm
    · exact hs.fresh m (.inl hm)
    · exact lt_of_peerOf (hs.keyed.connections _ _ hheld)
    · exact hs.fresh m (.inr hm)
  held m hm := by
    simp only [List.mem_append, List.mem_singleton, reduceCtorEq, or_false]
    exact hs.held m hm
  balanced before after m hsplit := by
    rcases split_concat hsplit with ⟨rfl, -, heq⟩ | ⟨after', rfl, hreports⟩
    · cases heq
      exact ⟨Nat.zero_le _, fun hnot => absurd ⟨peerId, hheld⟩ hnot⟩
    · have hcount : (after' ++ [ConnectionReport.opened n]).count (.closed m) =
          after'.count (.closed m) := by simp
      rw [hcount]
      exact hs.balanced before after' m hreports

/-- A peer is torn down, with its connection or with what is left of one that had not been reported
open. -/
theorem Told.teardown (hs : s.Told reports)
    (hleft : ∀ n, s.owner peerId = some n →
      s.connection peerId = some n ∨ .opened n ∉ reports) :
    (s.teardown peerId).1.Told
      (reports ++ (s.teardown peerId).2.filterMap BridgeOutput.report) := by
  have hholds : ∀ m, (s.teardown peerId).1.Holds m → s.Holds m ∧ s.owner peerId ≠ some m := by
    rintro m ⟨p, hp⟩
    rw [connection_teardown] at hp
    split at hp
    · cases hp
    · rename_i hne
      refine ⟨⟨p, hp⟩, fun howner => hne ?_⟩
      have hpeer := peerOf_owner hs.keyed howner
      rw [hs.keyed.connections p m hp] at hpeer
      cases hpeer
      rfl
  rw [reports_teardown]
  cases howner : s.owner peerId with
  | none =>
    refine ⟨hs.keyed.teardown peerId, ?_, ?_, ?_⟩
    · rw [made_teardown]
      simpa using hs.fresh
    · intro m hm
      simpa using hs.held m (hholds m hm).1
    · intro before after m hsplit
      obtain ⟨hle, hgone⟩ := hs.balanced before after m (by simpa using hsplit)
      refine ⟨hle, fun hnot => hgone ?_⟩
      rintro ⟨p, hp⟩
      refine hnot ⟨p, ?_⟩
      rw [connection_teardown, if_neg]
      · exact hp
      · rintro rfl
        rw [owner_of_held hp] at howner
        cases howner
  | some n =>
    refine ⟨hs.keyed.teardown peerId, ?_, ?_, ?_⟩
    · intro m hm
      rw [made_teardown]
      simp only [Option.map_some, Option.toList_some, List.mem_append, List.mem_singleton,
        reduceCtorEq, or_false, ConnectionReport.closed.injEq] at hm
      rcases hm with hm | hm | rfl
      · exact hs.fresh m (.inl hm)
      · exact hs.fresh m (.inr hm)
      · exact lt_of_peerOf (peerOf_owner hs.keyed howner)
    · intro m hm hclosed
      obtain ⟨hold, hne⟩ := hholds m hm
      rcases List.mem_append.mp hclosed with hclosed | hclosed
      · exact hs.held m hold hclosed
      · rw [Option.map_some, Option.toList_some, List.mem_singleton] at hclosed
        cases hclosed
        exact hne howner
    · intro before after m hsplit
      rcases split_concat hsplit with ⟨rfl, -, heq⟩ | ⟨after', rfl, hreports⟩
      · cases heq
      · obtain ⟨hle, hgone⟩ := hs.balanced before after' m hreports
        by_cases hm : m = n
        · subst hm
          -- what has been reported open is held until now, and so has not been reported closed
          have hopened : ConnectionReport.opened m ∈ reports := by simp [hreports]
          have hheld : s.connection peerId = some m :=
            (hleft m howner).resolve_right fun h => h hopened
          have hzero : after'.count (.closed m) = 0 := by
            rw [List.count_eq_zero]
            intro hmem
            exact hs.held m ⟨peerId, hheld⟩ (by simp [hreports, hmem])
          rw [List.count_append, hzero]
          simp
        · have hcount : (after' ++ [ConnectionReport.closed n]).count (.closed m) =
              after'.count (.closed m) := by
            rw [List.count_append, List.count_singleton, if_neg]
            · rfl
            · simp [Ne.symm hm]
          rw [hcount]
          refine ⟨hle, fun hnot => hgone ?_⟩
          rintro ⟨p, hp⟩
          refine hnot ⟨p, ?_⟩
          rw [connection_teardown, if_neg]
          · exact hp
          · rintro rfl
            rw [owner_of_held hp] at howner
            cases howner
            exact hm rfl

theorem Told.teardownAll {peerIds : List PeerId} (hnodup : peerIds.Nodup)
    (hheld : ∀ p ∈ peerIds, (s.connection p).isSome) (hs : s.Told reports) :
    (s.teardownAll peerIds).1.Told
      (reports ++ (s.teardownAll peerIds).2.filterMap BridgeOutput.report) := by
  induction peerIds generalizing s reports with
  | nil => simpa [BridgePeers.teardownAll] using hs
  | cons p rest ih =>
    obtain ⟨hp, hnodup⟩ := List.nodup_cons.mp hnodup
    obtain ⟨n, hn⟩ := Option.isSome_iff_exists.mp (hheld p List.mem_cons_self)
    have hleft : ∀ m, s.owner p = some m → s.connection p = some m ∨ .opened m ∉ reports := by
      intro m hm
      rw [owner_of_held hn] at hm
      exact .inl (hm ▸ hn)
    have hheld' : ∀ q ∈ rest, ((s.teardown p).1.connection q).isSome := by
      intro q hq
      rw [connection_teardown, if_neg]
      · exact hheld q (List.mem_cons_of_mem _ hq)
      · rintro rfl
        exact hp hq
    have hrest := ih hnodup hheld' (hs.teardown hleft)
    rw [BridgePeers.teardownAll]
    simpa [List.filterMap_append] using hrest

end BridgePeers

/-! ## Runs -/

namespace PeerBridge

open BridgePeers

variable {s t : PeerBridge} {event : BridgeEvent} {outputs : List BridgeOutput} {n : Nat}
  {p q : PeerId}

theorem peerOf_of_forgets (hraiser : s.raiser event = some n) (h : s.forgets event = some p) :
    s.peerOf n = some p := by
  unfold forgets at h
  split at h
  · cases hraiser
  · cases hraiser
    exact h
  · cases hraiser
    exact h
  · rename_i c
    have hc : s.peers.connectionOf c = some n := hraiser
    rwa [channelPeer, hc] at h
  · cases h

theorem peerOf_of_opens (hraiser : s.raiser event = some n) (h : s.opens event = some p) :
    s.peerOf n = some p := by
  unfold opens at h
  split at h
  · rename_i c
    have hc : s.peers.connectionOf c = some n := hraiser
    rwa [channelPeer, hc] at h
  · cases h

theorem step_of_forgets (h : s.forgets event = some p) :
    ∃ t outputs, s.step event = some (t, outputs) := by
  unfold forgets at h
  split at h
  · split at h
    · rename_i socket peerId hguard
      obtain ⟨room, hroom⟩ := Option.isSome_iff_exists.mp hguard.1
      exact ⟨_, _, Option.map_eq_some_iff.mpr ⟨room, hroom, rfl⟩⟩
    · cases h
  · exact ⟨_, _, Option.map_eq_some_iff.mpr ⟨p, h, rfl⟩⟩
  · exact ⟨_, _, Option.map_eq_some_iff.mpr ⟨p, h, rfl⟩⟩
  · exact ⟨_, _, Option.map_eq_some_iff.mpr ⟨p, h, rfl⟩⟩
  · cases h

theorem step_of_opens (h : s.opens event = some p) :
    ∃ t outputs, s.step event = some (t, outputs) := by
  unfold opens at h
  split at h
  · exact ⟨_, _, Option.map_eq_some_iff.mpr ⟨p, h, rfl⟩⟩
  · cases h

theorem forgets_of_opens (h : s.opens event = some p) : s.forgets event = none := by
  unfold opens at h
  split at h
  · rfl
  · cases h

/-- A step that tears down a peer. -/
theorem step_forgets (hp : s.forgets event = some p) (h : s.step event = some (t, outputs)) :
    t.peers = (s.peers.teardown p).1 ∧
      outputs.filterMap BridgeOutput.report =
        ((s.peers.owner p).map ConnectionReport.closed).toList := by
  cases peersStep h with
  | forget q others hq hpeers hothers houtputs =>
    cases hp.symm.trans hq
    rw [houtputs, List.filterMap_append, reports_of_link hothers, List.nil_append]
    exact ⟨hpeers, reports_teardown p s.peers⟩
  | ready q hforgets =>
    rw [hp] at hforgets
    cases hforgets
  | leave others hleaves =>
    cases event <;> cases hleaves <;> cases hp
  | other hforgets =>
    rw [hp] at hforgets
    cases hforgets

/-- A step on which a peer may be ready. -/
theorem step_opens (hp : s.opens event = some p) (h : s.step event = some (t, outputs)) :
    t.peers = (s.peers.maybeReady p).1 ∧ outputs = (s.peers.maybeReady p).2 := by
  cases peersStep h with
  | forget q others hq =>
    rw [forgets_of_opens hp] at hq
    cases hq
  | ready q hforgets hq hpeers houtputs =>
    cases hp.symm.trans hq
    exact ⟨hpeers, houtputs⟩
  | leave others hleaves =>
    cases event <;> cases hleaves <;> cases hp
  | other hforgets hopens =>
    rw [hp] at hopens
    cases hopens

end PeerBridge

namespace BridgeHistory

open BridgePeers

def start : BridgeHistory := ⟨.new, []⟩

def step (s : BridgeHistory) (event : BridgeEvent) : Option BridgeHistory :=
  (s.bridge.step event).map fun result =>
    ⟨result.1, s.reports ++ result.2.filterMap BridgeOutput.report⟩

/-- An event of a connection does nothing to a later one, and the reports are balanced after it. -/
def Settled (s : BridgeHistory) (event : BridgeEvent) : Prop :=
  ∀ t outputs, s.bridge.step event = some (t, outputs) →
    s.bridge.Inert event t outputs ∧
      t.peers.Balanced (s.reports ++ outputs.filterMap BridgeOutput.report)

/-- No close, failure or open of a connection comes so late that it meets another connection, or
channels that have been left without one. -/
structure Prompt (s : BridgeHistory) (event : BridgeEvent) : Prop where
  later : ∀ n p m, s.bridge.raiser event = some n → s.bridge.peerOf n = some p →
    s.bridge.peers.connection p = some m → m ≠ n →
      s.bridge.forgets event = none ∧
        (s.bridge.opens event = some p → s.bridge.peers.unreported p = false)
  unheld : ∀ p, s.bridge.opens event = some p → s.bridge.peers.connection p = none →
    s.bridge.peers.unreported p = false
  leftover : ∀ p n, s.bridge.forgets event = some p → s.bridge.peers.connection p = none →
    s.bridge.peers.owner p = some n → .opened n ∉ s.reports

/-- What is held has not been reported closed. -/
def Told (s : BridgeHistory) : Prop := s.bridge.peers.Told s.reports

variable {s t : BridgeHistory} {event : BridgeEvent}

theorem told_start : start.Told where
  keyed := ⟨nofun, nofun, nofun, nofun⟩
  fresh := nofun
  held := nofun
  balanced before _ _ hsplit := by cases before <;> cases hsplit

theorem maybeReady_of_reported {peers : BridgePeers} {p : PeerId} (h : peers.unreported p = false) :
    peers.maybeReady p = (peers, []) := by
  rw [maybeReady, h]
  rfl

theorem grows_maybeReady (peers : BridgePeers) (p : PeerId) :
    peers.Grows (peers.maybeReady p).1 := by
  refine ⟨fun hs => hs.maybeReady p, ?_, ?_, ?_⟩
  all_goals
    unfold maybeReady
    split
  · exact Nat.le_refl _
  · exact Nat.le_refl _
  · exact fun _ _ h => h
  · exact fun _ _ h => h
  · exact fun _ _ h => .inl h
  · exact fun _ _ h => .inl h

/-- A prompt event keeps it so. -/
theorem told_step (hs : s.Told) (hprompt : s.Prompt event) (h : s.step event = some t) :
    t.Told := by
  obtain ⟨⟨bridge, outputs⟩, hstep, rfl⟩ := Option.map_eq_some_iff.mp h
  show bridge.peers.Told (s.reports ++ outputs.filterMap BridgeOutput.report)
  cases PeerBridge.peersStep hstep with
  | forget p others hp hpeers hothers houtputs =>
    rw [hpeers, houtputs, List.filterMap_append, reports_of_link hothers, List.nil_append]
    apply hs.teardown
    intro n howner
    cases hheld : s.bridge.peers.connection p with
    | some m =>
      rw [owner_of_held hheld] at howner
      exact .inl howner
    | none => exact .inr (hprompt.leftover p n hp hheld howner)
  | ready p hforgets hp hpeers houtputs =>
    rw [hpeers, houtputs, reports_maybeReady]
    refine Told.grows ?_ (grows_maybeReady _ _)
    cases hunreported : s.bridge.peers.unreported p with
    | false => simpa [BridgeHistory.Told] using hs
    | true =>
      cases hheld : s.bridge.peers.connection p with
      | none =>
        rw [hprompt.unheld p hp hheld] at hunreported
        cases hunreported
      | some m =>
        rw [owner_of_held hheld]
        exact hs.opened hheld
  | leave others hleaves hpeers hothers houtputs =>
    rw [hpeers, houtputs, List.filterMap_append, reports_of_link hothers, List.append_nil]
    apply hs.teardownAll s.bridge.peers.connections.distinct
    intro p hp
    obtain ⟨entry, hentry, rfl⟩ := List.mem_map.mp hp
    rw [connection, Table.find_of_mem hentry]
    rfl
  | other hforgets hopens hgrows houtputs =>
    rw [reports_of_unconcerned (PeerBridge.unconcerned_of_sends houtputs), List.append_nil]
    exact hs.grows hgrows

theorem inert_of_prompt (hprompt : s.Prompt event) {bridge : PeerBridge}
    {outputs : List BridgeOutput} (h : s.bridge.step event = some (bridge, outputs)) :
    s.bridge.Inert event bridge outputs := by
  intro n p m hraiser hpeer hheld hne
  obtain ⟨hforgets, hopens⟩ := hprompt.later n p m hraiser hpeer hheld hne
  cases PeerBridge.peersStep h with
  | forget q others hq =>
    rw [hforgets] at hq
    cases hq
  | ready q hforgets hq hpeers houtputs =>
    have hqp := PeerBridge.peerOf_of_opens hraiser hq
    rw [hpeer] at hqp
    cases hqp
    rw [hpeers, houtputs, maybeReady_of_reported (hopens hq)]
    exact ⟨hheld, nofun, nofun, nofun⟩
  | leave others hleaves =>
    cases event <;> cases hleaves <;> cases hraiser
  | other hforgets hopens hgrows houtputs =>
    have hunconcerned := PeerBridge.unconcerned_of_sends houtputs
    refine ⟨hgrows.held p m hheld, ?_, ?_, ?_⟩
    · exact fun hmem => nomatch hunconcerned _ hmem
    · exact fun hmem => nomatch hunconcerned _ hmem
    · exact fun hmem => nomatch hunconcerned _ hmem

/-- Under a peer without a connection there is nothing of a connection that is held. -/
theorem not_holds_owner {peers : BridgePeers} (hs : peers.Keyed) {p : PeerId} {n : Nat}
    (hnone : peers.connection p = none) (howner : peers.owner p = some n) : ¬ peers.Holds n := by
  rintro ⟨q, hq⟩
  have hpeer := peerOf_owner hs howner
  rw [hs.connections q n hq] at hpeer
  cases hpeer
  rw [hnone] at hq
  cases hq

theorem later_of_settled (h : s.Settled event) {n m : Nat} {p : PeerId}
    (hraiser : s.bridge.raiser event = some n) (hpeer : s.bridge.peerOf n = some p)
    (hheld : s.bridge.peers.connection p = some m) (hne : m ≠ n) :
    s.bridge.forgets event = none ∧
      (s.bridge.opens event = some p → s.bridge.peers.unreported p = false) := by
  constructor
  · by_contra hforgets
    obtain ⟨q, hq⟩ := Option.ne_none_iff_exists'.mp hforgets
    have hqp := PeerBridge.peerOf_of_forgets hraiser hq
    rw [hpeer] at hqp
    cases hqp
    obtain ⟨t, outputs, hstep⟩ := PeerBridge.step_of_forgets hq
    have hkept := ((h t outputs hstep).1 n p m hraiser hpeer hheld hne).1
    rw [(PeerBridge.step_forgets hq hstep).1, connection_teardown, if_pos rfl] at hkept
    cases hkept
  · intro hopens
    by_contra hunreported
    rw [Bool.not_eq_false] at hunreported
    obtain ⟨t, outputs, hstep⟩ := PeerBridge.step_of_opens hopens
    obtain ⟨-, -, hopen, -⟩ := (h t outputs hstep).1 n p m hraiser hpeer hheld hne
    rw [(PeerBridge.step_opens hopens hstep).2, maybeReady, if_pos hunreported,
      owner_of_held hheld] at hopen
    exact hopen (List.mem_singleton.mpr rfl)

theorem unheld_of_settled (hs : s.Told) (h : s.Settled event) {p : PeerId}
    (hopens : s.bridge.opens event = some p) (hnone : s.bridge.peers.connection p = none) :
    s.bridge.peers.unreported p = false := by
  by_contra hunreported
  rw [Bool.not_eq_false] at hunreported
  obtain ⟨n, howner⟩ : ∃ n, s.bridge.peers.owner p = some n := by
    have hopen := hunreported
    simp only [unreported, Bool.and_eq_true, Option.any_eq_true] at hopen
    obtain ⟨⟨⟨c, hc, -⟩, -⟩, -⟩ := hopen
    obtain ⟨n, hn, -⟩ := Option.bind_eq_some_iff.mp (hs.keyed.control p c hc)
    exact ⟨n, by rw [owner, hnone, hc, Option.none_or]; exact hn⟩
  obtain ⟨t, outputs, hstep⟩ := PeerBridge.step_of_opens hopens
  obtain ⟨hpeers, houtputs⟩ := PeerBridge.step_opens hopens hstep
  have hbalanced := (h t outputs hstep).2
  rw [houtputs, reports_maybeReady, if_pos hunreported, howner] at hbalanced
  have hgone := (hbalanced s.reports [] n rfl).2 ?_
  · cases hgone
  · rw [hpeers, maybeReady, if_pos hunreported]
    exact not_holds_owner hs.keyed hnone howner

theorem leftover_of_settled (hs : s.Told) (h : s.Settled event) {p : PeerId} {n : Nat}
    (hforgets : s.bridge.forgets event = some p) (hnone : s.bridge.peers.connection p = none)
    (howner : s.bridge.peers.owner p = some n) : .opened n ∉ s.reports := by
  intro hopened
  obtain ⟨before, after, hsplit⟩ := List.append_of_mem hopened
  have hone := (hs.balanced before after n hsplit).2 (not_holds_owner hs.keyed hnone howner)
  obtain ⟨t, outputs, hstep⟩ := PeerBridge.step_of_forgets hforgets
  obtain ⟨-, hreports⟩ := PeerBridge.step_forgets hforgets hstep
  have hbalanced := (h t outputs hstep).2
  rw [hreports, howner, hsplit] at hbalanced
  have htwo := (hbalanced before (after ++ [.closed n]) n (by simp)).1
  rw [List.count_append, hone] at htwo
  simp at htwo

theorem settled_iff_prompt (hs : s.Told) : s.Settled event ↔ s.Prompt event := by
  constructor
  · intro h
    exact ⟨fun n p m => later_of_settled h, fun p => unheld_of_settled hs h,
      fun p n => leftover_of_settled hs h⟩
  · intro hprompt t outputs hstep
    refine ⟨inert_of_prompt hprompt hstep, ?_⟩
    have htold := told_step hs hprompt (Option.map_eq_some_iff.mpr ⟨_, hstep, rfl⟩)
    exact htold.balanced

/-- Late events are inert, and what was reported open is reported closed once, as long as no close,
failure or open comes too late. -/
theorem settled_iff_all_prompt (events : List BridgeEvent) :
    Meets step Settled start events ↔ Meets step Prompt start events :=
  meets_congr (fun _ _ hs => settled_iff_prompt hs) (fun _ _ _ hs => told_step hs) told_start

/-- A peer leaves and comes back before the channel of its first connection closes. -/
def comesBack : List BridgeEvent :=
  [.connect ⟨"wss://host/signal", ⟨"r"⟩, "t"⟩ true, .socketOpen 0,
    .message 0 (.joined ⟨"r"⟩ ⟨"me"⟩ [⟨"p"⟩]), .message 0 (.peerLeft ⟨"p"⟩),
    .message 0 (.peerJoined ⟨"p"⟩)]

theorem comesBack_runs : (play step start comesBack).any fun s =>
    s.bridge.raiser (.channelClose 0) = some 0 ∧ s.bridge.peerOf 0 = some ⟨"p"⟩ ∧
      s.bridge.peers.connection ⟨"p"⟩ = some 1 ∧
      s.bridge.forgets (.channelClose 0) = some ⟨"p"⟩ := by
  decide +kernel

/-- The channel of the first connection takes the second one with it. -/
theorem later_torn_down : ¬ Meets step Settled start (comesBack ++ [.channelClose 0]) := by
  intro hmeets
  obtain ⟨s, hrun, hs⟩ := (Option.any_eq_true _ _).mp comesBack_runs
  simp only [decide_eq_true_eq] at hs
  obtain ⟨hraiser, hpeer, hheld, hforgets⟩ := hs
  obtain ⟨t, outputs, hstep⟩ := PeerBridge.step_of_forgets hforgets
  have hlast : step s (.channelClose 0) = some ⟨t, s.reports ++ outputs.filterMap _⟩ :=
    Option.map_eq_some_iff.mpr ⟨_, hstep, rfl⟩
  have hsettled := (meets_iff (play_concat hrun hlast)).mp hmeets comesBack _ [] s rfl hrun
  rw [(later_of_settled hsettled hraiser hpeer hheld (by decide)).1] at hforgets
  cases hforgets

end BridgeHistory

end PassVault
