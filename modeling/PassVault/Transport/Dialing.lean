import PassVault.Lib.Machine
import PassVault.Transport.BridgePeers

/-!
# Who dials

Who is told of whom when a device joins a room, and which side opens the connection. Joins are
numbered in the order they succeed; a device that comes back joins again, on another socket and
maybe while the room still has its old entry.
-/

namespace PassVault

open Machine

/-- The calls of `openConnection` on a message: the peer and whether this side is the initiator. -/
def ServerSignalMessage.dials {π : Type} : ServerSignalMessage π → List (PeerId × Bool)
  | joined _ _ existingPeerIds => existingPeerIds.map (·, true)
  | peerJoined peerId => [(peerId, false)]
  | _ => []

/-- The bridge opens connections to those peers only, in that role. -/
theorem PeerBridge.dials_handleSignal (s : PeerBridge) (room : BridgeRoom)
    (message : ServerSignalMessage SignalKind) :
    (s.handleSignal room message).1.peers.made = s.peers.made ∨
      ∃ p initiator, (p, initiator) ∈ message.dials ∧
        (s.handleSignal room message).1.peers =
          s.peers.openConnection ⟨p, room⟩ initiator := by
  cases message with
  | joined _ _ existingPeerIds =>
    cases existingPeerIds with
    | nil => exact .inl rfl
    | cons p rest =>
      by_cases hheld : (s.peers.connection p).isSome
      · refine .inl ?_
        rw [handleSignal, openNext, if_pos hheld]
        rfl
      · refine .inr ⟨p, true, List.mem_cons_self, ?_⟩
        rw [handleSignal, openNext, if_neg hheld]
        rfl
  | peerJoined p =>
    rw [handleSignal]
    by_cases hheld : (s.peers.connection p).isSome
    · refine .inl ?_
      rw [if_pos hheld]
      rfl
    · refine .inr ⟨p, false, List.mem_singleton.mpr rfl, ?_⟩
      rw [if_neg hheld]
      rfl
  | peerLeft p =>
    refine .inl ?_
    rw [handleSignal]
    split
    · rfl
    · rw [onPeers, BridgePeers.teardown]
      split <;> rfl
  | signal fromPeerId kind =>
    refine .inl ?_
    rw [handleSignal, peers_applySignal]
  | error => exact .inl rfl

/-- In the later turns of its loop too. -/
theorem PeerBridge.dials_onSettle (i : Nat) (resolved : Bool) (task : BridgeTask) (s : PeerBridge) :
    (s.onSettle i resolved task).1.peers = s.peers ∨
      ∃ p rest room, task = .connecting (p :: rest) room ∧
        (s.onSettle i resolved task).1.peers = s.peers.openConnection ⟨p, room⟩ true := by
  unfold onSettle
  split
  case h_1 rest room =>
    cases rest with
    | nil => exact .inl rfl
    | cons p rest =>
      by_cases hheld : (s.peers.connection p).isSome
      · refine .inl ?_
        rw [openNext, if_pos hheld]
        rfl
      · refine .inr ⟨p, rest, room, rfl, ?_⟩
        rw [openNext, if_neg hheld]
        rfl
  case h_3 =>
    refine .inl ?_
    split <;> rfl
  all_goals exact .inl rfl

/-- What makes a device call `openConnection`: whose socket it comes over, whom it is about, by the
numbers of their joins, and the role. -/
structure Announcement where
  hearer : Nat
  about : Nat
  initiator : Bool
deriving DecidableEq, Repr

inductive RoomOp where
  | createRoom (now : Nat) (roomId : RoomId) (inviteToken : String)
  | sweep (now : Nat)
  | join (now : Nat) (roomId : RoomId) (inviteToken : String) (peerId : PeerId)
  | leave (roomId : RoomId) (peerId : PeerId)
  /-- The server restarts. -/
  | restart
deriving DecidableEq, Repr

/-- The rooms, the devices that have joined, and what they have been told of each other. -/
structure Meetings where
  registry : RoomRegistry
  ids : List PeerId
  log : List Announcement

namespace Meetings

def start : Meetings := ⟨.empty, [], []⟩

/-- A message to one that is in the room names others that are. -/
def announcements (registry : RoomRegistry) (roomId : RoomId) (hearer : Nat)
    (message : ServerSignalMessage Unit) : List Announcement :=
  message.dials.filterMap fun (peerId, initiator) =>
    (registry.member roomId peerId).map (⟨hearer, ·, initiator⟩)

def join (s : Meetings) (now : Nat) (roomId : RoomId) (inviteToken : String) (peerId : PeerId) :
    Except Failure (RoomRegistry × List PeerId × List (Nat × ServerSignalMessage Unit)) :=
  s.registry.join now roomId inviteToken ⟨peerId, s.ids.length⟩

def step (s : Meetings) : RoomOp → Meetings
  | .createRoom now roomId inviteToken =>
    { s with registry := (s.registry.createRoom now roomId inviteToken).1 }
  | .sweep now => { s with registry := (s.registry.sweep now).1 }
  | .join now roomId inviteToken peerId =>
    match s.join now roomId inviteToken peerId with
    | .error _ => s
    | .ok (registry, existingPeerIds, told) =>
      let messages := told ++ [(s.ids.length, .joined roomId peerId existingPeerIds)]
      ⟨registry, s.ids ++ [peerId],
        s.log ++ messages.flatMap fun (hearer, message) => announcements registry roomId hearer message⟩
  | .leave roomId peerId =>
    { s with registry := (s.registry.leave (π := Unit) roomId peerId).1 }
  | .restart => { s with registry := .empty }

def next (s : Meetings) (op : RoomOp) : Option Meetings := some (s.step op)

/-- A join tells the device who else is there, and everybody else of it, once. -/
def JoinTells (s : Meetings) : RoomOp → Prop
  | .join now roomId inviteToken peerId =>
    ∀ registry existingPeerIds told,
      s.join now roomId inviteToken peerId = .ok (registry, existingPeerIds, told) →
      peerId ∉ existingPeerIds ∧ existingPeerIds.Nodup ∧
      (∀ q, q ∈ existingPeerIds ↔ q ≠ peerId ∧ (registry.member roomId q).isSome) ∧
      told = existingPeerIds.filterMap fun q =>
        (registry.member roomId q).map (·, .peerJoined peerId)
  | _ => True

/-- What one device is told of another, in order. -/
def told (heard : Nat → List Announcement) (i j : Nat) : List Bool :=
  ((heard i).filter (·.about = j)).map (·.initiator)

/-- However much of what it was sent each device has got, of two that have heard of each other one
dials and the other does not, once; nobody dials itself; and who is to dial somebody is expected. -/
structure OneDials (s : Meetings) : Prop where
  roles : ∀ heard : Nat → List Announcement, (∀ k, heard k <+: s.log.filter (·.hearer = k)) →
    ∀ i j, told heard i j ≠ [] → told heard j i ≠ [] →
      ∃ initiator, told heard i j = [initiator] ∧ told heard j i = [!initiator]
  others : ∀ a ∈ s.log, s.ids[a.hearer]? ≠ s.ids[a.about]?
  expected : ∀ a ∈ s.log, ⟨a.about, a.hearer, !a.initiator⟩ ∈ s.log

/-- No device has an entry in the room that it joins. -/
def Arrives (s : Meetings) : RoomOp → Prop
  | .join now roomId inviteToken peerId =>
    (s.join now roomId inviteToken peerId).isOk → s.registry.member roomId peerId = none
  | _ => True

variable {s : Meetings} {now : Nat} {roomId : RoomId} {inviteToken : String} {peerId : PeerId}
  {registry : RoomRegistry} {existingPeerIds : List PeerId}
  {told' : List (Nat × ServerSignalMessage Unit)}

/-- The device is told of the ids in the room before it. -/
theorem existing_of_join
    (h : s.join now roomId inviteToken peerId = .ok (registry, existingPeerIds, told')) :
    ∃ peers : Table SignalingPeer.peerId, existingPeerIds = peers.rows.map (·.peerId) ∧
      (told' = ((peers.set ⟨peerId, s.ids.length⟩).rows.filter (·.peerId ≠ peerId)).map fun other =>
        (other.socket, .peerJoined peerId)) ∧
      ∀ q, s.registry.member roomId q = (peers.find q).map (·.socket) := by
  obtain ⟨room, hroom, h⟩ := bind_eq_ok.mp h
  obtain ⟨_, -, h⟩ := bind_eq_ok.mp h
  cases h
  exact ⟨room.peers, rfl, rfl, fun q => (RoomRegistry.member_roomToJoin hroom).symm⟩

/-- One without an entry there, and everybody there of it. -/
theorem told_of_join (hnew : s.registry.member roomId peerId = none)
    (h : s.join now roomId inviteToken peerId = .ok (registry, existingPeerIds, told')) :
    ∃ peers : Table SignalingPeer.peerId, existingPeerIds = peers.rows.map (·.peerId) ∧
      (told' = peers.rows.map fun other => (other.socket, .peerJoined peerId)) ∧
      (∀ q, s.registry.member roomId q = (peers.find q).map (·.socket)) ∧
      ∀ other ∈ peers.rows, other.peerId ≠ peerId := by
  obtain ⟨peers, hexisting, htold, hmember⟩ := existing_of_join h
  have hfind : peers.find peerId = none := by
    rw [hmember, Option.map_eq_none_iff] at hnew
    exact hnew
  have hothers : ∀ other ∈ peers.rows, other.peerId ≠ peerId := by
    rintro other hmem rfl
    exact Table.find_eq_none.mp hfind (List.mem_map_of_mem hmem)
  have hrows : (peers.set ⟨peerId, s.ids.length⟩).rows = peers.rows ++ [⟨peerId, s.ids.length⟩] :=
    Table.rows_set_of_find_none hfind
  have hkept : peers.rows.filter (·.peerId ≠ peerId) = peers.rows :=
    List.filter_eq_self.mpr fun other hmem => decide_eq_true (hothers other hmem)
  refine ⟨peers, hexisting, ?_, hmember, hothers⟩
  rw [htold, hrows, List.filter_append, hkept]
  simp

theorem member_of_join
    (h : s.join now roomId inviteToken peerId = .ok (registry, existingPeerIds, told'))
    (id : RoomId) (q : PeerId) : registry.member id q =
      if roomId = id ∧ peerId = q then some s.ids.length else s.registry.member id q :=
  RoomRegistry.member_join h id q

theorem joinTells_of_arrives {op : RoomOp} (h : s.Arrives op) : s.JoinTells op := by
  cases op with
  | join now roomId inviteToken peerId =>
    intro registry existingPeerIds told' hjoin
    have hnew : s.registry.member roomId peerId = none := h (by rw [hjoin]; rfl)
    obtain ⟨peers, rfl, rfl, hmember, hothers⟩ := told_of_join hnew hjoin
    have hafter : ∀ q, q ≠ peerId → registry.member roomId q = (peers.find q).map (·.socket) := by
      intro q hq
      rw [member_of_join hjoin, if_neg fun h => hq h.2.symm, hmember]
    refine ⟨?_, peers.distinct, fun q => ?_, ?_⟩
    · intro hmem
      obtain ⟨other, hmem, heq⟩ := List.mem_map.mp hmem
      exact hothers other hmem heq
    · constructor
      · intro hq
        obtain ⟨other, hmem, rfl⟩ := List.mem_map.mp hq
        refine ⟨hothers other hmem, ?_⟩
        rw [hafter _ (hothers other hmem), Table.find_of_mem hmem]
        rfl
      · rintro ⟨hq, hsome⟩
        rw [hafter q hq, Option.isSome_map] at hsome
        obtain ⟨other, hfind⟩ := Option.isSome_iff_exists.mp hsome
        exact List.mem_map.mpr ⟨other, Table.mem_of_find hfind, Table.key_of_find hfind⟩
    · rw [List.filterMap_map]
      refine (List.filterMap_eq_map_iff_forall_eq_some.mpr fun other hmem => ?_).symm
      rw [Function.comp_apply, hafter _ (hothers other hmem), Table.find_of_mem hmem]
      rfl
  | _ => trivial

theorem arrives_of_joinTells {op : RoomOp} (h : s.JoinTells op) : s.Arrives op := by
  cases op with
  | join now roomId inviteToken peerId =>
    intro hok
    cases hjoin : s.join now roomId inviteToken peerId with
    | error error =>
      rw [hjoin] at hok
      cases hok
    | ok result =>
      obtain ⟨registry, existingPeerIds, told'⟩ := result
      obtain ⟨peers, rfl, -, hmember⟩ := existing_of_join hjoin
      rw [hmember, Option.map_eq_none_iff, Table.find_eq_none]
      exact (h _ _ _ hjoin).1
  | _ => trivial

/-- What a join adds to the log. -/
def met (peers : Table SignalingPeer.peerId) (n : Nat) : List Announcement :=
  peers.rows.map (fun other => ⟨other.socket, n, false⟩) ++
    peers.rows.map fun other => ⟨n, other.socket, true⟩

theorem step_join (hnew : s.registry.member roomId peerId = none)
    (h : s.join now roomId inviteToken peerId = .ok (registry, existingPeerIds, told')) :
    ∃ peers : Table SignalingPeer.peerId,
      s.step (.join now roomId inviteToken peerId) =
        ⟨registry, s.ids ++ [peerId], s.log ++ met peers s.ids.length⟩ ∧
      (∀ other ∈ peers.rows, s.registry.member roomId other.peerId = some other.socket) ∧
      ∀ other ∈ peers.rows, other.peerId ≠ peerId := by
  obtain ⟨peers, rfl, rfl, hmember, hothers⟩ := told_of_join hnew h
  have hbefore : ∀ other ∈ peers.rows, s.registry.member roomId other.peerId = some other.socket := by
    intro other hmem
    rw [hmember, Table.find_of_mem hmem]
    rfl
  have hself : registry.member roomId peerId = some s.ids.length := by
    rw [member_of_join h, if_pos ⟨rfl, rfl⟩]
  have hthere : ∀ other ∈ peers.rows, registry.member roomId other.peerId = some other.socket := by
    intro other hmem
    rw [member_of_join h, if_neg fun h => hothers other hmem h.2.symm, hbefore other hmem]
  refine ⟨peers, ?_, hbefore, hothers⟩
  rw [step, h]
  dsimp only
  have htold : (peers.rows.map fun other : SignalingPeer =>
        (other.socket, (.peerJoined peerId : ServerSignalMessage Unit))).flatMap
        (fun (hearer, message) => announcements registry roomId hearer message) =
      peers.rows.map fun other => ⟨other.socket, s.ids.length, false⟩ := by
    rw [List.flatMap_map, List.map_eq_flatMap]
    refine List.flatMap_congr fun other hmem => ?_
    simp [announcements, ServerSignalMessage.dials, hself]
  have hjoined : announcements registry roomId s.ids.length
        (.joined roomId peerId (peers.rows.map (·.peerId))) =
      peers.rows.map fun other => ⟨s.ids.length, other.socket, true⟩ := by
    rw [announcements, ServerSignalMessage.dials, List.map_map, List.filterMap_map]
    refine List.filterMap_eq_map_iff_forall_eq_some.mpr fun other hmem => ?_
    simp [hthere other hmem]
  rw [List.flatMap_append, htold, List.flatMap_singleton, hjoined, met]

/-- The devices that have been told of each other, in the order they came. -/
structure Ordered (s : Meetings) : Prop where
  members : ∀ roomId p k, s.registry.member roomId p = some k → s.ids[k]? = some p
  nodup : s.log.Nodup
  known : ∀ a ∈ s.log, a.hearer < s.ids.length ∧ a.about < s.ids.length
  role : ∀ a ∈ s.log, a.initiator = decide (a.about < a.hearer)
  others : ∀ a ∈ s.log, s.ids[a.hearer]? ≠ s.ids[a.about]?
  expected : ∀ a ∈ s.log, ⟨a.about, a.hearer, !a.initiator⟩ ∈ s.log

theorem ordered_start : start.Ordered :=
  ⟨fun _ _ _ h => (nomatch (RoomRegistry.member_empty.symm.trans h)), List.nodup_nil, nofun, nofun,
    nofun, nofun⟩

/-- Where the rooms lose members only. -/
theorem Ordered.lose (hs : s.Ordered) (hlose : ∀ roomId p k,
      registry.member roomId p = some k → s.registry.member roomId p = some k) :
    Ordered { s with registry } :=
  { hs with members := fun roomId p k h => hs.members roomId p k (hlose roomId p k h) }

theorem Ordered.join (hs : s.Ordered) (hnew : s.registry.member roomId peerId = none)
    (h : s.join now roomId inviteToken peerId = .ok (registry, existingPeerIds, told')) :
    (s.step (.join now roomId inviteToken peerId)).Ordered := by
  obtain ⟨peers, hstep, hthere, hothers⟩ := step_join hnew h
  have hid : ∀ other ∈ peers.rows, s.ids[other.socket]? = some other.peerId := fun other hmem =>
    hs.members roomId _ _ (hthere other hmem)
  have hlt : ∀ other ∈ peers.rows, other.socket < s.ids.length := fun other hmem =>
    (List.getElem?_eq_some_iff.mp (hid other hmem)).1
  have hsockets : (peers.rows.map (·.socket)).Nodup := by
    refine List.Nodup.map_on ?_ (List.Nodup.of_map _ peers.distinct)
    intro other hmem other' hmem' hsocket
    have hpeer := hid other hmem
    rw [hsocket, hid other' hmem'] at hpeer
    have hfind := Table.find_of_mem hmem
    rw [← Option.some.inj hpeer, Table.find_of_mem hmem'] at hfind
    exact (Option.some.inj hfind).symm
  have hmet : ∀ a ∈ met peers s.ids.length, ∃ other ∈ peers.rows,
      a = ⟨other.socket, s.ids.length, false⟩ ∨ a = ⟨s.ids.length, other.socket, true⟩ := by
    intro a ha
    rcases List.mem_append.mp ha with ha | ha
    · obtain ⟨other, hmem, rfl⟩ := List.mem_map.mp ha
      exact ⟨other, hmem, .inl rfl⟩
    · obtain ⟨other, hmem, rfl⟩ := List.mem_map.mp ha
      exact ⟨other, hmem, .inr rfl⟩
  rw [hstep]
  refine ⟨?_, ?_, ?_, ?_, ?_, ?_⟩
  · intro id q k hq
    rw [member_of_join h] at hq
    split at hq
    · rename_i hsame
      cases hq
      rw [← hsame.2]
      simp
    · have hold := hs.members id q k hq
      rw [List.getElem?_append_left (List.getElem?_eq_some_iff.mp hold).1]
      exact hold
  · -- what is new has the number of this join in it
    refine List.nodup_append.mpr ⟨hs.nodup, List.nodup_append.mpr ⟨?_, ?_, ?_⟩, ?_⟩
    · have hnodup := hsockets.map (f := fun k => (⟨k, s.ids.length, false⟩ : Announcement))
        fun k k' heq => (Announcement.mk.inj heq).1
      rwa [List.map_map] at hnodup
    · have hnodup := hsockets.map (f := fun k => (⟨s.ids.length, k, true⟩ : Announcement))
        fun k k' heq => (Announcement.mk.inj heq).2.1
      rwa [List.map_map] at hnodup
    · intro a ha b hb heq
      obtain ⟨_, -, rfl⟩ := List.mem_map.mp ha
      obtain ⟨_, -, rfl⟩ := List.mem_map.mp hb
      cases congrArg Announcement.initiator heq
    · rintro a ha b hb rfl
      obtain ⟨hhearer, habout⟩ := hs.known a ha
      obtain ⟨other, -, rfl | rfl⟩ := hmet a hb
      · exact absurd habout (Nat.lt_irrefl _)
      · exact absurd hhearer (Nat.lt_irrefl _)
  · intro a ha
    rw [List.length_append, List.length_singleton]
    rcases List.mem_append.mp ha with ha | ha
    · have hknown := hs.known a ha
      omega
    · obtain ⟨other, hmem, rfl | rfl⟩ := hmet a ha
      · have hother := hlt other hmem
        dsimp only
        omega
      · have hother := hlt other hmem
        dsimp only
        omega
  · intro a ha
    rcases List.mem_append.mp ha with ha | ha
    · exact hs.role a ha
    · obtain ⟨other, hmem, rfl | rfl⟩ := hmet a ha
      · exact (decide_eq_false (Nat.not_lt_of_lt (hlt other hmem))).symm
      · exact (decide_eq_true (hlt other hmem)).symm
  · intro a ha
    rcases List.mem_append.mp ha with ha | ha
    · obtain ⟨hhearer, habout⟩ := hs.known a ha
      rw [List.getElem?_append_left hhearer, List.getElem?_append_left habout]
      exact hs.others a ha
    · obtain ⟨other, hmem, rfl | rfl⟩ := hmet a ha
      · rw [List.getElem?_append_left (hlt other hmem), hid other hmem]
        simpa using hothers other hmem
      · rw [List.getElem?_append_left (hlt other hmem), hid other hmem]
        simpa using (hothers other hmem).symm
  · intro a ha
    rcases List.mem_append.mp ha with ha | ha
    · exact List.mem_append_left _ (hs.expected a ha)
    · refine List.mem_append_right _ ?_
      obtain ⟨other, hmem, rfl | rfl⟩ := hmet a ha
      · exact List.mem_append_right _ (List.mem_map.mpr ⟨other, hmem, rfl⟩)
      · exact List.mem_append_left _ (List.mem_map.mpr ⟨other, hmem, rfl⟩)

theorem ordered_next {op : RoomOp} (hs : s.Ordered) (harrives : s.Arrives op) :
    (s.step op).Ordered := by
  cases op with
  | createRoom now roomId inviteToken =>
    refine hs.lose fun id p k h => ?_
    rcases RoomRegistry.member_createRoom now roomId inviteToken s.registry id p with heq | ⟨-, heq⟩
    · exact heq ▸ h
    · rw [heq] at h
      cases h
  | sweep now => exact hs.lose fun id p k h => RoomRegistry.member_sweep ▸ h
  | join now roomId inviteToken peerId =>
    cases hjoin : s.join now roomId inviteToken peerId with
    | error error =>
      rw [step, hjoin]
      exact hs
    | ok result =>
      exact hs.join (harrives (by rw [hjoin]; rfl)) hjoin
  | leave roomId peerId =>
    refine hs.lose fun id p k h => ?_
    rw [RoomRegistry.member_leave] at h
    split at h
    · cases h
    · exact h
  | restart =>
    refine hs.lose fun id p k h => ?_
    rw [RoomRegistry.member_empty] at h
    cases h

/-- A list without repetitions of one thing. -/
theorem eq_singleton {α : Type} {l : List α} {a : α} (hnodup : l.Nodup) (hall : ∀ x ∈ l, x = a)
    (hne : l ≠ []) : l = [a] := by
  cases l with
  | nil => exact absurd rfl hne
  | cons x rest =>
    have hx : x = a := hall x List.mem_cons_self
    cases rest with
    | nil => rw [hx]
    | cons y rest =>
      have hy : y = a := hall y (List.mem_cons_of_mem _ List.mem_cons_self)
      rw [hx, hy] at hnodup
      simp at hnodup

/-- What was heard of somebody is one announcement, with the role of the later one of the two. -/
theorem told_eq (hs : s.Ordered) {heard : Nat → List Announcement}
    (hheard : ∀ k, heard k <+: s.log.filter (·.hearer = k)) {i j : Nat}
    (hne : told heard i j ≠ []) : told heard i j = [decide (j < i)] ∧ i ≠ j := by
  have hsub : ((heard i).filter (·.about = j)).Sublist s.log :=
    (List.filter_sublist.trans (hheard i).sublist).trans List.filter_sublist
  have hall : ∀ a ∈ (heard i).filter (·.about = j), a = ⟨i, j, decide (j < i)⟩ := by
    intro a ha
    have hrole := hs.role a (hsub.subset ha)
    obtain ⟨ha, habout⟩ := List.mem_filter.mp ha
    have hhearer := (List.mem_filter.mp ((hheard i).subset ha)).2
    simp only [decide_eq_true_eq] at habout hhearer
    rw [← habout, ← hhearer, ← hrole]
  have hone := eq_singleton (hsub.nodup hs.nodup) hall (by simpa [told] using hne)
  refine ⟨by rw [told, hone]; rfl, ?_⟩
  rintro rfl
  have hmem : (⟨i, i, decide (i < i)⟩ : Announcement) ∈ s.log := hsub.subset (by rw [hone]; simp)
  exact hs.others _ hmem rfl

theorem oneDials_of_ordered (hs : s.Ordered) : s.OneDials := by
  refine ⟨fun heard hheard i j hi hj => ?_, hs.others, hs.expected⟩
  obtain ⟨hi, hne⟩ := told_eq hs hheard hi
  obtain ⟨hj, -⟩ := told_eq hs hheard hj
  refine ⟨decide (j < i), hi, ?_⟩
  rw [hj]
  rcases Nat.lt_or_gt_of_ne hne with hlt | hlt
  · simp [hlt, Nat.not_lt_of_lt hlt]
  · simp [hlt, Nat.not_lt_of_lt hlt]

/-- A join tells everybody, and of two that have heard of each other one dials, as long as no device
joins a room that has an entry of its own. -/
theorem oneDials_iff_arrives (ops : List RoomOp) :
    Meets next (fun s op => s.JoinTells op ∧ (s.step op).OneDials) start ops ↔
      Meets next Arrives start ops := by
  refine meets_congr (fun s op hs => ⟨fun h => arrives_of_joinTells h.1, fun harrives => ?_⟩)
    (fun s op t hs harrives h => ?_) ordered_start
  · exact ⟨joinTells_of_arrives harrives, oneDials_of_ordered (ordered_next hs harrives)⟩
  · cases h
    exact ordered_next hs harrives

/-- A device joins again before its first socket is found to be dead. -/
def rejoin : List RoomOp := [.join 0 ⟨"r"⟩ "t" ⟨"a"⟩, .join 1 ⟨"r"⟩ "t" ⟨"a"⟩]

/-- It is told of itself. -/
theorem told_of_itself :
    ¬ Meets next (fun s op => s.JoinTells op ∧ (s.step op).OneDials) start rejoin := by
  intro hmeets
  have harrives := arrives_of_joinTells (hmeets.2 _ rfl).1.1 (by decide +kernel)
  revert harrives
  decide +kernel

end Meetings

end PassVault
