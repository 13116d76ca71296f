import PassVault.Lib.Machine
import PassVault.Signaling.Server

/-!
# Who is in the rooms

A room keeps one entry for each peer id, whichever socket registered it, and a socket that closes
takes away the entry of its last join, whoever registered that. So an entry can be lost while its
socket is open, and kept after its socket has closed; exactly when is said here, for every order of
events.
-/

namespace PassVault

namespace SignalingServer

variable {π : Type} {s s' : SignalingServer} {js new : List Join} {event : SignalingEvent π}

/-- The last join of a socket. -/
def LastJoin (joins : List Join) (k : Nat) (roomId : RoomId) (peerId : PeerId) : Prop :=
  ∃ before later, joins = before ++ ⟨k, roomId, peerId⟩ :: later ∧
    ∀ join ∈ later, join.socket ≠ k

theorem lastJoin_concat {join : Join} {k : Nat} {roomId : RoomId} {peerId : PeerId} :
    LastJoin (js ++ [join]) k roomId peerId ↔
      if join.socket = k then join = ⟨k, roomId, peerId⟩ else LastJoin js k roomId peerId := by
  constructor
  · rintro ⟨before, later, hsplit, hlater⟩
    rcases Machine.split_concat hsplit with ⟨rfl, rfl, rfl⟩ | ⟨later', rfl, rfl⟩
    · rw [if_pos rfl]
    · rw [if_neg (hlater join (by simp))]
      exact ⟨before, later', rfl, fun other hmem => hlater other (List.mem_append_left _ hmem)⟩
  · intro h
    split at h
    · exact ⟨js, [], by rw [h], by simp⟩
    · rename_i hother
      obtain ⟨before, later, rfl, hlater⟩ := h
      refine ⟨before, later ++ [join], by simp, fun other hmem => ?_⟩
      rcases List.mem_append.mp hmem with hmem | hmem
      · exact hlater other hmem
      · exact List.mem_singleton.mp hmem ▸ hother

/-! ## What holds in every run -/

/-- What the server remembers fits the joins that there were. -/
structure Consistent (s : SignalingServer) (joins : List Join) : Prop where
  joined : ∀ k roomId peerId, s.joined k = some (roomId, peerId) ↔ LastJoin joins k roomId peerId
  joins : ∀ join ∈ joins, join.socket < s.connected
  members : ∀ roomId peerId k, s.registry.member roomId peerId = some k → k < s.connected

theorem isOpen_iff {k : Nat} : s.isOpen k = true ↔ k < s.connected ∧ s.closed k = false := by
  simp [isOpen]

theorem Consistent.moves (h : Consistent s js) (hmove : Moves s event s' new) :
    Consistent s' (js ++ new) := by
  cases hmove with
  | connect =>
    rw [List.append_nil]
    exact ⟨h.joined, fun join hmem => Nat.lt_succ_of_lt (h.joins join hmem),
      fun roomId peerId k hk => Nat.lt_succ_of_lt (h.members roomId peerId k hk)⟩
  | idle =>
    rw [List.append_nil]
    exact h
  | @join k _ roomId _ peerId registry hopen hmember =>
    refine ⟨fun k' roomId' peerId' => ?_, fun join hmem => ?_, fun roomId' peerId' k' hk' => ?_⟩
    · rw [lastJoin_concat]
      by_cases hk : k = k'
      · subst hk
        simp
      · simp [hk, Function.update_of_ne (Ne.symm hk), h.joined]
    · rcases List.mem_append.mp hmem with hmem | hmem
      · exact h.joins join hmem
      · rw [List.mem_singleton.mp hmem]
        exact (isOpen_iff.mp hopen).1
    · rw [hmember] at hk'
      split at hk'
      · cases hk'
        exact (isOpen_iff.mp hopen).1
      · exact h.members roomId' peerId' k' hk'
  | leave hopen hmember =>
    rw [List.append_nil]
    refine ⟨h.joined, h.joins, fun roomId peerId k hk => ?_⟩
    rw [hmember] at hk
    split at hk
    · cases hk
    · exact h.members roomId peerId k hk
  | createRoom =>
    rw [List.append_nil]
    refine ⟨h.joined, h.joins, fun roomId peerId k hk => ?_⟩
    rcases RoomRegistry.member_createRoom _ _ _ _ roomId peerId with hsame | ⟨-, hnone⟩
    · exact h.members roomId peerId k (hsame ▸ hk)
    · rw [hnone] at hk
      cases hk

theorem consistent (events : List (SignalingEvent π)) :
    Consistent (after events) (joins events) := by
  induction events using List.reverseRecOn with
  | nil =>
    refine ⟨fun k roomId peerId => ⟨fun h => (by cases h), ?_⟩, by simp [joins_nil], ?_⟩
    · rintro ⟨before, later, h, -⟩
      rw [joins_nil] at h
      simp at h
    · intro roomId peerId k hk
      cases hk
  | append_singleton events event ih =>
    rw [after_concat, joins_concat]
    exact ih.moves (moves_step _ event)

/-! ## Entries of open sockets -/

/-- An open socket is in the room that it joined last, or a later joiner with its id is. -/
def Kept (s : SignalingServer) (joins : List Join) : Prop :=
  ∀ before join later, joins = before ++ join :: later →
    (∀ other ∈ later, other.socket ≠ join.socket) → s.isOpen join.socket = true →
    ∃ k, s.registry.member join.roomId join.peerId = some k ∧
      (k = join.socket ∨ ⟨k, join.roomId, join.peerId⟩ ∈ later)

/-- The entries that other open sockets have in `s` are still there in `s'`. -/
def SparesOthers (k : Nat) (s s' : SignalingServer) : Prop :=
  ∀ roomId peerId k', s.registry.member roomId peerId = some k' → k' ≠ k → s.isOpen k' = true →
    s'.registry.member roomId peerId = some k'

/-- No other open socket has registered, or has last joined with, the id that the socket has in the
room that it joined last. -/
def AloneInPlace (k : Nat) (s : SignalingServer) : Prop :=
  ∀ roomId peerId, s.joined k = some (roomId, peerId) → ∀ k', k' ≠ k → s.isOpen k' = true →
    s.joined k' ≠ some (roomId, peerId) ∧ s.registry.member roomId peerId ≠ some k'

theorem Kept.moves (h : Kept s js) (hs : Consistent s js) (hmove : Moves s event s' new)
    (hfresh : ∀ now roomId inviteToken, event = .createRoom now roomId inviteToken →
      s.registry.rooms.has roomId = false)
    (halone : ∀ k, event = .close k → s.isOpen k = true → AloneInPlace k s) :
    Kept s' (js ++ new) := by
  cases hmove with
  | connect =>
    rw [List.append_nil]
    intro before join later hsplit hlater hopen
    refine h before join later hsplit hlater (isOpen_iff.mpr ⟨?_, (isOpen_iff.mp hopen).2⟩)
    exact hs.joins join (by simp [hsplit])
  | idle =>
    rw [List.append_nil]
    exact h
  | @join k _ roomId _ peerId registry hk hmember =>
    intro before join later hsplit hlater hopen
    rw [hmember]
    rcases Machine.split_concat hsplit with ⟨rfl, rfl, rfl⟩ | ⟨later', rfl, rfl⟩
    · exact ⟨k, if_pos ⟨rfl, rfl⟩, .inl rfl⟩
    · obtain ⟨k', hmem, hlast⟩ := h before join later' rfl
        (fun other hmem => hlater other (List.mem_append_left _ hmem)) hopen
      by_cases hsame : roomId = join.roomId ∧ peerId = join.peerId
      · obtain ⟨rfl, rfl⟩ := hsame
        exact ⟨k, if_pos ⟨rfl, rfl⟩, .inr (by simp)⟩
      · rw [if_neg hsame]
        exact ⟨k', hmem, hlast.imp_right (List.mem_append_left _)⟩
  | @leave k registry hk hmember =>
    rw [List.append_nil]
    intro before join later hsplit hlater hopen
    obtain ⟨hbound, hclosed⟩ := isOpen_iff.mp hopen
    have hother : join.socket ≠ k := by
      rintro rfl
      simp at hclosed
    have hopen : s.isOpen join.socket = true := by
      refine isOpen_iff.mpr ⟨hbound, ?_⟩
      simpa [Function.update_of_ne hother] using hclosed
    have hjoined := (hs.joined _ _ _).mpr ⟨before, later, hsplit, hlater⟩
    rw [hmember, if_neg fun hsame => ((halone k rfl hk) _ _ hsame _ hother hopen).1 hjoined]
    exact h before join later hsplit hlater hopen
  | createRoom =>
    rw [List.append_nil]
    intro before join later hsplit hlater hopen
    rw [RoomRegistry.member_createRoom_of_fresh (hfresh _ _ _ rfl)]
    exact h before join later hsplit hlater hopen

/-- A socket that closes in a place of its own spares the others. -/
theorem AloneInPlace.spares {k : Nat} (h : AloneInPlace k s)
    (hmove : Moves (π := π) s (.close k) s' new) : SparesOthers k s s' := by
  intro roomId peerId k' hmem hother hopen
  cases hmove with
  | idle => exact hmem
  | leave hk hmember =>
    rw [hmember, if_neg fun hsame => (h _ _ hsame k' hother hopen).2 hmem]
    exact hmem

/-- A socket that spares the others, and leaves them in their rooms, closes in a place of its
own. -/
theorem aloneInPlace_of_spares {k : Nat} (hs : Consistent s js) (hk : s.isOpen k = true)
    (hmove : Moves (π := π) s (.close k) s' new) (hspares : SparesOthers k s s')
    (hkept : Kept s' js) : AloneInPlace k s := by
  cases hmove with
  | idle _ hclosed => exact absurd hk (by simp [hclosed k rfl])
  | leave _ hmember =>
    intro roomId peerId hjoined k' hother hopen
    have hgone := (hmember roomId peerId).trans (if_pos hjoined)
    constructor
    · intro hjoined'
      obtain ⟨before, later, hsplit, hlater⟩ := (hs.joined _ _ _).mp hjoined'
      obtain ⟨hbound, hclosed⟩ := isOpen_iff.mp hopen
      obtain ⟨_, hmem, -⟩ := hkept before ⟨k', roomId, peerId⟩ later hsplit hlater
        (isOpen_iff.mpr ⟨hbound, by simpa [Function.update_of_ne hother] using hclosed⟩)
      rw [hgone] at hmem
      cases hmem
    · intro hmem
      have hstays := hspares roomId peerId k' hmem hother hopen
      rw [hgone] at hstays
      cases hstays

/-- No socket that closes takes an open one's entry away, and open sockets stay in their rooms,
exactly when each socket that closes is alone in its place. -/
theorem never_evicted_iff {events : List (SignalingEvent π)}
    (hfresh : ∀ before now roomId inviteToken later,
      events = before ++ .createRoom now roomId inviteToken :: later →
        (after before).registry.rooms.has roomId = false) :
    (∀ before later, events = before ++ later → Kept (after before) (joins before) ∧
        ∀ k rest, later = .close k :: rest →
          SparesOthers k (after before) (after (before ++ [.close k]))) ↔
      ∀ before k later, events = before ++ .close k :: later → (after before).isOpen k = true →
        AloneInPlace k (after before) := by
  constructor
  · intro h before k later hsplit hopen
    have hspares := (h before _ hsplit).2 k later rfl
    have hkept := (h (before ++ [.close k]) later (by simp [hsplit])).1
    have hmove := moves_step (after before) (.close k : SignalingEvent π)
    rw [after_concat] at hspares hkept
    rw [joins_concat] at hkept
    exact aloneInPlace_of_spares (consistent before) hopen hmove hspares
      (by simpa [joinOf] using hkept)
  · intro h before later hsplit
    constructor
    · induction before using List.reverseRecOn generalizing later with
      | nil =>
        intro before join later hsplit
        simp [joins_nil] at hsplit
      | append_singleton before event ih =>
        rw [List.append_assoc] at hsplit
        rw [after_concat, joins_concat]
        refine (ih _ hsplit).moves (consistent before) (moves_step _ event) ?_ ?_
        · rintro now roomId inviteToken rfl
          exact hfresh before now roomId inviteToken later hsplit
        · rintro k rfl
          exact h before k later hsplit
    · rintro k rest rfl
      rw [after_concat]
      cases hopen : (after before).isOpen k with
      | true => exact (h before k rest hsplit hopen).spares (moves_step _ _)
      | false =>
        intro roomId peerId k' hmem _ _
        simpa [step, hopen] using hmem

def joining (socket : Nat) (peerId : String) : SignalingEvent Unit :=
  .message socket 0 (some (.join ⟨"room"⟩ "token" ⟨peerId⟩))

/-- A laptop and a phone meet in a room. -/
def meeting : List (SignalingEvent Unit) :=
  [.createRoom 0 ⟨"room"⟩ "token", .connect, joining 0 "laptop", .connect, joining 1 "phone"]

/-- The laptop joins again on a new socket. -/
def rejoining : List (SignalingEvent Unit) :=
  [.createRoom 0 ⟨"room"⟩ "token", .connect, joining 0 "laptop", .connect, joining 1 "laptop"]

/-- The phone leaves. -/
theorem never_evicted_meeting :
    Kept (after meeting) (joins meeting) ∧
      SparesOthers 1 (after meeting) (after (meeting ++ [.close 1])) := by
  have hall : ∀ before later, meeting ++ [.close 1] = before ++ later →
      Kept (after before) (joins before) ∧ ∀ k rest, later = .close k :: rest →
        SparesOthers k (after before) (after (before ++ [.close k])) := by
    refine (never_evicted_iff fun before now roomId inviteToken later hsplit => ?_).mpr
      fun before k later hsplit hopen => ?_
    · cases before with
      | nil =>
        cases hsplit
        rfl
      | cons event before =>
        have hmem : SignalingEvent.createRoom now roomId inviteToken ∈
            (meeting ++ [SignalingEvent.close 1]).tail := by
          rw [hsplit]
          simp
        simp [meeting, joining] at hmem
    · rcases Machine.split_concat hsplit with ⟨-, rfl, hlast⟩ | ⟨_, -, hearlier⟩
      · cases hlast
        intro roomId peerId hjoined k' hother hopen'
        have hplace : (after meeting).joined 1 = some (⟨"room"⟩, ⟨"phone"⟩) := by decide +kernel
        rw [hplace] at hjoined
        cases hjoined
        have hbound : k' < 2 := (isOpen_iff.mp hopen').1
        have hzero : k' = 0 := by omega
        subst hzero
        decide +kernel
      · have hmem : SignalingEvent.close k ∈ meeting := by
          rw [hearlier]
          simp
        simp [meeting, joining] at hmem
  exact ⟨(hall meeting [.close 1] rfl).1, (hall meeting [.close 1] rfl).2 1 [] rfl⟩

/-- The old socket closes, and the new one, which is open and has not joined again, is in no
room. -/
theorem evicted_rejoining :
    ¬ Kept (after (rejoining ++ [.close 0])) (joins (rejoining ++ [.close 0])) ∧
      ¬ SparesOthers 0 (after rejoining) (after (rejoining ++ [.close 0])) := by
  have hgone : (after (rejoining ++ [.close 0])).registry.member ⟨"room"⟩ ⟨"laptop"⟩ = none := by
    decide +kernel
  constructor
  · intro hkept
    have hjoins : joins (rejoining ++ [.close 0]) =
        [⟨0, ⟨"room"⟩, ⟨"laptop"⟩⟩] ++ ⟨1, ⟨"room"⟩, ⟨"laptop"⟩⟩ :: [] := by decide +kernel
    obtain ⟨_, hmember, -⟩ := hkept _ _ _ hjoins (by simp) (by decide +kernel)
    exact Option.some_ne_none _ (hmember.symm.trans hgone)
  · intro hspares
    have hstays := hspares ⟨"room"⟩ ⟨"laptop"⟩ 1 (by decide +kernel) (by decide) (by decide +kernel)
    exact Option.some_ne_none _ (hstays.symm.trans hgone)

/-! ## Entries of closed sockets -/

/-- Every entry that the socket has registered is the one of its last join. -/
def InOnePlace (k : Nat) (s : SignalingServer) : Prop :=
  ∀ roomId peerId, s.registry.member roomId peerId = some k →
    s.joined k = some (roomId, peerId)

/-- Nobody is in the room any more. -/
def deserted (s : SignalingServer) (room : Room) : Bool :=
  room.peers.rows.all fun peer => !s.isOpen peer.socket

/-- Closed sockets are in no room, and a room without an open member is empty and gone once it is
swept. -/
structure Tidy (s : SignalingServer) : Prop where
  noGhosts : ∀ k, s.closed k = true → ∀ roomId peerId, s.registry.member roomId peerId ≠ some k
  collectable : ∀ room ∈ s.registry.rooms.rows, s.deserted room = true →
    room.peers.rows = [] ∧ ∀ now, room.createdAt + RoomRegistry.emptyRoomTtlMs ≤ now →
      (s.registry.sweep now).1.rooms.has room.id = false
  held : (s.registry.rooms.rows.filter fun room =>
    !room.peers.rows.isEmpty && s.deserted room).length = 0

theorem mem_member {room : Room} {peer : SignalingPeer} (hroom : room ∈ s.registry.rooms.rows)
    (hpeer : peer ∈ room.peers.rows) :
    s.registry.member room.id peer.peerId = some peer.socket :=
  RoomRegistry.member_eq_some.mpr ⟨room, Table.find_of_mem hroom, Table.find_of_mem hpeer⟩

theorem tidy_iff (hs : Consistent s js) : s.Tidy ↔
    ∀ k, s.closed k = true → ∀ roomId peerId, s.registry.member roomId peerId ≠ some k := by
  refine ⟨Tidy.noGhosts, fun h => ?_⟩
  have hempty : ∀ room ∈ s.registry.rooms.rows, s.deserted room = true → room.peers.rows = [] := by
    intro room hroom hdeserted
    apply List.eq_nil_iff_forall_not_mem.mpr
    intro peer hpeer
    have hmember := mem_member hroom hpeer
    have hopen : s.isOpen peer.socket = true := by
      refine isOpen_iff.mpr ⟨hs.members _ _ _ hmember, ?_⟩
      by_contra hclosed
      exact h peer.socket (by simpa using hclosed) _ _ hmember
    have hclosed := List.all_eq_true.mp hdeserted peer hpeer
    simp [hopen] at hclosed
  refine ⟨h, fun room hroom hdeserted => ⟨hempty room hroom hdeserted, fun now hnow => ?_⟩, ?_⟩
  · have habandoned : RoomRegistry.abandoned now room = true := by
      simp [RoomRegistry.abandoned, hempty room hroom hdeserted, hnow]
    rw [RoomRegistry.sweep, Table.has, Table.find_filter, Table.find_of_mem hroom]
    simp [Option.filter, habandoned]
  · rw [List.length_eq_zero_iff, List.filter_eq_nil_iff]
    intro room hroom hheld
    rw [Bool.and_eq_true] at hheld
    simp [hempty room hroom hheld.2] at hheld

theorem noGhosts_moves (h : ∀ k, s.closed k = true → ∀ roomId peerId,
      s.registry.member roomId peerId ≠ some k) (hmove : Moves s event s' new)
    (hplace : ∀ k, event = .close k → s.isOpen k = true → InOnePlace k s) (k : Nat)
    (hk : s'.closed k = true) (roomId : RoomId) (peerId : PeerId) :
    s'.registry.member roomId peerId ≠ some k := by
  cases hmove with
  | connect | idle => exact h k hk roomId peerId
  | join hopen hmember =>
    rw [hmember]
    split
    · rintro ⟨⟩
      have hclosed := (isOpen_iff.mp hopen).2
      exact absurd (hclosed.symm.trans hk) (by decide)
    · exact h k hk roomId peerId
  | @leave k' _ hopen hmember =>
    rw [hmember]
    split
    · simp
    · rename_i hkept
      by_cases hsame : k = k'
      · subst hsame
        exact fun hmem => hkept (hplace k rfl hopen roomId peerId hmem)
      · exact h k (by simpa [Function.update_of_ne hsame] using hk) roomId peerId
  | createRoom =>
    rcases RoomRegistry.member_createRoom _ _ _ s.registry roomId peerId with hsame | ⟨-, hnone⟩
    · exact fun hmem => h k hk roomId peerId (hsame.symm.trans hmem)
    · exact fun hmem => Option.some_ne_none k (hmem.symm.trans hnone)

/-- The rooms are tidy in every state exactly when each socket that closes is in one place. -/
theorem always_tidy_iff (events : List (SignalingEvent π)) :
    (∀ before later, events = before ++ later → (after before).Tidy) ↔
      ∀ before k later, events = before ++ .close k :: later → (after before).isOpen k = true →
        InOnePlace k (after before) := by
  constructor
  · intro h before k later hsplit hopen roomId peerId hmem
    have htidy := h (before ++ [.close k]) later (by simp [hsplit])
    have hmove := moves_step (after before) (.close k : SignalingEvent π)
    rw [after_concat] at htidy
    generalize ((after before).step (.close k)).1 = s' at htidy hmove
    cases hmove with
    | idle _ hclosed => exact absurd hopen (by simp [hclosed k rfl])
    | leave _ hmember =>
      by_contra hother
      refine htidy.noGhosts k (by simp) roomId peerId ?_
      rw [hmember, if_neg hother]
      exact hmem
  · intro h before later hsplit
    rw [tidy_iff (consistent before)]
    induction before using List.reverseRecOn generalizing later with
    | nil => intro k hk; cases hk
    | append_singleton before event ih =>
      rw [List.append_assoc] at hsplit
      rw [after_concat]
      refine noGhosts_moves (ih _ hsplit) (moves_step _ event) ?_
      rintro k rfl
      exact h before k later hsplit

/-- A socket joins two rooms and closes, and stays in the first. -/
theorem ghost_member : ∃ events : List (SignalingEvent Unit), ¬ (after events).Tidy := by
  refine ⟨[.connect, .message 0 0 (some (.join ⟨"first"⟩ "token" ⟨"laptop"⟩)),
    .message 0 0 (some (.join ⟨"second"⟩ "token" ⟨"laptop"⟩)), .close 0], fun htidy => ?_⟩
  exact htidy.noGhosts 0 (by decide +kernel) ⟨"first"⟩ ⟨"laptop"⟩ (by decide +kernel)

end SignalingServer

end PassVault
