import Mathlib.Logic.Function.Basic
import Mathlib.Logic.Relation
import PassVault.Sync.Codec

/-!
# The hub of the links to peers

`packages/transport/src/peerLinkHub.ts`: which frames reach a link, which wait for one, and which
are dropped. Links are told apart by the order they were created in. `JSON.parse` is a parameter.
-/

namespace PassVault

inductive ChannelName where
  | control
  | bulk
deriving DecidableEq, Repr

structure PeerFrame where
  peerId : PeerId
  channel : ChannelName
  text : Option Text
  bytes : Option Bytes
deriving DecidableEq, Repr

/-- The bytes a frame carries. -/
def PeerFrame.size (frame : PeerFrame) : Nat :=
  2 * (frame.text.elim 0 (·.length)) + frame.bytes.elim 0 (·.length)

/-- Is this frame a peer opening a new session? -/
def opensASession (parse : Text → Option Json) (frame : PeerFrame) : Bool :=
  match frame.channel, frame.text with
  | .control, some text =>
    match parse text with
    | some (.object fields) =>
      match field fields "type" with
      | some (.string type) => type = utf16 "hello"
      | _ => false
    | _ => false
  | _, _ => false

structure PeerLinkHub where
  links : PeerId → Option Nat
  created : Nat
  waiting : PeerId → List PeerFrame

/-- What becomes of an inbound frame. -/
inductive Delivery where
  | dropped
  /-- It waits, unless too many do; `invited` when `onPeerInitiated` is called. -/
  | held (invited : Bool)
  | control (link : Nat) (text : Text)
  | bulk (link : Nat) (bytes : Bytes)
deriving DecidableEq, Repr

namespace PeerLinkHub

def maxWaiting : Nat := 8

def new : PeerLinkHub := ⟨fun _ => none, 0, fun _ => []⟩

/-- The hub without the link of a peer, and the link that is closed. -/
def closeLink (peerId : PeerId) (hub : PeerLinkHub) : PeerLinkHub × Option Nat :=
  ({ hub with
      links := Function.update hub.links peerId none
      waiting := Function.update hub.waiting peerId [] }, hub.links peerId)

/-- The hub with a new link, and the frames that are delivered to it in the next microtask. -/
def createLink (peerId : PeerId) (hub : PeerLinkHub) : PeerLinkHub × List PeerFrame :=
  let held := hub.waiting peerId
  let (hub, _) := hub.closeLink peerId
  ({ hub with
      links := Function.update hub.links peerId (some hub.created)
      created := hub.created + 1 }, held)

def deliverInbound (parse : Text → Option Json) (frame : PeerFrame) (hub : PeerLinkHub) :
    PeerLinkHub × Delivery :=
  match hub.links frame.peerId with
  | none =>
    if opensASession parse frame then
      let waiting := hub.waiting frame.peerId
      let held := if waiting.length < maxWaiting then waiting ++ [frame] else waiting
      ({ hub with waiting := Function.update hub.waiting frame.peerId held },
        .held (held.length = 1))
    else (hub, .dropped)
  | some link =>
    match frame.channel, frame.text, frame.bytes with
    | .control, some text, _ => (hub, .control link text)
    | .bulk, _, some bytes => (hub, .bulk link bytes)
    | _, _, _ => (hub, .dropped)

/-- Every link is closed; peers without one keep what waits for them. -/
def closeAll (hub : PeerLinkHub) : PeerLinkHub :=
  { hub with
    links := fun _ => none
    waiting := fun peerId => if (hub.links peerId).isSome then [] else hub.waiting peerId }

/-- One call of the hub, where no frame carries more than `maxMessage` bytes. -/
inductive Call (parse : Text → Option Json) (maxMessage : Nat) (hub : PeerLinkHub) :
    PeerLinkHub → Prop where
  | createLink (peerId : PeerId) : Call parse maxMessage hub (hub.createLink peerId).1
  | deliverInbound (frame : PeerFrame) (hsize : frame.size ≤ maxMessage) :
    Call parse maxMessage hub (hub.deliverInbound parse frame).1
  | closeLink (peerId : PeerId) : Call parse maxMessage hub (hub.closeLink peerId).1
  | closeAll : Call parse maxMessage hub hub.closeAll

/-- What waits for each peer is bounded. -/
def Bounded (maxMessage : Nat) (hub : PeerLinkHub) : Prop :=
  ∀ peerId, (hub.waiting peerId).length ≤ maxWaiting ∧
    ∀ frame ∈ hub.waiting peerId, frame.size ≤ maxMessage

variable {maxMessage : Nat} {hub : PeerLinkHub}

theorem Bounded.update (h : hub.Bounded maxMessage) (peerId : PeerId) {held : List PeerFrame}
    (hlength : held.length ≤ maxWaiting) (hsize : ∀ frame ∈ held, frame.size ≤ maxMessage) :
    Bounded maxMessage { hub with waiting := Function.update hub.waiting peerId held } := by
  intro other
  by_cases hother : other = peerId
  · subst hother
    simpa using ⟨hlength, hsize⟩
  · simpa [Function.update_of_ne hother] using h other

theorem Bounded.closeLink (h : hub.Bounded maxMessage) (peerId : PeerId) :
    (hub.closeLink peerId).1.Bounded maxMessage :=
  h.update peerId (Nat.zero_le _) (by simp)

theorem Bounded.deliverInbound (h : hub.Bounded maxMessage) (parse : Text → Option Json)
    {frame : PeerFrame} (hsize : frame.size ≤ maxMessage) :
    (hub.deliverInbound parse frame).1.Bounded maxMessage := by
  obtain ⟨hlength, hall⟩ := h frame.peerId
  unfold PeerLinkHub.deliverInbound
  split
  · split
    · dsimp only
      split
      · rename_i hroom
        apply h.update _ (by simpa using Nat.succ_le_of_lt hroom)
        intro other hother
        rcases List.mem_append.mp hother with hother | hother
        · exact hall other hother
        · exact List.mem_singleton.mp hother ▸ hsize
      · exact h.update _ hlength hall
    · exact h
  · split
    · exact h
    · exact h
    · exact h

theorem Bounded.call {parse : Text → Option Json} {after : PeerLinkHub}
    (h : hub.Bounded maxMessage) (hcall : Call parse maxMessage hub after) :
    after.Bounded maxMessage := by
  cases hcall with
  | createLink peerId => exact h.closeLink peerId
  | deliverInbound frame hsize => exact h.deliverInbound parse hsize
  | closeLink peerId => exact h.closeLink peerId
  | closeAll =>
    intro peerId
    unfold closeAll
    dsimp only
    split
    · exact ⟨Nat.zero_le _, by simp⟩
    · exact h peerId

/-- However the hub is used, what waits in it for a peer is bounded. -/
theorem bounded_calls {parse : Text → Option Json}
    (h : Relation.ReflTransGen (Call parse maxMessage) new hub) : hub.Bounded maxMessage := by
  induction h with
  | refl => exact fun _ => ⟨Nat.zero_le _, by simp [new]⟩
  | tail _ hcall ih => exact ih.call hcall

end PeerLinkHub

end PassVault
