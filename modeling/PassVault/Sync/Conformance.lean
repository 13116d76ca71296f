import PassVault.Sync.Outbound
import PassVault.Sync.QuietSteps

/-!
# A session keeps to the protocol

What a session says, whatever the peer says and in whatever order it is delivered, is a prefix of
one conversation: who it is, its proof, its vault, its history, what it wants, then each revision
it serves as a header with its chunks in order and nothing else before the peer has answered, and
that it is done. Answers to what the peer sends may stand anywhere.
-/

namespace PassVault

open Async

/-- How much of the conversation a session has held. -/
inductive Phase where
  | silent
  | greeted
  | proved
  | introduced
  | told (vaultId : VaultId)
  /-- `count` transfers are over. -/
  | ready (vaultId : VaultId) (count : Nat)
  /-- Of the transfer `count`, the chunks before `next` are sent. -/
  | sending (vaultId : VaultId) (count : Nat) (revisionId : RevisionId) (total next : Nat)
      (answered : Bool)
  | completed
  /-- It has said why it gives up. -/
  | broken
deriving DecidableEq, Repr

namespace Phase

/-- The vault and the number of transfers, when none is under way. -/
def idle : Phase → Option (VaultId × Nat)
  | ready vaultId count => some (vaultId, count)
  | sending vaultId count _ total next answered =>
    if next = total ∧ answered then some (vaultId, count) else none
  | _ => none

/-- What may be said next. -/
def say (phase : Phase) : Message → Option Phase
  | .revisionAck .. => some phase
  | .hello .. => if phase = silent then some greeted else none
  | .auth _ => if phase = greeted then some proved else none
  | .error .. => if phase = greeted ∨ phase = proved then some broken else none
  | .vaultSummary .. => if phase = proved then some introduced else none
  | .historySummary vaultId _ => if phase = introduced then some (told vaultId) else none
  | .wantRevisions vaultId _ => if phase = told vaultId then some (ready vaultId 0) else none
  | .revisionHeader header =>
    match phase.idle with
    | some (vaultId, count) =>
      if header.transferSeq = count + 1 then
        some (sending vaultId (count + 1) header.revisionId header.totalChunks 0 false)
      else none
    | none => none
  | .syncComplete vaultId =>
    match phase.idle with
    | some (vaultId', _) => if vaultId = vaultId' then some completed else none
    | none => none
  | _ => none

/-- Only the next chunk of the transfer under way may be sent. -/
def carry : Phase → Option ChunkFrame → Option Phase
  | sending vaultId count revisionId total next answered, some frame =>
    if frame.transferSeq = count ∧ frame.chunkIndex = next ∧ next < total then
      some (sending vaultId count revisionId total (next + 1) answered)
    else none
  | _, _ => none

/-- The peer answers the transfer under way. -/
def hear : Phase → Except Failure Message → Phase
  | sending vaultId count revisionId total next answered, .ok (.revisionAck revisionId' ..) =>
    sending vaultId count revisionId total next (answered || revisionId' = revisionId)
  | phase, _ => phase

def after (phase : Phase) : PeerEvent → Option Phase
  | .output (.control message) => phase.say message
  | .output (.bulk frame) => phase.carry (decodeChunkFrame frame)
  | .delivered payload => some (phase.hear payload)
  | _ => some phase

end Phase

/-- The phase that a log leads to; none when something is out of place. -/
def conversation (log : List (Peer × PeerEvent)) : Option Phase :=
  log.foldlM (fun phase x => phase.after x.2) .silent

theorem conversation_append {log : List (Peer × PeerEvent)} {phase : Phase}
    (h : conversation log = some phase) (later : List (Peer × PeerEvent)) :
    conversation (log ++ later) = later.foldlM (fun phase x => phase.after x.2) phase := by
  have hsplit : conversation (log ++ later) =
      (conversation log).bind (later.foldlM fun phase x => phase.after x.2) := List.foldlM_append
  rw [hsplit, h]
  rfl

theorem Hushed.after {e : PeerEvent} (h : Hushed e) (phase : Phase) :
    phase.after e = some phase := by
  cases e with
  | output output =>
    cases output with
    | control message =>
      cases message with
      | revisionAck => rfl
      | _ => cases h
    | bulk => cases h
    | event => rfl
  | delivered => cases h
  | engine | arrived | closed => rfl

theorem foldlM_hushed {s : Peer} {events : List PeerEvent} (h : ∀ e ∈ events, Hushed e)
    (phase : Phase) :
    (events.map (s, ·)).foldlM (fun phase x => phase.after x.2) phase = some phase := by
  induction events with
  | nil => rfl
  | cons e rest ih =>
    rw [List.map_cons, List.foldlM_cons, (h e List.mem_cons_self).after phase]
    exact ih fun e he => h e (List.mem_cons_of_mem _ he)

/-! ## The program that speaks -/

/-- Where a program of the pool is: `run` between two messages, while it serves a revision, and
when the answer is there but not yet taken; and the programs that only answer. -/
inductive Speaker where
  | before (phase : Phase)
  | ready (vaultId : VaultId) (count : Nat)
  | serving (vaultId : VaultId) (count : Nat) (revisionId : RevisionId) (total next : Nat)
  | answered (vaultId : VaultId) (count : Nat)
  | aside

inductive Speaks : Speaker → Peer → List PeerEvent → Peer → Speaker → Prop where
  | hushed {g : Speaker} {s t : Peer} {events : List PeerEvent} (h : ∀ e ∈ events, Hushed e)
      (hack : t.session.ack = s.session.ack) (houtcome : t.session.outcome = s.session.outcome) :
    Speaks g s events t g
  | opens {phase phase' : Phase} {s : Peer} {message : Message} (h : phase.say message = some phase')
      (hdeaf : ∀ payload, phase'.hear payload = phase') :
    Speaks (.before phase) s [.output (.control message)] s (.before phase')
  | asks {vaultId : VaultId} {s : Peer} (wanted : List RevisionId) :
    Speaks (.before (.told vaultId)) s [.output (.control (.wantRevisions vaultId wanted))] s
      (.ready vaultId 0)
  | header {vaultId : VaultId} {count : Nat} {s : Peer} {header : RevisionHeader}
      (h : header.transferSeq = count + 1) :
    Speaks (.ready vaultId count) s [.output (.control (.revisionHeader header))] s
      (.serving vaultId (count + 1) header.revisionId header.totalChunks 0)
  | chunk {vaultId : VaultId} {count total next : Nat} {revisionId : RevisionId} {s : Peer}
      {frame payload : Bytes} (h : decodeChunkFrame frame = some ⟨count, next, payload⟩)
      (hnext : next < total) :
    Speaks (.serving vaultId count revisionId total next) s [.output (.bulk frame)] s
      (.serving vaultId count revisionId total (next + 1))
  | waits {vaultId : VaultId} {count total next : Nat} {revisionId : RevisionId} {s : Peer} :
    Speaks (.serving vaultId count revisionId total next) s []
      { s with session := { s.session with ack := .waiting revisionId } }
      (.serving vaultId count revisionId total next)
  | settles {vaultId : VaultId} {count total : Nat} {revisionId : RevisionId} {s : Peer}
      (h : s.session.ackSettled = true) :
    Speaks (.serving vaultId count revisionId total total) s [] s (.answered vaultId count)
  | takes {vaultId : VaultId} {count : Nat} {s : Peer} :
    Speaks (.answered vaultId count) s []
      { s with session := { s.session with ack := .idle } } (.ready vaultId count)
  | completes {vaultId : VaultId} {count : Nat} {s : Peer} :
    Speaks (.ready vaultId count) s [.output (.control (.syncComplete vaultId))] s
      (.before .completed)
  | ended {g : Speaker} {s : Peer} {result : Except Failure SessionResult}
      (h : ∀ r, result = .ok r → g = .before .completed) :
    Speaks g s [] { s with session := { s.session with outcome := some result } } g
  | control {s : Peer} (payload : Except Failure Message) :
    Speaks .aside s (.delivered payload :: (s.session.accept payload).2.map .output)
      { s with session := (s.session.accept payload).1 } .aside

/-- How far the conversation is when the program is there. -/
def Stands : Speaker → Phase → Session → Prop
  | .before phase, phase', s =>
    phase' = phase ∧ s.ack = .idle ∧ ∀ payload, phase.hear payload = phase
  | .ready vaultId count, phase, s => phase.idle = some (vaultId, count) ∧ s.ack = .idle
  | .serving vaultId count revisionId total next, phase, s =>
    ∃ answered, phase = .sending vaultId count revisionId total next answered ∧
      (∀ id, s.ack = .waiting id → id = revisionId) ∧
      ∀ accepted reason, s.ack = .settled accepted reason → answered = true
  | .answered vaultId count, phase, s =>
    phase.idle = some (vaultId, count) ∧ ∃ accepted reason, s.ack = .settled accepted reason
  | .aside, _, _ => False

theorem Stands.same {g : Speaker} {phase : Phase} {s t : Session} (h : Stands g phase s)
    (hack : t.ack = s.ack) : Stands g phase t := by
  cases g with
  | before | ready | serving | answered => simpa only [Stands, hack] using h
  | aside => exact h

namespace Session

/-- Only an answer to what is waited for settles it. -/
theorem ack_accept (payload : Except Failure Message) (s : Session) :
    (s.accept payload).1.outcome = s.outcome ∧ ((s.accept payload).1.ack = s.ack ∨
      ∃ revisionId accepted reason, payload = .ok (.revisionAck revisionId accepted reason) ∧
        s.ack = .waiting revisionId ∧ (s.accept payload).1.ack = .settled accepted reason) := by
  refine ⟨(steps_accept payload s).sameResult.2, ?_⟩
  unfold accept
  split
  · exact .inl rfl
  · exact .inl rfl
  · split
    · exact .inl rfl
    · exact .inl (SessionEnd.Inbound.onHeader _ s).ack
  · rename_i revisionId accepted reason
    unfold onAck
    split
    · rename_i hwaiting
      exact .inr ⟨_, _, _, rfl, hwaiting, rfl⟩
    · exact .inl rfl
  · exact .inl ((SessionEnd.Inbound.notifyProgress _).ack.trans rfl)
  · exact .inl (SessionEnd.Inbound.onCancel _ _ s).ack
  · unfold enqueue
    split
    · split <;> exact .inl rfl
    · exact .inl rfl

end Session

theorem Phase.idle_hear {phase : Phase} {open_ : VaultId × Nat} (h : phase.idle = some open_)
    (payload : Except Failure Message) : (phase.hear payload).idle = some open_ := by
  unfold hear
  split
  · unfold idle at h ⊢
    dsimp only at h ⊢
    split at h
    · rename_i hover
      rw [if_pos ⟨hover.1, by simp [hover.2]⟩]
      exact h
    · cases h
  · exact h

/-- What arrives moves the conversation on, but not the program that speaks. -/
theorem Stands.hear {g : Speaker} {phase : Phase} {s : Session} (h : Stands g phase s)
    (payload : Except Failure Message) :
    Stands g (phase.hear payload) (s.accept payload).1 := by
  obtain ⟨-, hsame | ⟨revisionId, accepted, reason, rfl, hwaiting, hsettled⟩⟩ :=
    Session.ack_accept payload s
  · cases g with
    | before =>
      obtain ⟨rfl, hidle, hdeaf⟩ := h
      exact ⟨hdeaf payload, hsame.trans hidle, hdeaf⟩
    | ready => exact ⟨Phase.idle_hear h.1 payload, hsame.trans h.2⟩
    | serving =>
      obtain ⟨answered, rfl, hid, hanswered⟩ := h
      rw [← hsame] at hid hanswered
      unfold Phase.hear
      split
      · rename_i heq
        cases heq
        refine ⟨_, rfl, hid, fun accepted reason hsettled => ?_⟩
        rw [hanswered accepted reason hsettled]
        rfl
      · exact ⟨answered, rfl, hid, hanswered⟩
    | answered =>
      obtain ⟨hidle, accepted, reason, hsettled⟩ := h
      exact ⟨Phase.idle_hear hidle payload, accepted, reason, hsame.trans hsettled⟩
    | aside => exact h
  · cases g with
    | before | ready =>
      have hidle : s.ack = .idle := by first | exact h.2.1 | exact h.2
      rw [hidle] at hwaiting
      cases hwaiting
    | serving =>
      obtain ⟨answered, rfl, hid, -⟩ := h
      refine ⟨_, rfl, fun id hstill => ?_, fun _ _ _ => ?_⟩
      · rw [hsettled] at hstill
        cases hstill
      · simp [hid revisionId hwaiting]
    | answered =>
      obtain ⟨-, accepted, reason, hold⟩ := h
      rw [hold] at hwaiting
      cases hwaiting
    | aside => exact h

/-! ## Every step keeps to the conversation -/

/-- The first program speaks, where the conversation stands; the others only answer. -/
structure Conforms (phase : Phase) (states : List Speaker) (s : Peer)
    (log : List (Peer × PeerEvent)) : Prop where
  said : conversation log = some phase
  speaker : ∃ g rest, states = g :: rest ∧ Stands g phase s.session
  aside : ∀ g ∈ states.tail, g = .aside
  outcome : ∀ result, s.session.outcome = some (.ok result) → phase = .completed

section Conforms

variable {phase phase' : Phase} {states rest : List Speaker} {s t : Peer}
  {log : List (Peer × PeerEvent)} {events : List PeerEvent}

/-- What the speaker does moves the conversation on. -/
theorem Conforms.speak {g g' : Speaker} (h : Conforms phase (g :: rest) s log)
    (hafter : (events.map (s, ·)).foldlM (fun phase x => phase.after x.2) phase = some phase')
    (hstands : Stands g' phase' t.session)
    (houtcome : ∀ result, t.session.outcome = some (.ok result) → phase' = .completed) :
    Conforms phase' (g' :: rest) t (log ++ events.map (s, ·)) :=
  ⟨(conversation_append h.said _).trans hafter, ⟨g', rest, rfl, hstands⟩, h.aside, houtcome⟩

/-- A session that has not completed has not ended well. -/
theorem Conforms.unfinished (h : Conforms phase states s log) (hphase : phase ≠ .completed)
    {result : SessionResult} : s.session.outcome ≠ some (.ok result) :=
  fun houtcome => hphase (h.outcome result houtcome)

theorem Phase.idle_ne_completed {open_ : VaultId × Nat} (h : phase.idle = some open_) :
    phase ≠ .completed := by
  rintro rfl
  cases h

theorem Phase.hear_completed (payload : Except Failure Message) :
    Phase.completed.hear payload = .completed := rfl

/-- A program that is started does not speak. -/
theorem Conforms.start (h : Conforms phase states s log) :
    Conforms phase (states ++ [.aside]) s log := by
  obtain ⟨g, rest, rfl, hstands⟩ := h.speaker
  refine ⟨h.said, ⟨g, rest ++ [.aside], rfl, hstands⟩, fun g' hmem => ?_, h.outcome⟩
  rcases List.mem_append.mp hmem with hmem | hmem
  · exact h.aside g' hmem
  · exact List.mem_singleton.mp hmem

/-- What a program says may be said where it is. -/
theorem Conforms.step {i : Nat} {g g' : Speaker} (hi : states[i]? = some g)
    (h : Conforms phase states s log) (hstep : Speaks g s events t g') :
    ∃ phase', Conforms phase' (states.set i g') t (log ++ events.map (s, ·)) := by
  have hsame : states.set i g = states := by
    obtain ⟨hlt, hget⟩ := List.getElem?_eq_some_iff.mp hi
    rw [← hget, List.set_getElem_self]
  -- Only the first program is anywhere but aside.
  have hfirst : g ≠ .aside → i = 0 ∧ ∃ rest, states = g :: rest ∧ Stands g phase s.session := by
    intro hg
    obtain ⟨rfl, rest, rfl⟩ := head_of_tail h.aside hi hg
    obtain ⟨_, _, heq, hstands⟩ := h.speaker
    cases heq
    exact ⟨rfl, rest, rfl, hstands⟩
  cases hstep with
  | hushed hevents hack houtcome =>
    rw [hsame]
    obtain ⟨first, rest, heq, hstands⟩ := h.speaker
    refine ⟨phase, (conversation_append h.said _).trans (foldlM_hushed hevents phase),
      ⟨first, rest, heq, hstands.same hack⟩, h.aside, houtcome ▸ h.outcome⟩
  | @opens phase₀ phase' _ message hsay hdeaf =>
    obtain ⟨rfl, rest, rfl, rfl, hidle, -⟩ := hfirst (by simp)
    refine ⟨phase', h.speak (by simpa [Phase.after] using hsay) ⟨rfl, hidle, hdeaf⟩ ?_⟩
    intro result houtcome
    obtain rfl := h.outcome result houtcome
    cases message with
    | revisionAck => exact (Option.some.inj hsay).symm
    | _ => cases hsay
  | @asks vaultId _ wanted =>
    obtain ⟨rfl, rest, rfl, rfl, hidle, -⟩ := hfirst (by simp)
    exact ⟨.ready vaultId 0, h.speak (by simp [Phase.after, Phase.say]) ⟨rfl, hidle⟩
      fun result houtcome => (h.unfinished (by simp) houtcome).elim⟩
  | @header vaultId count _ header hseq =>
    obtain ⟨rfl, rest, rfl, hready, hidle⟩ := hfirst (by simp)
    refine ⟨_, h.speak (by simp [Phase.after, Phase.say, hready, hseq])
      ⟨false, rfl, ?_, ?_⟩ fun result houtcome =>
        (h.unfinished (Phase.idle_ne_completed hready) houtcome).elim⟩
    · simp [hidle]
    · simp [hidle]
  | @chunk vaultId count total next revisionId _ frame payload hdecode hnext =>
    obtain ⟨rfl, rest, rfl, answered, rfl, hid, hanswered⟩ := hfirst (by simp)
    exact ⟨_, h.speak (by simp [Phase.after, Phase.carry, hdecode, hnext])
      ⟨answered, rfl, hid, hanswered⟩ fun result houtcome =>
        (h.unfinished (by simp) houtcome).elim⟩
  | @waits vaultId count total next revisionId =>
    obtain ⟨rfl, rest, rfl, answered, rfl, -, -⟩ := hfirst (by simp)
    refine ⟨_, h.speak rfl ⟨answered, rfl, ?_, ?_⟩ fun result houtcome =>
      (h.unfinished (by simp) houtcome).elim⟩
    · simp
    · simp
  | @settles vaultId count total revisionId _ hsettled =>
    obtain ⟨rfl, rest, rfl, answered, rfl, -, hanswered⟩ := hfirst (by simp)
    obtain ⟨accepted, reason, hack⟩ : ∃ accepted reason,
        s.session.ack = .settled accepted reason := by
      rw [Session.ackSettled] at hsettled
      split at hsettled
      · exact ⟨_, _, ‹_›⟩
      · cases hsettled
    obtain rfl := hanswered accepted reason hack
    exact ⟨_, h.speak rfl ⟨by simp [Phase.idle], accepted, reason, hack⟩ fun result houtcome =>
      (h.unfinished (by simp) houtcome).elim⟩
  | takes =>
    obtain ⟨rfl, rest, rfl, hready, -⟩ := hfirst (by simp)
    exact ⟨phase, h.speak rfl ⟨hready, rfl⟩ h.outcome⟩
  | completes =>
    obtain ⟨rfl, rest, rfl, hready, hidle⟩ := hfirst (by simp)
    exact ⟨.completed, h.speak (by simp [Phase.after, Phase.say, hready])
      ⟨rfl, hidle, Phase.hear_completed⟩ fun _ _ => rfl⟩
  | @ended _ _ result hresult =>
    rw [hsame]
    obtain ⟨first, rest, rfl, hstands⟩ := h.speaker
    refine ⟨phase, (conversation_append h.said _).trans rfl, ⟨first, rest, rfl, hstands.same rfl⟩,
      h.aside, fun r houtcome => ?_⟩
    cases houtcome
    have hg := hresult r rfl
    obtain ⟨rfl, rest, heq, hcompleted⟩ := hfirst (by simp [hg])
    rw [hg] at hcompleted
    exact hcompleted.1
  | control payload =>
    rw [hsame]
    obtain ⟨first, rest, heq, hstands⟩ := h.speaker
    refine ⟨phase.hear payload, ?_, ⟨first, rest, heq, hstands.hear payload⟩, h.aside, ?_⟩
    · rw [conversation_append h.said, List.map_cons, List.foldlM_cons]
      refine foldlM_hushed (fun e he => ?_) _
      obtain ⟨output, hmem, rfl⟩ := List.mem_map.mp he
      exact (Session.answer_accept payload s.session output hmem).hushed
    · intro result houtcome
      rw [(Session.ack_accept payload s.session).1] at houtcome
      rw [h.outcome result houtcome]
      exact Phase.hear_completed payload

end Conforms

/-! ## The programs -/

/-- A program that only answers. -/
structure Answers (s : Peer) (events : List PeerEvent) (t : Peer) : Prop where
  hushed : ∀ e ∈ events, Hushed e
  ack : t.session.ack = s.session.ack
  outcome : t.session.outcome = s.session.outcome

theorem Quiet.answers {s t : Peer} {events : List PeerEvent} (h : Quiet s events t) :
    Answers s events t :=
  ⟨h.hushed, h.ack, h.outcome⟩

namespace SyncSession

variable {α : Type}

/-- What a link of the `inboundWork` chain sends are answers. -/
theorem answers_ingestNext (deps : EngineDeps) (now : Nat) (inbound : InboundHeader)
    (bytes : Bytes) :
    Within Answers (ingestNext 0 deps now inbound bytes : Async Peer PeerEvent Failure Unit) := by
  have honSession : ∀ {f : Session → Session × List Output},
      (∀ s, SessionEnd.Inbound s (f s).1) →
      (∀ s, ∀ output ∈ (f s).2, Session.Answer output) →
      Within Answers (onSession 0 f : Async Peer PeerEvent Failure Unit) := by
    intro f hf hanswer s
    refine ⟨⟨fun e hmem => ?_, (hf s.session).ack, (hf s.session).outcome⟩, trivial⟩
    obtain ⟨output, houtput, rfl⟩ := List.mem_map.mp hmem
    exact (hanswer s.session output houtput).hushed
  have hreject : ∀ reason, Within Answers (onSession 0 (·.reject inbound.header.revisionId reason) :
      Async Peer PeerEvent Failure Unit) :=
    fun reason => honSession (SessionEnd.Inbound.reject _ reason) (Session.answer_reject _ reason)
  have hingest : Within Answers (SyncEngine.ingestReceivedRevision deps now ⟨inbound.header.vaultId,
      inbound.header.revisionId, inbound.header.parentIds, inbound.header.hash, bytes,
      inbound.fromDeviceId, inbound.header.message⟩ :
        Async Peer PeerEvent Failure IngestResult) := by
    have honly : ∀ input, StoreOnly (fun _ => True) (SyncEngine.ingestReceivedRevision deps now input :
        Async Peer PeerEvent Failure IngestResult) :=
      fun _ => storeOnly_ingest deps now fun _ _ => trivial
    apply (honly _).within
    intro s events t hst hevents
    have hsession := Peer.session_storeStep hst
    refine ⟨fun e hmem => ?_, by rw [hsession], by rw [hsession]⟩
    obtain ⟨event, rfl, -⟩ := hevents e hmem
    trivial
  refine Within.bind (p := update 0 _) (fun s => ⟨⟨by simp, rfl, rfl⟩, trivial⟩) fun _ => ?_
  refine Within.bind (Within.attempt ?_) fun _ s => ⟨⟨by simp, rfl, rfl⟩, trivial⟩
  refine Within.bind (Within.attempt (hingest.bind fun result => ?_)) fun outcome => ?_
  · split
    · exact hreject _
    · exact honSession (SessionEnd.Inbound.accepted _) (Session.answer_accepted _)
  · split
    · trivial
    · exact hreject _

section Speaking

variable {g : Speaker} {s : Peer} {onFail : Speaker → Peer → Prop}

/-- A program that says nothing leaves the speaker where it is. -/
theorem follows_quiet {p : Async Peer PeerEvent Failure α} (hp : Within Quiet p)
    (hfail : ∀ s, onFail g s) : Follows Speaks (fun g' _ _ => g' = g) onFail p g s :=
  hp.follows (fun _ _ _ h => .hushed h.hushed h.ack h.outcome) (fun _ _ => rfl) hfail

/-- The next message of the conversation. -/
theorem follows_say {phase : Phase} (phase' : Phase) {message : Message}
    (h : phase.say message = some phase')
    (hdeaf : ∀ payload, phase'.hear payload = phase') :
    Follows Speaks (fun g _ _ => g = .before phase') onFail (send 0 message) (.before phase) s :=
  ⟨_, .opens h hdeaf, rfl⟩

theorem follows_wantRevisions {vaultId : VaultId} {wanted : List RevisionId} :
    Follows Speaks (fun g _ _ => g = .ready vaultId 0) onFail
      (send 0 (.wantRevisions vaultId wanted)) (.before (.told vaultId)) s :=
  ⟨_, .asks wanted, rfl⟩

theorem follows_header {vaultId : VaultId} {count : Nat} {header : RevisionHeader}
    (h : header.transferSeq = count + 1) :
    Follows Speaks
      (fun g _ _ => g = .serving vaultId (count + 1) header.revisionId header.totalChunks 0) onFail
      (send 0 (.revisionHeader header)) (.ready vaultId count) s :=
  ⟨_, .header h, rfl⟩

theorem follows_awaitAck {vaultId : VaultId} {count total next : Nat} {revisionId : RevisionId} :
    Follows Speaks (fun g _ _ => g = .serving vaultId count revisionId total next) onFail
      (awaitAck 0 revisionId) (.serving vaultId count revisionId total next) s :=
  ⟨_, .waits, rfl⟩

theorem follows_syncComplete {vaultId : VaultId} {count : Nat} :
    Follows Speaks (fun g _ _ => g = .before .completed) onFail (send 0 (.syncComplete vaultId))
      (.ready vaultId count) s :=
  ⟨_, .completes, rfl⟩

theorem follows_hello (auth : PeerAuthenticator) :
    Follows Speaks (fun g _ (_ : RemoteDevice) => g = .before .proved) (fun _ _ => True)
      (handshake 0 auth) (.before .silent) s := by
  have hquiet : ∀ {α : Type} {g : Speaker} {s : Peer} {p : Async Peer PeerEvent Failure α},
      Within Quiet p → Follows Speaks (fun g' _ _ => g' = g) (fun _ _ => True) p g s :=
    fun hp => follows_quiet hp fun _ => trivial
  refine Follows.bind ?_ (follows_say .greeted rfl fun _ => rfl)
  rintro _ s _ rfl
  refine Follows.bind ?_ (hquiet (quiet_expect _))
  rintro _ s hello rfl
  split
  · dsimp only
    split
    · refine Follows.bind ?_ (follows_say .broken rfl fun _ => rfl)
      exact fun _ _ _ _ => trivial
    refine Follows.bind ?_ (hquiet (quiet_fromBase64 _ _))
    rintro _ s key rfl
    refine Follows.bind ?_ (hquiet (quiet_fromBase64 _ _))
    rintro _ s nonce rfl
    intro s _
    refine Follows.bind (p := send 0 _) ?_ (follows_say .proved rfl fun _ => rfl)
    rintro _ s _ rfl
    refine Follows.bind ?_ (hquiet (quiet_expect _))
    rintro _ s answer rfl
    split
    · refine Follows.bind ?_ (hquiet (quiet_fromBase64 _ _))
      rintro _ s signature rfl
      intro s _
      split
      · refine Follows.bind (p := send 0 _) ?_ (follows_say .broken rfl fun _ => rfl)
        exact fun _ _ _ _ => trivial
      · refine ⟨_, .hushed (by simp) rfl rfl, ?_⟩
        refine Follows.bind (p := emit 0 _) ?_ (hquiet quiet_emit)
        rintro _ s _ rfl
        refine Follows.bind (p := emit 0 _) ?_ (hquiet quiet_emit)
        rintro _ s _ rfl
        exact rfl
    · trivial
  · trivial

theorem follows_introduce (deps : SessionDeps) :
    Follows Speaks (fun g _ (_ : VaultId × Option RevisionId) => g = .before .introduced)
      (fun _ _ => True) (exchangeVaultSummary 0 deps fun _ => return ()) (.before .proved) s := by
  have hquiet : ∀ {α : Type} {g : Speaker} {s : Peer} {p : Async Peer PeerEvent Failure α},
      Within Quiet p → Follows Speaks (fun g' _ _ => g' = g) (fun _ _ => True) p g s :=
    fun hp => follows_quiet hp fun _ => trivial
  have hadvertise : ∀ (vault : Option Vault) (s : Peer), Follows Speaks
      (fun g _ _ => g = .before .introduced) (fun _ _ => True) (advertise 0 vault)
      (.before .proved) s := by
    intro vault s
    cases vault with
    | some vault =>
      refine Follows.bind ?_ (hquiet (quiet_query _))
      rintro _ s count rfl
      exact follows_say _ rfl fun _ => rfl
    | none => exact follows_say _ rfl fun _ => rfl
  refine Follows.bind ?_ (hquiet (quiet_localVault _))
  rintro _ s vault rfl
  dsimp only
  split
  · refine Follows.bind ?_ (follows_say .broken rfl fun _ => rfl)
    exact fun _ _ _ _ => trivial
  refine Follows.bind ?_ (hadvertise vault s)
  rintro _ s _ rfl
  refine Follows.bind ?_ (hquiet (quiet_expect _))
  rintro _ s summary rfl
  split
  · split
    · split
      · trivial
      · refine Follows.bind ?_ (hquiet (quiet_adoptVault _ _ _))
        rintro _ s _ rfl
        refine Follows.bind ?_ (hquiet quiet_emit)
        rintro _ s _ rfl
        exact rfl
    · split
      · trivial
      · exact rfl
  · trivial

theorem follows_tell (vaultId : VaultId) :
    Follows Speaks (fun g _ (_ : List HistorySummaryEntry) => g = .before (.told vaultId))
      (fun _ _ => True) (exchangeHistory 0 vaultId) (.before .introduced) s := by
  refine Follows.bind ?_ (follows_quiet (quiet_query _) fun _ => trivial)
  rintro _ s summary rfl
  refine Follows.bind ?_ (follows_say (.told vaultId) rfl fun _ => rfl)
  rintro _ s _ rfl
  refine Follows.bind ?_ (follows_quiet (quiet_expect _) fun _ => trivial)
  rintro _ s answer rfl
  split
  · exact rfl
  · trivial

/-- The chunks from `next` on. -/
theorem follows_chunks (deps : SessionDeps) (bytes : Bytes) {vaultId : VaultId}
    {revisionId : RevisionId} {count total left next : Nat} (hleft : next + left = total) :
    Follows Speaks (fun g _ _ => g = .serving vaultId count revisionId total total)
      (fun _ _ => True) (sendChunks 0 deps count bytes (List.range' next left))
      (.serving vaultId count revisionId total next) s := by
  induction left generalizing next s with
  | zero =>
    obtain rfl : next = total := hleft
    exact rfl
  | succ left ih =>
    rw [List.range'_succ]
    refine Follows.bind ?_ (follows_quiet (quiet_backpressure _) fun _ => trivial)
    rintro _ s _ rfl
    cases hencode : encodeChunkFrame
        ⟨count, next, (bytes.drop (next * deps.chunkBytes)).take deps.chunkBytes⟩ with
    | error error => trivial
    | ok frame =>
      refine ⟨_, .chunk (decode_encodeChunkFrame hencode) (by omega), ?_⟩
      exact ih (by omega)

/-- The answer is only taken when it is there. -/
theorem follows_takeAck {vaultId : VaultId} {revisionId : RevisionId} {count total : Nat} :
    Follows Speaks (fun g _ (_ : Bool × Option String) => g = .ready vaultId count)
      (fun _ _ => True) (takeAck 0) (.serving vaultId count revisionId total total) s := by
  intro s hsettled
  refine ⟨_, .settles hsettled, _, .takes, ?_⟩
  dsimp only
  split
  · exact rfl
  · trivial

theorem follows_sendRevision (deps : SessionDeps) {vaultId : VaultId} {count : Nat}
    (revision : Revision) (bytes : Bytes) (last : Bool) :
    Follows Speaks (fun g _ _ => g = .ready vaultId (count + 1)) (fun _ _ => True)
      (sendRevision 0 deps (count + 1) revision bytes last) (.ready vaultId count) s := by
  refine Follows.bind (Q := fun g _ _ => g = .ready vaultId count) ?_
    (Follows.ofExcept (fun _ _ => rfl) fun _ _ => trivial)
  rintro _ s total rfl
  have hchunks : ∀ s, Follows Speaks
      (fun g _ _ => g = .serving vaultId (count + 1) revision.id total total) (fun _ _ => True)
      (sendChunks 0 deps (count + 1) bytes (List.range total))
      (.serving vaultId (count + 1) revision.id total 0) s := by
    intro s
    rw [List.range_eq_range']
    exact follows_chunks deps bytes (Nat.zero_add total)
  refine Follows.bind ?_ (follows_header rfl)
  rintro _ s _ rfl
  refine Follows.bind ?_ (follows_quiet quiet_emit fun _ => trivial)
  rintro _ s _ rfl
  refine Follows.bind ?_ follows_awaitAck
  rintro _ s _ rfl
  refine Follows.bind ?_ (hchunks s)
  rintro _ s _ rfl
  refine Follows.bind (p := update 0 _) ?_
    (follows_quiet (quiet_update fun _ => ⟨rfl, rfl, rfl⟩) fun _ => trivial)
  rintro _ s _ rfl
  refine Follows.bind ?_ follows_takeAck
  rintro _ s ⟨accepted, reason⟩ rfl
  dsimp only
  split
  · exact follows_quiet (quiet_event fun _ => ⟨rfl, rfl, rfl⟩) fun _ => trivial
  · exact follows_quiet quiet_emit fun _ => trivial

theorem follows_serve (deps : SessionDeps) {vaultId : VaultId} (ids : List RevisionId)
    (count : Nat) :
    Follows Speaks (fun g _ _ => ∃ count, g = .ready vaultId count) (fun _ _ => True)
      (serve 0 deps ids count) (.ready vaultId count) s := by
  induction ids generalizing count s with
  | nil =>
    refine Follows.mono ?_ (fun _ _ h => h)
      (follows_quiet (quiet_update fun _ => ⟨rfl, rfl, rfl⟩) fun _ => trivial)
    exact fun _ _ _ h => ⟨count, h⟩
  | cons id rest ih =>
    refine Follows.bind ?_ (follows_quiet (quiet_query _) fun _ => trivial)
    rintro _ s found rfl
    split
    · exact ih count
    · refine Follows.bind ?_ (follows_quiet (quiet_bytesOf id) fun _ => trivial)
      rintro _ s bytes rfl
      refine Follows.bind ?_ (follows_sendRevision deps _ bytes _)
      rintro _ s _ rfl
      exact ih (count + 1)

/-- A session that returns a result has completed. -/
theorem follows_converse (deps : SessionDeps) (remote : RemoteDevice) :
    Follows Speaks (fun g _ (_ : SessionResult) => g = .before .completed) (fun _ _ => True)
      (exchange deps remote) (.before .proved) s := by
  have hquiet : ∀ {α : Type} {g : Speaker} {s : Peer} {p : Async Peer PeerEvent Failure α},
      Within Quiet p → Follows Speaks (fun g' _ _ => g' = g) (fun _ _ => True) p g s :=
    fun hp => follows_quiet hp fun _ => trivial
  refine Follows.bind ?_ (follows_introduce deps)
  rintro _ s ⟨vaultId, remoteHead⟩ rfl
  refine Follows.bind ?_ (follows_tell vaultId)
  rintro _ s summary rfl
  refine Follows.bind ?_ (hquiet (Within.ofExcept _))
  rintro _ s _ rfl
  refine Follows.bind ?_ (hquiet (quiet_computeWants _ _ _))
  rintro _ s wanted rfl
  refine Follows.bind ?_ (hquiet (quiet_event fun _ => ⟨rfl, rfl, rfl⟩))
  rintro _ s _ rfl
  refine Follows.bind ?_ follows_wantRevisions
  rintro _ s _ rfl
  refine Follows.bind ?_ (hquiet (quiet_expect _))
  rintro _ s answer rfl
  split
  · rename_i theirWants
    have hrevisions : Follows Speaks (fun g _ _ => ∃ count, g = .ready vaultId count)
        (fun _ _ => True) (exchangeRevisions 0 deps theirWants) (.ready vaultId 0) s := by
      refine Follows.bind (p := startDrain 0 theirWants) ?_
        (hquiet (quiet_update fun _ => ⟨rfl, rfl, rfl⟩))
      rintro _ s _ rfl
      refine Follows.bind ?_ (follows_serve deps theirWants 0)
      exact fun _ _ _ h _ _ => h
    refine Follows.bind ?_ hrevisions
    rintro _ s _ ⟨count, rfl⟩
    refine Follows.bind ?_ follows_syncComplete
    rintro _ s _ rfl
    refine Follows.bind ?_ (hquiet quiet_awaitCompletion)
    rintro _ s _ rfl
    refine Follows.bind ?_ (hquiet quiet_awaitInbound)
    rintro _ s _ rfl
    dsimp only
    cases remoteHead with
    | some head =>
      refine Follows.bind ?_ (hquiet (quiet_recordPeerHead _ _ _ _))
      rintro _ s _ rfl
      exact hquiet (quiet_conclude _ _ _ _)
    | none => exact hquiet (quiet_conclude _ _ _ _)
  · trivial

end Speaking

end SyncSession

theorem parks_conversation (config : SessionDeps) :
    Parks Speaks (runToEnd config) (.before .silent) := by
  intro s
  have hrun : Follows Speaks (fun g _ (_ : SessionResult) => g = .before .completed)
      (fun _ _ => True) (SyncSession.run 0 config fun _ => return ()) (.before .silent) s := by
    rw [SyncSession.run_eq]
    refine Follows.bind ?_ (SyncSession.follows_hello config.auth)
    rintro _ s remote rfl
    exact SyncSession.follows_converse config remote
  have hattempt : Follows Speaks
      (fun g _ result => ∀ r, result = .ok r → g = .before .completed) (fun _ _ => True)
      (SyncSession.run 0 config fun _ => return ()).attempt (.before .silent) s := by
    refine hrun.attempt (fun g s a ha r _ => ha) fun _ _ _ _ r hr => ?_
    cases hr
  refine Follows.bind ?_ hattempt
  intro g s result hresult
  exact ⟨g, .ended hresult, trivial⟩

/-- No other program has a say. -/
theorem follows_aside {deps : EngineDeps} {command : PeerCommand} {s : Peer}
    {p : Async Peer PeerEvent Failure Unit} (h : peerSystem deps command s = some p) :
    Follows Speaks (fun _ _ _ => True) (fun _ _ => True) p .aside s := by
  have hanswers : ∀ {p : Async Peer PeerEvent Failure Unit}, Within Answers p →
      Follows Speaks (fun _ _ _ => True) (fun _ _ => True) p .aside s :=
    fun hp => hp.follows (fun _ _ _ h => .hushed h.hushed h.ack h.outcome) (fun _ _ => trivial)
      fun _ => trivial
  have hquiet : ∀ {p : Async Peer PeerEvent Failure Unit}, Within Quiet p →
      Follows Speaks (fun _ _ _ => True) (fun _ _ => True) p .aside s :=
    fun hp => hanswers (hp.mono fun _ _ _ h => h.answers)
  cases command with
  | control payload =>
    cases h
    exact ⟨_, .control payload, trivial⟩
  | bulk frame =>
    cases h
    have hinbound := SessionEnd.Inbound.acceptBulk frame s.session
    refine ⟨_, .hushed (fun e hmem => ?_) hinbound.ack hinbound.outcome, trivial⟩
    rcases List.mem_cons.mp hmem with rfl | hmem
    · trivial
    · obtain ⟨output, houtput, rfl⟩ := List.mem_map.mp hmem
      exact (Session.answer_acceptBulk frame s.session output houtput).hushed
  | close =>
    cases h
    refine ⟨_, .hushed (fun e hmem => ?_) rfl rfl, trivial⟩
    rw [List.mem_singleton.mp hmem]
    trivial
  | timeout =>
    rw [peerSystem] at h
    split at h
    · cases h
      refine hquiet (SyncSession.quiet_update fun s => ?_)
      unfold Session.timeout
      split
      · exact ⟨rfl, rfl, rfl⟩
      · exact ⟨rfl, rfl, rfl⟩
      · exact ⟨rfl, rfl, rfl⟩
    · cases h
  | buffered | closeBulk =>
    cases h
    exact hquiet (SyncSession.quiet_update fun _ => ⟨rfl, rfl, rfl⟩)
  | ingestNext now =>
    rw [peerSystem] at h
    split at h
    · cases h
    · obtain ⟨⟨inbound, bytes⟩, -, rfl⟩ := Option.map_eq_some_iff.mp h
      exact hanswers (SyncSession.answers_ingestNext deps now inbound bytes)

/-- The desk serves `h1` to the phone, which acknowledges it and completes. -/
def phoneTakes : List (Move PeerCommand) :=
  phoneWants ⟨"h1"⟩ ++
    [phone (.revisionAck ⟨"h1"⟩ true none), .resume 0, .resume 0, phone (.syncComplete ⟨"home"⟩),
      .resume 0, .resume 0, .resume 0]

end PassVault
