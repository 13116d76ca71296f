import Mathlib.Data.List.Nodup
import PassVault.Lib.Machine
import PassVault.Sync.Protocol

/-!
# The inbox of a session

`ControlInbox` of `packages/sync/src/controlInbox.ts`, whoever uses it: any number of expects wait
at once, and handlers are registered at any time. A handler may throw; one that fails the inbox
does so right after it has been called.
-/

namespace PassVault

open Machine

/-- A message that `accept` routes; `index` counts them. -/
structure Arrival where
  index : Nat
  message : Message
deriving DecidableEq, Repr

def Arrival.type (arrival : Arrival) : MessageType := arrival.message.type

/-- A call of `expect`; `id` counts them. -/
structure Expectation where
  id : Nat
  type : MessageType
deriving DecidableEq, Repr

inductive Consumer where
  | handler (id : Nat)
  | expect (expectation : Expectation)
deriving DecidableEq, Repr

def Consumer.expectation? : Consumer → Option Expectation
  | .handler _ => none
  | .expect expectation => some expectation

/-- The fields up to `timers` are those of the class and of the closures of `expect`; a key that a
map lacks is an empty list. The others record what has happened: the code never reads them. -/
structure ControlInbox where
  handlers : MessageType → Option Nat
  queued : MessageType → List Arrival
  waiters : MessageType → List Expectation
  failure : Option Failure
  rejecters : List Expectation
  timers : List Expectation
  arrivals : List Arrival
  consumed : List (Arrival × Consumer)
  /-- Queued messages that a handler never got, since it threw on one before them. -/
  dropped : List Arrival
  called : List Expectation
  settled : List (Expectation × Except Failure Arrival)

inductive InboxAction where
  /-- `accept` on what `parseMessage` makes of a payload. -/
  | accept (outcome : Except Failure Message)
  /-- `on`; the handler may throw on one of the messages that were queued. -/
  | on (type : MessageType) (handler : Nat) (throwsAt : Option Nat)
  | expect (type : MessageType)
  /-- The timer of an expect fires. -/
  | timeout (expectation : Expectation)
  | fail (error : Failure)

namespace ControlInbox

def new : ControlInbox :=
  ⟨fun _ => none, fun _ => [], fun _ => [], none, [], [], [], [], [], [], []⟩

/-- `cleanup` of an expect. -/
def cleanup (e : Expectation) (s : ControlInbox) : ControlInbox :=
  { s with
    timers := s.timers.erase e
    rejecters := s.rejecters.erase e
    waiters := Function.update s.waiters e.type ((s.waiters e.type).erase e) }

/-- `settle`, `onFail` and the callback of the timer: clean up, then resolve or reject. -/
def settle (e : Expectation) (outcome : Except Failure Arrival) (s : ControlInbox) :
    ControlInbox :=
  let s := s.cleanup e
  { s with settled := s.settled ++ [(e, outcome)] }

def fail (error : Failure) (s : ControlInbox) : ControlInbox :=
  let s := { s with failure := s.failure.or (some error) }
  { s.rejecters.foldl (fun s e => s.settle e (.error error)) s with rejecters := [] }

/-- The end of `accept`, for a message that is not an error. -/
def route (message : Message) (s : ControlInbox) : ControlInbox :=
  let type := message.type
  let arrival : Arrival := ⟨s.arrivals.length, message⟩
  let s := { s with arrivals := s.arrivals ++ [arrival] }
  match s.handlers type with
  | some handler => { s with consumed := s.consumed ++ [(arrival, .handler handler)] }
  | none =>
    match s.waiters type with
    | waiter :: rest =>
      { s with
        waiters := Function.update s.waiters type rest
        consumed := s.consumed ++ [(arrival, Consumer.expect waiter)] }.settle waiter (.ok arrival)
    | [] => { s with queued := Function.update s.queued type (s.queued type ++ [arrival]) }

def accept (outcome : Except Failure Message) (s : ControlInbox) : ControlInbox :=
  match outcome with
  | .error error => s.fail error
  | .ok (.error code message) =>
    s.fail (.session (.protocol code) ("peer reported: " ++ message))
  | .ok message => s.route message

/-- Messages after the one on which the handler throws are no longer in the queue. -/
def on (type : MessageType) (handler : Nat) (throwsAt : Option Nat) (s : ControlInbox) :
    ControlInbox :=
  let pending := s.queued type
  let handled := throwsAt.elim pending.length (· + 1)
  { s with
    handlers := Function.update s.handlers type (some handler)
    queued := Function.update s.queued type []
    consumed := s.consumed ++ (pending.take handled).map (·, .handler handler)
    dropped := s.dropped ++ pending.drop handled }

def expect (type : MessageType) (s : ControlInbox) : ControlInbox :=
  let e : Expectation := ⟨s.called.length, type⟩
  let s := { s with called := s.called ++ [e] }
  match s.failure with
  | some failure => { s with settled := s.settled ++ [(e, .error failure)] }
  | none =>
    match s.handlers type with
    | some _ =>
      { s with settled := s.settled ++ [(e, .error (.session (.protocol .internal)
          ("cannot expect " ++ type.name ++ ": a handler is already registered for it")))] }
    | none =>
      match s.queued type with
      | ready :: rest =>
        { s with
          queued := Function.update s.queued type rest
          consumed := s.consumed ++ [(ready, .expect e)]
          settled := s.settled ++ [(e, .ok ready)] }
      | [] =>
        { s with
          timers := s.timers ++ [e]
          rejecters := s.rejecters ++ [e]
          waiters := Function.update s.waiters type (s.waiters type ++ [e]) }

def step (s : ControlInbox) : InboxAction → Option ControlInbox
  | .accept outcome => some (s.accept outcome)
  | .on type handler throwsAt => some (s.on type handler throwsAt)
  | .expect type => some (s.expect type)
  | .timeout e =>
    if e ∈ s.timers then
      some (s.settle e (.error (.session .timeout ("timed out waiting for " ++ e.type.name))))
    else none
  | .fail error => some (s.fail error)

/-- The expects that have been called and have not settled, in the order of the calls. -/
def outstanding (s : ControlInbox) : List Expectation :=
  s.called.filter (· ∉ s.settled.map Prod.fst)

def outstandingOf (type : MessageType) (s : ControlInbox) : List Expectation :=
  s.outstanding.filter (·.type = type)

def arrivalsOf (type : MessageType) (s : ControlInbox) : List Arrival :=
  s.arrivals.filter (·.type = type)

def consumedOf (type : MessageType) (s : ControlInbox) : List (Arrival × Consumer) :=
  s.consumed.filter (·.1.type = type)

def droppedOf (type : MessageType) (s : ControlInbox) : List Arrival :=
  s.dropped.filter (·.type = type)

def calledOf (type : MessageType) (s : ControlInbox) : List Expectation :=
  s.called.filter (·.type = type)

/-- A handler is registered only while no expect of its type is outstanding. -/
def Apart (s : ControlInbox) : InboxAction → Prop
  | .on type .. => s.outstandingOf type = []
  | _ => True

instance (s : ControlInbox) (action : InboxAction) : Decidable (Apart s action) :=
  match action with
  | .on type .. => inferInstanceAs (Decidable (s.outstandingOf type = []))
  | .accept _ | .expect _ | .timeout _ | .fail _ => isTrue trivial

/-- The error with which an action fails the inbox. -/
def failsWith : InboxAction → Option Failure
  | .fail error | .accept (.error error) => some error
  | .accept (.ok (.error code message)) =>
    some (.session (.protocol code) ("peer reported: " ++ message))
  | _ => none

/-! ## Promises -/

/-- What the closures of the outstanding expects hold is still in place, and nothing else is. -/
structure Promises (s : ControlInbox) : Prop where
  waiters : ∀ type, s.waiters type = s.outstandingOf type
  rejecters : s.rejecters = s.outstanding
  timers : s.timers = s.outstanding
  counted : ∀ e ∈ s.called, e.id < s.called.length
  called : s.called.Pairwise (·.id < ·.id)
  once : (s.settled.map Prod.fst).Nodup
  settled : ∀ e ∈ s.settled.map Prod.fst, e ∈ s.called

theorem nodup_called {s : ControlInbox} (hs : s.Promises) : s.called.Nodup := by
  refine hs.called.imp ?_
  rintro e _ hlt rfl
  exact Nat.lt_irrefl _ hlt

theorem nodup_outstanding {s : ControlInbox} (hs : s.Promises) : s.outstanding.Nodup :=
  (nodup_called hs).filter _

theorem mem_outstanding {s : ControlInbox} {e : Expectation} :
    e ∈ s.outstanding ↔ e ∈ s.called ∧ e ∉ s.settled.map Prod.fst := by
  rw [outstanding, List.mem_filter, decide_eq_true_iff]

theorem mem_outstandingOf {s : ControlInbox} {type : MessageType} {e : Expectation} :
    e ∈ s.outstandingOf type ↔ e ∈ s.outstanding ∧ e.type = type := by
  rw [outstandingOf, List.mem_filter, decide_eq_true_iff]

theorem outstanding_settle {s : ControlInbox} (hs : s.Promises) (e : Expectation)
    (outcome : Except Failure Arrival) :
    (s.settle e outcome).outstanding = s.outstanding.erase e := by
  rw [(nodup_outstanding hs).erase_eq_filter, outstanding, outstanding, List.filter_filter]
  apply List.filter_congr
  intro x _
  rw [Bool.eq_iff_iff]
  simp only [settle, cleanup, List.map_append, List.map_cons, List.map_nil, List.mem_append,
    List.mem_singleton, Bool.and_eq_true, decide_eq_true_iff, bne_iff_ne, not_or]
  exact and_comm

theorem filter_erase {type : MessageType} {es : List Expectation} (hes : es.Nodup)
    (e : Expectation) :
    (es.erase e).filter (·.type = type) = (es.filter (·.type = type)).erase e := by
  rw [hes.erase_eq_filter, (hes.filter _).erase_eq_filter, List.filter_filter, List.filter_filter]
  exact List.filter_congr fun x _ => Bool.and_comm _ _

/-- An outstanding expect settles, in whichever way. -/
theorem Promises.settle {s : ControlInbox} {e : Expectation} (hs : s.Promises)
    (he : e ∈ s.outstanding) (outcome : Except Failure Arrival) :
    (s.settle e outcome).Promises where
  waiters type := by
    rw [outstandingOf, outstanding_settle hs, filter_erase (nodup_outstanding hs)]
    by_cases htype : type = e.type
    · subst htype
      simp [ControlInbox.settle, cleanup, hs.waiters, outstandingOf]
    · have hnot : e ∉ s.outstandingOf type := fun h => htype (mem_outstandingOf.mp h).2.symm
      rw [← outstandingOf, List.erase_of_not_mem hnot]
      simp [ControlInbox.settle, cleanup, htype, hs.waiters]
  rejecters := by
    rw [outstanding_settle hs, ← hs.rejecters]
    rfl
  timers := by
    rw [outstanding_settle hs, ← hs.timers]
    rfl
  counted := hs.counted
  called := hs.called
  once := by
    simp only [ControlInbox.settle, cleanup, List.map_append, List.map_cons, List.map_nil]
    rw [← List.concat_eq_append]
    exact hs.once.concat (mem_outstanding.mp he).2
  settled e' h := by
    simp only [ControlInbox.settle, cleanup, List.map_append, List.map_cons, List.map_nil,
      List.mem_append, List.mem_singleton] at h
    rcases h with h | rfl
    · exact hs.settled e' h
    · exact (mem_outstanding.mp he).1

theorem rejectAll_frame (s : ControlInbox) (es : List Expectation) (error : Failure) :
    let t := es.foldl (fun s e => s.settle e (.error error)) s
    t.arrivals = s.arrivals ∧ t.consumed = s.consumed ∧ t.called = s.called ∧
      t.failure = s.failure ∧ t.settled = s.settled ++ es.map (·, .error error) := by
  induction es generalizing s with
  | nil => exact ⟨rfl, rfl, rfl, rfl, (List.append_nil _).symm⟩
  | cons e rest ih =>
    obtain ⟨harrivals, hconsumed, hcalled, hfailure, hsettled⟩ := ih (s.settle e (.error error))
    refine ⟨harrivals, hconsumed, hcalled, hfailure, ?_⟩
    rw [List.foldl_cons, hsettled]
    simp [settle, cleanup]

/-- `fail` on those that were outstanding when it was called. -/
theorem Promises.rejectAll {s : ControlInbox} {es : List Expectation} (hs : s.Promises)
    (hes : ∀ e ∈ es, e ∈ s.outstanding) (hnodup : es.Nodup) (error : Failure) :
    let t := es.foldl (fun s e => s.settle e (.error error)) s
    t.Promises ∧ t.outstanding = s.outstanding.filter (· ∉ es) := by
  induction es generalizing s with
  | nil => exact ⟨hs, by simp⟩
  | cons e rest ih =>
    obtain ⟨hnot, hrest⟩ := List.nodup_cons.mp hnodup
    have herase := outstanding_settle hs e (.error error)
    have hmem : ∀ e' ∈ rest, e' ∈ (s.settle e (.error error)).outstanding := by
      intro e' he'
      rw [herase, (nodup_outstanding hs).mem_erase_iff]
      exact ⟨fun heq => hnot (heq ▸ he'), hes e' (List.mem_cons_of_mem _ he')⟩
    obtain ⟨ht, houtstanding⟩ :=
      ih (hs.settle (hes e List.mem_cons_self) (.error error)) hmem hrest
    refine ⟨ht, ?_⟩
    rw [List.foldl_cons, houtstanding, herase, (nodup_outstanding hs).erase_eq_filter,
      List.filter_filter]
    apply List.filter_congr
    intro x _
    rw [Bool.eq_iff_iff]
    simp [and_comm]

theorem Promises.fail {s : ControlInbox} (hs : s.Promises) (error : Failure) :
    (s.fail error).Promises ∧ (s.fail error).outstanding = [] := by
  have hfailed : { s with failure := s.failure.or (some error) }.Promises :=
    ⟨hs.waiters, hs.rejecters, hs.timers, hs.counted, hs.called, hs.once, hs.settled⟩
  have hes : ∀ e ∈ s.rejecters, e ∈ s.outstanding := fun e he => hs.rejecters ▸ he
  have hnodup : s.rejecters.Nodup := hs.rejecters ▸ nodup_outstanding hs
  obtain ⟨ht, houtstanding⟩ := hfailed.rejectAll hes hnodup error
  have hnone : (s.fail error).outstanding = [] := by
    refine houtstanding.trans (List.filter_eq_nil_iff.mpr fun e he => ?_)
    rw [decide_eq_true_iff, not_not, hs.rejecters]
    exact he
  exact ⟨⟨ht.waiters, hnone.symm, ht.timers, ht.counted, ht.called, ht.once, ht.settled⟩, hnone⟩

theorem fail_frame (s : ControlInbox) (error : Failure) :
    (s.fail error).arrivals = s.arrivals ∧ (s.fail error).consumed = s.consumed ∧
      (s.fail error).called = s.called ∧ (s.fail error).failure = s.failure.or (some error) ∧
      (s.fail error).settled = s.settled ++ s.rejecters.map (·, .error error) :=
  rejectAll_frame { s with failure := s.failure.or (some error) } s.rejecters error

section Call

variable {s t : ControlInbox} {e : Expectation}

theorem fresh_call (hs : s.Promises) (hid : e.id = s.called.length) : e ∉ s.called :=
  fun hmem => Nat.ne_of_lt (hs.counted e hmem) hid

theorem counted_call (hs : s.Promises) (hid : e.id = s.called.length)
    (hcalled : t.called = s.called ++ [e]) :
    (∀ e' ∈ t.called, e'.id < t.called.length) ∧ t.called.Pairwise (·.id < ·.id) := by
  rw [hcalled, List.length_append, List.pairwise_append]
  refine ⟨fun e' he' => ?_, hs.called, List.pairwise_singleton .., fun e' he' e'' he'' => ?_⟩
  · rcases List.mem_append.mp he' with he' | he'
    · exact Nat.lt_succ_of_lt (hs.counted e' he')
    · cases List.mem_singleton.mp he'
      exact hid ▸ Nat.lt_succ_self _
  · cases List.mem_singleton.mp he''
    exact hid ▸ hs.counted e' he'

/-- An expect that is settled at once. -/
theorem Promises.settleNow {outcome : Except Failure Arrival} (hs : s.Promises)
    (hid : e.id = s.called.length) (hcalled : t.called = s.called ++ [e])
    (hsettled : t.settled = s.settled ++ [(e, outcome)]) (hwaiters : t.waiters = s.waiters)
    (hrejecters : t.rejecters = s.rejecters) (htimers : t.timers = s.timers) :
    t.Promises ∧ t.outstanding = s.outstanding := by
  have hfresh := fresh_call hs hid
  have hmem : ∀ x, x ∈ t.settled.map Prod.fst ↔ x ∈ s.settled.map Prod.fst ∨ x = e := by
    simp [hsettled]
  have houtstanding : t.outstanding = s.outstanding := by
    rw [outstanding, hcalled, List.filter_append, List.filter_cons_of_neg, List.filter_nil,
      List.append_nil, outstanding]
    · apply List.filter_congr
      intro x hx
      rw [decide_eq_decide, hmem, not_or]
      exact and_iff_left fun heq => hfresh (heq ▸ hx)
    · rw [decide_eq_true_iff, not_not, hmem]
      exact .inr rfl
  obtain ⟨hcounted, hpairwise⟩ := counted_call hs hid hcalled
  refine ⟨⟨fun type => ?_, ?_, ?_, hcounted, hpairwise, ?_, fun x hx => ?_⟩, houtstanding⟩
  · rw [hwaiters, outstandingOf, houtstanding]
    exact hs.waiters type
  · rw [hrejecters, houtstanding, hs.rejecters]
  · rw [htimers, houtstanding, hs.timers]
  · rw [hsettled, List.map_append, List.map_cons, List.map_nil, ← List.concat_eq_append]
    exact hs.once.concat fun h => hfresh (hs.settled e h)
  · rw [hcalled]
    rcases (hmem x).mp hx with hx | rfl
    · exact List.mem_append_left _ (hs.settled x hx)
    · exact List.mem_append_right _ (List.mem_singleton_self _)

/-- An expect that waits. -/
theorem Promises.wait (hs : s.Promises) (hid : e.id = s.called.length)
    (hcalled : t.called = s.called ++ [e]) (hsettled : t.settled = s.settled)
    (hwaiters : t.waiters = Function.update s.waiters e.type (s.waiters e.type ++ [e]))
    (hrejecters : t.rejecters = s.rejecters ++ [e]) (htimers : t.timers = s.timers ++ [e]) :
    t.Promises := by
  have houtstanding : t.outstanding = s.outstanding ++ [e] := by
    rw [outstanding, hcalled, hsettled, List.filter_append, List.filter_cons_of_pos,
      List.filter_nil, outstanding]
    rw [decide_eq_true_iff]
    exact fun h => fresh_call hs hid (hs.settled e h)
  obtain ⟨hcounted, hpairwise⟩ := counted_call hs hid hcalled
  refine ⟨fun type => ?_, ?_, ?_, hcounted, hpairwise, ?_, fun x hx => ?_⟩
  · rw [hwaiters, outstandingOf, houtstanding, List.filter_append]
    by_cases htype : type = e.type
    · subst htype
      rw [Function.update_self, hs.waiters, outstandingOf, List.filter_cons_of_pos (by simp),
        List.filter_nil]
    · rw [Function.update_of_ne htype, hs.waiters, outstandingOf,
        List.filter_cons_of_neg (by simpa using Ne.symm htype), List.filter_nil, List.append_nil]
  · rw [hrejecters, houtstanding, hs.rejecters]
  · rw [htimers, houtstanding, hs.timers]
  · rw [hsettled]
    exact hs.once
  · rw [hsettled] at hx
    rw [hcalled]
    exact List.mem_append_left _ (hs.settled x hx)

end Call

/-! ## The messages of one type -/

end ControlInbox

/-- What an inbox holds and has done for one type. -/
structure InboxLane where
  handler : Option Nat
  queued : List Arrival
  waiting : List Expectation
  arrivals : List Arrival
  consumed : List (Arrival × Consumer)
  dropped : List Arrival
  called : List Expectation

namespace InboxLane

/-- The messages that a consumer has got or is going to get. -/
def kept (l : InboxLane) : List Arrival := l.consumed.map Prod.fst ++ l.queued

/-- Messages are consumed and queued as they arrived, those that are neither have been dropped, and
the expects are served as they were called. -/
structure Orderly (l : InboxLane) : Prop where
  inOrder : l.kept.Sublist l.arrivals
  accounted : (l.kept ++ l.dropped).Perm l.arrivals
  inTurn : (l.consumed.filterMap (·.2.expectation?) ++ l.waiting).Sublist l.called
  apart : l.queued = [] ∨ l.waiting = []
  handled : l.handler.isSome → l.queued = [] ∧ l.waiting = []
  unhandled : l.handler = none → l.dropped = []

variable {l m : InboxLane}

theorem Orderly.arrive (hl : l.Orderly) {a : Arrival} (hkept : m.kept = l.kept ++ [a])
    (harrivals : m.arrivals = l.arrivals ++ [a]) (hdropped : m.dropped = l.dropped) :
    m.kept.Sublist m.arrivals ∧ (m.kept ++ m.dropped).Perm m.arrivals := by
  rw [hkept, harrivals, hdropped]
  refine ⟨hl.inOrder.append_right [a], ?_⟩
  calc (l.kept ++ [a] ++ l.dropped).Perm (l.kept ++ l.dropped ++ [a]) := by
        rw [List.append_assoc, List.append_assoc]
        exact List.perm_append_comm.append_left l.kept
    _ |>.Perm (l.arrivals ++ [a]) := hl.accounted.append_right [a]

theorem Orderly.handle {handler : Nat} (hl : l.Orderly) (hhandler : l.handler = some handler)
    (a : Arrival) :
    { l with
      arrivals := l.arrivals ++ [a]
      consumed := l.consumed ++ [(a, Consumer.handler handler)] }.Orderly := by
  obtain ⟨hqueued, hwaiting⟩ := hl.handled (hhandler ▸ rfl)
  obtain ⟨hinOrder, haccounted⟩ := hl.arrive (a := a)
    (m := { l with
      arrivals := l.arrivals ++ [a], consumed := l.consumed ++ [(a, .handler handler)] })
    (by simp [kept, hqueued]) rfl rfl
  refine ⟨hinOrder, haccounted, ?_, hl.apart, hl.handled, hl.unhandled⟩
  simpa [Consumer.expectation?] using hl.inTurn

theorem Orderly.serve {e : Expectation} {rest : List Expectation} (hl : l.Orderly)
    (hwaiting : l.waiting = e :: rest) (a : Arrival) :
    { l with
      waiting := rest
      arrivals := l.arrivals ++ [a]
      consumed := l.consumed ++ [(a, Consumer.expect e)] }.Orderly := by
  have hne : l.waiting ≠ [] := by simp [hwaiting]
  have hqueued := hl.apart.resolve_right hne
  have hhandler : ¬ l.handler.isSome := fun h => hne (hl.handled h).2
  obtain ⟨hinOrder, haccounted⟩ := hl.arrive (a := a)
    (m := { l with
      waiting := rest, arrivals := l.arrivals ++ [a]
      consumed := l.consumed ++ [(a, .expect e)] })
    (by simp [kept, hqueued]) rfl rfl
  refine ⟨hinOrder, haccounted, ?_, .inl hqueued, fun h => (hhandler h).elim, hl.unhandled⟩
  have hinTurn := hl.inTurn
  rw [hwaiting] at hinTurn
  simpa [Consumer.expectation?] using hinTurn

theorem Orderly.enqueue (hl : l.Orderly) (hhandler : l.handler = none) (hwaiting : l.waiting = [])
    (a : Arrival) :
    { l with arrivals := l.arrivals ++ [a], queued := l.queued ++ [a] }.Orderly := by
  obtain ⟨hinOrder, haccounted⟩ := hl.arrive (a := a)
    (m := { l with arrivals := l.arrivals ++ [a], queued := l.queued ++ [a] })
    (List.append_assoc ..).symm rfl rfl
  exact ⟨hinOrder, haccounted, hl.inTurn, .inr hwaiting, by simp [hhandler], hl.unhandled⟩

/-- A handler gets the queue, or as much of it as it does not throw on. -/
theorem Orderly.drain (hl : l.Orderly) (hwaiting : l.waiting = []) (handler handled : Nat) :
    { l with
      handler := some handler
      queued := []
      consumed := l.consumed ++ (l.queued.take handled).map (·, Consumer.handler handler)
      dropped := l.dropped ++ l.queued.drop handled }.Orderly := by
  have hmap (xs : List Arrival) : (xs.map (·, Consumer.handler handler)).map Prod.fst = xs := by
    rw [List.map_map]
    exact List.map_id xs
  have hnone (xs : List Arrival) :
      (xs.map (·, Consumer.handler handler)).filterMap (·.2.expectation?) = [] := by
    rw [List.filterMap_map]
    exact List.filterMap_eq_nil_iff.mpr fun _ _ => rfl
  have hinOrder := hl.inOrder
  have haccounted := hl.accounted
  refine ⟨?_, ?_, ?_, .inl rfl, fun _ => ⟨rfl, hwaiting⟩, nofun⟩
  · simp only [kept, List.map_append, hmap, List.append_nil] at hinOrder ⊢
    exact ((List.take_sublist ..).append_left _).trans hinOrder
  · simp only [kept, List.map_append, hmap, List.append_nil] at haccounted ⊢
    refine List.Perm.trans ?_ haccounted
    calc (l.consumed.map Prod.fst ++ l.queued.take handled ++
            (l.dropped ++ l.queued.drop handled)).Perm
          (l.consumed.map Prod.fst ++ l.queued.take handled ++
            (l.queued.drop handled ++ l.dropped)) := List.perm_append_comm.append_left _
      _ = l.consumed.map Prod.fst ++ l.queued ++ l.dropped := by
          rw [← List.append_assoc, List.append_assoc (List.map ..), List.take_append_drop]
  · rw [List.filterMap_append, hnone, List.append_nil]
    exact hl.inTurn

theorem Orderly.call (hl : l.Orderly) (e : Expectation) :
    { l with called := l.called ++ [e] }.Orderly :=
  { hl with inTurn := hl.inTurn.trans (List.sublist_append_left ..) }

theorem Orderly.ready {a : Arrival} {rest : List Arrival} (hl : l.Orderly)
    (hqueued : l.queued = a :: rest) (e : Expectation) :
    { l with
      queued := rest
      consumed := l.consumed ++ [(a, Consumer.expect e)]
      called := l.called ++ [e] }.Orderly := by
  have hne : l.queued ≠ [] := by simp [hqueued]
  have hwaiting := hl.apart.resolve_left hne
  have hhandler : ¬ l.handler.isSome := fun h => hne (hl.handled h).1
  have hkept : (l.consumed ++ [(a, Consumer.expect e)]).map Prod.fst ++ rest = l.kept := by
    simp [kept, hqueued]
  have hinOrder := hl.inOrder
  have haccounted := hl.accounted
  rw [← hkept] at hinOrder haccounted
  refine ⟨hinOrder, haccounted, ?_, .inr hwaiting, fun h => (hhandler h).elim, hl.unhandled⟩
  have hinTurn := hl.inTurn
  simp only [hwaiting, List.append_nil] at hinTurn ⊢
  simpa [Consumer.expectation?] using hinTurn.append_right [e]

theorem Orderly.wait (hl : l.Orderly) (hhandler : l.handler = none) (hqueued : l.queued = [])
    (e : Expectation) :
    { l with waiting := l.waiting ++ [e], called := l.called ++ [e] }.Orderly := by
  refine ⟨hl.inOrder, hl.accounted, ?_, .inl hqueued, by simp [hhandler], hl.unhandled⟩
  rw [← List.append_assoc]
  exact hl.inTurn.append_right [e]

theorem Orderly.erase (hl : l.Orderly) (e : Expectation) :
    { l with waiting := l.waiting.erase e }.Orderly where
  inOrder := hl.inOrder
  accounted := hl.accounted
  inTurn := (List.erase_sublist.append_left _).trans hl.inTurn
  apart := hl.apart.imp_right fun h => by rw [h]; rfl
  handled h := ⟨(hl.handled h).1, by rw [(hl.handled h).2]; rfl⟩
  unhandled := hl.unhandled

end InboxLane

namespace ControlInbox

def lane (type : MessageType) (s : ControlInbox) : InboxLane where
  handler := s.handlers type
  queued := s.queued type
  waiting := s.waiters type
  arrivals := s.arrivalsOf type
  consumed := s.consumedOf type
  dropped := s.droppedOf type
  called := s.calledOf type

theorem type_queued {s : ControlInbox} {type : MessageType} (hs : (s.lane type).Orderly)
    {a : Arrival} (ha : a ∈ s.queued type) : a.type = type := by
  have hmem : a ∈ s.arrivalsOf type := hs.inOrder.subset (List.mem_append_right _ ha)
  exact of_decide_eq_true (List.mem_filter.mp hmem).2

/-- An inbox between two actions. -/
structure Sound (s : ControlInbox) : Prop where
  promises : s.Promises
  lanes : ∀ type, (s.lane type).Orderly
  failed : s.failure.isSome → s.outstanding = []
  counted : ∀ a ∈ s.arrivals, a.index < s.arrivals.length
  arrivals : s.arrivals.Pairwise (·.index < ·.index)
  answered : ∀ e a, (e, .ok a) ∈ s.settled ↔ (a, .expect e) ∈ s.consumed

theorem sound_new : new.Sound where
  promises := ⟨fun _ => rfl, rfl, rfl, nofun, List.Pairwise.nil, List.nodup_nil, nofun⟩
  lanes _ := ⟨List.Sublist.refl _, List.Perm.refl _, List.Sublist.refl _, .inl rfl, nofun,
    fun _ => rfl⟩
  failed := nofun
  counted := nofun
  arrivals := List.Pairwise.nil
  answered _ _ := by simp [new]

/-! ## Each action -/

theorem lane_settle (s : ControlInbox) (e : Expectation) (outcome : Except Failure Arrival)
    (type : MessageType) :
    (s.settle e outcome).lane type =
      { s.lane type with
        waiting := if type = e.type then (s.waiters type).erase e else s.waiters type } := by
  split
  · rename_i htype
    subst htype
    simp [lane, settle, cleanup, arrivalsOf, consumedOf, droppedOf, calledOf]
  · rename_i htype
    simp [lane, settle, cleanup, arrivalsOf, consumedOf, droppedOf, calledOf, htype]

theorem lanes_reject {s : ControlInbox} (hs : ∀ type, (s.lane type).Orderly) (e : Expectation)
    (error : Failure) (type : MessageType) : ((s.settle e (.error error)).lane type).Orderly := by
  rw [lane_settle]
  split
  · exact (hs type).erase e
  · exact hs type

theorem Sound.reject {s : ControlInbox} {e : Expectation} (hs : s.Sound) (he : e ∈ s.outstanding)
    (error : Failure) : (s.settle e (.error error)).Sound where
  promises := hs.promises.settle he _
  lanes := lanes_reject hs.lanes e error
  failed h := by
    rw [outstanding_settle hs.promises, hs.failed h]
    rfl
  counted := hs.counted
  arrivals := hs.arrivals
  answered e' a := by
    refine Iff.trans ?_ (hs.answered e' a)
    simp [settle, cleanup]

theorem lanes_rejectAll {s : ControlInbox} (hs : ∀ type, (s.lane type).Orderly)
    (es : List Expectation) (error : Failure) (type : MessageType) :
    ((es.foldl (fun s e => s.settle e (.error error)) s).lane type).Orderly := by
  induction es generalizing s with
  | nil => exact hs type
  | cons e rest ih => exact ih (lanes_reject hs e error)

theorem Sound.fail {s : ControlInbox} (hs : s.Sound) (error : Failure) : (s.fail error).Sound := by
  obtain ⟨hpromises, hnone⟩ := hs.promises.fail error
  obtain ⟨harrivals, hconsumed, -, -, hsettled⟩ := fail_frame s error
  refine ⟨hpromises,
    lanes_rejectAll (s := { s with failure := s.failure.or (some error) }) hs.lanes s.rejecters error,
    fun _ => hnone, ?_, ?_, fun e a => ?_⟩
  · rw [harrivals]
    exact hs.counted
  · rw [harrivals]
    exact hs.arrivals
  · rw [hconsumed, ← hs.answered e a, hsettled]
    simp

theorem indexed_arrival {s : ControlInbox} (hs : s.Sound) {a : Arrival}
    (ha : a.index = s.arrivals.length) :
    (∀ x ∈ s.arrivals ++ [a], x.index < (s.arrivals ++ [a]).length) ∧
      (s.arrivals ++ [a]).Pairwise (·.index < ·.index) := by
  rw [List.length_append, List.pairwise_append]
  refine ⟨fun x hx => ?_, hs.arrivals, List.pairwise_singleton .., fun x hx y hy => ?_⟩
  · rcases List.mem_append.mp hx with hx | hx
    · exact Nat.lt_succ_of_lt (hs.counted x hx)
    · cases List.mem_singleton.mp hx
      exact ha ▸ Nat.lt_succ_self _
  · cases List.mem_singleton.mp hy
    exact ha ▸ hs.counted x hx

theorem answered_consume {s : ControlInbox} (hs : s.Sound) (e : Expectation) (a : Arrival)
    (e' : Expectation) (b : Arrival) :
    (e', .ok b) ∈ s.settled ++ [(e, .ok a)] ↔ (b, .expect e') ∈ s.consumed ++ [(a, .expect e)] := by
  simp [hs.answered, and_comm]

/-- Which consumer `route` finds. -/
theorem route_cases {s : ControlInbox} (hs : s.Promises) (message : Message) :
    let a : Arrival := ⟨s.arrivals.length, message⟩
    (∃ handler, s.handlers message.type = some handler ∧
      s.route message =
        { s with
          arrivals := s.arrivals ++ [a]
          consumed := s.consumed ++ [(a, .handler handler)] }) ∨
    (∃ e rest, s.waiters message.type = e :: rest ∧
      s.route message =
        { s with
          arrivals := s.arrivals ++ [a]
          consumed := s.consumed ++ [(a, Consumer.expect e)] }.settle e (.ok a)) ∨
    (s.handlers message.type = none ∧ s.waiters message.type = [] ∧
      s.route message =
        { s with
          arrivals := s.arrivals ++ [a]
          queued := Function.update s.queued message.type (s.queued message.type ++ [a]) }) := by
  intro a
  rw [route]
  dsimp only
  split
  · rename_i handler hhandler
    exact .inl ⟨handler, hhandler, rfl⟩
  · rename_i hhandler
    split
    · rename_i e rest hwaiters
      refine .inr (.inl ⟨e, rest, hwaiters, ?_⟩)
      have hmem : e ∈ s.outstandingOf message.type := hs.waiters _ ▸ hwaiters ▸ List.mem_cons_self
      have htype := (mem_outstandingOf.mp hmem).2
      have hnodup : (e :: rest).Nodup := by
        rw [← hwaiters, hs.waiters]
        exact (nodup_outstanding hs).filter _
      have herase := List.erase_of_not_mem (List.nodup_cons.mp hnodup).1
      simp [settle, cleanup, htype, hwaiters, herase]
      rfl
    · rename_i hwaiters
      exact .inr (.inr ⟨hhandler, hwaiters, rfl⟩)

theorem Sound.route {s : ControlInbox} (hs : s.Sound) (message : Message) :
    (s.route message).Sound := by
  let a : Arrival := ⟨s.arrivals.length, message⟩
  have ha : a.type = message.type := rfl
  obtain ⟨hcounted, hpairwise⟩ := indexed_arrival hs (a := a) rfl
  have hp := hs.promises
  rcases route_cases hp message with ⟨handler, hhandler, h⟩ | ⟨e, rest, hwaiters, h⟩ |
    ⟨hhandler, hwaiters, h⟩
  · rw [h]
    refine ⟨⟨hp.waiters, hp.rejecters, hp.timers, hp.counted, hp.called, hp.once, hp.settled⟩,
      fun type => ?_, hs.failed, hcounted, hpairwise, fun e a => ?_⟩
    · by_cases htype : message.type = type
      · subst htype
        convert (hs.lanes message.type).handle hhandler a using 1
        simp [lane, arrivalsOf, consumedOf, droppedOf, calledOf, Arrival.type, a]
      · convert hs.lanes type using 1
        simp [lane, arrivalsOf, consumedOf, droppedOf, calledOf, Arrival.type, htype]
    · rw [hs.answered]
      simp
  · have he : e ∈ s.outstandingOf message.type := hp.waiters _ ▸ hwaiters ▸ List.mem_cons_self
    obtain ⟨he, hetype⟩ := mem_outstandingOf.mp he
    have hconsumed : { s with
        arrivals := s.arrivals ++ [a]
        consumed := s.consumed ++ [(a, Consumer.expect e)] }.Promises :=
      ⟨hp.waiters, hp.rejecters, hp.timers, hp.counted, hp.called, hp.once, hp.settled⟩
    rw [h]
    refine ⟨hconsumed.settle he _, fun type => ?_, fun h => ?_, hcounted, hpairwise,
      answered_consume hs e a⟩
    · rw [lane_settle]
      by_cases htype : message.type = type
      · subst htype
        rw [if_pos hetype.symm, hwaiters, List.erase_cons_head]
        convert (hs.lanes message.type).serve hwaiters a using 1
        simp [lane, arrivalsOf, consumedOf, droppedOf, calledOf, Arrival.type, a]
      · rw [if_neg fun heq => htype (hetype.symm.trans heq.symm)]
        convert hs.lanes type using 1
        simp [lane, arrivalsOf, consumedOf, droppedOf, calledOf, Arrival.type, htype]
    · exact absurd he (hs.failed h ▸ List.not_mem_nil)
  · rw [h]
    refine ⟨⟨hp.waiters, hp.rejecters, hp.timers, hp.counted, hp.called, hp.once, hp.settled⟩,
      fun type => ?_, hs.failed, hcounted, hpairwise, hs.answered⟩
    by_cases htype : message.type = type
    · subst htype
      convert (hs.lanes message.type).enqueue hhandler hwaiters a using 1
      simp [lane, arrivalsOf, consumedOf, droppedOf, calledOf, Arrival.type, a]
    · convert hs.lanes type using 1
      simp [lane, arrivalsOf, consumedOf, droppedOf, calledOf, Arrival.type, htype, Ne.symm htype]

theorem Sound.accept {s : ControlInbox} (hs : s.Sound) (outcome : Except Failure Message) :
    (s.accept outcome).Sound := by
  unfold ControlInbox.accept
  split
  · exact hs.fail _
  · exact hs.fail _
  · exact hs.route _

theorem filter_typed {α : Type} {f : α → MessageType} {xs : List α} {type : MessageType}
    (h : ∀ x ∈ xs, f x = type) (type' : MessageType) :
    xs.filter (f · = type') = if type = type' then xs else [] := by
  split
  · rename_i heq
    exact List.filter_eq_self.mpr fun x hx => decide_eq_true ((h x hx).trans heq)
  · rename_i hne
    exact List.filter_eq_nil_iff.mpr fun x hx heq => hne ((h x hx).symm.trans (of_decide_eq_true heq))

theorem Sound.on {s : ControlInbox} {type : MessageType} (hs : s.Sound)
    (hnone : s.outstandingOf type = []) (handler : Nat) (throwsAt : Option Nat) :
    (s.on type handler throwsAt).Sound := by
  have hp := hs.promises
  have hwaiters : s.waiters type = [] := (hp.waiters type).trans hnone
  refine ⟨⟨hp.waiters, hp.rejecters, hp.timers, hp.counted, hp.called, hp.once, hp.settled⟩,
    fun type' => ?_, hs.failed, hs.counted, hs.arrivals, fun e a => ?_⟩
  · let handled := throwsAt.elim (s.queued type).length (· + 1)
    have hconsumed : ∀ x ∈ ((s.queued type).take handled).map (·, Consumer.handler handler),
        x.1.type = type := by
      intro x hx
      obtain ⟨a, ha, rfl⟩ := List.mem_map.mp hx
      exact type_queued (hs.lanes type) (List.mem_of_mem_take ha)
    have hdropped : ∀ a ∈ (s.queued type).drop handled, a.type = type :=
      fun a ha => type_queued (hs.lanes type) (List.mem_of_mem_drop ha)
    have hconsumedOf : (s.on type handler throwsAt).consumedOf type' = s.consumedOf type' ++
        if type = type' then ((s.queued type).take handled).map (·, .handler handler) else [] := by
      rw [← filter_typed hconsumed type']
      exact List.filter_append ..
    have hdroppedOf : (s.on type handler throwsAt).droppedOf type' = s.droppedOf type' ++
        if type = type' then (s.queued type).drop handled else [] := by
      rw [← filter_typed hdropped type']
      exact List.filter_append ..
    rw [lane, hconsumedOf, hdroppedOf]
    by_cases htype : type = type'
    · subst htype
      convert (hs.lanes type).drain hwaiters handler handled using 1
      simp [lane, ControlInbox.on, arrivalsOf, calledOf]
    · convert hs.lanes type' using 1
      simp [lane, ControlInbox.on, arrivalsOf, calledOf, htype, Ne.symm htype]
  · refine (hs.answered e a).trans ?_
    simp only [ControlInbox.on, List.mem_append, List.mem_map]
    refine ⟨.inl, fun h => h.resolve_right ?_⟩
    rintro ⟨_, _, heq⟩
    cases heq

theorem filter_call (called : List Expectation) (e : Expectation) (type : MessageType) :
    (called ++ [e]).filter (·.type = type) =
      called.filter (·.type = type) ++ if e.type = type then [e] else [] := by
  rw [List.filter_append]
  refine congrArg _ (filter_typed (fun e' he' => ?_) type)
  cases List.mem_singleton.mp he'
  rfl

theorem Sound.settleNow {s : ControlInbox} {e : Expectation} (hs : s.Sound)
    (hid : e.id = s.called.length) (error : Failure) :
    { s with
      called := s.called ++ [e]
      settled := s.settled ++ [(e, Except.error error)] }.Sound := by
  obtain ⟨hpromises, houtstanding⟩ := hs.promises.settleNow (e := e)
    (t := { s with
      called := s.called ++ [e], settled := s.settled ++ [(e, Except.error error)] })
    hid rfl rfl rfl rfl rfl
  refine ⟨hpromises, fun type => ?_, fun h => houtstanding.trans (hs.failed h), hs.counted,
    hs.arrivals, fun e' a => ?_⟩
  · rw [lane, calledOf, filter_call]
    split
    · exact (hs.lanes type).call e
    · rw [List.append_nil]
      exact hs.lanes type
  · refine Iff.trans ?_ (hs.answered e' a)
    simp

theorem Sound.expect {s : ControlInbox} (hs : s.Sound) (type : MessageType) :
    (s.expect type).Sound := by
  have hp := hs.promises
  let e : Expectation := ⟨s.called.length, type⟩
  unfold ControlInbox.expect
  dsimp only
  split
  · exact hs.settleNow (e := e) rfl _
  · rename_i hfailure
    split
    · exact hs.settleNow (e := e) rfl _
    · rename_i hhandler
      split
      · rename_i ready rest hqueued
        obtain ⟨hpromises, houtstanding⟩ := hp.settleNow (e := e)
          (t := { s with
            queued := Function.update s.queued type rest
            consumed := s.consumed ++ [(ready, Consumer.expect e)]
            called := s.called ++ [e]
            settled := s.settled ++ [(e, Except.ok ready)] })
          rfl rfl rfl rfl rfl rfl
        have hready := type_queued (hs.lanes type) (hqueued ▸ List.mem_cons_self)
        refine ⟨hpromises, fun type' => ?_, fun h => houtstanding.trans (hs.failed h), hs.counted,
          hs.arrivals, answered_consume hs e ready⟩
        rw [lane, calledOf, filter_call]
        by_cases htype : type = type'
        · subst htype
          convert (hs.lanes type).ready hqueued e using 1
          simp [lane, arrivalsOf, consumedOf, droppedOf, calledOf, hready, e]
        · convert hs.lanes type' using 1
          simp [lane, arrivalsOf, consumedOf, droppedOf, calledOf, hready, htype, Ne.symm htype]
      · rename_i hqueued
        refine ⟨hp.wait (e := e) rfl rfl rfl rfl rfl rfl, fun type' => ?_, fun h => ?_, hs.counted,
          hs.arrivals, hs.answered⟩
        · rw [lane, calledOf, filter_call]
          by_cases htype : type = type'
          · subst htype
            convert (hs.lanes type).wait hhandler hqueued e using 1
            simp [lane, arrivalsOf, consumedOf, droppedOf, calledOf, e]
          · convert hs.lanes type' using 1
            simp [lane, arrivalsOf, consumedOf, droppedOf, calledOf, htype, Ne.symm htype]
        · rw [hfailure] at h
          cases h

/-! ## Runs -/

theorem step_sound {s t : ControlInbox} {action : InboxAction} (hs : s.Sound)
    (hapart : Apart s action) (h : step s action = some t) : t.Sound := by
  cases action with
  | accept outcome =>
    cases h
    exact hs.accept outcome
  | on type handler throwsAt =>
    cases h
    exact hs.on hapart handler throwsAt
  | expect type =>
    cases h
    exact hs.expect type
  | timeout e =>
    rw [step, Option.ite_none_right_eq_some] at h
    obtain ⟨he, h⟩ := h
    cases h
    exact hs.reject (hs.promises.timers ▸ he) _
  | fail error =>
    cases h
    exact hs.fail error

theorem play_sound {s t : ControlInbox} {actions : List InboxAction}
    (h : play step s actions = some t) (hapart : Meets step Apart s actions) (hs : s.Sound) :
    t.Sound :=
  hapart.keeps (fun _ _ _ hs hapart h => step_sound hs hapart h) h hs

theorem route_frame (s : ControlInbox) (message : Message) :
    (s.route message).called = s.called ∧ (s.route message).failure = s.failure ∧
      s.settled ⊆ (s.route message).settled := by
  unfold route
  dsimp only
  split
  · exact ⟨rfl, rfl, List.Subset.refl _⟩
  · split
    · exact ⟨rfl, rfl, List.subset_append_left ..⟩
    · exact ⟨rfl, rfl, List.Subset.refl _⟩

/-- The first error stays, and what has settled is settled. -/
theorem step_frame {s t : ControlInbox} {action : InboxAction} (h : step s action = some t) :
    t.failure = s.failure.or (failsWith action) ∧ s.settled ⊆ t.settled := by
  have hfail (error : Failure) : s.settled ⊆ (s.fail error).settled :=
    (fail_frame s error).2.2.2.2 ▸ List.subset_append_left ..
  cases action with
  | accept outcome =>
    cases h
    unfold ControlInbox.accept
    split
    · exact ⟨(fail_frame s _).2.2.2.1, hfail _⟩
    · exact ⟨(fail_frame s _).2.2.2.1, hfail _⟩
    · rename_i message hmessage
      obtain ⟨-, hfailure, hsettled⟩ := route_frame s message
      refine ⟨hfailure.trans ?_, hsettled⟩
      rw [failsWith, Option.or_none]
      · nofun
      · nofun
      · rintro code text heq
        cases heq
        exact hmessage code text rfl
  | on type handler throwsAt =>
    cases h
    exact ⟨(Option.or_none ..).symm, List.Subset.refl _⟩
  | expect type =>
    cases h
    unfold ControlInbox.expect
    dsimp only
    split
    · exact ⟨(Option.or_none ..).symm, List.subset_append_left ..⟩
    · split
      · exact ⟨(Option.or_none ..).symm, List.subset_append_left ..⟩
      · split
        · exact ⟨(Option.or_none ..).symm, List.subset_append_left ..⟩
        · exact ⟨(Option.or_none ..).symm, List.Subset.refl _⟩
  | timeout e =>
    rw [step, Option.ite_none_right_eq_some] at h
    obtain ⟨-, h⟩ := h
    cases h
    exact ⟨(Option.or_none ..).symm, List.subset_append_left ..⟩
  | fail error =>
    cases h
    exact ⟨(fail_frame s error).2.2.2.1, hfail error⟩

/-- An expect that is called on a failed inbox is rejected with the first error. -/
theorem step_called {s t : ControlInbox} {action : InboxAction} {first : Failure}
    (h : step s action = some t) (hfirst : s.failure = some first) {e : Expectation}
    (he : e ∈ t.called) (hnew : e ∉ s.called) : (e, .error first) ∈ t.settled := by
  have hframe (heq : t.called = s.called) : (e, .error first) ∈ t.settled := (hnew (heq ▸ he)).elim
  cases action with
  | accept outcome =>
    cases h
    refine hframe ?_
    unfold ControlInbox.accept
    split
    · exact (fail_frame s _).2.2.1
    · exact (fail_frame s _).2.2.1
    · exact (route_frame s _).1
  | on type handler throwsAt =>
    cases h
    exact hframe rfl
  | expect type =>
    cases h
    unfold ControlInbox.expect at he ⊢
    simp only [hfirst] at he ⊢
    cases List.mem_singleton.mp ((List.mem_append.mp he).resolve_left hnew)
    exact List.mem_append_right _ (List.mem_singleton_self _)
  | timeout e' =>
    rw [step, Option.ite_none_right_eq_some] at h
    obtain ⟨-, h⟩ := h
    cases h
    exact hframe rfl
  | fail error =>
    cases h
    exact hframe (fail_frame s error).2.2.1

theorem play_failure {s t : ControlInbox} {actions : List InboxAction}
    (h : play step s actions = some t) :
    t.failure = s.failure.or (actions.filterMap failsWith).head? := by
  induction actions generalizing s with
  | nil =>
    cases h
    exact (Option.or_none ..).symm
  | cons action rest ih =>
    obtain ⟨u, hu, hrest⟩ := Option.bind_eq_some_iff.mp h
    rw [ih hrest, (step_frame hu).1, Option.or_assoc]
    cases hfails : failsWith action with
    | none => rw [List.filterMap_cons_none hfails, Option.none_or]
    | some error => rw [List.filterMap_cons_some hfails, List.head?_cons, Option.some_or]

theorem play_settled {s t : ControlInbox} {actions : List InboxAction}
    (h : play step s actions = some t) : s.settled ⊆ t.settled :=
  play_keeps (P := fun u => s.settled ⊆ u.settled)
    (fun _ _ _ _ hs h => List.Subset.trans hs (step_frame h).2) h (List.Subset.refl _)

theorem play_called {s t : ControlInbox} {actions : List InboxAction} {first : Failure}
    (h : play step s actions = some t) (hfirst : s.failure = some first) :
    ∀ e ∈ t.called, e ∉ s.called → (e, .error first) ∈ t.settled := by
  refine (play_keeps (P := fun u => u.failure = some first ∧
    ∀ e ∈ u.called, e ∉ s.called → (e, .error first) ∈ u.settled) (fun action _ u v hu hstep => ?_) h
    ⟨hfirst, fun e he hnew => (hnew he).elim⟩).2
  obtain ⟨hfailure, hsettled⟩ := step_frame hstep
  refine ⟨by rw [hfailure, hu.1, Option.some_or], fun e he hnew => ?_⟩
  by_cases hmem : e ∈ u.called
  · exact hsettled (hu.2 e hmem hnew)
  · exact step_called hstep hu.1 he hmem

/-- The messages of one type. -/
structure Delivers (type : MessageType) (s : ControlInbox) : Prop where
  inOrder : ((s.consumedOf type).map Prod.fst ++ s.queued type).Sublist (s.arrivalsOf type)
  accounted : ((s.consumedOf type).map Prod.fst ++ s.queued type ++ s.droppedOf type).Perm
    (s.arrivalsOf type)
  inTurn : ((s.consumedOf type).filterMap (·.2.expectation?) ++ s.outstandingOf type).Sublist
    (s.calledOf type)
  apart : s.queued type = [] ∨ s.outstandingOf type = []
  noneLost : s.outstandingOf type ≠ [] → (s.consumedOf type).map Prod.fst = s.arrivalsOf type

theorem Sound.delivers {s : ControlInbox} (hs : s.Sound) (type : MessageType) :
    s.Delivers type := by
  have hwaiters := hs.promises.waiters type
  obtain ⟨hinOrder, haccounted, hinTurn, hapart, hhandled, hunhandled⟩ := hs.lanes type
  simp only [lane, InboxLane.kept, hwaiters] at *
  refine ⟨hinOrder, haccounted, hinTurn, hapart, fun hne => ?_⟩
  have hqueued := hapart.resolve_right hne
  have hhandler : s.handlers type = none := by
    by_contra hsome
    exact hne (hhandled (Option.isSome_iff_ne_none.mpr hsome)).2
  rw [hqueued, List.append_nil] at hinOrder haccounted
  rw [hunhandled hhandler, List.append_nil] at haccounted
  exact hinOrder.eq_of_length haccounted.length_eq

theorem step_fails {s t : ControlInbox} {action : InboxAction} {error : Failure}
    (h : step s action = some t) (hfails : failsWith action = some error) : t = s.fail error := by
  unfold failsWith at hfails
  split at hfails <;> cases hfails <;> cases h <;> rfl

/-- **Every message is delivered once and in order.** Whatever is done with an inbox, as long as a
handler is registered only while no expect of its type is outstanding: the messages of a type are
consumed in the order in which they came, by handlers and by expects in the order of their calls;
an expect settles at most once; and a failure rejects those that are outstanding, and later ones
with the first error. -/
theorem delivers_once {actions : List InboxAction} {s : ControlInbox}
    (h : play step new actions = some s) (hapart : Meets step Apart new actions) :
    s.arrivals.Pairwise (·.index < ·.index) ∧ s.called.Pairwise (·.id < ·.id) ∧
      (∀ type, s.Delivers type) ∧ (s.settled.map Prod.fst).Nodup ∧
      (∀ e a, (e, .ok a) ∈ s.settled ↔ (a, .expect e) ∈ s.consumed) ∧
      ∀ before action after u error, actions = before ++ action :: after →
        play step new before = some u → failsWith action = some error →
        (∀ e ∈ u.outstanding, (e, .error error) ∈ s.settled) ∧
          ∃ first ∈ (actions.filterMap failsWith).head?,
            ∀ e ∈ s.called, e ∉ u.called → (e, .error first) ∈ s.settled := by
  have hs := play_sound h hapart sound_new
  refine ⟨hs.arrivals, hs.promises.called, hs.delivers, hs.promises.once, hs.answered, ?_⟩
  rintro before action after u error rfl hbefore hfails
  have hu := play_sound hbefore hapart.of_append sound_new
  have hwhole := play_failure h
  rw [play_append, hbefore, Option.bind_some] at h
  obtain ⟨u', hstep, hafter⟩ := Option.bind_eq_some_iff.mp h
  cases step_fails hstep hfails
  obtain ⟨-, -, hcalled, hfailure, hsettled⟩ := fail_frame u error
  refine ⟨fun e he => play_settled hafter ?_, ?_⟩
  · rw [hsettled, hu.promises.rejecters]
    exact List.mem_append_right _ (List.mem_map.mpr ⟨e, he, rfl⟩)
  · obtain ⟨first, hfirst⟩ : ∃ first, (u.fail error).failure = some first := by
      rw [hfailure]
      cases u.failure with
      | none => exact ⟨error, rfl⟩
      | some first => exact ⟨first, rfl⟩
    refine ⟨first, ?_, hcalled ▸ play_called hafter hfirst⟩
    have hlast := play_failure hafter
    rw [hfirst, Option.some_or, hwhole, new, Option.none_or] at hlast
    exact hlast

/-- Two expects of one type of which the first times out, a queue that a handler throws on, and a
failure that finds an expect waiting. -/
def busyInbox : List InboxAction :=
  [.expect .auth, .expect .auth, .timeout ⟨0, .auth⟩, .accept (.ok (.auth "a")),
    .accept (.ok (.auth "b")), .expect .auth, .accept (.ok (.transferCancel 1 "x")),
    .accept (.ok (.transferCancel 2 "y")), .on .transferCancel 7 (some 0), .expect .hello,
    .fail (.error "gone"), .accept (.ok (.error .internal "late")), .expect .bye]

theorem delivers_once_busyInbox :
    ∃ s, play step new busyInbox = some s ∧
      s.consumed = [(⟨0, .auth "a"⟩, .expect ⟨1, .auth⟩), (⟨1, .auth "b"⟩, .expect ⟨2, .auth⟩),
        (⟨2, .transferCancel 1 "x"⟩, .handler 7)] ∧
      s.dropped = [⟨3, .transferCancel 2 "y"⟩] ∧
      (⟨4, .bye⟩, .error (.error "gone")) ∈ s.settled ∧
      (∀ type, s.Delivers type) ∧ (s.settled.map Prod.fst).Nodup := by
  obtain ⟨s, hplay⟩ : ∃ s, play step new busyInbox = some s := ⟨_, rfl⟩
  obtain ⟨-, -, hdelivers, honce, -⟩ := delivers_once hplay (by decide)
  have hs : s = (play step new busyInbox).get rfl := by simp [hplay]
  refine ⟨s, hplay, ?_, ?_, ?_, hdelivers, honce⟩ <;> subst hs <;> decide

end ControlInbox

end PassVault
