import PassVault.Lib.Machine

/-!
# Transactions whose statements fail

`SqliteMetadataStore.transaction` of `packages/storage-sql/src/sqliteMetadataStore.ts` on a
connection where any statement may fail: the depth counter, the queue of calls, and what is open on
the connection. What the database holds is arbitrary. A `BEGIN` that fails leaves the counter where
it put it; nothing else that fails does.
-/

namespace PassVault

open Machine

/-- What becomes of a statement. -/
inductive SqlOutcome where
  | done
  | refused
  /-- It fails, and SQLite rolls back what is open by itself. -/
  | undone
deriving DecidableEq, Repr

/-- A connection. `saved` is what an open transaction goes back to. -/
structure SqlConnection (δ : Type) where
  content : δ
  saved : Option δ

namespace SqlConnection

variable {δ : Type}

def undo (c : SqlConnection δ) : SqlConnection δ := ⟨c.saved.getD c.content, none⟩

def write (f : δ → δ) (outcome : SqlOutcome) (c : SqlConnection δ) : SqlConnection δ :=
  match outcome with
  | .done => { c with content := f c.content }
  | .refused => c
  | .undone => c.undo

/-- `COMMIT`, and whether it throws. -/
def commit (outcome : SqlOutcome) (c : SqlConnection δ) : SqlConnection δ × Bool :=
  match c.saved, outcome with
  | none, _ => (c, true)
  | some _, .done => (⟨c.content, none⟩, false)
  | some _, .refused => (c, true)
  | some _, .undone => (c.undo, true)

/-- `ROLLBACK`, which throws when nothing is open. -/
def rollback (c : SqlConnection δ) : SqlConnection δ :=
  match c.saved with
  | none => c
  | some _ => c.undo

/-- The `try` of `run`, once the body has ended. -/
def settle (threw : Bool) (outcome : SqlOutcome) (c : SqlConnection δ) : SqlConnection δ :=
  if threw then c.rollback
  else
    match c.commit outcome with
    | (c, false) => c
    | (c, true) => c.rollback

theorem saved_rollback (c : SqlConnection δ) : c.rollback.saved = none := by
  obtain ⟨content, _ | d⟩ := c <;> rfl

/-- Whichever statements fail, nothing is open any more. -/
theorem saved_settle (threw : Bool) (outcome : SqlOutcome) (c : SqlConnection δ) :
    (c.settle threw outcome).saved = none := by
  cases threw with
  | true => exact saved_rollback c
  | false =>
    obtain ⟨content, _ | d⟩ := c
    · rfl
    · cases outcome <;> rfl

/-- A statement opens nothing. -/
theorem saved_write {c : SqlConnection δ} (h : c.saved = none) (f : δ → δ) (outcome : SqlOutcome) :
    (c.write f outcome).saved = none := by
  cases outcome with
  | done => exact h
  | refused => exact h
  | undone => rfl

end SqlConnection

/-- What the store knows of its calls: those whose body runs in a transaction that it found open,
those that wait for their turn, and the one whose turn it is. -/
structure TransactionStore (δ : Type) where
  connection : SqlConnection δ
  depth : Nat
  calls : Nat
  joined : List Nat
  queue : List Nat
  running : Option Nat

inductive TransactionAction (δ : Type) where
  /-- `transaction` is called, by a body or from outside. -/
  | call
  /-- The turn of the first call of the queue has come; is its `BEGIN` refused? -/
  | start (busy : Bool)
  /-- A statement of the body of a call. -/
  | write (call : Nat) (f : δ → δ) (outcome : SqlOutcome)
  /-- The body of a call has ended; the outcome is that of its `COMMIT`. -/
  | finish (call : Nat) (threw : Bool) (outcome : SqlOutcome)

namespace TransactionStore

variable {δ : Type}

/-- The store of a connection that has just been opened. -/
def opened (content : δ) : TransactionStore δ := ⟨⟨content, none⟩, 0, 0, [], [], none⟩

/-- `run` up to its first await. A `BEGIN` that throws is outside of the `try`. -/
def run (call : Nat) (busy : Bool) (s : TransactionStore δ) : TransactionStore δ :=
  let s := { s with depth := s.depth + 1 }
  if busy || s.connection.saved.isSome then s
  else
    { s with
      connection := ⟨s.connection.content, some s.connection.content⟩
      running := some call }

def step (s : TransactionStore δ) : TransactionAction δ → Option (TransactionStore δ)
  | .call =>
    if 0 < s.depth then some { s with calls := s.calls + 1, joined := s.joined ++ [s.calls] }
    else some { s with calls := s.calls + 1, queue := s.queue ++ [s.calls] }
  | .start busy =>
    match s.running, s.queue with
    | none, call :: queue => some ({ s with queue }.run call busy)
    | _, _ => none
  | .write call f outcome =>
    if call ∈ s.joined ∨ s.running = some call then
      some { s with connection := s.connection.write f outcome }
    else none
  | .finish call threw outcome =>
    if call ∈ s.joined then some { s with joined := s.joined.erase call }
    else if s.running = some call then
      some { s with
        connection := s.connection.settle threw outcome
        depth := s.depth - 1
        running := none }
    else none

/-- Every promise that was returned has settled. -/
structure Settled (s : TransactionStore δ) : Prop where
  joined : s.joined = []
  queue : s.queue = []
  running : s.running = none

/-- The next call of `transaction` begins a transaction of its own. -/
def Begins (s : TransactionStore δ) : Prop :=
  ∃ t, play step s [.call, .start false] = some t ∧ t.running = some s.calls ∧
    t.connection = ⟨s.connection.content, some s.connection.content⟩

/-- The next call leaves nothing behind when its body throws, of itself or because its last
statement fails. -/
def RollsBack (s : TransactionStore δ) : Prop :=
  ∀ (writes : List (δ → δ)) (last : δ → δ) (outcome : SqlOutcome),
    ∃ t, play step s ([.call, .start false] ++
        (writes.map (.write s.calls · .done) ++
          [.write s.calls last outcome, .finish s.calls true .done])) = some t ∧
      t.connection = ⟨s.connection.content, none⟩

/-- Transactions work as on a new connection. -/
structure Recovered (s : TransactionStore δ) : Prop where
  depth : s.depth = 0
  closed : s.connection.saved = none
  begins : s.Begins
  rollsBack : s.RollsBack

/-! ## What is open -/

/-- `leaked` calls have left the counter where they put it; besides them it counts the call whose
turn it is, and only that one may have a transaction open. -/
structure Balanced (leaked : Nat) (s : TransactionStore δ) : Prop where
  depth : s.depth = leaked + if s.running.isSome then 1 else 0
  closed : s.running = none → s.connection.saved = none

theorem balanced_opened (content : δ) : (opened content).Balanced 0 := ⟨rfl, fun _ => rfl⟩

def BeginFails : TransactionAction δ → Prop
  | .start busy => busy = true
  | _ => False

instance : DecidablePred (BeginFails (δ := δ)) := fun action =>
  match action with
  | .start busy => inferInstanceAs (Decidable (busy = true))
  | .call | .write .. | .finish .. => isFalse id

theorem Balanced.step {leaked : Nat} {s t : TransactionStore δ} {action : TransactionAction δ}
    (hs : s.Balanced leaked) (h : step s action = some t) :
    t.Balanced (if BeginFails action then leaked + 1 else leaked) := by
  cases action with
  | call =>
    simp only [TransactionStore.step] at h
    split at h <;> cases h <;> exact ⟨hs.depth, hs.closed⟩
  | start busy =>
    simp only [TransactionStore.step] at h
    split at h
    · rename_i call queue hrunning hqueue
      cases h
      have hclosed := hs.closed hrunning
      have hdepth := hs.depth
      rw [hrunning] at hdepth
      cases busy with
      | true => exact ⟨by simp [run, hrunning, BeginFails, hdepth], fun _ => hclosed⟩
      | false => exact ⟨by simp [run, hclosed, BeginFails, hdepth], by simp [run, hclosed]⟩
    · cases h
  | write call f outcome =>
    simp only [TransactionStore.step] at h
    split at h <;> cases h
    exact ⟨hs.depth, fun hrunning => SqlConnection.saved_write (hs.closed hrunning) f outcome⟩
  | finish call threw outcome =>
    simp only [TransactionStore.step] at h
    split at h
    · cases h
      exact ⟨hs.depth, hs.closed⟩
    · split at h
      · rename_i hrunning
        cases h
        have hdepth := hs.depth
        rw [hrunning] at hdepth
        exact ⟨by simp [BeginFails, hdepth], fun _ => SqlConnection.saved_settle ..⟩
      · cases h

/-- Every `BEGIN` that fails, and nothing else, moves the counter away for good. -/
theorem balanced_play {leaked : Nat} {s t : TransactionStore δ}
    {actions : List (TransactionAction δ)} (h : play step s actions = some t)
    (hs : s.Balanced leaked) :
    ∃ leaked', t.Balanced leaked' ∧ leaked ≤ leaked' ∧
      (leaked' = leaked ↔ ∀ action ∈ actions, ¬ BeginFails action) := by
  induction actions generalizing s leaked with
  | nil =>
    cases h
    exact ⟨leaked, hs, Nat.le_refl _, by simp⟩
  | cons action rest ih =>
    obtain ⟨u, hu, hrest⟩ := Option.bind_eq_some_iff.mp h
    obtain ⟨leaked', ht, hle, hiff⟩ := ih hrest (hs.step hu)
    refine ⟨leaked', ht, ?_, ?_⟩
    · split at hle <;> omega
    · rw [List.forall_mem_cons, ← hiff]
      by_cases hfails : BeginFails action
      · rw [if_pos hfails] at hle
        simp only [hfails, not_true_eq_false, false_and, iff_false]
        omega
      · rw [if_neg hfails] at hle ⊢
        simp [hfails]

/-! ## The next call -/

section Next

variable {s : TransactionStore δ} (hsettled : s.Settled) (hdepth : s.depth = 0)
  (hclosed : s.connection.saved = none)

/-- The store while the body of the next call runs and has made `content` of the database. -/
def during (s : TransactionStore δ) (content : δ) : TransactionStore δ :=
  { s with
    connection := ⟨content, some s.connection.content⟩, depth := 1, calls := s.calls + 1
    running := some s.calls }

include hsettled hdepth hclosed in
theorem play_begin : play step s [.call, .start false] = some (s.during s.connection.content) := by
  obtain ⟨⟨content, saved⟩, depth, calls, joined, queue, running⟩ := s
  obtain ⟨rfl, rfl, rfl⟩ := hsettled
  cases hclosed
  cases hdepth
  rfl

theorem step_write_during (content : δ) (f : δ → δ) (outcome : SqlOutcome) :
    step (s.during content) (.write s.calls f outcome) =
      some { s.during content with
        connection := (s.during content).connection.write f outcome } := by
  rw [step, if_pos (.inr rfl)]

theorem play_writes (writes : List (δ → δ)) (content : δ) :
    ∃ content', play step (s.during content) (writes.map (.write s.calls · .done)) =
      some (s.during content') := by
  induction writes generalizing content with
  | nil => exact ⟨content, rfl⟩
  | cons f rest ih =>
    obtain ⟨content', hrest⟩ := ih (f content)
    refine ⟨content', ?_⟩
    rw [List.map_cons, play, step_write_during, Option.bind_some]
    exact hrest

include hsettled in
theorem finish_during (content : δ) (last : δ → δ) (outcome : SqlOutcome) :
    ∃ t, play step (s.during content)
        [.write s.calls last outcome, .finish s.calls true .done] = some t ∧
      t.connection = ⟨s.connection.content, none⟩ := by
  refine ⟨{ s.during content with
    connection := ((s.during content).connection.write last outcome).rollback
    depth := 0
    running := none }, ?_, ?_⟩
  · simp [play, step, during, hsettled.joined, SqlConnection.settle]
  · cases outcome <;> rfl

include hsettled hdepth hclosed in
theorem recovered : s.Recovered := by
  have hbegin := play_begin hsettled hdepth hclosed
  refine ⟨hdepth, hclosed, ⟨_, hbegin, rfl, rfl⟩, fun writes last outcome => ?_⟩
  obtain ⟨content, hwrites⟩ := play_writes writes s.connection.content
  rw [play_append, hbegin, Option.bind_some, play_append, hwrites, Option.bind_some]
  exact finish_during hsettled content last outcome

end Next

/-- **Failing statements and transactions.** Whatever calls are made on a new connection and
whichever of their statements fail, once every promise has settled transactions work as at the
start iff no `BEGIN` has failed. -/
theorem recovered_iff {content : δ} {actions : List (TransactionAction δ)}
    {s : TransactionStore δ} (h : play step (opened content) actions = some s)
    (hsettled : s.Settled) : s.Recovered ↔ ∀ action ∈ actions, ¬ BeginFails action := by
  obtain ⟨leaked, hs, -, hiff⟩ := balanced_play h (balanced_opened content)
  have hdepth := hs.depth
  rw [hsettled.running] at hdepth
  rw [← hiff]
  constructor
  · intro hrecovered
    exact hdepth.symm.trans hrecovered.depth
  · rintro rfl
    exact recovered hsettled hdepth (hs.closed hsettled.running)

/-- A body that throws after it has written, one whose `COMMIT` is refused, and one that ends
well. -/
def failuresFirst : List (TransactionAction Nat) :=
  [.call, .call, .start false, .write 0 (· + 1) .done, .finish 0 true .done, .start false,
    .write 1 (· + 2) .done, .finish 1 false .refused, .call, .start false,
    .write 2 (· + 4) .done, .finish 2 false .done]

theorem recovered_failuresFirst :
    ∃ s, play step (opened 0) failuresFirst = some s ∧ s.connection.content = 4 ∧ s.Settled ∧
      s.Recovered := by
  have hplay : play step (opened 0) failuresFirst = some ⟨⟨4, none⟩, 0, 3, [], [], none⟩ := rfl
  refine ⟨_, hplay, rfl, ⟨rfl, rfl, rfl⟩, (recovered_iff hplay ⟨rfl, rfl, rfl⟩).mpr ?_⟩
  simp [failuresFirst, BeginFails]

/-- After one `BEGIN` that finds the database busy every promise has settled, and the counter
stays at 1: the next call joins a transaction that nobody has opened, and what its body writes
before it throws stays. -/
theorem begin_leaks :
    ∃ s, play step (opened 0) [.call, .start true] = some s ∧ s.Settled ∧ ¬ s.Recovered ∧
      s.depth = 1 ∧ s.connection.saved = none ∧
      ∃ t, play step s [.call, .write 1 (· + 1) .done, .finish 1 true .done] = some t ∧
        t.Settled ∧ t.connection.content = 1 :=
  ⟨_, rfl, ⟨rfl, rfl, rfl⟩, fun h => Nat.one_ne_zero h.depth, rfl, rfl, _, rfl, ⟨rfl, rfl, rfl⟩, rfl⟩

end TransactionStore

end PassVault
