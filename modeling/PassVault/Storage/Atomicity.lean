import Mathlib.Logic.Function.Basic
import PassVault.Storage.Ledger

/-!
# Which transactions are atomic

A call of `transaction` that finds one open runs its body in it, whoever opened it. As long as a
rollback undoes nothing but what the body that failed has written itself, and no call fails after
it has written to a transaction that it joined, transactions are all or nothing.
-/

namespace PassVault

open Async

/-- Where a call of `transaction` is. -/
inductive CallStage where
  /-- It found a transaction open, and its body runs. -/
  | joined
  /-- It found none open. -/
  | called
  | queued (turn : Nat)
  /-- Its transaction is open, and its body runs. -/
  | opened
  /-- Its body has thrown, and the ledger was left like this. -/
  | failing (left : Ledger)
  | failed
  | committed

structure CallFrame where
  call : Nat
  stage : CallStage

namespace CallStage

/-- Does the body of the call run? -/
def Running : CallStage → Prop
  | joined | opened => True
  | _ => False

/-- Has the call a transaction open? -/
def isOpen : CallStage → Bool
  | opened | failing _ => true
  | _ => false

def turn : CallStage → Option Nat
  | queued turn => some turn
  | _ => none

end CallStage

/-- What a program does to the ledger, and to the calls that it is in, innermost first. -/
inductive Transacts :
    List CallFrame → Ledger → List LedgerEvent → Ledger → List CallFrame → Prop where
  | idle {g : List CallFrame} {s : Ledger} : Transacts g s [] s g
  | write {g : List CallFrame} {s : Ledger} {tables : Tables}
      {statement : Tables → Except Failure Tables} (hg : ∀ f ∈ g, f.stage.Running)
      (h : statement s.store.tables = .ok tables) :
    Transacts g s [.wrote (g.map (·.call)) statement]
      { s.note (.wrote (g.map (·.call)) statement) with store := s.store.setTables tables } g
  | join {g : List CallFrame} {s : Ledger} (hg : ∀ f ∈ g, f.stage.Running)
      (h : 0 < s.store.depth) :
    Transacts g s [.called true] (s.note (.called true)) (⟨s.calls, .joined⟩ :: g)
  | call {g : List CallFrame} {s : Ledger} (hg : ∀ f ∈ g, f.stage.Running) :
    Transacts g s [.called false] (s.note (.called false)) (⟨s.calls, .called⟩ :: g)
  | enqueue {g : List CallFrame} {s : Ledger} {c : Nat} :
    Transacts (⟨c, .called⟩ :: g) s [] { s with store := s.store.enqueue }
      (⟨c, .queued s.store.queued⟩ :: g)
  | begin {g : List CallFrame} {s : Ledger} {c turn : Nat}
      (h : s.store.committed + s.store.rolledBack = turn) :
    Transacts (⟨c, .queued turn⟩ :: g) s [] { s with store := s.store.begin, mark := s.applied }
      (⟨c, .opened⟩ :: g)
  | commit {g : List CallFrame} {s : Ledger} {c : Nat} :
    Transacts (⟨c, .opened⟩ :: g) s [] { s with store := s.store.commit }
      (⟨c, .committed⟩ :: g)
  | failJoined {g : List CallFrame} {s : Ledger} {c : Nat} :
    Transacts (⟨c, .joined⟩ :: g) s [.failed c true] (s.note (.failed c true))
      (⟨c, .failed⟩ :: g)
  | fail {g : List CallFrame} {s : Ledger} {c : Nat} :
    Transacts (⟨c, .opened⟩ :: g) s [.failed c false] (s.note (.failed c false))
      (⟨c, .failing (s.note (.failed c false))⟩ :: g)
  | rollback {g : List CallFrame} {s : Ledger} {c : Nat} :
    Transacts (⟨c, .failing s⟩ :: g) s [] { s with store := s.store.rollback, applied := s.mark }
      (⟨c, .failed⟩ :: g)
  | resolve {g : List CallFrame} {s : Ledger} {c : Nat} {stage : CallStage}
      (h : stage = .joined ∨ stage = .committed) :
    Transacts (⟨c, stage⟩ :: g) s [.resolved c] (s.note (.resolved c)) g
  | reject {g : List CallFrame} {s : Ledger} {c : Nat} :
    Transacts (⟨c, .failed⟩ :: g) s [.rejected c] (s.note (.rejected c)) g

/-! ## Accesses -/

section Accesses

variable (s : Ledger)

theorem changeStore_note (e : LedgerEvent) : changeStore id [e] s = (s.note e, [e]) := by
  cases e <;> simp [changeStore, setStore, note, store, Ledger.note]

theorem changeStore_wrote (scope : List Nat) (statement : Tables → Except Failure Tables)
    (tables : Tables) : changeStore (Store.setTables tables) [.wrote scope statement] s =
      ({ s.note (.wrote scope statement) with store := s.store.setTables tables },
        [.wrote scope statement]) := by
  simp [changeStore, setStore, note, store, Ledger.note, Store.setTables]

theorem changeStore_enqueue :
    changeStore Store.enqueue [] s = ({ s with store := s.store.enqueue }, []) := by
  simp [changeStore, setStore, store, Store.enqueue]

theorem changeStore_begin : changeStore Store.begin [] s =
    ({ s with store := s.store.begin, mark := s.applied }, []) := by
  simp [changeStore, setStore, store, Store.begin]

theorem changeStore_commit :
    changeStore Store.commit [] s = ({ s with store := s.store.commit }, []) := by
  have hdepth : ¬ s.store.depth < s.store.depth - 1 := by omega
  simp [changeStore, setStore, store, Store.commit, hdepth]

theorem changeStore_rollback : changeStore Store.rollback [] s =
    ({ s with store := s.store.rollback, applied := s.mark }, []) := by
  have hdepth : ¬ s.store.depth < s.store.depth - 1 := by omega
  simp [changeStore, setStore, store, Store.rollback, hdepth]

end Accesses

section Follows

variable {g : List CallFrame} {s : Ledger}

/-- The body of a call is left where it ended. -/
theorem follows_settling {call : Nat} {joins : Bool} {body : Async Ledger LedgerEvent Failure Unit}
    {stage : CallStage} {onFail : List CallFrame → Ledger → Prop}
    (hbody : Follows Transacts (fun g' _ _ => g' = ⟨call, stage⟩ :: g)
      (fun g' _ => g' = ⟨call, stage⟩ :: g) body (⟨call, stage⟩ :: g) s)
    (hfail : ∀ t, ∃ g', Transacts (⟨call, stage⟩ :: g) t [.failed call joins]
      (t.note (.failed call joins)) g' ∧ onFail g' (t.note (.failed call joins))) :
    Follows Transacts (fun g' _ _ => g' = ⟨call, stage⟩ :: g) onFail
      (Script.settling call joins body) (⟨call, stage⟩ :: g) s := by
  refine Follows.bind (Q := fun g' _ _ => g' = ⟨call, stage⟩ :: g) (fun g' t result hg' => ?_)
    (hbody.attempt (fun _ _ _ h => h) fun _ _ _ h => h)
  subst hg'
  intro t _
  cases result with
  | ok _ => exact rfl
  | error error =>
    obtain ⟨g', hstep, hpost⟩ := hfail t
    refine ⟨g', ?_, ?_⟩
    · rwa [changeStore_note]
    · rw [changeStore_note]
      exact hpost

theorem follows_joined {p : Async Ledger LedgerEvent Failure Unit}
    {Q : List CallFrame → Ledger → Unit → Prop} {onFail : List CallFrame → Ledger → Prop}
    (hdepth : 0 < s.store.depth) (hp : Follows Transacts Q onFail p g s) :
    Follows Transacts Q onFail (transaction p) g s := by
  refine Follows.bind (Q := fun g' t depth => g' = g ∧ t = s ∧ depth = s.store.depth)
    (fun g' t depth h => ?_) ⟨g, .idle, rfl, rfl, rfl⟩
  obtain ⟨rfl, rfl, rfl⟩ := h
  rw [if_pos hdepth]
  exact hp

theorem follows_own {c : Nat} {p : Async Ledger LedgerEvent Failure Unit}
    (hdepth : ¬ 0 < s.store.depth)
    (hp : ∀ t, Follows Transacts (fun g' _ _ => g' = ⟨c, .opened⟩ :: g)
      (fun g' t => g' = ⟨c, .failing t⟩ :: g) p (⟨c, .opened⟩ :: g) t) :
    Follows Transacts (fun g' _ _ => g' = ⟨c, .committed⟩ :: g)
      (fun g' _ => g' = ⟨c, .failed⟩ :: g) (transaction p) (⟨c, .called⟩ :: g) s := by
  refine Follows.bind (Q := fun g' t depth => g' = ⟨c, .called⟩ :: g ∧ t = s ∧
    depth = s.store.depth) (fun g' t depth h => ?_) ⟨_, .idle, rfl, rfl, rfl⟩
  obtain ⟨rfl, rfl, rfl⟩ := h
  rw [if_neg hdepth]
  refine ⟨_, .idle, ⟨c, .queued t.store.queued⟩ :: g, ?_, fun t ht => ?_⟩
  · rw [changeStore_enqueue]
    exact .enqueue
  refine Follows.bind (p := beginTransaction) (Q := fun g' _ _ => g' = ⟨c, .opened⟩ :: g)
    (fun g' t _ hg' => ?_) ⟨⟨c, .opened⟩ :: g, ?_, rfl⟩
  rotate_left
  · rw [changeStore_begin]
    exact .begin (eq_of_beq ht)
  subst hg'
  refine Follows.bind (Q := fun g' _ _ => g' = ⟨c, .opened⟩ :: g) (fun g' t _ hg' => ?_)
    (Follows.tryCatch (F := fun g' t => g' = ⟨c, .failing t⟩ :: g)
      (fun g' t e hg' => ?_) (hp _))
  · subst hg'
    refine ⟨⟨c, .committed⟩ :: g, ?_, fun _ _ => rfl⟩
    rw [changeStore_commit]
    exact .commit
  · subst hg'
    refine ⟨⟨c, .failed⟩ :: g, ?_, fun _ _ => rfl⟩
    rw [changeStore_rollback]
    exact .rollback

/-- A script leaves the calls that it runs in as they were. -/
theorem follows_run (script : Script) : ∀ (g : List CallFrame) (s : Ledger),
    (∀ f ∈ g, f.stage.Running) →
      Follows Transacts (fun g' _ _ => g' = g) (fun g' _ => g' = g)
        (script.run (g.map (·.call))) g s := by
  induction script with
  | done => exact fun _ _ _ => rfl
  | fail error => exact fun _ _ _ => rfl
  | read next ih => exact fun g s hg => ⟨g, .idle, fun t _ => ih _ g t hg⟩
  | write statement next ih =>
    intro g s hg
    refine Follows.bind (Q := fun g' _ _ => g' = g) (fun g' t result hg' => hg' ▸ ih result g t hg)
      (Follows.attempt (Q := fun g' _ _ => g' = g) (G := fun g' _ => g' = g)
        (fun _ _ _ h => h) (fun _ _ _ h => h) ?_)
    refine ⟨g, ?_, fun t _ => Follows.ofExcept (fun _ _ => rfl) fun _ _ => rfl⟩
    cases hstatement : statement s.store.tables with
    | error error =>
      simp only [store, hstatement]
      exact .idle
    | ok tables =>
      simp only [store, hstatement, changeStore_wrote]
      exact .write hg hstatement
  | transaction body next ihbody ihnext =>
    intro g s hg
    -- Where the call is when it has ended.
    have hcall : ∀ (stage ended : CallStage) (t : Ledger),
        ended = .joined ∨ ended = .committed →
        Follows Transacts (fun g' _ _ => g' = ⟨s.calls, ended⟩ :: g)
          (fun g' _ => g' = ⟨s.calls, .failed⟩ :: g)
          (transaction (Script.settling s.calls (decide (0 < s.store.depth))
            (body.run (s.calls :: g.map (·.call))))) (⟨s.calls, stage⟩ :: g) t →
        Follows Transacts (fun g' _ _ => g' = g) (fun g' _ => g' = g)
          ((transaction (Script.settling s.calls (decide (0 < s.store.depth))
            (body.run (s.calls :: g.map (·.call))))).attempt >>= fun result => do
              Script.report (Script.outcome s.calls result)
              (next result).run (g.map (·.call))) (⟨s.calls, stage⟩ :: g) t := by
      intro stage ended t hended hp
      refine Follows.seq (hp.attempt (fun g' u a hg' => ?_) fun g' u e hg' => ?_)
      · subst hg'
        refine ⟨g, ?_, ihnext (.ok a) g _ hg⟩
        rw [changeStore_note]
        exact .resolve hended
      · subst hg'
        refine ⟨g, ?_, ihnext (.error e) g _ hg⟩
        rw [changeStore_note]
        exact .reject
    refine ⟨g, .idle, g, .idle, ?_⟩
    by_cases hdepth : 0 < s.store.depth
    · refine ⟨⟨s.calls, .joined⟩ :: g, ?_, hcall .joined .joined _ (.inl rfl) ?_⟩
      · rw [changeStore_note]
        simpa [store, hdepth] using Transacts.join hg hdepth
      · rw [changeStore_note]
        refine follows_joined hdepth (follows_settling (ihbody (_ :: g) _ ?_) fun t => ?_)
        · exact List.forall_mem_cons.mpr ⟨trivial, hg⟩
        · simp only [hdepth, decide_true]
          exact ⟨_, .failJoined, rfl⟩
    · refine ⟨⟨s.calls, .called⟩ :: g, ?_, hcall .called .committed _ (.inr rfl) ?_⟩
      · rw [changeStore_note]
        simpa [store, hdepth] using Transacts.call hg
      · rw [changeStore_note]
        refine follows_own hdepth fun t => follows_settling (ihbody (_ :: g) _ ?_) fun t => ?_
        · exact List.forall_mem_cons.mpr ⟨trivial, hg⟩
        · simp only [hdepth, decide_false]
          exact ⟨_, .fail, rfl⟩

end Follows

/-! ## The calls under way -/

section Calls

variable {m : Nat → Option CallStage} {c : Nat} {x : Option CallStage}

def opens (x : Option CallStage) : Bool := x.elim false CallStage.isOpen

def turnOf (x : Option CallStage) : Option Nat := x.bind CallStage.turn

/-- `m` has the stage of every call that a program is in; no two are in the same. -/
structure Tracks (m : Nat → Option CallStage) (frames : List CallFrame) : Prop where
  distinct : (frames.map (·.call)).Nodup
  stages : ∀ f ∈ frames, m f.call = some f.stage

theorem Tracks.perm {frames frames' : List CallFrame} (h : Tracks m frames)
    (hperm : frames.Perm frames') : Tracks m frames' :=
  ⟨(hperm.map _).nodup_iff.mp h.distinct, fun f hf => h.stages f (hperm.mem_iff.mpr hf)⟩

theorem Tracks.tail {f : CallFrame} {frames : List CallFrame} (h : Tracks m (f :: frames))
    (x : Option CallStage) : Tracks (Function.update m f.call x) frames := by
  obtain ⟨hnot, hdistinct⟩ := List.nodup_cons.mp h.distinct
  refine ⟨hdistinct, fun f' hf' => ?_⟩
  have hne : f'.call ≠ f.call := by
    intro heq
    exact hnot (List.mem_map.mpr ⟨f', hf', heq⟩)
  rw [Function.update_of_ne hne]
  exact h.stages f' (List.mem_cons_of_mem _ hf')

theorem Tracks.change {f : CallFrame} {frames : List CallFrame} (h : Tracks m (f :: frames))
    (stage : CallStage) :
    Tracks (Function.update m f.call (some stage)) (⟨f.call, stage⟩ :: frames) := by
  obtain ⟨hdistinct, hstages⟩ := h.tail (some stage)
  refine ⟨h.distinct, List.forall_mem_cons.mpr ⟨?_, hstages⟩⟩
  exact Function.update_self _ _ _

theorem Tracks.push {frames : List CallFrame} (h : Tracks m frames) (hc : m c = none)
    (stage : CallStage) : Tracks (Function.update m c (some stage)) (⟨c, stage⟩ :: frames) := by
  have hnot : ∀ f ∈ frames, f.call ≠ c := fun f hf heq => by
    have hstage := h.stages f hf
    rw [heq, hc] at hstage
    cases hstage
  refine ⟨List.nodup_cons.mpr ⟨fun hmem => ?_, h.distinct⟩, ?_⟩
  · obtain ⟨f, hf, heq⟩ := List.mem_map.mp hmem
    exact hnot f hf heq
  · refine List.forall_mem_cons.mpr ⟨Function.update_self _ _ _, fun f hf => ?_⟩
    rw [Function.update_of_ne (hnot f hf)]
    exact h.stages f hf

/-- Transactions are open one at a time, in the order of their turns. -/
structure Turns (m : Nat → Option CallStage) (s : Store) : Prop where
  le : s.depth ≤ 1
  one : ∀ c c', opens (m c) = true → opens (m c') = true → c = c'
  opened : ∀ c, opens (m c) = true → s.depth = 1
  behind : s.committed + s.rolledBack + s.depth ≤ s.queued
  queued : ∀ c turn, turnOf (m c) = some turn →
    s.committed + s.rolledBack + s.depth ≤ turn ∧ turn < s.queued
  distinct : ∀ c c' turn, turnOf (m c) = some turn → turnOf (m c') = some turn → c = c'

namespace Turns

variable {s : Store}

/-- What is queued and what is open stays so. -/
theorem quiet (h : Turns m s) (hopens : opens x = opens (m c)) (hturn : turnOf x = turnOf (m c)) :
    Turns (Function.update m c x) s := by
  have hopens' : ∀ c', opens (Function.update m c x c') = opens (m c') := by
    intro c'
    by_cases hc : c' = c
    · rw [hc, Function.update_self, hopens]
    · rw [Function.update_of_ne hc]
  have hturn' : ∀ c', turnOf (Function.update m c x c') = turnOf (m c') := by
    intro c'
    by_cases hc : c' = c
    · rw [hc, Function.update_self, hturn]
    · rw [Function.update_of_ne hc]
  refine ⟨h.le, ?_, ?_, h.behind, ?_, ?_⟩
  · simpa only [hopens'] using h.one
  · simpa only [hopens'] using h.opened
  · simpa only [hturn'] using h.queued
  · simpa only [hturn'] using h.distinct

theorem enqueue (h : Turns m s) (hc : m c = some .called) :
    Turns (Function.update m c (some (.queued s.queued))) s.enqueue := by
  have hopens : ∀ c', opens (Function.update m c (some (.queued s.queued)) c') = opens (m c') := by
    intro c'
    by_cases hcc : c' = c
    · rw [hcc, Function.update_self, hc]
      rfl
    · rw [Function.update_of_ne hcc]
  refine ⟨h.le, ?_, ?_, Nat.le_succ_of_le h.behind, fun c' turn hturn => ?_,
    fun c' c'' turn hturn hturn' => ?_⟩
  · simpa only [hopens] using h.one
  · exact fun c' hc' => h.opened c' (hopens c' ▸ hc')
  · by_cases hcc : c' = c
    · rw [hcc, Function.update_self] at hturn
      cases hturn
      exact ⟨h.behind, Nat.lt_succ_self _⟩
    · rw [Function.update_of_ne hcc] at hturn
      exact ⟨(h.queued c' turn hturn).1, Nat.lt_succ_of_lt (h.queued c' turn hturn).2⟩
  · by_cases hcc : c' = c
    · by_cases hcc' : c'' = c
      · rw [hcc, hcc']
      · rw [hcc, Function.update_self] at hturn
        cases hturn
        rw [Function.update_of_ne hcc'] at hturn'
        exact absurd (h.queued c'' _ hturn').2 (Nat.lt_irrefl _)
    · rw [Function.update_of_ne hcc] at hturn
      by_cases hcc' : c'' = c
      · rw [hcc', Function.update_self] at hturn'
        cases hturn'
        exact absurd (h.queued c' _ hturn).2 (Nat.lt_irrefl _)
      · rw [Function.update_of_ne hcc'] at hturn'
        exact h.distinct c' c'' turn hturn hturn'

theorem turnOf_of_update {c' turn : Nat} (hx : turnOf x = none)
    (h : turnOf (Function.update m c x c') = some turn) :
    c' ≠ c ∧ turnOf (m c') = some turn := by
  by_cases hc : c' = c
  · rw [hc, Function.update_self, hx] at h
    cases h
  · rw [Function.update_of_ne hc] at h
    exact ⟨hc, h⟩

theorem opens_of_update {c' : Nat} (hx : opens x = false)
    (h : opens (Function.update m c x c') = true) : c' ≠ c ∧ opens (m c') = true := by
  by_cases hc : c' = c
  · rw [hc, Function.update_self, hx] at h
    cases h
  · rw [Function.update_of_ne hc] at h
    exact ⟨hc, h⟩

/-- A call whose turn has come finds no transaction open. -/
theorem depth_eq_zero (h : Turns m s) {turn : Nat} (hc : m c = some (.queued turn))
    (hturn : s.committed + s.rolledBack = turn) : s.depth = 0 := by
  have hbehind := (h.queued c turn (by rw [hc]; rfl)).1
  omega

theorem not_opens (h : Turns m s) (hdepth : s.depth = 0) (c : Nat) : opens (m c) = false := by
  by_contra hopens
  have := h.opened c (by simpa using hopens)
  omega

theorem begin (h : Turns m s) {turn : Nat} (hc : m c = some (.queued turn))
    (hturn : s.committed + s.rolledBack = turn) :
    Turns (Function.update m c (some .opened)) s.begin := by
  have hdepth := h.depth_eq_zero hc hturn
  have hown : turnOf (m c) = some turn := by rw [hc]; rfl
  have hopens : ∀ c', opens (Function.update m c (some .opened) c') = true → c' = c := by
    intro c' hc'
    by_contra hcc
    rw [Function.update_of_ne hcc, h.not_opens hdepth] at hc'
    cases hc'
  have hbegin : s.begin.depth = 1 := by rw [Store.begin, hdepth]
  refine ⟨Nat.le_of_eq hbegin, fun c' c'' hc' hc'' => (hopens c' hc').trans (hopens c'' hc'').symm,
    fun _ _ => hbegin, ?_, fun c' turn' hturn' => ?_, fun c' c'' turn' hturn' hturn'' => ?_⟩
  · have hlt := (h.queued c turn hown).2
    simp only [Store.begin]
    omega
  · obtain ⟨hne, hturn'⟩ := turnOf_of_update (by rfl) hturn'
    obtain ⟨hle, hlt⟩ := h.queued c' turn' hturn'
    have hother : turn' ≠ turn := fun heq => hne (h.distinct c' c turn (heq ▸ hturn') hown)
    simp only [Store.begin]
    omega
  · exact h.distinct c' c'' turn' (turnOf_of_update (by rfl) hturn').2
      (turnOf_of_update (by rfl) hturn'').2

/-- The transaction that is open ends. -/
theorem close (h : Turns m s) (hc : opens (m c) = true) (hx : opens x = false)
    (hturn : turnOf x = none) {t : Store} (hdepth : t.depth = s.depth - 1)
    (hended : t.committed + t.rolledBack = s.committed + s.rolledBack + 1)
    (hqueued : t.queued = s.queued) : Turns (Function.update m c x) t := by
  have hone := h.opened c hc
  have hbehind := h.behind
  have hnone : ∀ c', opens (Function.update m c x c') ≠ true := by
    intro c' hc'
    obtain ⟨hne, hc'⟩ := opens_of_update hx hc'
    exact hne (h.one c' c hc' hc)
  refine ⟨by omega, fun c' _ hc' => (hnone c' hc').elim, fun c' hc' => (hnone c' hc').elim, by omega,
    fun c' turn' hturn' => ?_, fun c' c'' turn' hturn' hturn'' => ?_⟩
  · obtain ⟨hle, hlt⟩ := h.queued c' turn' (turnOf_of_update hturn hturn').2
    omega
  · exact h.distinct c' c'' turn' (turnOf_of_update hturn hturn').2
      (turnOf_of_update hturn hturn'').2

end Turns

end Calls

/-! ## What became of the calls -/

namespace Ledger

/-- The database has nothing that was written in the call. -/
def Without (s : Ledger) (c : Nat) : Prop := ∀ e ∈ s.applied, c ∉ e.scope

def Pending (s : Ledger) (c : Nat) : Prop := c ∉ s.failed ∧ c ∉ s.resolved ∧ c ∉ s.rejected

def HasFailed (s : Ledger) (c : Nat) : Prop := c ∈ s.failed ∧ c ∉ s.resolved ∧ c ∉ s.rejected

/-- Nothing was written in the call. -/
def Fresh (s : Ledger) (c : Nat) : Prop := (∀ e ∈ s.written, c ∉ e.scope) ∧ s.Pending c

/-- A rollback leaves nothing of the call. -/
def Marked (s : Ledger) (c : Nat) : Prop := s.mark <+: s.applied ∧ ∀ e ∈ s.mark, c ∉ e.scope

/-- What a rollback undoes was written directly by the body of the call. -/
def UndoesOwn (s : Ledger) (c : Nat) : Prop :=
  ∀ e ∈ s.applied.drop s.mark.length, e.scope.head? = some c

instance (s : Ledger) (c : Nat) : Decidable (s.UndoesOwn c) :=
  inferInstanceAs (Decidable (∀ e ∈ s.applied.drop s.mark.length, e.scope.head? = some c))

instance (s : Ledger) (c : Nat) : Decidable (s.Without c) :=
  inferInstanceAs (Decidable (∀ e ∈ s.applied, c ∉ e.scope))

/-- What the database has, it had at the last `BEGIN` or got since. -/
theorem mem_mark_or_drop {s : Ledger} (hmark : s.mark <+: s.applied) {e : Entry}
    (he : e ∈ s.applied) : e ∈ s.mark ∨ e ∈ s.applied.drop s.mark.length := by
  obtain ⟨since, hsince⟩ := hmark
  rw [← hsince] at he ⊢
  rw [List.drop_left]
  exact List.mem_append.mp he

end Ledger

/-- The body of a call fails alone: a rollback undoes nothing that others have written, and a call
that joined leaves nothing behind. -/
def LedgerEvent.Alone (s : Ledger) : LedgerEvent → Prop
  | .failed c false => s.UndoesOwn c
  | .failed c true => s.Without c
  | _ => True

instance (s : Ledger) : DecidablePred (LedgerEvent.Alone s)
  | .failed c false => inferInstanceAs (Decidable (s.UndoesOwn c))
  | .failed c true => inferInstanceAs (Decidable (s.Without c))
  | .called _ | .wrote _ _ | .resolved _ | .rejected _ => isTrue trivial

/-- What the ledger says of a call. -/
def Account (s : Ledger) (c : Nat) : Option CallStage → Prop
  | none => (s.calls ≤ c → s.Fresh c) ∧ (c ∈ s.resolved → c ∉ s.failed) ∧
      (c ∈ s.rejected → c ∈ s.failed) ∧ (c ∈ s.failed → s.Without c)
  | some .called | some (.queued _) => c < s.calls ∧ s.Fresh c
  | some .joined | some .committed => c < s.calls ∧ s.Pending c
  | some .opened => c < s.calls ∧ s.Pending c ∧ s.Marked c
  | some (.failing left) => c < s.calls ∧ s.HasFailed c ∧ s.Marked c ∧ left.UndoesOwn c
  | some .failed => c < s.calls ∧ s.HasFailed c ∧ s.Without c

/-- A step of another call. -/
structure Spares (c : Nat) (x : Option CallStage) (s s' : Ledger) : Prop where
  calls : s.calls ≤ s'.calls
  written : (∀ stage, x = some stage → ¬ stage.Running) →
    ∀ e ∈ s'.written, c ∈ e.scope → e ∈ s.written
  applied : (∀ stage, x = some stage → ¬ stage.Running) →
    ∀ e ∈ s'.applied, c ∈ e.scope → e ∈ s.applied
  marked : opens x = true → s'.mark = s.mark ∧ s.applied <+: s'.applied
  failed : c ∈ s'.failed ↔ c ∈ s.failed
  resolved : c ∈ s'.resolved ↔ c ∈ s.resolved
  rejected : c ∈ s'.rejected ↔ c ∈ s.rejected

section Spares

variable {c : Nat} {x : Option CallStage} {s s' : Ledger}

theorem Spares.pending (h : Spares c x s s') (hc : s.Pending c) : s'.Pending c :=
  ⟨mt h.failed.mp hc.1, mt h.resolved.mp hc.2.1, mt h.rejected.mp hc.2.2⟩

theorem Spares.hasFailed (h : Spares c x s s') (hc : s.HasFailed c) : s'.HasFailed c :=
  ⟨h.failed.mpr hc.1, mt h.resolved.mp hc.2.1, mt h.rejected.mp hc.2.2⟩

theorem Spares.fresh (h : Spares c x s s') (hx : ∀ stage, x = some stage → ¬ stage.Running)
    (hc : s.Fresh c) : s'.Fresh c :=
  ⟨fun e he hscope => hc.1 e (h.written hx e he hscope) hscope, h.pending hc.2⟩

theorem Spares.without (h : Spares c x s s') (hx : ∀ stage, x = some stage → ¬ stage.Running)
    (hc : s.Without c) : s'.Without c :=
  fun e he hscope => hc e (h.applied hx e he hscope) hscope

theorem Spares.mark (h : Spares c x s s') (hx : opens x = true) (hc : s.Marked c) :
    s'.Marked c := by
  obtain ⟨hmark, happlied⟩ := h.marked hx
  rw [Ledger.Marked, hmark]
  exact ⟨hc.1.trans happlied, hc.2⟩

theorem Account.frame (hc : Account s c x) (h : Spares c x s s') : Account s' c x := by
  have hidle : ∀ {stage : CallStage}, ¬ stage.Running →
      ∀ stage', some stage = some stage' → ¬ stage'.Running := by
    intro stage hstage stage' heq
    cases heq
    exact hstage
  cases x with
  | none =>
    have hnone : ∀ stage : CallStage, none = some stage → ¬ stage.Running := by simp
    refine ⟨fun hle => h.fresh hnone (hc.1 (Nat.le_trans h.calls hle)), fun hres => ?_, fun hrej => ?_,
      fun hfailed => ?_⟩
    · exact mt h.failed.mp (hc.2.1 (h.resolved.mp hres))
    · exact h.failed.mpr (hc.2.2.1 (h.rejected.mp hrej))
    · exact h.without hnone (hc.2.2.2 (h.failed.mp hfailed))
  | some stage =>
    cases stage with
    | joined => exact ⟨Nat.lt_of_lt_of_le hc.1 h.calls, h.pending hc.2⟩
    | called => exact ⟨Nat.lt_of_lt_of_le hc.1 h.calls, h.fresh (hidle (by simp [CallStage.Running])) hc.2⟩
    | queued turn =>
      exact ⟨Nat.lt_of_lt_of_le hc.1 h.calls, h.fresh (hidle (by simp [CallStage.Running])) hc.2⟩
    | opened => exact ⟨Nat.lt_of_lt_of_le hc.1 h.calls, h.pending hc.2.1, h.mark rfl hc.2.2⟩
    | failing left =>
      exact ⟨Nat.lt_of_lt_of_le hc.1 h.calls, h.hasFailed hc.2.1, h.mark rfl hc.2.2.1, hc.2.2.2⟩
    | failed =>
      exact ⟨Nat.lt_of_lt_of_le hc.1 h.calls, h.hasFailed hc.2.1,
        h.without (hidle (by simp [CallStage.Running])) hc.2.2⟩
    | committed => exact ⟨Nat.lt_of_lt_of_le hc.1 h.calls, h.pending hc.2⟩

theorem accounts_update {m : Nat → Option CallStage} (h : ∀ c', Account s c' (m c'))
    (hothers : ∀ c', c' ≠ c → Spares c' (m c') s s') (hown : Account s' c x) (c' : Nat) :
    Account s' c' (Function.update m c x c') := by
  by_cases hc : c' = c
  · rw [hc, Function.update_self]
    exact hown
  · rw [Function.update_of_ne hc]
    exact (h c').frame (hothers c' hc)

end Spares

/-! ## Runs -/

/-- What holds of the ledger as long as every body that fails does so alone. -/
structure InLedger (initial : Tables) (m : Nat → Option CallStage) (s : Ledger) : Prop where
  turns : Turns m s.store
  accounts : ∀ c, Account s c (m c)
  applied : ∀ e ∈ s.applied, e ∈ s.written
  dropped : ∀ e ∈ s.written, e ∉ s.applied → ∃ c outer, e.scope = c :: outer ∧ c ∈ s.failed
  replays : Replays initial s.applied s.store.tables
  snapshot : ∀ c, opens (m c) = true →
    ∃ tables, s.store.snapshot = some tables ∧ Replays initial s.mark tables

namespace InLedger

variable {initial : Tables} {m : Nat → Option CallStage} {s : Ledger} {c : Nat}

theorem unborn (h : InLedger initial m s) : m s.calls = none ∧ s.Fresh s.calls := by
  have hc := h.accounts s.calls
  revert hc
  cases m s.calls with
  | none => exact fun hc => ⟨rfl, hc.1 (Nat.le_refl _)⟩
  | some stage =>
    intro hc
    have hlt : s.calls < s.calls := by
      cases stage <;> exact hc.1
    exact absurd hlt (Nat.lt_irrefl _)

/-- The account of a call that is under way. -/
theorem account (h : InLedger initial m s) {stage : CallStage} (hc : m c = some stage) :
    Account s c (some stage) := hc ▸ h.accounts c

theorem running (h : InLedger initial m s) {stage : CallStage} (hc : m c = some stage)
    (hstage : stage.Running) : c < s.calls ∧ s.Pending c := by
  have haccount := h.account hc
  cases stage with
  | joined => exact haccount
  | opened => exact ⟨haccount.1, haccount.2.1⟩
  | _ => exact hstage.elim

theorem write (h : InLedger initial m s) {scope : List Nat} {tables : Tables}
    {statement : Tables → Except Failure Tables}
    (hscope : ∀ c ∈ scope, ∃ stage, m c = some stage ∧ stage.Running)
    (hstatement : statement s.store.tables = .ok tables) :
    InLedger initial m
      { s.note (.wrote scope statement) with store := s.store.setTables tables } := by
  have hidle : ∀ c, (∀ stage, m c = some stage → ¬ stage.Running) → c ∉ scope := by
    intro c hc hmem
    obtain ⟨stage, hstage, hrunning⟩ := hscope c hmem
    exact hc stage hstage hrunning
  refine ⟨⟨h.turns.le, h.turns.one, h.turns.opened, h.turns.behind, h.turns.queued,
    h.turns.distinct⟩, fun c => (h.accounts c).frame ⟨Nat.le_refl _, ?_, ?_, ?_, Iff.rfl, Iff.rfl,
    Iff.rfl⟩, ?_, ?_, .concat h.replays hstatement, h.snapshot⟩
  · intro hc e he hmem
    rcases List.mem_append.mp he with he | he
    · exact he
    · cases List.mem_singleton.mp he
      exact absurd hmem (hidle c hc)
  · intro hc e he hmem
    rcases List.mem_append.mp he with he | he
    · exact he
    · cases List.mem_singleton.mp he
      exact absurd hmem (hidle c hc)
  · exact fun _ => ⟨rfl, List.prefix_append _ _⟩
  · intro e he
    rcases List.mem_append.mp he with he | he
    · exact List.mem_append_left _ (h.applied e he)
    · exact List.mem_append_right _ he
  · intro e he hnot
    rcases List.mem_append.mp he with he | he
    · exact h.dropped e he fun happlied => hnot (List.mem_append_left _ happlied)
    · exact absurd (List.mem_append_right _ he) hnot

/-- Another stage of a call, with the same open transactions and the same turns. -/
theorem quiet (h : InLedger initial m s) {x : Option CallStage} {s' : Ledger}
    (hopens : opens x = opens (m c)) (hturn : turnOf x = turnOf (m c))
    (hothers : ∀ c', c' ≠ c → Spares c' (m c') s s') (hown : Account s' c x)
    (hstore : s'.store = s.store) (happlied : s'.applied = s.applied)
    (hmark : s'.mark = s.mark) (hwritten : s'.written = s.written)
    (hfailed : ∀ c ∈ s.failed, c ∈ s'.failed) : InLedger initial (Function.update m c x) s' := by
  refine ⟨hstore ▸ h.turns.quiet hopens hturn, accounts_update h.accounts hothers hown, ?_, ?_, ?_,
    ?_⟩
  · rw [happlied, hwritten]
    exact h.applied
  · rw [happlied, hwritten]
    intro e he hnot
    obtain ⟨c', outer, hscope, hc'⟩ := h.dropped e he hnot
    exact ⟨c', outer, hscope, hfailed c' hc'⟩
  · rw [happlied, hstore]
    exact h.replays
  · rw [hmark, hstore]
    intro c' hc'
    refine h.snapshot c' ?_
    by_cases hcc : c' = c
    · rw [hcc, Function.update_self, hopens] at hc'
      exact hcc ▸ hc'
    · rwa [Function.update_of_ne hcc] at hc'

theorem called (h : InLedger initial m s) {joins : Bool} {stage : CallStage}
    (hstage : stage = .joined ∨ stage = .called) :
    InLedger initial (Function.update m s.calls (some stage)) (s.note (.called joins)) := by
  obtain ⟨hnone, hfresh⟩ := h.unborn
  refine h.quiet ?_ ?_ (fun c' _ => ?_) ?_ rfl rfl rfl rfl fun _ h => h
  · rcases hstage with rfl | rfl <;> rw [hnone] <;> rfl
  · rcases hstage with rfl | rfl <;> rw [hnone] <;> rfl
  · exact ⟨Nat.le_succ _, fun _ _ h _ => h, fun _ _ h _ => h, fun _ => ⟨rfl, List.prefix_rfl⟩,
      Iff.rfl, Iff.rfl, Iff.rfl⟩
  · rcases hstage with rfl | rfl
    · exact ⟨Nat.lt_succ_self _, hfresh.2⟩
    · exact ⟨Nat.lt_succ_self _, hfresh⟩

theorem enqueue (h : InLedger initial m s) (hc : m c = some .called) :
    InLedger initial (Function.update m c (some (.queued s.store.queued)))
      { s with store := s.store.enqueue } := by
  refine ⟨h.turns.enqueue hc, accounts_update h.accounts (fun c' _ => ?_) (h.account hc),
    h.applied, h.dropped, h.replays, fun c' hc' => ?_⟩
  · exact ⟨Nat.le_refl _, fun _ _ h _ => h, fun _ _ h _ => h, fun _ => ⟨rfl, List.prefix_rfl⟩,
      Iff.rfl, Iff.rfl, Iff.rfl⟩
  · exact h.snapshot c' (Turns.opens_of_update (by rfl) hc').2

theorem begin (h : InLedger initial m s) {turn : Nat} (hc : m c = some (.queued turn))
    (hturn : s.store.committed + s.store.rolledBack = turn) :
    InLedger initial (Function.update m c (some .opened))
      { s with store := s.store.begin, mark := s.applied } := by
  have hnone := h.turns.not_opens (h.turns.depth_eq_zero hc hturn)
  obtain ⟨hlt, hfresh⟩ := h.account hc
  refine ⟨h.turns.begin hc hturn, accounts_update h.accounts (fun c' _ => ?_) ?_,
    h.applied, h.dropped, h.replays, fun _ _ => ⟨_, rfl, h.replays⟩⟩
  · refine ⟨Nat.le_refl _, fun _ _ h _ => h, fun _ _ h _ => h, fun hopens => ?_,
      Iff.rfl, Iff.rfl, Iff.rfl⟩
    rw [hnone] at hopens
    cases hopens
  · exact ⟨hlt, hfresh.2, List.prefix_rfl, fun e he => hfresh.1 e (h.applied e he)⟩

theorem commit (h : InLedger initial m s) (hc : m c = some .opened) :
    InLedger initial (Function.update m c (some .committed))
      { s with store := s.store.commit } := by
  have hopens : opens (m c) = true := by
    rw [hc]
    rfl
  obtain ⟨hlt, hpending, -⟩ := h.account hc
  have hturns : Turns (Function.update m c (some .committed)) s.store.commit := by
    refine h.turns.close hopens (by rfl) (by rfl) (by rfl) ?_ (by rfl)
    simp only [Store.commit]
    omega
  refine ⟨hturns, accounts_update h.accounts (fun c' _ => ?_) ⟨hlt, hpending⟩, h.applied,
    h.dropped, h.replays, fun c' hc' => ?_⟩
  · exact ⟨Nat.le_refl _, fun _ _ h _ => h, fun _ _ h _ => h, fun _ => ⟨rfl, List.prefix_rfl⟩,
      Iff.rfl, Iff.rfl, Iff.rfl⟩
  · obtain ⟨hne, hc'⟩ := Turns.opens_of_update (by rfl) hc'
    exact absurd (h.turns.one c' c hc' hopens) hne

theorem rollback (h : InLedger initial m s) (hc : m c = some (.failing s)) :
    InLedger initial (Function.update m c (some .failed))
      { s with store := s.store.rollback, applied := s.mark } := by
  have hopens : opens (m c) = true := by
    rw [hc]
    rfl
  obtain ⟨hlt, hfailed, hmarked, hown⟩ := h.account hc
  have hturns : Turns (Function.update m c (some .failed)) s.store.rollback := by
    refine h.turns.close hopens (by rfl) (by rfl) (by rfl) ?_ (by rfl)
    simp only [Store.rollback]
    omega
  refine ⟨hturns, accounts_update h.accounts (fun c' hne => ?_)
    ⟨hlt, hfailed, hmarked.2⟩, fun e he => h.applied e (hmarked.1.subset he), fun e he hnot => ?_, ?_, fun c' hc' => ?_⟩
  · refine ⟨Nat.le_refl _, fun _ _ h _ => h, fun _ e he _ => hmarked.1.subset he, fun hc' => ?_,
      Iff.rfl, Iff.rfl, Iff.rfl⟩
    exact absurd (h.turns.one c' c hc' hopens) hne
  · by_cases happlied : e ∈ s.applied
    · have hsince := (Ledger.mem_mark_or_drop hmarked.1 happlied).resolve_left hnot
      obtain ⟨outer, hscope⟩ := List.head?_eq_some_iff.mp (hown e hsince)
      exact ⟨c, outer, hscope, hfailed.1⟩
    · exact h.dropped e he happlied
  · obtain ⟨tables, hsnapshot, hreplays⟩ := h.snapshot c hopens
    simp only [Store.rollback, hsnapshot, Option.getD_some]
    exact hreplays
  · obtain ⟨hne, hc'⟩ := Turns.opens_of_update (by rfl) hc'
    exact absurd (h.turns.one c' c hc' hopens) hne

/-- An event about one call says nothing of the others. -/
theorem spares_failed {c' : Nat} (hne : c' ≠ c) (joined : Bool) :
    Spares c' (m c') s (s.note (.failed c joined)) :=
  ⟨Nat.le_refl _, fun _ _ h _ => h, fun _ _ h _ => h, fun _ => ⟨rfl, List.prefix_rfl⟩,
    by simp [Ledger.note, hne], Iff.rfl, Iff.rfl⟩

theorem failed {joined : Bool} (h : InLedger initial m s) {stage : CallStage}
    (hc : m c = some stage) (hstage : stage.Running) {stage' : CallStage}
    (hopens : stage'.isOpen = stage.isOpen) (hturn : stage'.turn = stage.turn)
    (hown : (s.note (.failed c joined)).HasFailed c →
      Account (s.note (.failed c joined)) c (some stage')) :
    InLedger initial (Function.update m c (some stage')) (s.note (.failed c joined)) := by
  obtain ⟨-, hpending⟩ := h.running hc hstage
  refine h.quiet ?_ ?_ (fun c' hne => spares_failed hne joined) (hown ?_) rfl rfl rfl rfl
    fun _ h => List.mem_append_left _ h
  · rw [hc]
    exact hopens
  · rw [hc]
    exact hturn
  · exact ⟨by simp [Ledger.note], hpending.2⟩

theorem failJoined (h : InLedger initial m s) (hc : m c = some .joined) (halone : s.Without c) :
    InLedger initial (Function.update m c (some .failed)) (s.note (.failed c true)) := by
  obtain ⟨hlt, -⟩ := h.account hc
  exact h.failed hc trivial (by rfl) (by rfl) fun hfailed => ⟨hlt, hfailed, halone⟩

theorem fail (h : InLedger initial m s) (hc : m c = some .opened) (halone : s.UndoesOwn c) :
    InLedger initial (Function.update m c (some (.failing (s.note (.failed c false)))))
      (s.note (.failed c false)) := by
  obtain ⟨hlt, -, hmarked⟩ := h.account hc
  exact h.failed hc trivial (by rfl) (by rfl) fun hfailed => ⟨hlt, hfailed, hmarked, halone⟩

theorem resolve (h : InLedger initial m s) {stage : CallStage} (hc : m c = some stage)
    (hstage : stage = .joined ∨ stage = .committed) :
    InLedger initial (Function.update m c none) (s.note (.resolved c)) := by
  have haccount : c < s.calls ∧ s.Pending c := by
    rcases hstage with rfl | rfl
    · exact h.account hc
    · exact h.account hc
  obtain ⟨hlt, hpending⟩ := haccount
  refine h.quiet ?_ ?_ (fun c' hne => ?_) ?_ rfl rfl rfl rfl fun _ h => h
  · rcases hstage with rfl | rfl <;> rw [hc] <;> rfl
  · rcases hstage with rfl | rfl <;> rw [hc] <;> rfl
  · exact ⟨Nat.le_refl _, fun _ _ h _ => h, fun _ _ h _ => h, fun _ => ⟨rfl, List.prefix_rfl⟩,
      Iff.rfl, by simp [Ledger.note, hne], Iff.rfl⟩
  · exact ⟨fun hle => absurd hlt (Nat.not_lt_of_le hle), fun _ => hpending.1,
      fun hrej => absurd hrej hpending.2.2, fun hfailed => absurd hfailed hpending.1⟩

theorem reject (h : InLedger initial m s) (hc : m c = some .failed) :
    InLedger initial (Function.update m c none) (s.note (.rejected c)) := by
  obtain ⟨hlt, hfailed, hwithout⟩ := h.account hc
  refine h.quiet ?_ ?_ (fun c' hne => ?_) ?_ rfl rfl rfl rfl fun _ h => h
  · rw [hc]
    rfl
  · rw [hc]
    rfl
  · exact ⟨Nat.le_refl _, fun _ _ h _ => h, fun _ _ h _ => h, fun _ => ⟨rfl, List.prefix_rfl⟩,
      Iff.rfl, Iff.rfl, by simp [Ledger.note, hne]⟩
  · exact ⟨fun hle => absurd hlt (Nat.not_lt_of_le hle), fun hres => absurd hres hfailed.2.1,
      fun _ => hfailed.1, fun _ => hwithout⟩

/-- What one step of a program keeps, whatever calls the others are in. -/
theorem step (h : InLedger initial m s) {g g' others : List CallFrame} {events : List LedgerEvent}
    {s' : Ledger} (hm : Tracks m (g ++ others)) (hstep : Transacts g s events s' g')
    (halone : ∀ e ∈ events, e.Alone s) :
    ∃ m', Tracks m' (g' ++ others) ∧ InLedger initial m' s' := by
  have hhead : ∀ {f : CallFrame} {rest : List CallFrame}, Tracks m (f :: rest) →
      m f.call = some f.stage := fun hm => hm.stages _ List.mem_cons_self
  cases hstep with
  | idle => exact ⟨m, hm, h⟩
  | write hg hstatement =>
    refine ⟨m, hm, h.write (fun c hc => ?_) hstatement⟩
    obtain ⟨f, hf, rfl⟩ := List.mem_map.mp hc
    exact ⟨f.stage, hm.stages f (List.mem_append_left _ hf), hg f hf⟩
  | join => exact ⟨_, hm.push h.unborn.1 .joined, h.called (.inl rfl)⟩
  | call => exact ⟨_, hm.push h.unborn.1 .called, h.called (.inr rfl)⟩
  | enqueue => exact ⟨_, hm.change _, h.enqueue (hhead hm)⟩
  | begin hturn => exact ⟨_, hm.change _, h.begin (hhead hm) hturn⟩
  | commit => exact ⟨_, hm.change _, h.commit (hhead hm)⟩
  | failJoined => exact ⟨_, hm.change _, h.failJoined (hhead hm) (halone (.failed _ true) List.mem_cons_self)⟩
  | fail => exact ⟨_, hm.change _, h.fail (hhead hm) (halone (.failed _ false) List.mem_cons_self)⟩
  | rollback => exact ⟨_, hm.change _, h.rollback (hhead hm)⟩
  | resolve hstage => exact ⟨_, hm.tail none, h.resolve (hhead hm) hstage⟩
  | reject => exact ⟨_, hm.tail none, h.reject (hhead hm)⟩

theorem initially (store : Store) (hdepth : store.depth = 0)
    (hqueued : store.queued = store.committed + store.rolledBack) :
    InLedger store.tables (fun _ => none) (.of store) := by
  refine ⟨⟨by simp [Ledger.of, hdepth], ?_, ?_, by simp [Ledger.of, hdepth, hqueued], ?_, ?_⟩, ?_,
    ?_, ?_, .nil, ?_⟩
  · exact fun _ _ h => by cases h
  · exact fun _ h => by cases h
  · exact fun _ _ h => by cases h
  · exact fun _ _ _ h => by cases h
  · intro c
    simp [Account, Ledger.Fresh, Ledger.Pending, Ledger.Without, Ledger.of]
  · simp [Ledger.of]
  · simp [Ledger.of]
  · exact fun _ h => by cases h

/-- The ledger is as it should be. -/
theorem atomic (h : InLedger initial m s) : s.Atomic initial := by
  have hhead : ∀ e ∈ s.written, ∀ c outer, e.scope = c :: outer → c ∉ s.failed → e ∈ s.applied := by
    intro e he c outer hscope hc
    by_contra hnot
    obtain ⟨c', outer', hscope', hc'⟩ := h.dropped e he hnot
    rw [hscope] at hscope'
    exact hc ((List.cons.inj hscope').1 ▸ hc')
  have hnone : ∀ c, (c ∈ s.resolved ∨ c ∈ s.rejected) → m c = none := by
    intro c hc
    have haccount := h.accounts c
    by_contra hsome
    obtain ⟨stage, hstage⟩ := Option.ne_none_iff_exists'.mp hsome
    rw [hstage] at haccount
    have hnot : c ∉ s.resolved ∧ c ∉ s.rejected := by
      cases stage with
      | called => exact haccount.2.2.2
      | queued turn => exact haccount.2.2.2
      | joined => exact haccount.2.2
      | committed => exact haccount.2.2
      | opened => exact haccount.2.1.2
      | failing left => exact haccount.2.1.2
      | failed => exact haccount.2.1.2
    exact hc.elim hnot.1 hnot.2
  have hended : ∀ c, (c ∈ s.resolved ∨ c ∈ s.rejected) → Account s c none :=
    fun c hc => hnone c hc ▸ h.accounts c
  refine ⟨h.replays, fun c hc e he hwritten => ?_, fun c hc e he => ?_, fun e he hscope => ?_⟩
  · obtain ⟨inner, outer, hscope, hinner⟩ := hwritten
    cases inner with
    | nil => exact hhead e he c outer hscope ((hended c (.inl hc)).2.1 hc)
    | cons c' inner =>
      have hc' := hinner c' List.mem_cons_self
      exact hhead e he c' _ hscope ((hended c' (.inl hc')).2.1 hc')
  · have haccount := hended c (.inr hc)
    exact haccount.2.2.2 (haccount.2.2.1 hc) e he
  · by_contra hnot
    obtain ⟨c, outer, hscope', -⟩ := h.dropped e he hnot
    rw [hscope] at hscope'
    cases hscope'

end InLedger

/-- What a pool of callers keeps. -/
def Kept (initial : Tables) (states : List (List CallFrame)) (s : Ledger)
    (log : List (Ledger × LedgerEvent)) : Prop :=
  (∀ x ∈ log, x.2.Alone x.1) → ∃ m, Tracks m states.flatten ∧ InLedger initial m s

theorem Kept.step {initial : Tables} {states : List (List CallFrame)} {g g' : List CallFrame}
    {s s' : Ledger} {log : List (Ledger × LedgerEvent)} {events : List LedgerEvent}
    (h : Kept initial (g :: states) s log) (hstep : Transacts g s events s' g') :
    Kept initial (g' :: states) s' (log ++ events.map (s, ·)) := by
  intro halone
  obtain ⟨m, hm, hkeeps⟩ := h fun x hx => halone x (List.mem_append_left _ hx)
  exact hkeeps.step hm hstep fun e he =>
    halone (s, e) (List.mem_append_right _ (List.mem_map.mpr ⟨e, he, rfl⟩))

/-- Whatever calls of `transaction` overlap and whatever is written outside of them, transactions
are all or nothing, as long as the body of a call that opened one fails only when everything
written since was written by that body itself, and the body of a call that joined one only when it
has written nothing. -/
theorem atomic_of_alone (store : Store) (hdepth : store.depth = 0)
    (hqueued : store.queued = store.committed + store.rolledBack) (moves : List (Move Script))
    (w : Pool Ledger LedgerEvent Failure) (log : List (Ledger × LedgerEvent))
    (h : (⟨.of store, []⟩ : Pool Ledger LedgerEvent Failure).record callers moves = some (w, log))
    (halone : ∀ x ∈ log, x.2.Alone x.1) : w.state.Atomic store.tables := by
  have hstart : (⟨.of store, []⟩ : Pool Ledger LedgerEvent Failure).Follows Transacts
      (Kept store.tables) [] [] := by
    refine ⟨fun _ => ⟨fun _ => none, ⟨List.nodup_nil, by simp⟩, .initially store hdepth hqueued⟩,
      rfl, by simp⟩
  have hcaller : ∀ states script s log p, Kept store.tables states s log →
      callers script s = some p → ∃ g, Kept store.tables (g :: states) s log ∧
        Follows Transacts (fun _ _ _ => True) (fun _ _ => True) p g s := by
    intro states script s log p hkept hp
    cases hp
    exact ⟨[], hkept, (follows_run script [] s (by simp)).mono (by simp) (by simp)⟩
  have hperm : ∀ states states' s log, states.Perm states' → Kept store.tables states s log →
      Kept store.tables states' s log := by
    intro states states' s log hperm hkept hlog
    obtain ⟨m, hm, hkeeps⟩ := hkept hlog
    exact ⟨m, hm.perm hperm.flatten, hkeeps⟩
  obtain ⟨states, -, hkept⟩ := hstart.record_perm hperm (fun _ _ _ _ _ _ _ => Kept.step) hcaller h
  obtain ⟨m, -, hkeeps⟩ := hkept halone
  exact hkeeps.atomic

/-- The bodies of two calls overlap in the queue, and the first fails. -/
theorem atomic_of_alone_queued : ∃ moves w log,
    (⟨.of .empty, []⟩ : Pool Ledger LedgerEvent Failure).record callers moves = some (w, log) ∧
      w.state.rejected = [0] ∧ w.state.resolved = [1] ∧ w.state.Atomic .empty := by
  let body (key : String) (next : Script) : Script :=
    .transaction (.write (fun tables => .ok (tables.saveSetting key "on")) fun _ => next)
      fun _ => .done
  let moves : List (Move Script) :=
    [.start (body "first" (.fail (.sql "disk"))), .start (body "second" .done), .resume 0,
      .resume 0, .resume 0, .resume 0, .resume 1, .resume 1, .resume 1, .resume 1]
  have hrun : (((⟨.of .empty, []⟩ : Pool Ledger LedgerEvent Failure).record callers moves).map
      fun (w, log) => (w.state.rejected, w.state.resolved,
        decide (∀ x ∈ log, x.2.Alone x.1))) = some ([0], [1], true) := by
    decide +kernel
  obtain ⟨⟨w, log⟩, hrecord, hends⟩ := Option.map_eq_some_iff.mp hrun
  simp only [Prod.mk.injEq, decide_eq_true_eq] at hends
  obtain ⟨hrejected, hresolved, halone⟩ := hends
  exact ⟨moves, w, log, hrecord, hrejected, hresolved,
    atomic_of_alone .empty (by rfl) (by rfl) moves w log hrecord halone⟩

/-- A call finds the transaction of another caller open and joins it. It resolves, and the body of
the other fails. -/
theorem joined_undone : ∃ moves w log,
    (⟨.of .empty, []⟩ : Pool Ledger LedgerEvent Failure).record callers moves = some (w, log) ∧
      ¬ w.state.Atomic .empty := by
  let body (key : String) (next : Script) : Script :=
    .transaction (.write (fun tables => .ok (tables.saveSetting key "on")) fun _ => next)
      fun _ => .done
  let moves : List (Move Script) :=
    [.start (body "first" (.fail (.sql "disk"))), .resume 0, .start (body "second" .done),
      .resume 1, .resume 1, .resume 0, .resume 0]
  have hrun : (((⟨.of .empty, []⟩ : Pool Ledger LedgerEvent Failure).record callers moves).map
      fun (w, _) => (w.state.resolved, w.state.written.map (·.scope), w.state.applied.length)) =
        some ([1], [[0], [1]], 0) := by
    decide +kernel
  obtain ⟨⟨w, log⟩, hrecord, hends⟩ := Option.map_eq_some_iff.mp hrun
  simp only [Prod.mk.injEq] at hends
  obtain ⟨hresolved, hwritten, happlied⟩ := hends
  refine ⟨moves, w, log, hrecord, fun hatomic => ?_⟩
  have hscope : [1] ∈ w.state.written.map (·.scope) := by simp [hwritten]
  obtain ⟨e, he, hscope⟩ := List.mem_map.mp hscope
  have hmem := hatomic.resolved 1 (by simp [hresolved]) e he ⟨[], [], hscope, by simp⟩
  rw [List.length_eq_zero_iff.mp happlied] at hmem
  cases hmem

end PassVault
