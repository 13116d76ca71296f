import Mathlib.Data.List.Perm.Basic
import PassVault.Lib.Async

/-!
# Runs of a pool and what they record

The events of a whole run in order, programs whose accesses follow an automaton, and programs that
behave alike on two states.
-/

namespace Async

variable {σ ε φ κ γ α β : Type}

/-- Make a list of moves, and keep the events they report. -/
def Pool.record (system : System σ ε φ κ) :
    List (Move κ) → Pool σ ε φ → Option (Pool σ ε φ × List (σ × ε))
  | [], w => some (w, [])
  | move :: rest, w =>
    (w.step system move).bind fun (w', trace) =>
      (w'.record system rest).map fun (w'', later) => (w'', trace ++ later)

theorem Pool.record_cons {system : System σ ε φ κ} {move : Move κ} {rest : List (Move κ)}
    {w w'' : Pool σ ε φ} {log : List (σ × ε)} :
    w.record system (move :: rest) = some (w'', log) ↔
      ∃ w' trace later, w.step system move = some (w', trace) ∧
        w'.record system rest = some (w'', later) ∧ log = trace ++ later := by
  rw [Pool.record, Option.bind_eq_some_iff]
  constructor
  · rintro ⟨⟨w', trace⟩, hstep, hrest⟩
    obtain ⟨⟨u, later⟩, hlater, heq⟩ := Option.map_eq_some_iff.mp hrest
    cases heq
    exact ⟨w', trace, later, hstep, hlater, rfl⟩
  · rintro ⟨w', trace, later, hstep, hlater, rfl⟩
    exact ⟨(w', trace), hstep, by simp [hlater]⟩

/-- What every step preserves of a pool and the events so far, a run does. -/
theorem Pool.record_keeps {system : System σ ε φ κ} {P : Pool σ ε φ → List (σ × ε) → Prop}
    (hstep : ∀ w w' move trace log, P w log → w.step system move = some (w', trace) →
      P w' (log ++ trace))
    {moves : List (Move κ)} {w w' : Pool σ ε φ} {later : List (σ × ε)}
    (h : w.record system moves = some (w', later)) (log : List (σ × ε)) (hw : P w log) :
    P w' (log ++ later) := by
  induction moves generalizing w log later with
  | nil =>
    cases h
    rwa [List.append_nil]
  | cons move rest ih =>
    obtain ⟨v, trace, later', hmove, hrest, rfl⟩ := Pool.record_cons.mp h
    rw [← List.append_assoc]
    exact ih hrest _ (hstep _ _ _ _ _ hw hmove)

/-- What a record shows is reached. -/
theorem Reach.record {system : System σ ε φ κ} {init : Pool σ ε φ → Prop} {moves : List (Move κ)}
    {w w' : Pool σ ε φ} {log : List (σ × ε)} (h : Reach system init (fun _ _ => True) w)
    (hrecord : w.record system moves = some (w', log)) :
    Reach system init (fun _ _ => True) w' := by
  refine Pool.record_keeps (P := fun w _ => Reach system init (fun _ _ => True) w) ?_ hrecord
    [] h
  exact fun _ _ _ _ _ hw hstep => hw.step hstep fun _ _ => trivial

/-- From one state to another the program runs to its outcome; while it waits, others may change
the state as `rely` allows. -/
inductive Interleaved (rely : σ → σ → Prop) : Async σ ε φ α → σ → Except φ α → σ → Prop where
  | done (a : α) (s : σ) : Interleaved rely (done a) s (.ok a) s
  | fail (e : φ) (s : σ) : Interleaved rely (fail e) s (.error e) s
  | act {f : σ → σ × List ε} {next : σ → Async σ ε φ α} {s t : σ} {r : Except φ α}
      (h : Interleaved rely (next s) (f s).1 r t) : Interleaved rely (act f next) s r t
  | await {ready : σ → Bool} {next : Async σ ε φ α} {s t u : σ} {r : Except φ α}
      (hrely : rely s t) (hready : ready t = true) (h : Interleaved rely next t r u) :
      Interleaved rely (await ready next) s r u

theorem Interleaved.of_run {rely : σ → σ → Prop} (hrefl : ∀ s, rely s s) {p : Async σ ε φ α}
    {s t : σ} {r : Except φ α} {trace : List (σ × ε)} (h : p.run s = some (r, t, trace)) :
    Interleaved rely p s r t := by
  induction p generalizing s trace with
  | done a =>
    cases h
    exact .done a _
  | fail e =>
    cases h
    exact .fail e _
  | act f next ih =>
    obtain ⟨⟨r', t', trace'⟩, hrest, heq⟩ := Option.map_eq_some_iff.mp h
    cases heq
    exact .act (ih s hrest)
  | await ready next ih =>
    rw [run] at h
    split at h
    · rename_i hready
      exact .await (hrefl s) hready (ih h)
    · cases h

/-- What a safe program promises of its outcome, an interleaved run of it keeps. -/
theorem Safe.interleaved {c : Contract σ ε} {post : α → σ → Prop} {exc : φ → σ → Prop}
    (hinv : ∀ s, c.inv s) (hcond : ∀ s e, c.cond s e) (hgiven : ∀ s t, c.given s t)
    {p : Async σ ε φ α} {s t : σ} {r : Except φ α} (hrun : Interleaved c.rely p s r t)
    (h : Safe c post exc p s) :
    (∀ a, r = .ok a → post a t) ∧ ∀ e, r = .error e → exc e t := by
  induction hrun with
  | done a s => exact ⟨fun _ heq => Except.ok.inj heq ▸ h, nofun⟩
  | fail e s => exact ⟨nofun, fun _ heq => Except.error.inj heq ▸ h⟩
  | act _ ih => exact ih ((h fun e _ => hcond _ e).2 (hgiven _ _)).2.2
  | await hrely hready _ ih => exact ih ((h _ hrely (hinv _)).2 hready)

/-- Every event of a log has its reason in what was recorded before it. -/
def Justified (reason : ε → List ε → Prop) (log : List ε) : Prop :=
  ∀ before e after, log = before ++ e :: after → reason e before

theorem Justified.append {reason : ε → List ε → Prop} {log events : List ε}
    (hmono : ∀ e before later, reason e before → reason e (before ++ later))
    (h : Justified reason log) (hevents : ∀ e ∈ events, reason e log) :
    Justified reason (log ++ events) := by
  intro before e after hsplit
  rcases List.append_eq_append_iff.mp hsplit with ⟨between, rfl, hrest⟩ | ⟨between, hlog, hrest⟩
  · exact hmono e log between (hevents e (by simp [hrest]))
  · cases between with
    | nil =>
      rw [List.append_nil] at hlog
      have hmem : e ∈ events := by
        rw [← List.nil_append events, ← hrest]
        exact List.mem_cons_self
      exact hlog ▸ hevents e hmem
    | cons e' rest =>
      obtain ⟨rfl, -⟩ := List.cons.inj hrest
      exact h before e rest hlog

/-- Only the first of a list can be what its tail is not. -/
theorem head_of_tail {l : List γ} {P : γ → Prop} (h : ∀ g ∈ l.tail, P g) {i : Nat} {g : γ}
    (hi : l[i]? = some g) (hg : ¬ P g) : i = 0 ∧ ∃ rest, l = g :: rest := by
  cases l with
  | nil => cases hi
  | cons first rest =>
    cases i with
    | zero =>
      cases hi
      exact ⟨rfl, rest, rfl⟩
    | succ i => exact (hg (h g (List.mem_of_getElem? hi))).elim

/-! ## Programs that follow an automaton -/

/-- Started in the state, the program only makes accesses that are steps of an automaton, which
meets `post` when the program returns and `onFail` when it throws. -/
def Follows (next : γ → σ → List ε → σ → γ → Prop) (post : γ → σ → α → Prop)
    (onFail : γ → σ → Prop) : Async σ ε φ α → γ → σ → Prop
  | done a, g, s => post g s a
  | fail _, g, s => onFail g s
  | act f k, g, s =>
    ∃ g', next g s (f s).2 (f s).1 g' ∧ Follows next post onFail (k s) g' (f s).1
  | await ready k, g, _ => ∀ s, ready s = true → Follows next post onFail k g s

section Follows

variable {next : γ → σ → List ε → σ → γ → Prop} {onFail : γ → σ → Prop}

theorem Follows.bind {Q : γ → σ → α → Prop} {post' : γ → σ → β → Prop}
    {k : α → Async σ ε φ β}
    (hk : ∀ g s a, Q g s a → Follows next post' onFail (k a) g s) :
    ∀ {p : Async σ ε φ α} {g : γ} {s : σ}, Follows next Q onFail p g s →
      Follows next post' onFail (p >>= k) g s := by
  intro p
  induction p with
  | done a => exact fun h => hk _ _ a h
  | fail e => exact fun h => h
  | act f k' ih =>
    intro g s h
    obtain ⟨g', hnext, hrest⟩ := h
    exact ⟨g', hnext, ih s hrest⟩
  | await ready k' ih => exact fun h t ht => ih (h t ht)

/-- Sequencing, where the first half ends where the second half follows the automaton. -/
theorem Follows.seq {post' : γ → σ → β → Prop} {k : α → Async σ ε φ β} {p : Async σ ε φ α} {g : γ}
    {s : σ} (h : Follows next (fun g s a => Follows next post' onFail (k a) g s) onFail p g s) :
    Follows next post' onFail (p >>= k) g s :=
  Follows.bind (fun _ _ _ hk => hk) h

theorem Follows.attempt {Q : γ → σ → α → Prop} {post' : γ → σ → Except φ α → Prop}
    {F G : γ → σ → Prop} (hpost : ∀ g s a, Q g s a → post' g s (.ok a))
    (hfail : ∀ g s e, G g s → post' g s (.error e)) :
    ∀ {p : Async σ ε φ α} {g : γ} {s : σ}, Follows next Q G p g s →
      Follows next post' F p.attempt g s := by
  intro p
  induction p with
  | done a => exact fun h => hpost _ _ a h
  | fail e => exact fun h => hfail _ _ e h
  | act f k ih =>
    intro g s h
    obtain ⟨g', hnext, hrest⟩ := h
    exact ⟨g', hnext, ih s hrest⟩
  | await ready k ih => exact fun h t ht => ih (h t ht)

theorem Follows.tryCatch {Q : γ → σ → α → Prop} {F : γ → σ → Prop}
    {k : φ → Async σ ε φ α} (hk : ∀ g s e, F g s → Follows next Q onFail (k e) g s) :
    ∀ {p : Async σ ε φ α} {g : γ} {s : σ}, Follows next Q F p g s →
      Follows next Q onFail (p.tryCatch k) g s := by
  intro p
  induction p with
  | done a => exact fun h => h
  | fail e => exact fun h => hk _ _ e h
  | act f k' ih =>
    intro g s h
    obtain ⟨g', hnext, hrest⟩ := h
    exact ⟨g', hnext, ih s hrest⟩
  | await ready k' ih => exact fun h t ht => ih (h t ht)

theorem Follows.mono {post post' : γ → σ → α → Prop} {onFail' : γ → σ → Prop}
    (hpost : ∀ g s a, post g s a → post' g s a) (hfail : ∀ g s, onFail g s → onFail' g s) :
    ∀ {p : Async σ ε φ α} {g : γ} {s : σ}, Follows next post onFail p g s →
      Follows next post' onFail' p g s := by
  intro p
  induction p with
  | done a => exact fun h => hpost _ _ a h
  | fail e => exact fun h => hfail _ _ h
  | act f k ih =>
    intro g s h
    obtain ⟨g', hnext, hrest⟩ := h
    exact ⟨g', hnext, ih s hrest⟩
  | await ready k ih => exact fun h t ht => ih (h t ht)

theorem Follows.ofExcept {post : γ → σ → α → Prop} {g : γ} {s : σ} {result : Except φ α}
    (hok : ∀ a, result = .ok a → post g s a) (herror : ∀ e, result = .error e → onFail g s) :
    Follows next post onFail (ofExcept result : Async σ ε φ α) g s := by
  cases result with
  | ok a => exact hok a rfl
  | error e => exact herror e rfl

/-- A program all of whose accesses leave the automaton where it is. -/
theorem Within.follows {access : σ → List ε → σ → Prop} {g : γ}
    (h : ∀ s events t, access s events t → next g s events t g) {post : γ → σ → α → Prop}
    (hpost : ∀ s a, post g s a) (hfail : ∀ s, onFail g s) :
    ∀ {p : Async σ ε φ α} {s : σ}, Within access p → Follows next post onFail p g s := by
  intro p
  induction p with
  | done a => exact fun _ => hpost _ a
  | fail e => exact fun _ => hfail _
  | act f k ih => exact fun {s} hp => ⟨g, h _ _ _ (hp s).1, ih s (hp s).2⟩
  | await ready k ih => exact fun hp _ _ => ih hp

/-- Wherever the program is interrupted it goes on as it should. -/
abbrev Parks (next : γ → σ → List ε → σ → γ → Prop) (p : Async σ ε φ Unit) (g : γ) : Prop :=
  ∀ s, Follows next (fun _ _ _ => True) (fun _ _ => True) p g s

/-- Run up to its next `await`, a program keeps what each of its steps keeps. -/
theorem Follows.advance {P : γ → σ → List (σ × ε) → Prop}
    (hP : ∀ g s log events t g', P g s log → next g s events t g' →
      P g' t (log ++ events.map (s, ·))) :
    ∀ {p q : Async σ ε φ Unit} {g : γ} {s t : σ} {log trace : List (σ × ε)},
      Follows next (fun _ _ _ => True) (fun _ _ => True) p g s → p.advance s = (q, t, trace) →
      P g s log → ∃ g', Parks next q g' ∧ P g' t (log ++ trace) := by
  intro p
  induction p with
  | done a =>
    intro q g s t log trace h hrun hs
    cases hrun
    exact ⟨g, fun _ => trivial, by rwa [List.append_nil]⟩
  | fail e =>
    intro q g s t log trace h hrun hs
    cases hrun
    exact ⟨g, fun _ => trivial, by rwa [List.append_nil]⟩
  | act f k ih =>
    intro q g s t log trace h hrun hs
    rw [Async.advance] at hrun
    cases hnext : (k s).advance (f s).1 with
    | mk p' rest =>
      rw [hnext] at hrun
      cases hrun
      obtain ⟨g', hstep, hrest⟩ := h
      rw [← List.append_assoc]
      exact ih s hrest hnext (hP _ _ _ _ _ _ hs hstep)
  | await ready k ih =>
    intro q g s t log trace h hrun hs
    cases hrun
    exact ⟨g, fun _ => h, by rwa [List.append_nil]⟩

/-- The programs of a pool each follow the automaton, from where `states` says they are. -/
structure Pool.Follows (next : γ → σ → List ε → σ → γ → Prop)
    (P : List γ → σ → List (σ × ε) → Prop) (states : List γ) (w : Pool σ ε φ)
    (log : List (σ × ε)) : Prop where
  holds : P states w.state log
  length : states.length = w.tasks.length
  tasks : ∀ (i : Nat) p g, w.tasks[i]? = some p → states[i]? = some g → Parks next p g

variable {P : List γ → σ → List (σ × ε) → Prop}

theorem Pool.Follows.step {system : System σ ε φ κ}
    (hP : ∀ states (i : Nat) g s log events t g', states[i]? = some g → P states s log →
      next g s events t g' → P (states.set i g') t (log ++ events.map (s, ·)))
    (hsystem : ∀ states command s log p, P states s log → system command s = some p →
      ∃ g, P (states ++ [g]) s log ∧
        Async.Follows next (fun _ _ _ => True) (fun _ _ => True) p g s)
    {states : List γ} {w w' : Pool σ ε φ} {move : Move κ} {log trace : List (σ × ε)}
    (hw : w.Follows next P states log) (hstep : w.step system move = some (w', trace)) :
    ∃ states', w'.Follows next P states' (log ++ trace) := by
  cases move with
  | start command =>
    rw [Pool.step] at hstep
    split at hstep
    · cases hstep
    · rename_i p hp
      split at hstep
      rename_i q t trace' hrun
      cases hstep
      obtain ⟨g, hs, hfollows⟩ := hsystem _ _ _ _ _ hw.holds hp
      have hnew : ∀ g s log events t g', P (states ++ [g]) s log → next g s events t g' →
          P (states ++ [g']) t (log ++ events.map (s, ·)) := by
        intro g s log events t g' hs hstep
        have h := hP _ states.length g s log events t g' (by simp) hs hstep
        rwa [List.set_append_right _ _ (Nat.le_refl _), Nat.sub_self, List.set_cons_zero] at h
      obtain ⟨g', hq, ht⟩ := hfollows.advance (P := fun g => P (states ++ [g])) hnew hrun hs
      refine ⟨states ++ [g'], ht, by simp [hw.length], fun i p' g'' hi hg => ?_⟩
      rcases Nat.lt_or_ge i w.tasks.length with hlt | hge
      · rw [List.getElem?_append_left hlt] at hi
        rw [List.getElem?_append_left (hw.length ▸ hlt)] at hg
        exact hw.tasks i p' g'' hi hg
      · rw [List.getElem?_append_right hge, List.getElem?_singleton] at hi
        rw [List.getElem?_append_right (hw.length ▸ hge), List.getElem?_singleton] at hg
        split at hi
        · cases hi
          split at hg
          · cases hg
            exact hq
          · cases hg
        · cases hi
  | resume task =>
    rw [Pool.step] at hstep
    split at hstep
    · rename_i ready k htask
      split at hstep
      · rename_i hready
        split at hstep
        rename_i q t trace' hrun
        cases hstep
        obtain ⟨hlt, -⟩ := List.getElem?_eq_some_iff.mp htask
        have hlt' : task < states.length := hw.length ▸ hlt
        have hg : states[task]? = some states[task] := List.getElem?_eq_getElem hlt'
        have hset : ∀ g s log events t g', P (states.set task g) s log → next g s events t g' →
            P (states.set task g') t (log ++ events.map (s, ·)) := by
          intro g s log events t g' hs hstep
          have h := hP _ task g s log events t g' (by simp [hlt']) hs hstep
          rwa [List.set_set] at h
        have hnow : P (states.set task states[task]) w.state log := by
          rw [List.set_getElem_self]
          exact hw.holds
        obtain ⟨g', hq, ht⟩ := (hw.tasks task _ _ htask hg w.state _ hready).advance
          (P := fun g => P (states.set task g)) hset hrun hnow
        refine ⟨states.set task g', ht, by simp [hw.length], fun i p' g'' hi hg'' => ?_⟩
        by_cases hit : task = i
        · subst hit
          rw [List.getElem?_set_self hlt] at hi
          rw [List.getElem?_set_self hlt'] at hg''
          cases hi
          cases hg''
          exact hq
        · rw [List.getElem?_set_ne hit] at hi hg''
          exact hw.tasks i p' g'' hi hg''
      · cases hstep
    · cases hstep

/-- What every step of the automaton keeps holds at the end of a run. -/
theorem Pool.Follows.keeps {system : System σ ε φ κ}
    (hP : ∀ states (i : Nat) g s log events t g', states[i]? = some g → P states s log →
      next g s events t g' → P (states.set i g') t (log ++ events.map (s, ·)))
    (hsystem : ∀ states command s log p, P states s log → system command s = some p →
      ∃ g, P (states ++ [g]) s log ∧
        Async.Follows next (fun _ _ _ => True) (fun _ _ => True) p g s)
    {states : List γ} {w w' : Pool σ ε φ} {moves : List (Move κ)} {log : List (σ × ε)}
    (hw : w.Follows next P states []) (h : w.record system moves = some (w', log)) :
    ∃ states', w'.Follows next P states' log := by
  obtain ⟨states', hend⟩ := Pool.record_keeps
    (P := fun w log => ∃ states, w.Follows next P states log)
    (fun _ _ _ _ _ ⟨states, hw⟩ hstep => hw.step hP hsystem hstep) h [] ⟨states, hw⟩
  exact ⟨states', hend⟩

theorem Pool.Follows.record {system : System σ ε φ κ}
    (hP : ∀ states (i : Nat) g s log events t g', states[i]? = some g → P states s log →
      next g s events t g' → P (states.set i g') t (log ++ events.map (s, ·)))
    (hsystem : ∀ states command s log p, P states s log → system command s = some p →
      ∃ g, P (states ++ [g]) s log ∧
        Async.Follows next (fun _ _ _ => True) (fun _ _ => True) p g s)
    {states : List γ} {w w' : Pool σ ε φ} {moves : List (Move κ)} {log : List (σ × ε)}
    (hw : w.Follows next P states []) (h : w.record system moves = some (w', log)) :
    ∃ states', P states' w'.state log := by
  obtain ⟨states', hend⟩ := hw.keeps hP hsystem h
  exact ⟨states', hend.holds⟩

/-- When the order of the programs does not matter, one that makes a step may be put first. -/
theorem Pool.Follows.record_perm {system : System σ ε φ κ}
    (hperm : ∀ states states' s log, states.Perm states' → P states s log → P states' s log)
    (hP : ∀ states g s log events t g', P (g :: states) s log → next g s events t g' →
      P (g' :: states) t (log ++ events.map (s, ·)))
    (hsystem : ∀ states command s log p, P states s log → system command s = some p →
      ∃ g, P (g :: states) s log ∧
        Async.Follows next (fun _ _ _ => True) (fun _ _ => True) p g s)
    {states : List γ} {w w' : Pool σ ε φ} {moves : List (Move κ)} {log : List (σ × ε)}
    (hw : w.Follows next P states []) (h : w.record system moves = some (w', log)) :
    ∃ states', states'.length = w'.tasks.length ∧ P states' w'.state log := by
  refine (hw.keeps ?_ ?_ h).imp fun states' hend => ⟨hend.length, hend.holds⟩
  · intro states i g s log events t g' hi hs hstep
    obtain ⟨hlt, rfl⟩ := List.getElem?_eq_some_iff.mp hi
    have hlt' : i < (states.set i g').length := by
      rwa [List.length_set]
    have hset := List.getElem_cons_eraseIdx_perm hlt'
    rw [List.getElem_set_self, List.eraseIdx_set_eq] at hset
    refine hperm _ _ _ _ hset (hP _ _ _ _ _ _ _ ?_ hstep)
    exact hperm _ _ _ _ (List.getElem_cons_eraseIdx_perm hlt).symm hs
  · intro states command s log p hs hp
    obtain ⟨g, hg, hfollows⟩ := hsystem states command s log p hs hp
    exact ⟨g, hperm _ _ _ _ (List.perm_append_singleton g states).symm hg, hfollows⟩

end Follows

/-! ## Two runs

`Twin` programs do the same on states that are related, until an access leads to `stop`. -/

/-- On related states the program reports the same `quiet` events, and goes on alike in related
states. What follows an access that leads to `stop` is of no concern. -/
def Twin (related : σ → σ → Prop) (stop : σ → Prop) (quiet : ε → Prop) (post : α → Prop) :
    Async σ ε φ α → Prop
  | done a => post a
  | fail _ => True
  | act f next => ∀ s s', related s s' → (∀ e ∈ (f s).2, quiet e) ∧
      (stop (f s).1 ∨ ((f s').2 = (f s).2 ∧ related (f s).1 (f s').1 ∧ next s' = next s ∧
        Twin related stop quiet post (next s)))
  | await ready next => (∀ s s', related s s' → ready s' = ready s) ∧
      Twin related stop quiet post next

section Twin

variable {related : σ → σ → Prop} {stop : σ → Prop} {quiet : ε → Prop}

theorem Twin.bind {post : α → Prop} {post' : β → Prop} {k : α → Async σ ε φ β}
    (hk : ∀ a, post a → Twin related stop quiet post' (k a)) :
    ∀ {p : Async σ ε φ α}, Twin related stop quiet post p →
      Twin related stop quiet post' (p >>= k) := by
  intro p
  induction p with
  | done a => exact fun h => hk a h
  | fail e => exact fun _ => trivial
  | act f next ih =>
    intro h s s' hs
    obtain ⟨hquiet, hstop | ⟨hevents, hrelated, hnext, htwin⟩⟩ := h s s' hs
    · exact ⟨hquiet, .inl hstop⟩
    · exact ⟨hquiet, .inr ⟨hevents, hrelated, congrArg (· >>= k) hnext, ih s htwin⟩⟩
  | await ready next ih => exact fun h => ⟨h.1, ih h.2⟩

theorem Twin.attempt {post : α → Prop} :
    ∀ {p : Async σ ε φ α}, Twin related stop quiet post p →
      Twin related stop quiet (fun r => ∀ a, r = .ok a → post a) p.attempt := by
  intro p
  induction p with
  | done a => exact fun h b hb => by cases hb; exact h
  | fail e => exact fun _ b hb => by cases hb
  | act f next ih =>
    intro h s s' hs
    obtain ⟨hquiet, hstop | ⟨hevents, hrelated, hnext, htwin⟩⟩ := h s s' hs
    · exact ⟨hquiet, .inl hstop⟩
    · exact ⟨hquiet, .inr ⟨hevents, hrelated, congrArg Async.attempt hnext, ih s htwin⟩⟩
  | await ready next ih => exact fun h => ⟨h.1, ih h.2⟩

theorem Twin.ofExcept {post : α → Prop} {result : Except φ α}
    (h : ∀ a, result = .ok a → post a) :
    Twin related stop quiet post (ofExcept result : Async σ ε φ α) := by
  cases result with
  | ok a => exact h a rfl
  | error e => trivial

/-- What has stopped stays so. -/
abbrev Stays (stop : σ → Prop) (p : Async σ ε φ α) : Prop :=
  Within (fun s _ t => stop s → stop t) p

theorem Stays.advance {p q : Async σ ε φ α} {s t : σ} {trace : List (σ × ε)} (hp : Stays stop p)
    (hrun : p.advance s = (q, t, trace)) :
    Stays stop q ∧ (stop s → stop t ∧ ∀ x ∈ trace, stop x.1) := by
  have hall : ∀ x ∈ trace, True := fun _ _ => trivial
  have hq := Within.advance (C := fun _ _ => True) (P := fun _ => True)
    (fun _ _ _ _ _ _ => trivial) hp hrun hall trivial
  refine ⟨hq.2.1, fun hs => ?_⟩
  have ht := Within.advance (C := fun _ _ => True) (P := stop)
    (fun _ _ _ hst _ => hst) hp hrun hall hs
  exact ⟨ht.1, fun x hx => (ht.2.2 x hx).1⟩

theorem Twin.advance {post : α → Prop} :
    ∀ {p q : Async σ ε φ α} {s s' t : σ} {trace : List (σ × ε)},
      Twin related stop quiet post p → Stays stop p → related s s' →
      p.advance s = (q, t, trace) →
      (∀ x ∈ trace, stop x.1 ∨ quiet x.2) ∧
        (stop t ∨ ∃ t' trace', p.advance s' = (q, t', trace') ∧
          trace'.map (·.2) = trace.map (·.2) ∧ related t t' ∧
          Twin related stop quiet post q) := by
  intro p
  induction p with
  | done a =>
    intro q s s' t trace h _ hs hrun
    cases hrun
    exact ⟨by simp, .inr ⟨s', [], rfl, rfl, hs, h⟩⟩
  | fail e =>
    intro q s s' t trace h _ hs hrun
    cases hrun
    exact ⟨by simp, .inr ⟨s', [], rfl, rfl, hs, h⟩⟩
  | act f next ih =>
    intro q s s' t trace h hstays hs hrun
    rw [Async.advance] at hrun
    cases hrest : (next s).advance (f s).1 with
    | mk p' rest =>
      rw [hrest] at hrun
      cases hrun
      obtain ⟨hquiet, hnow⟩ := h s s' hs
      have hfirst : ∀ x ∈ (f s).2.map (s, ·), stop x.1 ∨ quiet x.2 := by
        intro x hx
        obtain ⟨e, he, rfl⟩ := List.mem_map.mp hx
        exact .inr (hquiet e he)
      rcases hnow with hstop | ⟨hevents, hrelated, hnext, htwin⟩
      · obtain ⟨ht, hlater⟩ := (Stays.advance (hstays s).2 hrest).2 hstop
        refine ⟨fun x hx => ?_, .inl ht⟩
        rcases List.mem_append.mp hx with hx | hx
        · exact hfirst x hx
        · exact .inl (hlater x hx)
      · obtain ⟨hlater, hend⟩ := ih s htwin (hstays s).2 hrelated hrest
        refine ⟨fun x hx => ?_, hend.imp id ?_⟩
        · rcases List.mem_append.mp hx with hx | hx
          · exact hfirst x hx
          · exact hlater x hx
        · rintro ⟨t', trace', hrun', hmap, hrelated', hq⟩
          refine ⟨t', (f s').2.map (s', ·) ++ trace', ?_, ?_, hrelated', hq⟩
          · rw [Async.advance, hnext, hrun']
          · simp [hevents, hmap, Function.comp_def]
  | await ready next ih =>
    intro q s s' t trace h _ hs hrun
    cases hrun
    exact ⟨by simp, .inr ⟨s', [], rfl, rfl, hs, h⟩⟩

/-- Two pools of the same programs, in related states. -/
structure Pool.Twin (related : σ → σ → Prop) (stop : σ → Prop) (quiet : ε → Prop)
    (w w' : Pool σ ε φ) : Prop where
  state : related w.state w'.state
  tasks : w'.tasks = w.tasks
  twin : ∀ p ∈ w.tasks, Async.Twin related stop quiet (fun _ => True) p
  stays : ∀ p ∈ w.tasks, Stays stop p

/-- One of the programs runs in both pools. -/
theorem Pool.Twin.run {w w' : Pool σ ε φ} (hw : w.Twin related stop quiet w')
    {p q : Async σ ε φ Unit} {t : σ} {trace : List (σ × ε)} (tasks : List (Async σ ε φ Unit))
    (htwin : Async.Twin related stop quiet (fun _ => True) p) (hstays : Stays stop p)
    (hrun : p.advance w.state = (q, t, trace)) (htasks : ∀ p ∈ tasks, p = q ∨ p ∈ w.tasks) :
    (∀ x ∈ trace, stop x.1 ∨ quiet x.2) ∧
      (stop t ∨ ∃ t' trace', p.advance w'.state = (q, t', trace') ∧
        trace'.map (·.2) = trace.map (·.2) ∧
        Pool.Twin related stop quiet ⟨t, tasks⟩ ⟨t', tasks⟩) := by
  obtain ⟨hquiet, hend⟩ := htwin.advance hstays hw.state hrun
  refine ⟨hquiet, hend.imp id ?_⟩
  rintro ⟨t', trace', hrun', hmap, hrelated, hq⟩
  refine ⟨t', trace', hrun', hmap, hrelated, rfl, fun p hp => ?_, fun p hp => ?_⟩
  · rcases htasks p hp with rfl | hp
    · exact hq
    · exact hw.twin p hp
  · rcases htasks p hp with rfl | hp
    · exact (hstays.advance hrun).1
    · exact hw.stays p hp

theorem Pool.Twin.step {system : System σ ε φ κ}
    (hsystem : ∀ command s s', related s s' → system command s' = system command s ∧
      ∀ p, system command s = some p → Async.Twin related stop quiet (fun _ => True) p)
    (hstays : ∀ command s p, system command s = some p → Stays stop p)
    {w w' v : Pool σ ε φ} {move : Move κ} {trace : List (σ × ε)}
    (hw : w.Twin related stop quiet w') (hstep : w.step system move = some (v, trace)) :
    (∀ x ∈ trace, stop x.1 ∨ quiet x.2) ∧
      (stop v.state ∨ ∃ v' trace', w'.step system move = some (v', trace') ∧
        trace'.map (·.2) = trace.map (·.2) ∧ v.Twin related stop quiet v') := by
  cases move with
  | start command =>
    rw [Pool.step] at hstep
    split at hstep
    · cases hstep
    · rename_i p hp
      split at hstep
      rename_i q t trace' hrun
      cases hstep
      obtain ⟨hsame, htwin⟩ := hsystem command _ _ hw.state
      obtain ⟨hquiet, hend⟩ := hw.run (w.tasks ++ [q]) (htwin p hp) (hstays _ _ _ hp) hrun
        (by simp [or_comm])
      refine ⟨hquiet, hend.imp id ?_⟩
      rintro ⟨t', trace', hrun', hmap, hv⟩
      refine ⟨_, trace', ?_, hmap, hv⟩
      rw [Pool.step, hsame, hp]
      dsimp only
      rw [hrun', hw.tasks]
  | resume task =>
    rw [Pool.step] at hstep
    split at hstep
    · rename_i ready next htask
      split at hstep
      · rename_i hready
        split at hstep
        rename_i q t trace' hrun
        cases hstep
        have hmem := List.mem_of_getElem? htask
        have hawait : Async.Twin related stop quiet (fun _ => True) (await ready next) :=
          hw.twin _ hmem
        have hnext : Stays stop next := hw.stays (await ready next) hmem
        obtain ⟨hquiet, hend⟩ := hw.run (w.tasks.set task q) hawait.2 hnext hrun
          (fun p' hp' => (List.mem_or_eq_of_mem_set hp').symm)
        refine ⟨hquiet, hend.imp id ?_⟩
        rintro ⟨t', trace', hrun', hmap, hv⟩
        refine ⟨_, trace', ?_, hmap, hv⟩
        rw [Pool.step, hw.tasks, htask]
        dsimp only
        rw [hawait.1 _ _ hw.state, if_pos hready, hrun']
      · cases hstep
    · cases hstep

/-- What is reported after the stop is reported in a state that has stopped. -/
theorem Pool.stays_record {system : System σ ε φ κ}
    (hstays : ∀ command s p, system command s = some p → Stays stop p)
    {moves : List (Move κ)} {w v : Pool σ ε φ} {log : List (σ × ε)}
    (hw : ∀ p ∈ w.tasks, Stays stop p) (hstop : stop w.state)
    (h : w.record system moves = some (v, log)) :
    stop v.state ∧ ∀ x ∈ log, stop x.1 := by
  have hkeeps := Pool.record_keeps
    (P := fun v log => v.Within (fun s _ t => stop s → stop t) stop ∧ ∀ x ∈ log, stop x.1)
    (fun w w' move trace log hw hstep => ?_) h [] ⟨⟨hstop, hw⟩, by simp⟩
  · exact ⟨hkeeps.1.state, hkeeps.2⟩
  · obtain ⟨hw', htrace⟩ := hw.1.step (C := fun _ _ => True)
      (fun command s p _ hp => hstays command s p hp) (fun _ _ _ hst _ => hst) hstep
      fun _ _ => trivial
    refine ⟨hw', fun x hx => ?_⟩
    rcases List.mem_append.mp hx with hx | hx
    · exact hw.2 x hx
    · exact (htrace x hx).1

/-- Whatever is played, what is reported before the stop is `quiet`, and the other pool does the
same until then. -/
theorem Pool.Twin.record {system : System σ ε φ κ}
    (hsystem : ∀ command s s', related s s' → system command s' = system command s ∧
      ∀ p, system command s = some p → Async.Twin related stop quiet (fun _ => True) p)
    (hstays : ∀ command s p, system command s = some p → Stays stop p)
    {moves : List (Move κ)} {w w' v : Pool σ ε φ} {log : List (σ × ε)}
    (hw : w.Twin related stop quiet w') (h : w.record system moves = some (v, log)) :
    (∀ x ∈ log, stop x.1 ∨ quiet x.2) ∧
      (stop v.state ∨ ∃ v' log', w'.record system moves = some (v', log') ∧
        log'.map (·.2) = log.map (·.2) ∧ v.Twin related stop quiet v') := by
  induction moves generalizing w w' log with
  | nil =>
    cases h
    exact ⟨by simp, .inr ⟨w', [], rfl, rfl, hw⟩⟩
  | cons move rest ih =>
    obtain ⟨u, trace, later, hmove, hrest, rfl⟩ := Pool.record_cons.mp h
    obtain ⟨hquiet, hnow⟩ := hw.step hsystem hstays hmove
    have hu : u.Within (fun s _ t => stop s → stop t) fun _ => True :=
      (Pool.Within.step (C := fun _ _ => True) (fun command s p _ hp => hstays command s p hp)
        (fun _ _ _ _ _ _ => trivial) ⟨trivial, hw.stays⟩ hmove fun _ _ => trivial).1
    rcases hnow with hstop | ⟨u', trace', hmove', hmap, htwin⟩
    · obtain ⟨hv, hlater⟩ := Pool.stays_record hstays hu.tasks hstop hrest
      refine ⟨fun x hx => ?_, .inl hv⟩
      rcases List.mem_append.mp hx with hx | hx
      · exact hquiet x hx
      · exact .inl (hlater x hx)
    · obtain ⟨hlater, hend⟩ := ih htwin hrest
      refine ⟨fun x hx => ?_, hend.imp id ?_⟩
      · rcases List.mem_append.mp hx with hx | hx
        · exact hquiet x hx
        · exact hlater x hx
      · rintro ⟨v', later', hrest', hmap', hv⟩
        exact ⟨v', trace' ++ later', Pool.record_cons.mpr ⟨u', trace', later', hmove', hrest', rfl⟩,
          by rw [List.map_append, List.map_append, hmap, hmap'], hv⟩

end Twin

end Async
