import Mathlib.Logic.Function.Basic
import PassVault.Lib.Async

/-!
# Traces of a pool

The events of a run, each with the place of the program that reported it. A program obeys a
discipline when each of its accesses is a step of an automaton, in states that meet an invariant
and as long as the others change the state no more than they may.
-/

namespace Async

variable {σ ε φ κ γ α β : Type}

/-- What a program reported, and the state that its access found. -/
structure Record (σ ε : Type) where
  task : Nat
  state : σ
  event : ε

/-- The place of the program that a move lets run. -/
def Pool.taskOf (w : Pool σ ε φ) : Move κ → Nat
  | .start _ => w.tasks.length
  | .resume task => task

/-- Make a list of moves, and keep the events they report. -/
def Pool.trace (system : System σ ε φ κ) :
    List (Move κ) → Pool σ ε φ → Option (Pool σ ε φ × List (Record σ ε))
  | [], w => some (w, [])
  | move :: rest, w =>
    (w.step system move).bind fun (w', events) =>
      (w'.trace system rest).map fun (w'', later) =>
        (w'', events.map (fun x => ⟨w.taskOf move, x.1, x.2⟩) ++ later)

/-- What every step preserves of a pool and the events so far, a run does. -/
theorem Pool.trace_keeps {system : System σ ε φ κ} {C : σ → ε → Prop}
    {P : Pool σ ε φ → List (Record σ ε) → Prop}
    (hstep : ∀ w w' move events log, P w log → w.step system move = some (w', events) →
      (∀ x ∈ events, C x.1 x.2) →
      P w' (log ++ events.map fun x => ⟨w.taskOf move, x.1, x.2⟩))
    {moves : List (Move κ)} {w w' : Pool σ ε φ} {later : List (Record σ ε)}
    (h : w.trace system moves = some (w', later)) (hcond : ∀ x ∈ later, C x.state x.event)
    (log : List (Record σ ε)) (hw : P w log) : P w' (log ++ later) := by
  induction moves generalizing w log later with
  | nil =>
    cases h
    rwa [List.append_nil]
  | cons move rest ih =>
    rw [Pool.trace, Option.bind_eq_some_iff] at h
    obtain ⟨⟨v, events⟩, hmove, h⟩ := h
    obtain ⟨⟨v', later'⟩, hrest, heq⟩ := Option.map_eq_some_iff.mp h
    cases heq
    rw [← List.append_assoc]
    refine ih hrest (fun x hx => hcond x (List.mem_append_right _ hx)) _
      (hstep _ _ _ _ _ hw hmove fun x hx => ?_)
    exact hcond _ (List.mem_append_left _ (List.mem_map_of_mem hx))

/-- What holds of the place that has changed and of all others, holds of every place. -/
theorem forall_update {places : Nat → Option γ} {i : Nat} {g : γ} {Q : Nat → γ → Prop}
    (hi : Q i g) (hother : ∀ j g', j ≠ i → places j = some g' → Q j g') (j : Nat) (g' : γ)
    (hj : Function.update places i (some g) j = some g') : Q j g' := by
  by_cases hij : j = i
  · subst hij
    rw [Function.update_self] at hj
    cases hj
    exact hi
  · rw [Function.update_of_ne hij] at hj
    exact hother j g' hij hj

/-! ## Disciplines -/

/-- What may be assumed of the states and of the others, and the steps of an automaton. -/
structure Discipline (γ σ ε : Type) where
  inv : σ → Prop
  /-- How the state may change while a program waits. -/
  rely : σ → σ → Prop
  /-- The events considered. -/
  cond : σ → ε → Prop
  next : γ → σ → List ε → σ → γ → Prop

/-- Whatever makes a step keeps the invariant, and does what the others may rely on. -/
structure Discipline.Lawful (d : Discipline γ σ ε) : Prop where
  refl : ∀ s, d.rely s s
  trans : ∀ s t u, d.rely s t → d.rely t u → d.rely s u
  step : ∀ g s events t g', d.next g s events t g' → d.inv s → (∀ e ∈ events, d.cond s e) →
    d.inv t ∧ d.rely s t

/-- From a state and a place of the automaton on, each access is a step of it; it meets `post` when
the program returns and `onFail` when it throws. -/
def Obeys (d : Discipline γ σ ε) (post : γ → σ → α → Prop) (onFail : γ → σ → Prop) :
    Async σ ε φ α → γ → σ → Prop
  | done a, g, s => post g s a
  | fail _, g, s => onFail g s
  | act f k, g, s => (∀ e ∈ (f s).2, d.cond s e) →
    ∃ g', d.next g s (f s).2 (f s).1 g' ∧ (d.inv (f s).1 → Obeys d post onFail (k s) g' (f s).1)
  | await ready k, g, s => ∀ t, d.rely s t → d.inv t → ready t = true → Obeys d post onFail k g t

section Obeys

variable {d : Discipline γ σ ε} {onFail : γ → σ → Prop}

theorem Obeys.bind {post : γ → σ → α → Prop} {post' : γ → σ → β → Prop} {k : α → Async σ ε φ β}
    (hk : ∀ g s a, post g s a → Obeys d post' onFail (k a) g s) :
    ∀ {p : Async σ ε φ α} {g : γ} {s : σ}, Obeys d post onFail p g s →
      Obeys d post' onFail (p >>= k) g s := by
  intro p
  induction p with
  | done a => exact fun h => hk _ _ a h
  | fail e => exact fun h => h
  | act f k' ih =>
    intro g s h hcond
    obtain ⟨g', hnext, hrest⟩ := h hcond
    exact ⟨g', hnext, fun hinv => ih s (hrest hinv)⟩
  | await ready k' ih => exact fun h t hst hinv hready => ih (h t hst hinv hready)

theorem Obeys.pure {post : γ → σ → α → Prop} {a : α} {g : γ} {s : σ} (h : post g s a) :
    Obeys d post onFail (pure a : Async σ ε φ α) g s :=
  h

/-- Sequencing, where the first half meets what the second half starts from. -/
theorem Obeys.seq {post' : γ → σ → β → Prop} {k : α → Async σ ε φ β} {p : Async σ ε φ α} {g : γ}
    {s : σ} (h : Obeys d (fun g s a => Obeys d post' onFail (k a) g s) onFail p g s) :
    Obeys d post' onFail (p >>= k) g s :=
  Obeys.bind (fun _ _ _ hk => hk) h

theorem Obeys.attempt {post : γ → σ → α → Prop} {post' : γ → σ → Except φ α → Prop}
    {onFail' : γ → σ → Prop} (hpost : ∀ g s a, post g s a → post' g s (.ok a))
    (hfail : ∀ g s e, onFail g s → post' g s (.error e)) :
    ∀ {p : Async σ ε φ α} {g : γ} {s : σ}, Obeys d post onFail p g s →
      Obeys d post' onFail' p.attempt g s := by
  intro p
  induction p with
  | done a => exact fun h => hpost _ _ a h
  | fail e => exact fun h => hfail _ _ e h
  | act f k ih =>
    intro g s h hcond
    obtain ⟨g', hnext, hrest⟩ := h hcond
    exact ⟨g', hnext, fun hinv => ih s (hrest hinv)⟩
  | await ready k ih => exact fun h t hst hinv hready => ih (h t hst hinv hready)

theorem Obeys.tryCatch {post : γ → σ → α → Prop} {onFail' : γ → σ → Prop}
    {k : φ → Async σ ε φ α} (hk : ∀ g s e, onFail' g s → Obeys d post onFail (k e) g s) :
    ∀ {p : Async σ ε φ α} {g : γ} {s : σ}, Obeys d post onFail' p g s →
      Obeys d post onFail (p.tryCatch k) g s := by
  intro p
  induction p with
  | done a => exact fun h => h
  | fail e => exact fun h => hk _ _ e h
  | act f k' ih =>
    intro g s h hcond
    obtain ⟨g', hnext, hrest⟩ := h hcond
    exact ⟨g', hnext, fun hinv => ih s (hrest hinv)⟩
  | await ready k' ih => exact fun h t hst hinv hready => ih (h t hst hinv hready)

theorem Obeys.mono {post post' : γ → σ → α → Prop} {onFail' : γ → σ → Prop}
    (hpost : ∀ g s a, post g s a → post' g s a) (hfail : ∀ g s, onFail g s → onFail' g s) :
    ∀ {p : Async σ ε φ α} {g : γ} {s : σ}, Obeys d post onFail p g s →
      Obeys d post' onFail' p g s := by
  intro p
  induction p with
  | done a => exact fun h => hpost _ _ a h
  | fail e => exact fun h => hfail _ _ h
  | act f k ih =>
    intro g s h hcond
    obtain ⟨g', hnext, hrest⟩ := h hcond
    exact ⟨g', hnext, fun hinv => ih s (hrest hinv)⟩
  | await ready k ih => exact fun h t hst hinv hready => ih (h t hst hinv hready)

theorem Obeys.ofExcept {post : γ → σ → α → Prop} {g : γ} {s : σ} {result : Except φ α}
    (hok : ∀ a, result = .ok a → post g s a) (herror : ∀ e, result = .error e → onFail g s) :
    Obeys d post onFail (ofExcept result : Async σ ε φ α) g s := by
  cases result with
  | ok a => exact hok a rfl
  | error e => exact herror e rfl

/-- Where a program ends, the invariant holds and no more has changed than the others may rely on. -/
theorem Obeys.kept (hd : d.Lawful) {post : γ → σ → α → Prop} {origin : σ} :
    ∀ {p : Async σ ε φ α} {g : γ} {s : σ}, Obeys d post onFail p g s → d.inv s →
      d.rely origin s →
      Obeys d (fun g t a => post g t a ∧ d.rely origin t ∧ d.inv t)
        (fun g t => onFail g t ∧ d.rely origin t ∧ d.inv t) p g s := by
  intro p
  induction p with
  | done a => exact fun h hinv hs => ⟨h, hs, hinv⟩
  | fail e => exact fun h hinv hs => ⟨h, hs, hinv⟩
  | act f k ih =>
    intro g s h hinv hs hcond
    obtain ⟨g', hnext, hrest⟩ := h hcond
    have hstep := hd.step _ _ _ _ _ hnext hinv hcond
    exact ⟨g', hnext, fun hinv' => ih s (hrest hinv') hinv' (hd.trans _ _ _ hs hstep.2)⟩
  | await ready k ih =>
    exact fun h _ hs t hst hinvt hready => ih (h t hst hinvt hready) hinvt (hd.trans _ _ _ hs hst)

/-- Sequencing, where the second half knows what has not changed. -/
theorem Obeys.chain (hd : d.Lawful) {post : γ → σ → α → Prop} {post' : γ → σ → β → Prop}
    {k : α → Async σ ε φ β} {p : Async σ ε φ α} {g : γ} {s : σ} (h : Obeys d post onFail p g s)
    (hinv : d.inv s)
    (hk : ∀ g' t a, post g' t a → d.rely s t → d.inv t → Obeys d post' onFail (k a) g' t) :
    Obeys d post' onFail (p >>= k) g s :=
  ((h.kept hd hinv (hd.refl s)).mono (fun _ _ _ h => h) fun _ _ h => h.1).bind
    fun g' t a h => hk g' t a h.1 h.2.1 h.2.2

/-- A program all of whose accesses leave the automaton where it is. -/
theorem Within.obeys {access : σ → List ε → σ → Prop} {g : γ}
    (h : ∀ s events t, access s events t → d.inv s → d.next g s events t g) :
    ∀ {p : Async σ ε φ α} {s : σ}, Within access p → d.inv s →
      Obeys d (fun g' _ _ => g' = g) (fun g' _ => g' = g) p g s := by
  intro p
  induction p with
  | done a => exact fun _ _ => rfl
  | fail e => exact fun _ _ => rfl
  | act f k ih => exact fun {s} hp hinv _ =>
    ⟨g, h _ _ _ (hp s).1 hinv, fun hinv' => ih s (hp s).2 hinv'⟩
  | await ready k ih => exact fun hp _ t _ hinvt _ => ih hp hinvt

/-- Two disciplines side by side. -/
def Discipline.both {γ' : Type} (d : Discipline γ σ ε) (d' : Discipline γ' σ ε) :
    Discipline (γ × γ') σ ε where
  inv s := d.inv s ∧ d'.inv s
  rely s t := d.rely s t ∧ d'.rely s t
  cond s e := d.cond s e ∧ d'.cond s e
  next g s events t g' := d.next g.1 s events t g'.1 ∧ d'.next g.2 s events t g'.2

theorem Discipline.Lawful.both {γ' : Type} {d' : Discipline γ' σ ε} (hd : d.Lawful)
    (hd' : d'.Lawful) : (d.both d').Lawful where
  refl s := ⟨hd.refl s, hd'.refl s⟩
  trans s t u h h' := ⟨hd.trans s t u h.1 h'.1, hd'.trans s t u h.2 h'.2⟩
  step g s events t g' h hs hcond := by
    obtain ⟨hinv, hrely⟩ := hd.step _ _ _ _ _ h.1 hs.1 fun e he => (hcond e he).1
    obtain ⟨hinv', hrely'⟩ := hd'.step _ _ _ _ _ h.2 hs.2 fun e he => (hcond e he).2
    exact ⟨⟨hinv, hinv'⟩, hrely, hrely'⟩

/-- A program that obeys both disciplines obeys them side by side. -/
theorem Obeys.both {γ' : Type} {d' : Discipline γ' σ ε} {post : γ → σ → α → Prop}
    {post' : γ' → σ → α → Prop} {onFail' : γ' → σ → Prop} :
    ∀ {p : Async σ ε φ α} {g : γ} {g' : γ'} {s : σ}, Obeys d post onFail p g s →
      Obeys d' post' onFail' p g' s →
      Obeys (d.both d') (fun g s a => post g.1 s a ∧ post' g.2 s a)
        (fun g s => onFail g.1 s ∧ onFail' g.2 s) p (g, g') s := by
  intro p
  induction p with
  | done a => exact fun h h' => ⟨h, h'⟩
  | fail e => exact fun h h' => ⟨h, h'⟩
  | act f k ih =>
    intro g g' s h h' hcond
    obtain ⟨gt, hnext, hrest⟩ := h fun e he => (hcond e he).1
    obtain ⟨gt', hnext', hrest'⟩ := h' fun e he => (hcond e he).2
    exact ⟨(gt, gt'), ⟨hnext, hnext'⟩, fun hinv => ih s (hrest hinv.1) (hrest' hinv.2)⟩
  | await ready k ih =>
    exact fun h h' t hst hinv hready => ih (h t hst.1 hinv.1 hready) (h' t hst.2 hinv.2 hready)

/-- The program goes on as it should, whatever the others have done by then. -/
def Waits (d : Discipline γ σ ε) (p : Async σ ε φ Unit) (g : γ) (s : σ) : Prop :=
  ∀ t, d.rely s t → d.inv t → Obeys d (fun _ _ _ => True) (fun _ _ => True) p g t

/-- Run up to its next `await`, a program keeps what each of its steps keeps. -/
theorem Obeys.advance (hd : d.Lawful) {task : Nat} {P : γ → σ → List (Record σ ε) → Prop}
    (hP : ∀ g s log events t g', P g s log → d.inv s → d.inv t → (∀ e ∈ events, d.cond s e) →
      d.next g s events t g' → P g' t (log ++ events.map (⟨task, s, ·⟩))) :
    ∀ {p q : Async σ ε φ Unit} {g : γ} {s t : σ} {log : List (Record σ ε)} {events : List (σ × ε)},
      Obeys d (fun _ _ _ => True) (fun _ _ => True) p g s → d.inv s →
      p.advance s = (q, t, events) → (∀ x ∈ events, d.cond x.1 x.2) → P g s log →
      d.inv t ∧ d.rely s t ∧
        ∃ g', Waits d q g' t ∧ P g' t (log ++ events.map fun x => ⟨task, x.1, x.2⟩) := by
  intro p
  induction p with
  | done a =>
    intro q g s t log events h hinv hrun _ hs
    cases hrun
    exact ⟨hinv, hd.refl s, g, fun _ _ _ => trivial, by simpa using hs⟩
  | fail e =>
    intro q g s t log events h hinv hrun _ hs
    cases hrun
    exact ⟨hinv, hd.refl s, g, fun _ _ _ => trivial, by simpa using hs⟩
  | act f k ih =>
    intro q g s t log events h hinv hrun hcond hs
    rw [Async.advance] at hrun
    cases hnext : (k s).advance (f s).1 with
    | mk p' rest =>
      rw [hnext] at hrun
      cases hrun
      have hnow : ∀ e ∈ (f s).2, d.cond s e := fun e he =>
        hcond (s, e) (List.mem_append_left _ (List.mem_map_of_mem he))
      obtain ⟨g', hstep, hrest⟩ := h hnow
      obtain ⟨hinv', hrely⟩ := hd.step _ _ _ _ _ hstep hinv hnow
      obtain ⟨hinvt, hrely', g'', hwaits, ht⟩ := ih s (hrest hinv') hinv' hnext
        (fun x hx => hcond x (List.mem_append_right _ hx)) (hP _ _ _ _ _ _ hs hinv hinv' hnow hstep)
      refine ⟨hinvt, hd.trans _ _ _ hrely hrely', g'', hwaits, ?_⟩
      simpa [List.map_append, Function.comp_def] using ht
  | await ready k ih =>
    intro q g s t log events h hinv hrun _ hs
    cases hrun
    refine ⟨hinv, hd.refl s, g, fun u hu _ v huv hinvv hready => ?_, by simpa using hs⟩
    exact h v (hd.trans _ _ _ hu huv) hinvv hready

/-- The programs of a pool each obey the discipline, from where `places` says they are. -/
structure Pool.Obeys (d : Discipline γ σ ε)
    (P : (Nat → Option γ) → σ → List (Record σ ε) → Prop) (places : Nat → Option γ)
    (w : Pool σ ε φ) (log : List (Record σ ε)) : Prop where
  inv : d.inv w.state
  holds : P places w.state log
  tasks : ∀ (i : Nat) p, w.tasks[i]? = some p → ∃ g, places i = some g ∧ Waits d p g w.state
  rest : ∀ i, w.tasks.length ≤ i → places i = none

variable {P : (Nat → Option γ) → σ → List (Record σ ε) → Prop}

/-- A program of the pool runs up to its next `await`. -/
theorem Pool.Obeys.advanced (hd : d.Lawful)
    (hP : ∀ places (i : Nat) g s log events t g', places i = some g → P places s log → d.inv s →
      d.inv t → (∀ e ∈ events, d.cond s e) → d.next g s events t g' →
      P (Function.update places i (some g')) t (log ++ events.map (⟨i, s, ·⟩)))
    {places : Nat → Option γ} {i : Nat} {g : γ} {p q : Async σ ε φ Unit} {s t : σ}
    {log : List (Record σ ε)} {events : List (σ × ε)}
    (hs : P (Function.update places i (some g)) s log) (hinv : d.inv s)
    (hp : Async.Obeys d (fun _ _ _ => True) (fun _ _ => True) p g s)
    (hrun : p.advance s = (q, t, events)) (hcond : ∀ x ∈ events, d.cond x.1 x.2) :
    d.inv t ∧ d.rely s t ∧ ∃ g', Waits d q g' t ∧
      P (Function.update places i (some g')) t (log ++ events.map fun x => ⟨i, x.1, x.2⟩) := by
  refine hp.advance hd (P := fun g => P (Function.update places i (some g))) ?_ hinv hrun hcond hs
  intro g s log events t g' hs hinv hinvt hcond hstep
  have h := hP _ i g s log events t g' (by simp) hs hinv hinvt hcond hstep
  rwa [Function.update_idem] at h

theorem Pool.Obeys.step {system : System σ ε φ κ} (hd : d.Lawful)
    (hP : ∀ places (i : Nat) g s log events t g', places i = some g → P places s log → d.inv s →
      d.inv t → (∀ e ∈ events, d.cond s e) → d.next g s events t g' →
      P (Function.update places i (some g')) t (log ++ events.map (⟨i, s, ·⟩)))
    (hsystem : ∀ places (i : Nat) command s log p, places i = none → P places s log → d.inv s →
      system command s = some p → ∃ g, P (Function.update places i (some g)) s log ∧
        Async.Obeys d (fun _ _ _ => True) (fun _ _ => True) p g s)
    {places : Nat → Option γ} {w w' : Pool σ ε φ} {move : Move κ} {log : List (Record σ ε)}
    {events : List (σ × ε)} (hw : w.Obeys d P places log)
    (hstep : w.step system move = some (w', events)) (hcond : ∀ x ∈ events, d.cond x.1 x.2) :
    ∃ places', w'.Obeys d P places'
      (log ++ events.map fun x => ⟨w.taskOf move, x.1, x.2⟩) := by
  cases move with
  | start command =>
    rw [Pool.step] at hstep
    split at hstep
    · cases hstep
    · rename_i p hp
      split at hstep
      rename_i q t events' hrun
      cases hstep
      have hnew : places w.tasks.length = none := hw.rest _ (Nat.le_refl _)
      obtain ⟨g, hs, hobeys⟩ := hsystem _ _ _ _ _ _ hnew hw.holds hw.inv hp
      obtain ⟨hinv, hrely, g', hq, ht⟩ :=
        Pool.Obeys.advanced hd hP hs hw.inv hobeys hrun hcond
      refine ⟨_, hinv, ht, fun i p' hi => ?_, fun i hi => ?_⟩
      · rcases Nat.lt_or_ge i w.tasks.length with hlt | hge
        · rw [List.getElem?_append_left hlt] at hi
          obtain ⟨g'', hg, hwaits⟩ := hw.tasks i p' hi
          refine ⟨g'', by rw [Function.update_of_ne (Nat.ne_of_lt hlt), hg], fun u hu => ?_⟩
          exact hwaits u (hd.trans _ _ _ hrely hu)
        · rw [List.getElem?_append_right hge, List.getElem?_singleton] at hi
          split at hi
          · rename_i hzero
            cases hi
            obtain rfl : i = w.tasks.length := by omega
            exact ⟨g', Function.update_self .., hq⟩
          · cases hi
      · rw [List.length_append, List.length_singleton] at hi
        rw [Function.update_of_ne (by omega), hw.rest i (by omega)]
  | resume task =>
    rw [Pool.step] at hstep
    split at hstep
    · rename_i ready k htask
      split at hstep
      · rename_i hready
        split at hstep
        rename_i q t events' hrun
        cases hstep
        obtain ⟨hlt, -⟩ := List.getElem?_eq_some_iff.mp htask
        obtain ⟨g, hg, hwaits⟩ := hw.tasks _ _ htask
        have hs : P (Function.update places task (some g)) w.state log := by
          rw [← hg, Function.update_eq_self]
          exact hw.holds
        have hk := hwaits _ (hd.refl _) hw.inv _ (hd.refl _) hw.inv hready
        obtain ⟨hinv, hrely, g', hq, ht⟩ :=
          Pool.Obeys.advanced hd hP hs hw.inv hk hrun hcond
        refine ⟨_, hinv, ht, fun i p' hi => ?_, fun i hi => ?_⟩
        · by_cases hit : i = task
          · subst hit
            rw [List.getElem?_set_self hlt] at hi
            cases hi
            exact ⟨g', Function.update_self .., hq⟩
          · rw [List.getElem?_set_ne (Ne.symm hit)] at hi
            obtain ⟨g'', hg'', hwaits'⟩ := hw.tasks i p' hi
            refine ⟨g'', by rw [Function.update_of_ne hit, hg''], fun u hu => ?_⟩
            exact hwaits' u (hd.trans _ _ _ hrely hu)
        · rw [List.length_set] at hi
          rw [Function.update_of_ne (by omega), hw.rest i hi]
      · cases hstep
    · cases hstep

/-- What every step of the automaton keeps holds at the end of a run. -/
theorem Pool.Obeys.trace {system : System σ ε φ κ} (hd : d.Lawful)
    (hP : ∀ places (i : Nat) g s log events t g', places i = some g → P places s log → d.inv s →
      d.inv t → (∀ e ∈ events, d.cond s e) → d.next g s events t g' →
      P (Function.update places i (some g')) t (log ++ events.map (⟨i, s, ·⟩)))
    (hsystem : ∀ places (i : Nat) command s log p, places i = none → P places s log → d.inv s →
      system command s = some p → ∃ g, P (Function.update places i (some g)) s log ∧
        Async.Obeys d (fun _ _ _ => True) (fun _ _ => True) p g s)
    {places : Nat → Option γ} {w w' : Pool σ ε φ} {moves : List (Move κ)}
    {log : List (Record σ ε)} (hw : w.Obeys d P places [])
    (h : w.trace system moves = some (w', log)) (hcond : ∀ x ∈ log, d.cond x.state x.event) :
    ∃ places', w'.Obeys d P places' log := by
  have hkeeps := Pool.trace_keeps (C := d.cond)
    (P := fun w log => ∃ places, w.Obeys d P places log)
    (fun _ _ _ _ _ ⟨_, hw⟩ hstep hcond => hw.step hd hP hsystem hstep hcond) h hcond []
    ⟨places, hw⟩
  simpa using hkeeps

end Obeys

end Async
