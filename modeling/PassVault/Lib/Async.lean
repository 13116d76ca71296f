import Mathlib.Logic.Relation

/-!
# Cooperative programs over a shared state

An `Async` program runs synchronously from one `await` to the next, on a state that it shares
with other programs; control passes to another program only at an `await`. This file holds the
programs, their uninterrupted runs, pools of programs that interleave, and a rely-guarantee
predicate `Safe` with its rules. State, events, failures and programs are arbitrary.
-/

/-- A program over the state `σ` that emits events `ε`, throws failures `φ` and returns `α`. -/
inductive Async (σ ε φ α : Type) where
  | done (a : α)
  | fail (e : φ)
  /-- A synchronous access. What follows may depend on the state it found. -/
  | act (f : σ → σ × List ε) (next : σ → Async σ ε φ α)
  /-- A point where others may run; the program goes on in a state that is `ready`. -/
  | await (ready : σ → Bool) (next : Async σ ε φ α)

namespace Async

variable {σ ε φ κ α β : Type}

/-! ## Programs -/

def bind : Async σ ε φ α → (α → Async σ ε φ β) → Async σ ε φ β
  | done a, k => k a
  | fail e, _ => fail e
  | act f next, k => act f fun s => (next s).bind k
  | await ready next, k => await ready (next.bind k)

/-- `try { … } catch`. -/
def tryCatch : Async σ ε φ α → (φ → Async σ ε φ α) → Async σ ε φ α
  | done a, _ => done a
  | fail e, k => k e
  | act f next, k => act f fun s => (next s).tryCatch k
  | await ready next, k => await ready (next.tryCatch k)

/-- Run a program for its outcome, whether it returns or throws. -/
def attempt : Async σ ε φ α → Async σ ε φ (Except φ α)
  | done a => done (.ok a)
  | fail e => done (.error e)
  | act f next => act f fun s => (next s).attempt
  | await ready next => await ready next.attempt

instance : Monad (Async σ ε φ) where
  pure := done
  bind := bind

instance : MonadExceptOf φ (Async σ ε φ) where
  throw := fail
  tryCatch := tryCatch

@[simp] theorem pure_eq (a : α) : (pure a : Async σ ε φ α) = done a := rfl

@[simp] theorem throw_eq (e : φ) : (throw e : Async σ ε φ α) = fail e := rfl

@[simp] theorem done_bind (a : α) (k : α → Async σ ε φ β) : done a >>= k = k a := rfl

@[simp] theorem fail_bind (e : φ) (k : α → Async σ ε φ β) : fail e >>= k = fail e := rfl

@[simp] theorem act_bind (f : σ → σ × List ε) (next : σ → Async σ ε φ α)
    (k : α → Async σ ε φ β) : act f next >>= k = act f fun s => next s >>= k := rfl

@[simp] theorem await_bind (ready : σ → Bool) (next : Async σ ε φ α) (k : α → Async σ ε φ β) :
    await ready next >>= k = await ready (next >>= k) := rfl

@[simp] theorem tryCatch_done (a : α) (k : φ → Async σ ε φ α) : (done a).tryCatch k = done a := rfl

@[simp] theorem tryCatch_fail (e : φ) (k : φ → Async σ ε φ α) : (fail e).tryCatch k = k e := rfl

theorem bind_assoc {γ : Type} (p : Async σ ε φ α) (k : α → Async σ ε φ β)
    (l : β → Async σ ε φ γ) : p >>= k >>= l = p >>= fun a => k a >>= l := by
  induction p with
  | done a => rfl
  | fail e => rfl
  | act f next ih =>
    simp only [act_bind]
    exact congrArg (act f) (funext ih)
  | await ready next ih =>
    simp only [await_bind]
    exact congrArg (await ready) ih

/-- Read the state. -/
def read (f : σ → α) : Async σ ε φ α := act (fun s => (s, [])) fun s => done (f s)

/-- Change the state. -/
def modify (f : σ → σ) : Async σ ε φ Unit := act (fun s => (f s, [])) fun _ => done ()

/-- Report an event. -/
def emit (e : ε) : Async σ ε φ Unit := act (fun s => (s, [e])) fun _ => done ()

/-- `await` on something that is ready at once or becomes ready by itself. -/
def pause : Async σ ε φ Unit := await (fun _ => true) (done ())

/-- Go on with the outcome of a synchronous computation. -/
def ofExcept : Except φ α → Async σ ε φ α
  | .ok a => done a
  | .error e => fail e

@[simp] theorem ofExcept_ok (a : α) : (ofExcept (.ok a) : Async σ ε φ α) = done a := rfl

@[simp] theorem ofExcept_error (e : φ) : (ofExcept (.error e) : Async σ ε φ α) = fail e := rfl

/-! ## Runs

An event is recorded with the state its access found. -/

/-- Run to the end without interruption; `none` when an `await` would never be ready. -/
def run : Async σ ε φ α → σ → Option (Except φ α × σ × List (σ × ε))
  | done a, s => some (.ok a, s, [])
  | fail e, s => some (.error e, s, [])
  | act f next, s =>
    ((next s).run (f s).1).map fun (r, t, trace) => (r, t, (f s).2.map (s, ·) ++ trace)
  | await ready next, s => if ready s then next.run s else none

/-- Run up to the next `await`. -/
def advance : Async σ ε φ α → σ → Async σ ε φ α × σ × List (σ × ε)
  | act f next, s =>
    match (next s).advance (f s).1 with
    | (p, t, trace) => (p, t, (f s).2.map (s, ·) ++ trace)
  | p, s => (p, s, [])

/-- A state with programs that are under way on it. -/
structure Pool (σ ε φ : Type) where
  state : σ
  tasks : List (Async σ ε φ Unit)

inductive Move (κ : Type) where
  /-- Start a program. -/
  | start (command : κ)
  /-- Let a program run up to its next `await`. -/
  | resume (task : Nat)
deriving DecidableEq, Repr

/-- Which programs may be started in which states. -/
abbrev System (σ ε φ κ : Type) := κ → σ → Option (Async σ ε φ Unit)

/-- One step of a pool, with the events it reports. -/
def Pool.step (system : System σ ε φ κ) (w : Pool σ ε φ) :
    Move κ → Option (Pool σ ε φ × List (σ × ε))
  | .start command =>
    match system command w.state with
    | none => none
    | some p =>
      match p.advance w.state with
      | (p, t, trace) => some (⟨t, w.tasks ++ [p]⟩, trace)
  | .resume task =>
    match w.tasks[task]? with
    | some (await ready next) =>
      if ready w.state then
        match next.advance w.state with
        | (p, t, trace) => some (⟨t, w.tasks.set task p⟩, trace)
      else none
    | _ => none

/-- The pools that runs from `init` reach when every event meets `cond`. -/
inductive Reach (system : System σ ε φ κ) (init : Pool σ ε φ → Prop) (cond : σ → ε → Prop) :
    Pool σ ε φ → Prop where
  | init (w : Pool σ ε φ) (h : init w) : Reach system init cond w
  | step {w w' : Pool σ ε φ} {move : Move κ} {trace : List (σ × ε)}
      (hreach : Reach system init cond w) (hstep : w.step system move = some (w', trace))
      (hcond : ∀ x ∈ trace, cond x.1 x.2) : Reach system init cond w'

/-- Make a list of moves, when each of them can be made. -/
def Pool.play (system : System σ ε φ κ) : List (Move κ) → Pool σ ε φ → Option (Pool σ ε φ)
  | [], w => some w
  | move :: rest, w => (w.step system move).bind fun (w', _) => w'.play system rest

theorem Reach.play {system : System σ ε φ κ} {init : Pool σ ε φ → Prop} {moves : List (Move κ)}
    {w w' : Pool σ ε φ} (h : Reach system init (fun _ _ => True) w)
    (hplay : w.play system moves = some w') : Reach system init (fun _ _ => True) w' := by
  induction moves generalizing w with
  | nil =>
    cases hplay
    exact h
  | cons move rest ih =>
    rw [Pool.play, Option.bind_eq_some_iff] at hplay
    obtain ⟨⟨v, trace⟩, hstep, hrest⟩ := hplay
    exact ih (h.step hstep fun _ _ => trivial) hrest

/-! ## Safety -/

/-- What a program may rely on and what it owes. -/
structure Contract (σ ε : Type) where
  /-- Kept by every access. -/
  inv : σ → Prop
  /-- How the state may change while a program waits. -/
  rely : σ → σ → Prop
  /-- How an access may change the state, and what it reports. -/
  guar : σ → List ε → σ → Prop
  /-- What is already known of an access. -/
  given : σ → σ → Prop
  /-- The events considered. -/
  cond : σ → ε → Prop
  /-- What holds of every event. -/
  prop : σ → ε → Prop
  /-- The states in which no program may have to wait. -/
  prompt : σ → Prop

/-- From `s` on, each access of the program keeps the contract as long as the others do; it
returns in a state that meets `post` and throws in one that meets `exc`. -/
def Safe (c : Contract σ ε) (post : α → σ → Prop) (exc : φ → σ → Prop) :
    Async σ ε φ α → σ → Prop
  | done a, s => post a s
  | fail e, s => exc e s
  | act f next, s =>
    (∀ e ∈ (f s).2, c.cond s e) →
      (∀ e ∈ (f s).2, c.prop s e) ∧
        (c.given s (f s).1 →
          c.guar s (f s).2 (f s).1 ∧ c.inv (f s).1 ∧ Safe c post exc (next s) (f s).1)
  | await ready next, s =>
    ∀ t, c.rely s t → c.inv t →
      (c.prompt t → ready t = true) ∧ (ready t = true → Safe c post exc next t)

section Safe

variable {c : Contract σ ε} {post post' : α → σ → Prop} {exc exc' : φ → σ → Prop}

theorem Safe.mono (hpost : ∀ a s, post a s → post' a s) (hexc : ∀ e s, exc e s → exc' e s) :
    ∀ {p : Async σ ε φ α} {s : σ}, Safe c post exc p s → Safe c post' exc' p s := by
  intro p
  induction p with
  | done a => exact fun h => hpost _ _ h
  | fail e => exact fun h => hexc _ _ h
  | act f next ih =>
    intro s h hcond
    refine ⟨(h hcond).1, fun hgiven => ?_⟩
    obtain ⟨hguar, hinv, hnext⟩ := (h hcond).2 hgiven
    exact ⟨hguar, hinv, ih _ hnext⟩
  | await ready next ih => exact fun h t hrely hinv =>
    ⟨(h t hrely hinv).1, fun hready => ih ((h t hrely hinv).2 hready)⟩

theorem Safe.bind {postβ : β → σ → Prop} {k : α → Async σ ε φ β} :
    ∀ {p : Async σ ε φ α} {s : σ},
      Safe c (fun a s => Safe c postβ exc (k a) s) exc p s → Safe c postβ exc (p >>= k) s := by
  intro p
  induction p with
  | done a => exact fun h => h
  | fail e => exact fun h => h
  | act f next ih =>
    intro s h hcond
    refine ⟨(h hcond).1, fun hgiven => ?_⟩
    obtain ⟨hguar, hinv, hnext⟩ := (h hcond).2 hgiven
    exact ⟨hguar, hinv, ih _ hnext⟩
  | await ready next ih => exact fun h t hrely hinv =>
    ⟨(h t hrely hinv).1, fun hready => ih ((h t hrely hinv).2 hready)⟩

theorem Safe.tryCatch {k : φ → Async σ ε φ α} :
    ∀ {p : Async σ ε φ α} {s : σ},
      Safe c post (fun e s => Safe c post exc (k e) s) p s →
        Safe c post exc (p.tryCatch k) s := by
  intro p
  induction p with
  | done a => exact fun h => h
  | fail e => exact fun h => h
  | act f next ih =>
    intro s h hcond
    refine ⟨(h hcond).1, fun hgiven => ?_⟩
    obtain ⟨hguar, hinv, hnext⟩ := (h hcond).2 hgiven
    exact ⟨hguar, hinv, ih _ hnext⟩
  | await ready next ih => exact fun h t hrely hinv =>
    ⟨(h t hrely hinv).1, fun hready => ih ((h t hrely hinv).2 hready)⟩

theorem Safe.attempt {post : Except φ α → σ → Prop} :
    ∀ {p : Async σ ε φ α} {s : σ},
      Safe c (fun a s => post (.ok a) s) (fun e s => post (.error e) s) p s →
        Safe c post exc p.attempt s := by
  intro p
  induction p with
  | done a => exact fun h => h
  | fail e => exact fun h => h
  | act f next ih =>
    intro s h hcond
    refine ⟨(h hcond).1, fun hgiven => ?_⟩
    obtain ⟨hguar, hinv, hnext⟩ := (h hcond).2 hgiven
    exact ⟨hguar, hinv, ih _ hnext⟩
  | await ready next ih => exact fun h t hrely hinv =>
    ⟨(h t hrely hinv).1, fun hready => ih ((h t hrely hinv).2 hready)⟩

/-- A safe program ends in a state that meets the invariant. -/
theorem Safe.with_inv :
    ∀ {p : Async σ ε φ α} {s : σ}, Safe c post exc p s → c.inv s →
      Safe c (fun a s => post a s ∧ c.inv s) (fun e s => exc e s ∧ c.inv s) p s := by
  intro p
  induction p with
  | done a => exact fun h hinv => ⟨h, hinv⟩
  | fail e => exact fun h hinv => ⟨h, hinv⟩
  | act f next ih =>
    intro s h _ hcond
    refine ⟨(h hcond).1, fun hgiven => ?_⟩
    obtain ⟨hguar, hinv, hnext⟩ := (h hcond).2 hgiven
    exact ⟨hguar, hinv, ih _ hnext hinv⟩
  | await ready next ih => exact fun h _ t hrely hinv =>
    ⟨(h t hrely hinv).1, fun hready => ih ((h t hrely hinv).2 hready) hinv⟩

/-- A contract whose `given` another contract supplies, proved on top of that one. -/
theorem Safe.layer {c c' : Contract σ ε} {post post' : α → σ → Prop} {exc exc' : φ → σ → Prop}
    (hrely : ∀ s t, c'.rely s t → c.rely s t) (hinv : ∀ s, c'.inv s → c.inv s)
    (hcond : ∀ s e, c'.cond s e → c'.prop s e → c.cond s e) (hbase : ∀ s t, c.given s t)
    (hgiven : ∀ s events t, c.guar s events t → c.inv t → c'.given s t) :
    ∀ {p : Async σ ε φ α} {s : σ}, Safe c post exc p s → Safe c' post' exc' p s →
      Safe { c' with given := fun _ _ => True } (fun a s => post a s ∧ post' a s)
        (fun e s => exc e s ∧ exc' e s) p s := by
  intro p
  induction p with
  | done a => exact fun h h' => ⟨h, h'⟩
  | fail e => exact fun h h' => ⟨h, h'⟩
  | act f next ih =>
    intro s h h' hc
    obtain ⟨hprop, hrest⟩ := h' hc
    obtain ⟨hguar, hi, hnext⟩ :=
      (h fun e he => hcond _ _ (hc e he) (hprop e he)).2 (hbase _ _)
    obtain ⟨hguar', hi', hnext'⟩ := hrest (hgiven _ _ _ hguar hi)
    exact ⟨hprop, fun _ => ⟨hguar', hi', ih _ hnext hnext'⟩⟩
  | await ready next ih =>
    intro s h h' t hr hi
    refine ⟨(h' t hr hi).1, fun hready => ?_⟩
    exact ih ((h t (hrely _ _ hr) (hinv _ hi)).2 hready) ((h' t hr hi).2 hready)

/-- Whatever keeps `c` keeps `c'`: what an access is known to do under `c` preserves what `c'` adds. -/
structure Contract.Refines (c c' : Contract σ ε) : Prop where
  inv : ∀ s, c'.inv s → c.inv s
  rely : ∀ s t, c'.rely s t → c.rely s t
  cond : ∀ s e, c'.cond s e → c.cond s e
  given : ∀ s t, c.given s t
  prop : ∀ s e, c'.inv s → c'.cond s e → c.prop s e → c'.prop s e
  prompt : ∀ s, c'.inv s → c'.prompt s → c.prompt s
  guar : ∀ s events t, c'.inv s → (∀ e ∈ events, c'.cond s e) → (∀ e ∈ events, c'.prop s e) →
    c.guar s events t → c.inv t → c'.guar s events t ∧ c'.inv t

theorem Safe.refine {c c' : Contract σ ε} (h : c.Refines c') {post : α → σ → Prop}
    {exc : φ → σ → Prop} :
    ∀ {p : Async σ ε φ α} {s : σ}, Safe c post exc p s → c'.inv s → Safe c' post exc p s := by
  intro p
  induction p with
  | done a => exact fun hsafe _ => hsafe
  | fail e => exact fun hsafe _ => hsafe
  | act f next ih =>
    intro s hsafe hinv hcond
    obtain ⟨hprop, hrest⟩ := hsafe fun e he => h.cond s e (hcond e he)
    have hprop' : ∀ e ∈ (f s).2, c'.prop s e := fun e he =>
      h.prop s e hinv (hcond e he) (hprop e he)
    refine ⟨hprop', fun _ => ?_⟩
    obtain ⟨hguar, hinvt, hnext⟩ := hrest (h.given _ _)
    obtain ⟨hguar', hinvt'⟩ := h.guar _ _ _ hinv hcond hprop' hguar hinvt
    exact ⟨hguar', hinvt', ih _ hnext hinvt'⟩
  | await ready next ih =>
    intro s hsafe _ t hrely hinv
    obtain ⟨hprompt, hnext⟩ := hsafe t (h.rely _ _ hrely) (h.inv _ hinv)
    exact ⟨fun hp => hprompt (h.prompt _ hinv hp), fun hready => ih (hnext hready) hinv⟩

/-- An uninterrupted run of a safe program. -/
theorem Safe.run (hrefl : ∀ s, c.rely s s) (hgiven : ∀ s t, c.given s t) :
    ∀ {p : Async σ ε φ α} {s t : σ} {r : Except φ α} {trace : List (σ × ε)},
      Safe c post exc p s → c.inv s → p.run s = some (r, t, trace) →
      (∀ x ∈ trace, c.cond x.1 x.2) →
      (∀ x ∈ trace, c.prop x.1 x.2) ∧ Relation.ReflTransGen (fun s t => ∃ events, c.guar s events t) s t ∧ c.inv t ∧
        match r with
        | .ok a => post a t
        | .error e => exc e t := by
  intro p
  induction p with
  | done a =>
    intro s t r trace h hinv hrun _
    cases hrun
    exact ⟨by simp, .refl, hinv, h⟩
  | fail e =>
    intro s t r trace h hinv hrun _
    cases hrun
    exact ⟨by simp, .refl, hinv, h⟩
  | act f next ih =>
    intro s t r trace h _ hrun hcond
    rw [Async.run, Option.map_eq_some_iff] at hrun
    obtain ⟨⟨r', t', trace'⟩, hrun, heq⟩ := hrun
    cases heq
    have hnow : ∀ e ∈ (f s).2, c.cond s e := fun e he =>
      hcond (s, e) (List.mem_append_left _ (List.mem_map_of_mem he))
    obtain ⟨hguar, hinv, hnext⟩ := (h hnow).2 (hgiven _ _)
    obtain ⟨hprop', hguar', hrest⟩ :=
      ih s hnext hinv hrun fun x hx => hcond x (List.mem_append_right _ hx)
    refine ⟨fun x hx => ?_, .head ⟨_, hguar⟩ hguar', hrest⟩
    rcases List.mem_append.mp hx with hx | hx
    · obtain ⟨e, he, rfl⟩ := List.mem_map.mp hx
      exact (h hnow).1 e he
    · exact hprop' x hx
  | await ready next ih =>
    intro s t r trace h hinv hrun hcond
    rw [Async.run] at hrun
    split at hrun
    · rename_i hready
      exact ih ((h s (hrefl s) hinv).2 hready) hinv hrun hcond
    · cases hrun

/-- A program that waits, or has ended, stays safe while others run. -/
def Parked (c : Contract σ ε) (p : Async σ ε φ α) (s : σ) : Prop :=
  ∀ t, c.rely s t → c.inv t → Safe c (fun _ _ => True) (fun _ _ => True) p t

/-- How a state may change by accesses that keep the contract. -/
abbrev Contract.Steps (c : Contract σ ε) : σ → σ → Prop :=
  Relation.ReflTransGen fun s t => ∃ events, c.guar s events t

theorem Safe.advance (hgiven : ∀ s t, c.given s t) :
    ∀ {p q : Async σ ε φ α} {s t : σ} {trace : List (σ × ε)},
      Safe c (fun _ _ => True) (fun _ _ => True) p s → c.inv s →
      p.advance s = (q, t, trace) → (∀ x ∈ trace, c.cond x.1 x.2) →
      (∀ x ∈ trace, c.prop x.1 x.2) ∧ c.Steps s t ∧ c.inv t ∧
        Safe c (fun _ _ => True) (fun _ _ => True) q t := by
  intro p
  induction p with
  | done a =>
    intro q s t trace h hinv hrun _
    cases hrun
    exact ⟨by simp, .refl, hinv, trivial⟩
  | fail e =>
    intro q s t trace h hinv hrun _
    cases hrun
    exact ⟨by simp, .refl, hinv, trivial⟩
  | act f next ih =>
    intro q s t trace h _ hrun hcond
    rw [Async.advance] at hrun
    cases hnext : (next s).advance (f s).1 with
    | mk p' rest =>
      rw [hnext] at hrun
      cases hrun
      have hnow : ∀ e ∈ (f s).2, c.cond s e := fun e he =>
        hcond (s, e) (List.mem_append_left _ (List.mem_map_of_mem he))
      obtain ⟨hg, hinv, hsafe⟩ := (h hnow).2 (hgiven _ _)
      obtain ⟨hprop', hsteps, hinv', hq⟩ :=
        ih s hsafe hinv hnext fun x hx => hcond x (List.mem_append_right _ hx)
      refine ⟨fun x hx => ?_, .head ⟨_, hg⟩ hsteps, hinv', hq⟩
      rcases List.mem_append.mp hx with hx | hx
      · obtain ⟨e, he, rfl⟩ := List.mem_map.mp hx
        exact (h hnow).1 e he
      · exact hprop' x hx
  | await ready next ih =>
    intro q s t trace h hinv hrun _
    cases hrun
    exact ⟨by simp, .refl, hinv, h⟩

end Safe

/-! ## Pools

The contract of a program may depend on its place in the pool, so that a program that is started
only once can rely on more than its own guarantee. -/

/-- Contracts for the places of a pool: what one program does is something the others can rely
on. Programs started later take the places from `first` on. -/
structure Keeps (c : Nat → Contract σ ε) (first : Nat) (system : System σ ε φ κ) : Prop where
  refl : ∀ i s, (c i).rely s s
  trans : ∀ i s t u, (c i).rely s t → (c i).rely t u → (c i).rely s u
  guar : ∀ i j, i ≠ j → ∀ s events t, (c i).guar s events t → (c j).rely s t
  given : ∀ i s t, (c i).given s t
  inv : ∀ i j s, (c i).inv s → (c j).inv s
  cond : ∀ i j s e, (c i).cond s e → (c j).cond s e
  prop : ∀ i j s e, (c i).prop s e → (c j).prop s e
  start : ∀ i, first ≤ i → ∀ command s p, (c i).inv s → system command s = some p →
    Safe (c i) (fun _ _ => True) (fun _ _ => True) p s

/-- A pool all of whose programs are safe. -/
structure Pool.Sound (c : Nat → Contract σ ε) (first : Nat) (w : Pool σ ε φ) : Prop where
  size : first ≤ w.tasks.length
  inv : ∀ i, (c i).inv w.state
  parked : ∀ i p, w.tasks[i]? = some p → Parked (c i) p w.state

section Pool

variable {c : Nat → Contract σ ε} {first : Nat} {system : System σ ε φ κ}
  {init : Pool σ ε φ → Prop}

namespace Keeps

theorem steps (hc : Keeps c first system) {i j : Nat} (hij : i ≠ j) {s t : σ}
    (h : (c i).Steps s t) : (c j).rely s t := by
  induction h with
  | refl => exact hc.refl j s
  | tail _ hstep ih =>
    obtain ⟨events, hguar⟩ := hstep
    exact hc.trans j _ _ _ ih (hc.guar i j hij _ _ _ hguar)

theorem parked_of_rely (hc : Keeps c first system) {i : Nat} {p : Async σ ε φ α} {s t : σ}
    (h : Parked (c i) p s) (hst : (c i).rely s t) : Parked (c i) p t :=
  fun u hu => h u (hc.trans i _ _ _ hst hu)

/-- A program that was run up to its next `await` can be left there. -/
theorem parked_of_safe (hc : Keeps c first system) {i : Nat} :
    ∀ {p q : Async σ ε φ α} {s t : σ} {trace : List (σ × ε)}, p.advance s = (q, t, trace) →
      Safe (c i) (fun _ _ => True) (fun _ _ => True) q t → Parked (c i) q t := by
  intro p
  induction p with
  | done a =>
    intro q s t trace hrun _
    cases hrun
    exact fun _ _ _ => trivial
  | fail e =>
    intro q s t trace hrun _
    cases hrun
    exact fun _ _ _ => trivial
  | act f next ih =>
    intro q s t trace hrun h
    rw [Async.advance] at hrun
    cases hnext : (next s).advance (f s).1 with
    | mk p' rest =>
      rw [hnext] at hrun
      cases hrun
      exact ih s hnext h
  | await ready next ih =>
    intro q s t trace hrun h
    cases hrun
    exact fun u hu _ v hv hiv => h v (hc.trans i _ _ _ hu hv) hiv

/-- A program at place `i` runs up to its next `await`. -/
theorem advanced (hc : Keeps c first system) {w : Pool σ ε φ} (hw : w.Sound c first) {i : Nat}
    {p q : Async σ ε φ Unit} {t : σ} {trace : List (σ × ε)}
    (hsafe : Safe (c i) (fun _ _ => True) (fun _ _ => True) p w.state)
    (hrun : p.advance w.state = (q, t, trace)) (hcond : ∀ x ∈ trace, (c 0).cond x.1 x.2) :
    (∀ x ∈ trace, (c 0).prop x.1 x.2) ∧ (∀ i, (c i).inv t) ∧ Parked (c i) q t ∧
      ∀ j p', j ≠ i → w.tasks[j]? = some p' → Parked (c j) p' t := by
  obtain ⟨hprop, hsteps, hinv, hq⟩ := hsafe.advance (hc.given i) (hw.inv i) hrun
    fun x hx => hc.cond 0 i _ _ (hcond x hx)
  exact ⟨fun x hx => hc.prop i 0 _ _ (hprop x hx), fun j => hc.inv i j _ hinv,
    hc.parked_of_safe hrun hq, fun j p' hji hp' =>
      hc.parked_of_rely (hw.parked j p' hp') (hc.steps (Ne.symm hji) hsteps)⟩

/-- One step of a pool keeps the contracts. -/
theorem step (hc : Keeps c first system) {w w' : Pool σ ε φ} {move : Move κ}
    {trace : List (σ × ε)} (hw : w.Sound c first)
    (hstep : w.step system move = some (w', trace)) (hcond : ∀ x ∈ trace, (c 0).cond x.1 x.2) :
    (∀ x ∈ trace, (c 0).prop x.1 x.2) ∧ w'.Sound c first := by
  cases move with
  | start command =>
    rw [Pool.step] at hstep
    split at hstep
    · cases hstep
    · rename_i p hp
      split at hstep
      rename_i q t trace' hrun
      cases hstep
      obtain ⟨hprop, hinv, hq, hothers⟩ := hc.advanced hw
        (hc.start _ hw.size _ _ _ (hw.inv _) hp) hrun hcond
      refine ⟨hprop, ?_, hinv, fun j p' hp' => ?_⟩
      · exact Nat.le_trans hw.size (by simp)
      · rw [List.getElem?_append] at hp'
        split at hp'
        · rename_i hj
          exact hothers j p' (Nat.ne_of_lt hj) hp'
        · rename_i hj
          obtain ⟨hlt, rfl⟩ := List.getElem?_eq_some_iff.mp hp'
          have hj' : j = w.tasks.length := by
            simp only [List.length_singleton] at hlt
            omega
          subst hj'
          simpa using hq
  | resume task =>
    rw [Pool.step] at hstep
    split at hstep
    · rename_i ready next htask
      split at hstep
      · rename_i hready
        split at hstep
        rename_i q t trace' hrun
        cases hstep
        have hsafe := (hw.parked _ _ htask _ (hc.refl _ _) (hw.inv _) _ (hc.refl _ _)
          (hw.inv _)).2 hready
        obtain ⟨hprop, hinv, hq, hothers⟩ := hc.advanced hw hsafe hrun hcond
        refine ⟨hprop, by simpa using hw.size, hinv, fun j p' hp' => ?_⟩
        rw [List.getElem?_set] at hp'
        split at hp'
        · rename_i hj
          subst hj
          split at hp'
          · cases hp'
            exact hq
          · cases hp'
        · rename_i hj
          exact hothers j p' (Ne.symm hj) hp'
      · cases hstep
    · cases hstep

/-- What a program that goes on does to the state. -/
theorem resumed (hc : Keeps c first system) {w w' : Pool σ ε φ} {task : Nat}
    {trace : List (σ × ε)} (hw : w.Sound c first)
    (hstep : w.step system (.resume task) = some (w', trace))
    (hcond : ∀ x ∈ trace, (c 0).cond x.1 x.2) : (c task).Steps w.state w'.state := by
  rw [Pool.step] at hstep
  split at hstep
  · rename_i ready next htask
    split at hstep
    · rename_i hready
      split at hstep
      rename_i q t trace' hrun
      cases hstep
      have hsafe := (hw.parked _ _ htask _ (hc.refl _ _) (hw.inv _) _ (hc.refl _ _)
        (hw.inv _)).2 hready
      exact (hsafe.advance (hc.given task) (hw.inv task) hrun
        fun x hx => hc.cond 0 task _ _ (hcond x hx)).2.1
    · cases hstep
  · cases hstep

/-- Every pool that is reached keeps the contracts. -/
theorem reach (hc : Keeps c first system) (hinit : ∀ w, init w → w.Sound c first)
    {w : Pool σ ε φ} (hreach : Reach system init (c 0).cond w) : w.Sound c first := by
  induction hreach with
  | init w h => exact hinit w h
  | step _ hstep hcond ih => exact (hc.step ih hstep hcond).2

/-- A program that waits in a state that is `prompt` can go on. -/
theorem ready (hc : Keeps c first system) {w : Pool σ ε φ} (hw : w.Sound c first) {i : Nat}
    {ready : σ → Bool} {next : Async σ ε φ Unit} (htask : w.tasks[i]? = some (await ready next))
    (hprompt : (c i).prompt w.state) : ready w.state = true :=
  (hw.parked i _ htask _ (hc.refl i _) (hw.inv i) _ (hc.refl i _) (hw.inv i)).1 hprompt

end Keeps

end Pool

/-! ## Programs that have something left to do -/

/-- The program ends only by an access that leads to `goal`. -/
def Owes (goal : σ → Prop) : Async σ ε φ α → Prop
  | done _ => False
  | fail _ => False
  | act f next => ∀ s, Owes goal (next s) ∨ (goal (f s).1 ∧ ∃ a, next s = done a)
  | await _ next => Owes goal next

theorem Owes.attempt {goal : σ → Prop} {k : Except φ α → Async σ ε φ β} (hk : ∀ r, Owes goal (k r)) :
    ∀ p : Async σ ε φ α, Owes goal (p.attempt >>= k) := by
  intro p
  induction p with
  | done a => exact hk (.ok a)
  | fail e => exact hk (.error e)
  | act f next ih => exact fun s => .inl (ih s)
  | await ready next ih => exact ih

/-- Run up to its next `await`, a program that has something left to do has done it, or waits. -/
theorem Owes.advance {goal : σ → Prop} :
    ∀ {p q : Async σ ε φ α} {s t : σ} {trace : List (σ × ε)}, Owes goal p →
      p.advance s = (q, t, trace) →
      goal t ∨ ∃ ready next, q = await ready next ∧ Owes goal next := by
  intro p
  induction p with
  | done a => exact fun h => h.elim
  | fail e => exact fun h => h.elim
  | act f next ih =>
    intro q s t trace h hrun
    rw [Async.advance] at hrun
    cases hnext : (next s).advance (f s).1 with
    | mk p' rest =>
      rw [hnext] at hrun
      cases hrun
      rcases h s with hnow | ⟨hgoal, a, hdone⟩
      · exact ih s hnow hnext
      · rw [hdone] at hnext
        cases hnext
        exact .inl hgoal
  | await ready next ih =>
    intro q s t trace h hrun
    cases hrun
    exact .inr ⟨ready, next, rfl, h⟩

/-- A program of the pool that has something left to do has done it, or still waits. -/
theorem Pool.step_owes {system : System σ ε φ κ} {goal : σ → Prop} {w w' : Pool σ ε φ}
    {move : Move κ} {trace : List (σ × ε)} {j : Nat} {ready : σ → Bool}
    {next : Async σ ε φ Unit} (hstep : w.step system move = some (w', trace))
    (hj : w.tasks[j]? = some (await ready next)) (howes : Owes goal next) :
    goal w'.state ∨ ∃ ready next, w'.tasks[j]? = some (await ready next) ∧ Owes goal next := by
  cases move with
  | start command =>
    rw [Pool.step] at hstep
    split at hstep
    · cases hstep
    · split at hstep
      cases hstep
      obtain ⟨hlt, -⟩ := List.getElem?_eq_some_iff.mp hj
      exact .inr ⟨ready, next, by rw [List.getElem?_append_left hlt, hj], howes⟩
  | resume task =>
    rw [Pool.step] at hstep
    split at hstep
    · rename_i ready' next' htask
      split at hstep
      · split at hstep
        rename_i q t trace' hrun
        cases hstep
        by_cases hjt : task = j
        · subst hjt
          rw [htask] at hj
          cases hj
          rcases howes.advance hrun with hgoal | ⟨ready, next, rfl, hq⟩
          · exact .inl hgoal
          · obtain ⟨hlt, -⟩ := List.getElem?_eq_some_iff.mp htask
            exact .inr ⟨ready, next, by simp [hlt], hq⟩
        · exact .inr ⟨ready, next, (List.getElem?_set_ne hjt).trans hj, howes⟩
      · cases hstep
    · cases hstep

/-- A pool none of whose programs can go on. -/
theorem Pool.resume_eq_none {system : System σ ε φ κ} {w : Pool σ ε φ}
    (h : ∀ j, j < w.tasks.length → (w.step system (.resume j)).isNone = true) (j : Nat) :
    w.step system (.resume j) = none := by
  rcases Nat.lt_or_ge j w.tasks.length with hj | hj
  · simpa using h j hj
  · have hnone : w.tasks[j]? = none := by simpa using hj
    rw [Pool.step, hnone]

/-! ## Programs that touch only part of the state -/

/-- Every access of the program is within `keep` and reports only `quiet` events, and the program
never has to wait. -/
def Framed (keep : σ → σ → Prop) (quiet : ε → Prop) : Async σ ε φ α → Prop
  | done _ => True
  | fail _ => True
  | act f next =>
    ∀ s, keep s (f s).1 ∧ (∀ e ∈ (f s).2, quiet e) ∧ Framed keep quiet (next s)
  | await ready next => (∀ s, ready s = true) ∧ Framed keep quiet next

section Framed

variable {keep : σ → σ → Prop} {quiet : ε → Prop}

theorem Framed.bind {k : α → Async σ ε φ β} (hk : ∀ a, Framed keep quiet (k a)) :
    ∀ {p : Async σ ε φ α}, Framed keep quiet p → Framed keep quiet (p >>= k) := by
  intro p
  induction p with
  | done a => exact fun _ => hk a
  | fail e => exact fun _ => trivial
  | act f next ih => exact fun h s => ⟨(h s).1, (h s).2.1, ih s (h s).2.2⟩
  | await ready next ih => exact fun h => ⟨h.1, ih h.2⟩

theorem Framed.mono {keep' : σ → σ → Prop} {quiet' : ε → Prop}
    (h : ∀ s t, keep s t → keep' s t) (hquiet : ∀ e, quiet e → quiet' e) :
    ∀ {p : Async σ ε φ α}, Framed keep quiet p → Framed keep' quiet' p := by
  intro p
  induction p with
  | done a => exact fun _ => trivial
  | fail e => exact fun _ => trivial
  | act f next ih =>
    exact fun hp s =>
      ⟨h _ _ (hp s).1, fun e he => hquiet e ((hp s).2.1 e he), ih s (hp s).2.2⟩
  | await ready next ih => exact fun hp => ⟨hp.1, ih hp.2⟩

theorem Framed.attempt :
    ∀ {p : Async σ ε φ α}, Framed keep quiet p → Framed keep quiet p.attempt := by
  intro p
  induction p with
  | done a => exact fun _ => trivial
  | fail e => exact fun _ => trivial
  | act f next ih => exact fun hp s => ⟨(hp s).1, (hp s).2.1, ih s (hp s).2.2⟩
  | await ready next ih => exact fun hp => ⟨hp.1, ih hp.2⟩

theorem Framed.advance :
    ∀ {p q : Async σ ε φ α} {s t : σ} {trace : List (σ × ε)}, Framed keep quiet p →
      p.advance s = (q, t, trace) → Relation.ReflTransGen keep s t ∧ Framed keep quiet q := by
  intro p
  induction p with
  | done a =>
    intro q s t trace _ hrun
    cases hrun
    exact ⟨.refl, trivial⟩
  | fail e =>
    intro q s t trace _ hrun
    cases hrun
    exact ⟨.refl, trivial⟩
  | act f next ih =>
    intro q s t trace hp hrun
    rw [Async.advance] at hrun
    cases hnext : (next s).advance (f s).1 with
    | mk p' rest =>
      rw [hnext] at hrun
      cases hrun
      obtain ⟨hkeep, hq⟩ := ih s (hp s).2.2 hnext
      exact ⟨.head (hp s).1 hkeep, hq⟩
  | await ready next ih =>
    intro q s t trace hp hrun
    cases hrun
    exact ⟨.refl, hp⟩

/-- What a framed program does not touch stays as it is. -/
theorem Framed.safe {c : Contract σ ε} {P : σ → Prop}
    (hrely : ∀ s t, P s → c.rely s t → c.inv t → P t)
    (hprop : ∀ s e, quiet e → c.prop s e)
    (hkeep : ∀ s events t, P s → c.inv s → keep s t → (∀ e ∈ events, quiet e) →
      c.guar s events t ∧ c.inv t ∧ P t) :
    ∀ {p : Async σ ε φ α} {s : σ}, Framed keep quiet p → P s → c.inv s →
      Safe c (fun _ t => P t) (fun _ t => P t) p s := by
  intro p
  induction p with
  | done a => exact fun _ hP _ => hP
  | fail e => exact fun _ hP _ => hP
  | act f next ih =>
    intro s h hP hinv _
    obtain ⟨hk, hquiet, hnext⟩ := h s
    obtain ⟨hguar, hinvt, hPt⟩ := hkeep s _ _ hP hinv hk hquiet
    exact ⟨fun e he => hprop s e (hquiet e he), fun _ => ⟨hguar, hinvt, ih s hnext hPt hinvt⟩⟩
  | await ready next ih =>
    intro s h hP _ t hst hinvt
    exact ⟨fun _ => h.1 t, fun _ => ih h.2 (hrely s t hP hst hinvt) hinvt⟩

end Framed

/-! ## Programs with given accesses -/

/-- Every access of the program is an `access`, whatever the others do while it waits. -/
def Within (access : σ → List ε → σ → Prop) : Async σ ε φ α → Prop
  | done _ => True
  | fail _ => True
  | act f next => ∀ s, access s (f s).2 (f s).1 ∧ Within access (next s)
  | await _ next => Within access next

section Within

variable {access : σ → List ε → σ → Prop}

theorem Within.bind {k : α → Async σ ε φ β} :
    ∀ {p : Async σ ε φ α}, Within access p → (∀ a, Within access (k a)) →
      Within access (p >>= k) := by
  intro p
  induction p with
  | done a => exact fun _ hk => hk a
  | fail e => exact fun _ _ => trivial
  | act f next ih => exact fun h hk s => ⟨(h s).1, ih s (h s).2 hk⟩
  | await ready next ih => exact fun h hk => ih h hk

theorem Within.attempt : ∀ {p : Async σ ε φ α}, Within access p → Within access p.attempt := by
  intro p
  induction p with
  | done a => exact fun _ => trivial
  | fail e => exact fun _ => trivial
  | act f next ih => exact fun h s => ⟨(h s).1, ih s (h s).2⟩
  | await ready next ih => exact fun h => ih h

theorem Within.tryCatch {k : φ → Async σ ε φ α} :
    ∀ {p : Async σ ε φ α}, Within access p → (∀ e, Within access (k e)) →
      Within access (p.tryCatch k) := by
  intro p
  induction p with
  | done a => exact fun _ _ => trivial
  | fail e => exact fun _ hk => hk e
  | act f next ih => exact fun h hk s => ⟨(h s).1, ih s (h s).2 hk⟩
  | await ready next ih => exact fun h hk => ih h hk

theorem Within.ofExcept (result : Except φ α) :
    Within access (ofExcept result : Async σ ε φ α) := by
  cases result <;> trivial

theorem Within.mono {access' : σ → List ε → σ → Prop}
    (h : ∀ s events t, access s events t → access' s events t) :
    ∀ {p : Async σ ε φ α}, Within access p → Within access' p := by
  intro p
  induction p with
  | done a => exact fun _ => trivial
  | fail e => exact fun _ => trivial
  | act f next ih => exact fun hp s => ⟨h _ _ _ (hp s).1, ih s (hp s).2⟩
  | await ready next ih => exact fun hp => ih hp

theorem Framed.within {keep : σ → σ → Prop} {quiet : ε → Prop}
    (h : ∀ s events t, keep s t → (∀ e ∈ events, quiet e) → access s events t) :
    ∀ {p : Async σ ε φ α}, Framed keep quiet p → Within access p := by
  intro p
  induction p with
  | done a => exact fun _ => trivial
  | fail e => exact fun _ => trivial
  | act f next ih => exact fun hp s => ⟨h _ _ _ (hp s).1 (hp s).2.1, ih s (hp s).2.2⟩
  | await ready next ih => exact fun hp => ih hp.2

variable {C : σ → ε → Prop} {P : σ → Prop}

/-- What every access preserves holds wherever the program gets to, and wherever it reports an
event. -/
theorem Within.advance
    (hP : ∀ s events t, access s events t → (∀ e ∈ events, C s e) → P s → P t) :
    ∀ {p q : Async σ ε φ α} {s t : σ} {trace : List (σ × ε)}, Within access p →
      p.advance s = (q, t, trace) → (∀ x ∈ trace, C x.1 x.2) → P s →
      P t ∧ Within access q ∧
        ∀ x ∈ trace, P x.1 ∧ ∃ events t, x.2 ∈ events ∧ access x.1 events t := by
  intro p
  induction p with
  | done a =>
    intro q s t trace _ hrun _ hs
    cases hrun
    exact ⟨hs, trivial, by simp⟩
  | fail e =>
    intro q s t trace _ hrun _ hs
    cases hrun
    exact ⟨hs, trivial, by simp⟩
  | act f next ih =>
    intro q s t trace hp hrun hcond hs
    rw [Async.advance] at hrun
    cases hnext : (next s).advance (f s).1 with
    | mk p' rest =>
      rw [hnext] at hrun
      cases hrun
      have hnow : ∀ e ∈ (f s).2, C s e := fun e he =>
        hcond (s, e) (List.mem_append_left _ (List.mem_map_of_mem he))
      have hmid := hP _ _ _ (hp s).1 hnow hs
      obtain ⟨ht, hq, htrace⟩ :=
        ih s (hp s).2 hnext (fun x hx => hcond x (List.mem_append_right _ hx)) hmid
      refine ⟨ht, hq, fun x hx => ?_⟩
      rcases List.mem_append.mp hx with hx | hx
      · obtain ⟨e, he, rfl⟩ := List.mem_map.mp hx
        exact ⟨hs, _, _, he, (hp s).1⟩
      · exact htrace x hx
  | await ready next ih =>
    intro q s t trace hp hrun _ hs
    cases hrun
    exact ⟨hs, hp, by simp⟩

/-- All the programs of a pool are within `access`, and its state meets `P`. -/
structure Pool.Within (access : σ → List ε → σ → Prop) (P : σ → Prop) (w : Pool σ ε φ) : Prop where
  state : P w.state
  tasks : ∀ p ∈ w.tasks, Async.Within access p

/-- One step of a pool. -/
theorem Pool.Within.step {system : System σ ε φ κ}
    (hsystem : ∀ command s p, P s → system command s = some p → Async.Within access p)
    (hP : ∀ s events t, access s events t → (∀ e ∈ events, C s e) → P s → P t)
    {w w' : Pool σ ε φ} {move : Move κ} {trace : List (σ × ε)} (hw : w.Within access P)
    (hstep : w.step system move = some (w', trace)) (hcond : ∀ x ∈ trace, C x.1 x.2) :
    w'.Within access P ∧ ∀ x ∈ trace, P x.1 ∧ ∃ events t, x.2 ∈ events ∧ access x.1 events t := by
  cases move with
  | start command =>
    rw [Pool.step] at hstep
    split at hstep
    · cases hstep
    · rename_i p hp
      split at hstep
      rename_i q t trace' hrun
      cases hstep
      obtain ⟨ht, hq, htrace⟩ :=
        (hsystem _ _ _ hw.state hp).advance hP hrun hcond hw.state
      refine ⟨⟨ht, fun p' hp' => ?_⟩, htrace⟩
      rcases List.mem_append.mp hp' with hp' | hp'
      · exact hw.tasks p' hp'
      · rw [List.mem_singleton.mp hp']
        exact hq
  | resume task =>
    rw [Pool.step] at hstep
    split at hstep
    · rename_i ready next htask
      split at hstep
      · split at hstep
        rename_i q t trace' hrun
        cases hstep
        have hnext : Async.Within access next := hw.tasks (await ready next) (List.mem_of_getElem? htask)
        obtain ⟨ht, hq, htrace⟩ := hnext.advance hP hrun hcond hw.state
        refine ⟨⟨ht, fun p' hp' => ?_⟩, htrace⟩
        rcases List.mem_or_eq_of_mem_set hp' with hp' | rfl
        · exact hw.tasks p' hp'
        · exact hq
      · cases hstep
    · cases hstep

/-- What every access preserves holds of every pool that is reached. -/
theorem Reach.within {system : System σ ε φ κ} {init : Pool σ ε φ → Prop}
    (hsystem : ∀ command s p, P s → system command s = some p → Async.Within access p)
    (hP : ∀ s events t, access s events t → (∀ e ∈ events, C s e) → P s → P t)
    (hinit : ∀ w, init w → w.Within access P) {w : Pool σ ε φ}
    (h : Reach system init C w) : w.Within access P := by
  induction h with
  | init w hw => exact hinit w hw
  | step _ hstep hcond ih => exact (ih.step hsystem hP hstep hcond).1

end Within

end Async
