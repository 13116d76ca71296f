import PassVault.Lib.Runs

/-!
# Two runs of the same programs

A relational rely-guarantee predicate: on two states a program makes the same accesses, reports the
same events and goes on alike, while whatever else runs keeps the states related. What has been
found out about a state may be used later as long as the ways the states change preserve it.
-/

namespace Async

variable {σ ε φ κ α β : Type}

/-- What two runs keep. -/
structure Coupling (σ ε : Type) where
  /-- Holds between the two states. -/
  inv : σ → σ → Prop
  /-- How each of the states may change. -/
  rely : σ → σ → Prop
  /-- What holds of every event, in the state that its access found. -/
  prop : σ → ε → Prop
  refl : ∀ s, rely s s
  trans : ∀ s t u, rely s t → rely t u → rely s u

/-- From `s` and `s'` on, the program does the same; it returns in states that meet `post`. -/
def Coupled (c : Coupling σ ε) (post : α → σ → σ → Prop) : Async σ ε φ α → σ → σ → Prop
  | done a, s, s' => post a s s'
  | fail _, _, _ => True
  | act f next, s, s' =>
    ((f s').2 = (f s).2 ∧ next s' = next s ∧ ∀ e ∈ (f s).2, c.prop s e) ∧
      c.rely s (f s).1 ∧ c.rely s' (f s').1 ∧ c.inv (f s).1 (f s').1 ∧
      Coupled c post (next s) (f s).1 (f s').1
  | await ready next, s, s' => ∀ t t', c.rely s t → c.rely s' t' → c.inv t t' →
    ready t' = ready t ∧ Coupled c post next t t'

section Coupled

variable {c : Coupling σ ε} {post : α → σ → σ → Prop}

theorem Coupled.bind {post' : β → σ → σ → Prop} {k : α → Async σ ε φ β} :
    ∀ {p : Async σ ε φ α} {s s' : σ},
      Coupled c (fun a t t' => Coupled c post' (k a) t t') p s s' →
        Coupled c post' (p >>= k) s s' := by
  intro p
  induction p with
  | done a => exact fun h => h
  | fail e => exact fun _ => trivial
  | act f next ih =>
    intro s s' h
    obtain ⟨⟨hevents, hnext, hprop⟩, hs, hs', hinv, hrest⟩ := h
    exact ⟨⟨hevents, congrArg (· >>= k) hnext, hprop⟩, hs, hs', hinv, ih s hrest⟩
  | await ready next ih =>
    intro s s' h t t' ht ht' hinv
    obtain ⟨hready, hrest⟩ := h t t' ht ht' hinv
    exact ⟨hready, ih hrest⟩

theorem Coupled.mono {post' : α → σ → σ → Prop} (hpost : ∀ a t t', post a t t' → post' a t t') :
    ∀ {p : Async σ ε φ α} {s s' : σ}, Coupled c post p s s' → Coupled c post' p s s' := by
  intro p
  induction p with
  | done a => exact fun h => hpost _ _ _ h
  | fail e => exact fun _ => trivial
  | act f next ih =>
    intro s s' h
    obtain ⟨hsame, hs, hs', hinv, hrest⟩ := h
    exact ⟨hsame, hs, hs', hinv, ih s hrest⟩
  | await ready next ih =>
    intro s s' h t t' ht ht' hinv
    obtain ⟨hready, hrest⟩ := h t t' ht ht' hinv
    exact ⟨hready, ih hrest⟩

theorem Coupled.attempt :
    ∀ {p : Async σ ε φ α} {s s' : σ}, Coupled c post p s s' → c.inv s s' →
      Coupled c (fun r t t' => c.inv t t' ∧ ∀ a, r = .ok a → post a t t') p.attempt s s' := by
  intro p
  induction p with
  | done a => exact fun h hinv => ⟨hinv, fun b hb => by cases hb; exact h⟩
  | fail e => exact fun _ hinv => ⟨hinv, fun b hb => by cases hb⟩
  | act f next ih =>
    intro s s' h _
    obtain ⟨⟨hevents, hnext, hprop⟩, hs, hs', hinv, hrest⟩ := h
    exact ⟨⟨hevents, congrArg Async.attempt hnext, hprop⟩, hs, hs', hinv, ih s hrest hinv⟩
  | await ready next ih =>
    intro s s' h _ t t' ht ht' hinv
    obtain ⟨hready, hrest⟩ := h t t' ht ht' hinv
    exact ⟨hready, ih hrest hinv⟩

/-- Where the program returns, each state has only changed as it may. -/
theorem Coupled.with_rely :
    ∀ {p : Async σ ε φ α} {s s' : σ}, Coupled c post p s s' →
      Coupled c (fun a t t' => post a t t' ∧ c.rely s t ∧ c.rely s' t') p s s' := by
  intro p
  induction p with
  | done a => exact fun {s s'} h => ⟨h, c.refl s, c.refl s'⟩
  | fail e => exact fun _ => trivial
  | act f next ih =>
    intro s s' h
    obtain ⟨hsame, hs, hs', hinv, hrest⟩ := h
    exact ⟨hsame, hs, hs', hinv, (ih s hrest).mono fun a t t' ⟨hpost, ht, ht'⟩ =>
      ⟨hpost, c.trans _ _ _ hs ht, c.trans _ _ _ hs' ht'⟩⟩
  | await ready next ih =>
    intro s s' h t t' hst hst' hinv
    obtain ⟨hready, hrest⟩ := h t t' hst hst' hinv
    exact ⟨hready, (ih hrest).mono fun a u u' ⟨hpost, hu, hu'⟩ =>
      ⟨hpost, c.trans _ _ _ hst hu, c.trans _ _ _ hst' hu'⟩⟩

/-- On related states the program does the same and returns what meets `Q`. -/
abbrev Alike (c : Coupling σ ε) (Q : α → Prop) (p : Async σ ε φ α) : Prop :=
  ∀ s s', c.inv s s' → Coupled c (fun a t t' => Q a ∧ c.inv t t') p s s'

variable {Q : α → Prop}

theorem Alike.bind {Q' : β → Prop} {k : α → Async σ ε φ β} {p : Async σ ε φ α}
    (hk : ∀ a, Q a → Alike c Q' (k a)) (hp : Alike c Q p) : Alike c Q' (p >>= k) :=
  fun s s' hs => Coupled.bind ((hp s s' hs).mono fun a t t' h => hk a h.1 t t' h.2)

/-- What is known of the state that it starts on is known of what is left of it. -/
theorem Alike.before {post : β → σ → σ → Prop} {k : α → Async σ ε φ β} {p : Async σ ε φ α}
    {s s' : σ} (hs : c.inv s s')
    (hk : ∀ a t t', Q a → c.rely s t → c.inv t t' → Coupled c post (k a) t t')
    (hp : Alike c Q p) : Coupled c post (p >>= k) s s' :=
  Coupled.bind ((hp s s' hs).with_rely.mono fun a t t' ⟨h, ht, _⟩ => hk a t t' h.1 ht h.2)

theorem Alike.done {a : α} (h : Q a) : Alike c Q (done a : Async σ ε φ α) :=
  fun _ _ hs => ⟨h, hs⟩

theorem Alike.fail {e : φ} : Alike c Q (fail e : Async σ ε φ α) := fun _ _ _ => trivial

theorem Alike.ofExcept {result : Except φ α} (h : ∀ a, result = .ok a → Q a) :
    Alike c Q (ofExcept result : Async σ ε φ α) := by
  cases result with
  | ok a => exact .done (h a rfl)
  | error e => exact .fail

theorem Alike.await {ready : σ → Bool} {next : Async σ ε φ α}
    (hready : ∀ s s', c.inv s s' → ready s' = ready s) (hnext : Alike c Q next) :
    Alike c Q (await ready next) :=
  fun _ _ _ t t' _ _ hinv => ⟨hready t t' hinv, hnext t t' hinv⟩

theorem Alike.attempt {p : Async σ ε φ α} (hp : Alike c Q p) :
    Alike c (fun r => ∀ a, r = .ok a → Q a) p.attempt :=
  fun s s' hs => ((hp s s' hs).attempt hs).mono fun _ _ _ h =>
    ⟨fun a ha => (h.2 a ha).1, h.1⟩

/-- A program that runs up to its next `await` does so on both states, and can be left there. -/
theorem Coupled.advance :
    ∀ {p q : Async σ ε φ α} {s s' t : σ} {trace : List (σ × ε)},
      Coupled c (fun _ _ _ => True) p s s' → c.inv s s' → p.advance s = (q, t, trace) →
      (∀ x ∈ trace, c.prop x.1 x.2) ∧ c.rely s t ∧
        ∃ t' trace', p.advance s' = (q, t', trace') ∧ trace'.map (·.2) = trace.map (·.2) ∧
          c.rely s' t' ∧ c.inv t t' ∧
          ∀ u u', c.rely t u → c.rely t' u' → Coupled c (fun _ _ _ => True) q u u' := by
  intro p
  induction p with
  | done a =>
    intro q s s' t trace _ hinv hrun
    cases hrun
    exact ⟨by simp, c.refl _, s', [], rfl, rfl, c.refl _, hinv, fun _ _ _ _ => trivial⟩
  | fail e =>
    intro q s s' t trace _ hinv hrun
    cases hrun
    exact ⟨by simp, c.refl _, s', [], rfl, rfl, c.refl _, hinv, fun _ _ _ _ => trivial⟩
  | act f next ih =>
    intro q s s' t trace h _ hrun
    rw [Async.advance] at hrun
    cases hrest : (next s).advance (f s).1 with
    | mk p' rest =>
      rw [hrest] at hrun
      cases hrun
      obtain ⟨⟨hevents, hnext, hprop⟩, hs, hs', hinv, hcoupled⟩ := h
      obtain ⟨hlater, ht, t', trace', hrun', hmap, ht', hinv', hq⟩ := ih s hcoupled hinv hrest
      refine ⟨fun x hx => ?_, c.trans _ _ _ hs ht, t', (f s').2.map (s', ·) ++ trace', ?_, ?_,
        c.trans _ _ _ hs' ht', hinv', hq⟩
      · rcases List.mem_append.mp hx with hx | hx
        · obtain ⟨e, he, rfl⟩ := List.mem_map.mp hx
          exact hprop e he
        · exact hlater x hx
      · rw [Async.advance, hnext, hrun']
      · simp [hevents, hmap, Function.comp_def]
  | await ready next ih =>
    intro q s s' t trace h hinv hrun
    cases hrun
    exact ⟨by simp, c.refl _, s', [], rfl, rfl, c.refl _, hinv, fun u u' hu hu' v v' hv hv' =>
      h v v' (c.trans _ _ _ hu hv) (c.trans _ _ _ hu' hv')⟩

/-- Two pools of the same programs, each of which can go on alike. -/
structure Pool.Coupled (c : Coupling σ ε) (w w' : Pool σ ε φ) : Prop where
  state : c.inv w.state w'.state
  tasks : w'.tasks = w.tasks
  parked : ∀ p ∈ w.tasks, ∀ u u', c.rely w.state u → c.rely w'.state u' →
    Async.Coupled c (fun _ _ _ => True) p u u'

/-- One of the programs runs in both pools. -/
theorem Pool.Coupled.run {w w' : Pool σ ε φ} (hw : w.Coupled c w') {p q : Async σ ε φ Unit} {t : σ}
    {trace : List (σ × ε)} (tasks : List (Async σ ε φ Unit))
    (hp : Async.Coupled c (fun _ _ _ => True) p w.state w'.state)
    (hrun : p.advance w.state = (q, t, trace)) (htasks : ∀ p ∈ tasks, p = q ∨ p ∈ w.tasks) :
    (∀ x ∈ trace, c.prop x.1 x.2) ∧ ∃ t' trace', p.advance w'.state = (q, t', trace') ∧
      trace'.map (·.2) = trace.map (·.2) ∧ Pool.Coupled c ⟨t, tasks⟩ ⟨t', tasks⟩ := by
  obtain ⟨hprop, ht, t', trace', hrun', hmap, ht', hinv, hq⟩ := hp.advance hw.state hrun
  refine ⟨hprop, t', trace', hrun', hmap, hinv, rfl, fun p hp u u' hu hu' => ?_⟩
  rcases htasks p hp with rfl | hp
  · exact hq u u' hu hu'
  · exact hw.parked p hp u u' (c.trans _ _ _ ht hu) (c.trans _ _ _ ht' hu')

variable {system : System σ ε φ κ} {allowed : κ → Prop}

theorem Pool.Coupled.step
    (hsystem : ∀ command s s', allowed command → c.inv s s' →
      system command s' = system command s ∧ ∀ p, system command s = some p →
        Async.Coupled c (fun _ _ _ => True) p s s')
    {w w' v : Pool σ ε φ} {move : Move κ} {trace : List (σ × ε)} (hw : w.Coupled c w')
    (hmove : ∀ command, move = .start command → allowed command)
    (hstep : w.step system move = some (v, trace)) :
    (∀ x ∈ trace, c.prop x.1 x.2) ∧ ∃ v' trace', w'.step system move = some (v', trace') ∧
      trace'.map (·.2) = trace.map (·.2) ∧ v.Coupled c v' := by
  cases move with
  | start command =>
    rw [Pool.step] at hstep
    split at hstep
    · cases hstep
    · rename_i p hp
      split at hstep
      rename_i q t trace' hrun
      cases hstep
      obtain ⟨hsame, hcoupled⟩ := hsystem command _ _ (hmove command rfl) hw.state
      obtain ⟨hprop, t', trace', hrun', hmap, hv⟩ := hw.run (w.tasks ++ [q]) (hcoupled p hp) hrun
        (by simp [or_comm])
      refine ⟨hprop, _, trace', ?_, hmap, hv⟩
      rw [Pool.step, hsame, hp]
      dsimp only
      rw [hrun', hw.tasks]
  | resume task =>
    rw [Pool.step] at hstep
    split at hstep
    · rename_i ready next htask
      split at hstep
      · rename_i hready
        split at hstep
        rename_i q t trace' hrun
        cases hstep
        have hmem := List.mem_of_getElem? htask
        obtain ⟨hsame, hnext⟩ := hw.parked _ hmem _ _ (c.refl _) (c.refl _) _ _ (c.refl _)
          (c.refl _) hw.state
        obtain ⟨hprop, t', trace', hrun', hmap, hv⟩ := hw.run (w.tasks.set task q) hnext hrun
          (fun p' hp' => (List.mem_or_eq_of_mem_set hp').symm)
        refine ⟨hprop, _, trace', ?_, hmap, hv⟩
        rw [Pool.step, hw.tasks, htask]
        dsimp only
        rw [hsame, if_pos hready, hrun']
      · cases hstep
    · cases hstep

/-- Whatever allowed moves are made in one pool can be made in the other, and report the same. -/
theorem Pool.Coupled.record
    (hsystem : ∀ command s s', allowed command → c.inv s s' →
      system command s' = system command s ∧ ∀ p, system command s = some p →
        Async.Coupled c (fun _ _ _ => True) p s s')
    {moves : List (Move κ)} (hmoves : ∀ command, .start command ∈ moves → allowed command)
    {w w' v : Pool σ ε φ} {log : List (σ × ε)} (hw : w.Coupled c w')
    (h : w.record system moves = some (v, log)) :
    (∀ x ∈ log, c.prop x.1 x.2) ∧ ∃ v' log', w'.record system moves = some (v', log') ∧
      log'.map (·.2) = log.map (·.2) ∧ v.Coupled c v' := by
  induction moves generalizing w w' log with
  | nil =>
    cases h
    exact ⟨by simp, w', [], rfl, rfl, hw⟩
  | cons move rest ih =>
    obtain ⟨u, trace, later, hmove, hrest, rfl⟩ := Pool.record_cons.mp h
    obtain ⟨hprop, u', trace', hmove', hmap, hu⟩ := hw.step hsystem
      (fun command hcommand => hmoves command (hcommand ▸ List.mem_cons_self)) hmove
    obtain ⟨hlater, v', later', hrest', hmap', hv⟩ := ih
      (fun command hmem => hmoves command (List.mem_cons_of_mem _ hmem)) hu hrest
    refine ⟨fun x hx => ?_, v', trace' ++ later',
      Pool.record_cons.mpr ⟨u', trace', later', hmove', hrest', rfl⟩,
      by rw [List.map_append, List.map_append, hmap, hmap'], hv⟩
    rcases List.mem_append.mp hx with hx | hx
    · exact hprop x hx
    · exact hlater x hx

end Coupled

end Async
