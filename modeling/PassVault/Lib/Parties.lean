import Mathlib.Logic.Function.Basic
import PassVault.Lib.Async

/-!
# Pools that hear from each other

Parties that each run a pool of programs on a state of their own. What a party hears depends on
what was said before, by anyone. Contracts that hold as long as what is heard is good, and that
make what is said good, hold in every network that is reached.
-/

namespace Async

variable {ι σ ε φ κ : Type}

/-- The networks that are reached from `init`, and what was reported on the way. `heard` is what a
party may hear after what was reported, and `restart` what remains of a state when its programs are
gone. -/
inductive Parties [DecidableEq ι] (system : ι → System σ ε φ κ) (restart : σ → σ)
    (heard : List (ι × ε) → ε → Prop) (init : ι → Pool σ ε φ) :
    (ι → Pool σ ε φ) → List (ι × ε) → Prop where
  | init : Parties system restart heard init init []
  | move {n : ι → Pool σ ε φ} {log : List (ι × ε)} {i : ι} {move : Move κ} {w : Pool σ ε φ}
      {trace : List (σ × ε)} (h : Parties system restart heard init n log)
      (hstep : (n i).step (system i) move = some (w, trace))
      (hheard : ∀ x ∈ trace, heard log x.2) :
    Parties system restart heard init (Function.update n i w)
      (log ++ trace.map fun x => (i, x.2))
  | restart {n : ι → Pool σ ε φ} {log : List (ι × ε)} (i : ι)
      (h : Parties system restart heard init n log) :
    Parties system restart heard init (Function.update n i ⟨restart (n i).state, []⟩) log

section Play

variable [DecidableEq ι] {restart : σ → σ} {init n n' : ι → Pool σ ε φ} {log log' : List (ι × ε)}
  (system : ι → System σ ε φ κ) (heard : List (ι × ε) → ε → Prop)
  [∀ log e, Decidable (heard log e)]

/-- Make a list of moves, when each can be made and only what may be heard is. -/
def Parties.play : List (ι × Move κ) → (ι → Pool σ ε φ) → List (ι × ε) →
    Option ((ι → Pool σ ε φ) × List (ι × ε))
  | [], n, log => some (n, log)
  | (i, next) :: rest, n, log =>
    ((n i).step (system i) next).bind fun (w, trace) =>
      if ∀ x ∈ trace, heard log x.2 then
        play rest (Function.update n i w) (log ++ trace.map fun x => (i, x.2))
      else none

variable {system heard}

theorem Parties.of_play {moves : List (ι × Move κ)}
    (h : Parties system restart heard init n log)
    (hplay : Parties.play system heard moves n log = some (n', log')) :
    Parties system restart heard init n' log' := by
  induction moves generalizing n log with
  | nil =>
    cases hplay
    exact h
  | cons first rest ih =>
    obtain ⟨i, move⟩ := first
    rw [Parties.play, Option.bind_eq_some_iff] at hplay
    obtain ⟨⟨w, trace⟩, hstep, hrest⟩ := hplay
    dsimp only at hrest
    split at hrest
    · rename_i hheard
      exact ih (h.move hstep hheard) hrest
    · cases hrest

end Play

section Contracts

variable {c : ι → Contract σ ε} {system : ι → System σ ε φ κ} {restart : σ → σ}
  {heard : List (ι × ε) → ε → Prop} {init n : ι → Pool σ ε φ} {log : List (ι × ε)}
  {good admitted : ι → ε → Prop}

/-- Contracts of parties that say only what is good, as long as they hear only what is good and do
only what is admitted. -/
structure Cooperates (c : ι → Contract σ ε) (system : ι → System σ ε φ κ) (restart : σ → σ)
    (heard : List (ι × ε) → ε → Prop) (good admitted : ι → ε → Prop) : Prop where
  keeps : ∀ i, Keeps (fun _ => c i) 0 (system i)
  restart : ∀ i s, (c i).inv s → (c i).inv (restart s)
  hears : ∀ i s e log, (∀ x ∈ log, good x.1 x.2) → heard log e → admitted i e → (c i).cond s e
  tells : ∀ i s e, (c i).prop s e → good i e

theorem Pool.sound_idle {c : Contract σ ε} {s : σ} (h : c.inv s) :
    (⟨s, []⟩ : Pool σ ε φ).Sound (fun _ => c) 0 :=
  ⟨Nat.zero_le _, fun _ => h, fun _ _ hp => by cases hp⟩

/-- Whatever the parties do that is admitted, each keeps its contract and nothing that is not good
is said. -/
theorem Parties.sound [DecidableEq ι] (hc : Cooperates c system restart heard good admitted)
    (hinit : ∀ i, (init i).Sound (fun _ => c i) 0)
    (h : Parties system restart heard init n log) (hadmitted : ∀ x ∈ log, admitted x.1 x.2) :
    (∀ i, (n i).Sound (fun _ => c i) 0) ∧ ∀ x ∈ log, good x.1 x.2 := by
  induction h with
  | init => exact ⟨hinit, by simp⟩
  | @move n log i move w trace h hstep hheard ih =>
    obtain ⟨hsound, hgood⟩ := ih fun x hx => hadmitted x (List.mem_append_left _ hx)
    have hcond : ∀ x ∈ trace, (c i).cond x.1 x.2 := by
      intro x hx
      refine hc.hears i _ _ log hgood (hheard x hx) (hadmitted (i, x.2) ?_)
      exact List.mem_append_right _ (List.mem_map.mpr ⟨x, hx, rfl⟩)
    obtain ⟨hprop, hw⟩ := (hc.keeps i).step (hsound i) hstep hcond
    constructor
    · intro j
      by_cases hj : j = i
      · subst hj
        rwa [Function.update_self]
      · rw [Function.update_of_ne hj]
        exact hsound j
    · intro x hx
      rcases List.mem_append.mp hx with hx | hx
      · exact hgood x hx
      · obtain ⟨y, hy, rfl⟩ := List.mem_map.mp hx
        exact hc.tells i _ _ (hprop y hy)
  | @restart n log i h ih =>
    obtain ⟨hsound, hgood⟩ := ih hadmitted
    refine ⟨fun j => ?_, hgood⟩
    by_cases hj : j = i
    · subst hj
      rw [Function.update_self]
      exact Pool.sound_idle (hc.restart j _ ((hsound j).inv 0))
    · rw [Function.update_of_ne hj]
      exact hsound j

/-- A program all of whose accesses keep the contract, whatever the others do. -/
theorem Within.safe {α : Type} {c : Contract σ ε} {access : σ → List ε → σ → Prop}
    (h : ∀ s events t, access s events t → c.inv s → (∀ e ∈ events, c.cond s e) →
      (∀ e ∈ events, c.prop s e) ∧ c.guar s events t ∧ c.inv t)
    (hready : ∀ s, ¬ c.prompt s) :
    ∀ {p : Async σ ε φ α} {s : σ}, Within access p → c.inv s →
      Safe c (fun _ _ => True) (fun _ _ => True) p s := by
  intro p
  induction p with
  | done a => exact fun _ _ => trivial
  | fail e => exact fun _ _ => trivial
  | act f next ih =>
    intro s hp hinv hcond
    obtain ⟨hprop, hguar, hinvt⟩ := h _ _ _ (hp s).1 hinv hcond
    exact ⟨hprop, fun _ => ⟨hguar, hinvt, ih s (hp s).2 hinvt⟩⟩
  | await ready next ih =>
    intro s hp _ t _ hinv
    exact ⟨fun hprompt => (hready t hprompt).elim, fun _ => ih hp hinv⟩

end Contracts

end Async
