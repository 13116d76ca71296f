import Mathlib.Data.List.Induction
import Mathlib.Data.Option.Basic

/-!
# Machines

A machine takes one action after the other and refuses those that are impossible where it stands.
What every action preserves, a run does. States and actions are arbitrary.
-/

namespace Machine

variable {σ α : Type} {step : σ → α → Option σ}

def play (step : σ → α → Option σ) : σ → List α → Option σ
  | s, [] => some s
  | s, action :: rest => (step s action).bind fun t => play step t rest

theorem play_append (s : σ) (before after : List α) :
    play step s (before ++ after) = (play step s before).bind fun t => play step t after := by
  induction before generalizing s with
  | nil => rfl
  | cons action rest ih =>
    rw [List.cons_append, play, play, Option.bind_assoc]
    exact Option.bind_congr fun t _ => ih t

/-- Where a run comes by before its end. -/
theorem play_split {s t : σ} {before after : List α}
    (h : play step s (before ++ after) = some t) :
    ∃ u, play step s before = some u ∧ play step u after = some t := by
  rw [play_append, Option.bind_eq_some_iff] at h
  exact h

/-- A run, around one of its actions. -/
theorem play_around {s t : σ} {before after : List α} {action : α}
    (h : play step s (before ++ action :: after) = some t) :
    ∃ u u', play step s before = some u ∧ step u action = some u' ∧
      play step u' after = some t := by
  obtain ⟨u, hu, h⟩ := play_split h
  obtain ⟨u', hu', h⟩ := Option.bind_eq_some_iff.mp h
  exact ⟨u, u', hu, hu', h⟩

theorem play_concat {s t u : σ} {before : List α} {action : α} (h : play step s before = some t)
    (hstep : step t action = some u) : play step s (before ++ [action]) = some u := by
  rw [play_append, h, Option.bind_some, play, hstep]
  rfl

theorem play_mem {s t : σ} {actions : List α} (h : play step s actions = some t) {action : α}
    (hmem : action ∈ actions) : ∃ before after u u', actions = before ++ action :: after ∧
      play step s before = some u ∧ step u action = some u' ∧ play step u' after = some t := by
  obtain ⟨before, after, rfl⟩ := List.append_of_mem hmem
  obtain ⟨u, u', hbefore, hstep, hafter⟩ := play_around h
  exact ⟨before, after, u, u', rfl, hbefore, hstep, hafter⟩

/-- What every action of a run preserves, the run does. -/
theorem play_keeps {P : σ → Prop} {s t : σ} {actions : List α}
    (hstep : ∀ action ∈ actions, ∀ s t, P s → step s action = some t → P t)
    (h : play step s actions = some t) (hs : P s) : P t := by
  induction actions generalizing s with
  | nil =>
    cases h
    exact hs
  | cons action rest ih =>
    obtain ⟨u, hu, h⟩ := Option.bind_eq_some_iff.mp h
    exact ih (fun a ha => hstep a (List.mem_cons_of_mem _ ha)) h
      (hstep action List.mem_cons_self s u hs hu)

/-- Every action of the run is as `C` asks, in the state that it finds. -/
def Meets (step : σ → α → Option σ) (C : σ → α → Prop) : σ → List α → Prop
  | _, [] => True
  | s, action :: rest => C s action ∧ ∀ t ∈ step s action, Meets step C t rest

instance (C : σ → α → Prop) [∀ s action, Decidable (C s action)] (s : σ) (actions : List α) :
    Decidable (Meets step C s actions) := decide s actions
where
  decide (s : σ) : ∀ actions : List α, Decidable (Meets step C s actions)
    | [] => isTrue trivial
    | action :: rest =>
      match h : step s action with
      | none => decidable_of_iff (C s action) (by simp [Meets, h])
      | some t =>
        have := decide t rest
        decidable_of_iff (C s action ∧ Meets step C t rest) (by simp [Meets, h])

theorem Meets.of_append {C : σ → α → Prop} {s : σ} {before after : List α}
    (h : Meets step C s (before ++ after)) : Meets step C s before := by
  induction before generalizing s with
  | nil => trivial
  | cons action rest ih => exact ⟨h.1, fun t ht => ih (h.2 t ht)⟩

theorem Meets.cons {C : σ → α → Prop} {s t : σ} {action : α} {rest : List α} (hC : C s action)
    (hstep : step s action = some t) (hrest : Meets step C t rest) :
    Meets step C s (action :: rest) := by
  refine ⟨hC, fun u hu => ?_⟩
  cases hstep.symm.trans hu
  exact hrest

/-- A run meets a condition where each of its actions does. -/
theorem meets_iff {C : σ → α → Prop} {s t : σ} {actions : List α}
    (h : play step s actions = some t) :
    Meets step C s actions ↔ ∀ before action after u, actions = before ++ action :: after →
      play step s before = some u → C u action := by
  induction actions generalizing s with
  | nil => exact ⟨fun _ before action after _ hsplit => by simp at hsplit, fun _ => trivial⟩
  | cons first rest ih =>
    obtain ⟨v, hv, hrest⟩ := Option.bind_eq_some_iff.mp h
    constructor
    · rintro ⟨hfirst, hmeets⟩ before action after u hsplit hbefore
      cases before with
      | nil =>
        cases hsplit
        cases hbefore
        exact hfirst
      | cons _ before =>
        cases hsplit
        rw [play, hv] at hbefore
        exact (ih hrest).mp (hmeets v hv) before action after u rfl hbefore
    · intro hall
      refine ⟨hall [] first rest s rfl rfl, fun v' hv' => ?_⟩
      cases hv.symm.trans hv'
      refine (ih hrest).mpr fun before action after u hsplit hbefore => ?_
      refine hall (first :: before) action after u (by rw [hsplit]; rfl) ?_
      rw [play, hv]
      exact hbefore

/-- Two conditions that agree wherever a run comes that meets the second one. -/
theorem meets_congr {C C' : σ → α → Prop} {P : σ → Prop} {s : σ} {actions : List α}
    (hiff : ∀ s action, P s → (C s action ↔ C' s action))
    (hstep : ∀ s action t, P s → C' s action → step s action = some t → P t) (hs : P s) :
    Meets step C s actions ↔ Meets step C' s actions := by
  induction actions generalizing s with
  | nil => exact Iff.rfl
  | cons action rest ih =>
    refine Iff.trans (and_congr_left fun _ => hiff s action hs) (and_congr_right fun hC => ?_)
    exact forall₂_congr fun t ht => ih (hstep s action t hs hC ht)

theorem Meets.keeps {C : σ → α → Prop} {P : σ → Prop} {s t : σ} {actions : List α}
    (hmeets : Meets step C s actions)
    (hstep : ∀ s action t, P s → C s action → step s action = some t → P t)
    (h : play step s actions = some t) (hs : P s) : P t := by
  induction actions generalizing s with
  | nil =>
    cases h
    exact hs
  | cons action rest ih =>
    obtain ⟨u, hu, h⟩ := Option.bind_eq_some_iff.mp h
    exact ih (hmeets.2 u hu) h (hstep s action u hs hmeets.1 hu)

/-- Where the last of a list may be when the list is split. -/
theorem split_concat {α : Type} {xs before later : List α} {x y : α}
    (h : xs ++ [y] = before ++ x :: later) :
    (later = [] ∧ before = xs ∧ x = y) ∨
      ∃ later', later = later' ++ [y] ∧ xs = before ++ x :: later' := by
  rcases List.eq_nil_or_concat later with rfl | ⟨later', z, rfl⟩
  · obtain ⟨rfl, hlast⟩ := List.append_inj' h rfl
    exact .inl ⟨rfl, rfl, (List.cons.inj hlast).1.symm⟩
  · rw [List.concat_eq_append] at h ⊢
    rw [← List.cons_append, ← List.append_assoc] at h
    obtain ⟨hxs, hlast⟩ := List.append_inj' h rfl
    exact .inr ⟨later', by rw [(List.cons.inj hlast).1], hxs⟩

end Machine
