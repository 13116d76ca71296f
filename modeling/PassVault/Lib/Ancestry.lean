import Mathlib.Logic.Relation
import Mathlib.Data.Set.Finite.Basic
import Mathlib.Order.WellFoundedSet

/-!
# Ancestry over a parent relation

A history is a relation `E` where `E x p` says that `p` is a parent of `x`. An ancestor is
reached by zero or more parent steps (`Relation.ReflTransGen E`), a proper ancestor by at least
one (`Relation.TransGen E`). This file holds the general facts about ancestry, best common
ancestors, and the overlay of one history on another, over an arbitrary type of ids.
-/

namespace Ancestry

open Relation

variable {α : Type*} {E L R : α → α → Prop}

/-- No node is a proper ancestor of itself. -/
def Acyclic (E : α → α → Prop) : Prop := ∀ x, ¬ TransGen E x x

/-- `x` is an ancestor of both `a` and `b`. -/
def Common (E : α → α → Prop) (a b x : α) : Prop := ReflTransGen E a x ∧ ReflTransGen E b x

/-- A best common ancestor: no other common ancestor lies properly above it. -/
def Base (E : α → α → Prop) (a b x : α) : Prop :=
  Common E a b x ∧ ∀ y, Common E a b y → ¬ TransGen E y x

theorem Common.symm {a b x : α} (h : Common E a b x) : Common E b a x := ⟨h.2, h.1⟩

theorem Common.down {a b x y : α} (h : Common E a b x) (hxy : ReflTransGen E x y) :
    Common E a b y := ⟨h.1.trans hxy, h.2.trans hxy⟩

theorem Base.symm {a b x : α} (h : Base E a b x) : Base E b a x :=
  ⟨h.1.symm, fun y hy => h.2 y hy.symm⟩

theorem Acyclic.ne (hE : Acyclic E) {a b : α} (hab : TransGen E a b) : a ≠ b := by
  rintro rfl
  exact hE a hab

/-- An ancestor other than the node itself is a proper one. -/
theorem transGen_of_ne {a b : α} (hab : ReflTransGen E a b) (hne : a ≠ b) : TransGen E a b := by
  rcases reflTransGen_iff_eq_or_transGen.mp hab with h | h
  · exact absurd h.symm hne
  · exact h

/-- The ancestors of a node of a finite acyclic history are well-founded from above. -/
theorem Acyclic.wellFoundedOn (hE : Acyclic E) {S : Set α} (hS : S.Finite) :
    S.WellFoundedOn (TransGen E) := by
  have : IsTrans S (Subrel (TransGen E) (· ∈ S)) := ⟨fun _ _ _ h h' => TransGen.trans h h'⟩
  have : Std.Irrefl (Subrel (TransGen E) (· ∈ S)) := ⟨fun y => hE y⟩
  have := hS.to_subtype
  exact Finite.wellFounded_of_trans_of_irrefl _

/-- In a finite acyclic history every common ancestor lies below a best one. -/
theorem exists_base (hE : Acyclic E) {a b x : α} (hfin : {y | ReflTransGen E a y}.Finite)
    (hx : Common E a b x) : ∃ m, Base E a b m ∧ ReflTransGen E m x := by
  let S : Set α := {y | Common E a b y ∧ ReflTransGen E y x}
  have hS : S.Finite := hfin.subset fun y hy => hy.1.1
  obtain ⟨⟨m, hm⟩, -, hmax⟩ :=
    (hE.wellFoundedOn hS).has_min Set.univ ⟨⟨x, hx, .refl⟩, Set.mem_univ _⟩
  refine ⟨m, ⟨hm.1, fun y hy hym => ?_⟩, hm.2⟩
  exact hmax ⟨y, hy, hym.to_reflTransGen.trans hm.2⟩ (Set.mem_univ _) hym

/-- A path stays inside a set that is closed under parents. -/
theorem mem_of_reflTransGen {S : Set α} (hclosed : ∀ x p, x ∈ S → E x p → p ∈ S) {a b : α}
    (ha : a ∈ S) (hab : ReflTransGen E a b) : b ∈ S := by
  induction hab with
  | refl => exact ha
  | tail _ hstep ih => exact hclosed _ _ ih hstep

/-! ## Overlaying one history on another

`overlay D L R` is the history that takes the parents of a node from `R` where `R` defines the
node (the ids in `D`) and from `L` elsewhere. `Compatible` says, in terms of `L` and `R` alone,
when that changes nothing about the nodes `L` holds. -/

/-- The history that reads a node of `D` in `R` and every other node in `L`. -/
def overlay (D : Set α) (L R : α → α → Prop) (x p : α) : Prop :=
  (x ∈ D ∧ R x p) ∨ (x ∉ D ∧ L x p)

/-- What `R` may say about the nodes `held` by `L` without changing their ancestry. -/
structure Compatible (held D : Set α) (L R : α → α → Prop) : Prop where
  /-- `R` claims no ancestry between held nodes that `L` does not have. -/
  claims : ∀ u ∈ held, ∀ v ∈ held, ReflTransGen R u v → ReflTransGen L u v
  /-- A parent `L` gives to a node that `R` redefines is still above it: at or above some other
  held node that `R` places above the redefined one. -/
  keeps : ∀ u ∈ held, u ∈ D → ∀ p, L u p → ∃ w ∈ held, TransGen R u w ∧ ReflTransGen L w p
  /-- A node foreign to `L` that `R` places above ancestors of both sides of a fork is placed
  above a common ancestor the fork already has. -/
  forks : ∀ a ∈ held, ∀ b ∈ held, ¬ ReflTransGen L a b → ¬ ReflTransGen L b a →
    ∀ u w x, ReflTransGen L a u → ReflTransGen L b w → x ∉ held →
      ReflTransGen R u x → ReflTransGen R w x → ∃ c, Common L a b c ∧ ReflTransGen R c x

/-- Verdicts about two nodes are the same in two histories: who is above whom, and which are
the best common ancestors of a fork. -/
structure SameVerdict (E E' : α → α → Prop) (a b : α) : Prop where
  below : ReflTransGen E a b ↔ ReflTransGen E' a b
  above : ReflTransGen E b a ↔ ReflTransGen E' b a
  bases : ¬ ReflTransGen E' a b → ¬ ReflTransGen E' b a → ∀ x, Base E a b x ↔ Base E' a b x

section Overlay

variable {held D : Set α}

/-- A claim of `R` is a path of the overlay: every node it leaves is defined by `R`. -/
theorem overlay_of_claim (hR : ∀ x p, R x p → x ∈ D) {a b : α} (hab : ReflTransGen R a b) :
    ReflTransGen (overlay D L R) a b :=
  ReflTransGen.mono (fun x p h => Or.inl ⟨hR x p h, h⟩) _ _ hab

/-- Where an overlay path from a held node stands: at a held node which is a proper `L`
ancestor, or at a foreign node that `R` places above a held `L` ancestor. -/
theorem overlay_path (hLheld : ∀ x p, L x p → x ∈ held ∧ p ∈ held) (hRacyclic : Acyclic R)
    (hclaims : ∀ u ∈ held, ∀ v ∈ held, ReflTransGen R u v → ReflTransGen L u v)
    {u z : α} (hu : u ∈ held) (hpath : TransGen (overlay D L R) u z) :
    (z ∈ held ∧ TransGen L u z) ∨
      (z ∉ held ∧ ∃ w ∈ held, ReflTransGen L u w ∧ TransGen R w z) := by
  -- One `R` step out of a held node or of a foreign node above one.
  have step : ∀ w ∈ held, ReflTransGen L u w → ∀ z, TransGen R w z →
      (z ∈ held ∧ TransGen L u z) ∨
        (z ∉ held ∧ ∃ w ∈ held, ReflTransGen L u w ∧ TransGen R w z) := by
    intro w hw huw z hwz
    by_cases hz : z ∈ held
    · have hL := hclaims w hw z hz hwz.to_reflTransGen
      exact Or.inl ⟨hz, (transGen_of_ne hL (hRacyclic.ne hwz)).trans_right huw⟩
    · exact Or.inr ⟨hz, w, hw, huw, hwz⟩
  induction hpath with
  | single h =>
    rcases h with ⟨-, h⟩ | ⟨-, h⟩
    · exact step u hu .refl _ (.single h)
    · exact Or.inl ⟨(hLheld _ _ h).2, .single h⟩
  | tail _ h ih =>
    rcases ih with ⟨hy, huy⟩ | ⟨hy, w, hw, huw, hwy⟩
    · rcases h with ⟨-, h⟩ | ⟨-, h⟩
      · exact step _ hy huy.to_reflTransGen _ (.single h)
      · exact Or.inl ⟨(hLheld _ _ h).2, huy.tail h⟩
    · rcases h with ⟨-, h⟩ | ⟨-, h⟩
      · exact step w hw huw _ (hwy.tail h)
      · exact absurd (hLheld _ _ h).1 hy

/-- An overlay path between held nodes is a path of `L`. -/
theorem transGen_of_overlay (hLheld : ∀ x p, L x p → x ∈ held ∧ p ∈ held)
    (hRacyclic : Acyclic R)
    (hclaims : ∀ u ∈ held, ∀ v ∈ held, ReflTransGen R u v → ReflTransGen L u v)
    {u v : α} (hu : u ∈ held) (hv : v ∈ held) (huv : TransGen (overlay D L R) u v) :
    TransGen L u v := by
  rcases overlay_path hLheld hRacyclic hclaims hu huv with ⟨-, h⟩ | ⟨h, -⟩
  · exact h
  · exact absurd hv h

theorem reflTransGen_of_overlay (hLheld : ∀ x p, L x p → x ∈ held ∧ p ∈ held)
    (hRacyclic : Acyclic R)
    (hclaims : ∀ u ∈ held, ∀ v ∈ held, ReflTransGen R u v → ReflTransGen L u v)
    {u v : α} (hu : u ∈ held) (hv : v ∈ held) (huv : ReflTransGen (overlay D L R) u v) :
    ReflTransGen L u v := by
  rcases reflTransGen_iff_eq_or_transGen.mp huv with rfl | h
  · exact .refl
  · exact (transGen_of_overlay hLheld hRacyclic hclaims hu hv h).to_reflTransGen

/-- A path of `L` survives in the overlay, by well-founded induction on where it starts: a
redefined node keeps its parents above it, through held nodes that lie further up. -/
theorem overlay_of_held (hLwf : WellFounded fun p x => L x p)
    (hLheld : ∀ x p, L x p → x ∈ held ∧ p ∈ held) (hR : ∀ x p, R x p → x ∈ D)
    (hRacyclic : Acyclic R) (h : Compatible held D L R) {u v : α} (huv : ReflTransGen L u v) :
    ReflTransGen (overlay D L R) u v := by
  induction u using hLwf.transGen.induction generalizing v with
  | _ u ih =>
    rcases huv.cases_head with rfl | ⟨p, hup, hpv⟩
    · exact .refl
    have ih' : ∀ w, TransGen L u w → ReflTransGen L w v → ReflTransGen (overlay D L R) w v :=
      fun w huw hwv => ih w ((transGen_swap (r := L)).mpr huw) hwv
    have hu := (hLheld u p hup).1
    by_cases huD : u ∈ D
    · obtain ⟨w, hw, huw, hwp⟩ := h.keeps u hu huD p hup
      have hL : TransGen L u w :=
        transGen_of_ne (h.claims u hu w hw huw.to_reflTransGen) (hRacyclic.ne huw)
      exact (overlay_of_claim hR huw.to_reflTransGen).trans (ih' w hL (hwp.trans hpv))
    · exact .head (Or.inr ⟨huD, hup⟩) (ih' p (.single hup) hpv)

/-- The ancestor relation among held nodes is the same in the overlay. -/
theorem overlay_iff_held (hLwf : WellFounded fun p x => L x p)
    (hLheld : ∀ x p, L x p → x ∈ held ∧ p ∈ held) (hR : ∀ x p, R x p → x ∈ D)
    (hRacyclic : Acyclic R) (h : Compatible held D L R) {u v : α} (hu : u ∈ held)
    (hv : v ∈ held) : ReflTransGen (overlay D L R) u v ↔ ReflTransGen L u v :=
  ⟨reflTransGen_of_overlay hLheld hRacyclic h.claims hu hv,
    overlay_of_held hLwf hLheld hR hRacyclic h⟩

/-- A foreign node takes every overlay step in `R`, so a path to a held node enters the held
nodes along `R`. -/
theorem overlay_enters_held (hLheld : ∀ x p, L x p → x ∈ held ∧ p ∈ held) {z v : α}
    (hv : v ∈ held) (hpath : ReflTransGen (overlay D L R) z v) :
    ∃ w ∈ held, ReflTransGen R z w ∧ ReflTransGen (overlay D L R) w v := by
  induction hpath using ReflTransGen.head_induction_on with
  | refl => exact ⟨v, hv, .refl, .refl⟩
  | @head z y hstep hrest ih =>
    by_cases hz : z ∈ held
    · exact ⟨z, hz, .refl, .head hstep hrest⟩
    · obtain ⟨w, hw, hyw, hwv⟩ := ih
      rcases hstep with ⟨-, h⟩ | ⟨-, h⟩
      · exact ⟨w, hw, .head h hyw, hwv⟩
      · exact absurd (hLheld _ _ h).1 hz

/-- The last held node of an overlay path leads to its end along `R`. -/
theorem overlay_leaves_held (hLheld : ∀ x p, L x p → x ∈ held ∧ p ∈ held) {m x : α}
    (hm : m ∈ held) (hpath : ReflTransGen (overlay D L R) m x) :
    ∃ c ∈ held, ReflTransGen (overlay D L R) m c ∧ ReflTransGen R c x := by
  induction hpath with
  | refl => exact ⟨m, hm, .refl, .refl⟩
  | tail hpath hstep ih =>
    obtain ⟨c, hc, hmc, hcy⟩ := ih
    rcases hstep with ⟨-, h⟩ | ⟨hD, h⟩
    · exact ⟨c, hc, hmc, hcy.tail h⟩
    · exact ⟨_, (hLheld _ _ h).2, hpath.tail (Or.inr ⟨hD, h⟩), .refl⟩

/-- A compatible overlay has no cycle. A cycle through a held node is a cycle of `L`; one that
meets no held node takes all its steps in `R`. -/
theorem overlay_acyclic (hLacyclic : Acyclic L)
    (hLheld : ∀ x p, L x p → x ∈ held ∧ p ∈ held) (hRacyclic : Acyclic R)
    (h : Compatible held D L R) : Acyclic (overlay D L R) := by
  have through : ∀ u ∈ held, ¬ TransGen (overlay D L R) u u := fun u hu huu =>
    hLacyclic u (transGen_of_overlay hLheld hRacyclic h.claims hu hu huu)
  intro x hxx
  have path : ∀ y, TransGen (overlay D L R) x y → ReflTransGen (overlay D L R) y x →
      TransGen R x y := by
    intro y hxy
    induction hxy with
    | single hstep =>
      intro _
      rcases hstep with ⟨-, hstep⟩ | ⟨-, hstep⟩
      · exact .single hstep
      · exact absurd hxx (through _ (hLheld _ _ hstep).1)
    | @tail y z hxy hstep ih =>
      intro hzx
      have hxy' := ih (.head hstep hzx)
      rcases hstep with ⟨hD, hstep⟩ | ⟨hD, hstep⟩
      · exact hxy'.tail hstep
      · have hyy : TransGen (overlay D L R) y y :=
          .head' (Or.inr ⟨hD, hstep⟩) (hzx.trans hxy.to_reflTransGen)
        exact absurd hyy (through _ (hLheld _ _ hstep).1)
  exact hRacyclic x (path x hxx .refl)

/-- In a compatible overlay the common ancestors of a fork lie below common ancestors the fork
has in `L`. -/
theorem common_below_held (hLwf : WellFounded fun p x => L x p)
    (hLheld : ∀ x p, L x p → x ∈ held ∧ p ∈ held) (hR : ∀ x p, R x p → x ∈ D)
    (hRacyclic : Acyclic R) (h : Compatible held D L R) {a b x : α} (ha : a ∈ held)
    (hb : b ∈ held) (hab : ¬ ReflTransGen L a b) (hba : ¬ ReflTransGen L b a)
    (hx : Common (overlay D L R) a b x) :
    ∃ c, Common L a b c ∧ ReflTransGen (overlay D L R) c x := by
  by_cases hxheld : x ∈ held
  · refine ⟨x, ⟨?_, ?_⟩, .refl⟩
    · exact (overlay_iff_held hLwf hLheld hR hRacyclic h ha hxheld).mp hx.1
    · exact (overlay_iff_held hLwf hLheld hR hRacyclic h hb hxheld).mp hx.2
  · have above : ∀ a ∈ held, ReflTransGen (overlay D L R) a x →
        ∃ u, ReflTransGen L a u ∧ ReflTransGen R u x := by
      intro a ha hax
      have hne : a ≠ x := fun e => hxheld (e ▸ ha)
      rcases overlay_path hLheld hRacyclic h.claims ha (transGen_of_ne hax hne) with
        ⟨hx, -⟩ | ⟨-, w, -, haw, hwx⟩
      · exact absurd hx hxheld
      · exact ⟨w, haw, hwx.to_reflTransGen⟩
    obtain ⟨u, hau, hux⟩ := above a ha hx.1
    obtain ⟨w, hbw, hwx⟩ := above b hb hx.2
    obtain ⟨c, hc, hcx⟩ := h.forks a ha b hb hab hba u w x hau hbw hxheld hux hwx
    exact ⟨c, hc, overlay_of_claim hR hcx⟩

/-- A compatible overlay gives every two held nodes the verdict `L` gives them. -/
theorem sameVerdict_of_compatible (hLwf : WellFounded fun p x => L x p)
    (hLacyclic : Acyclic L) (hLheld : ∀ x p, L x p → x ∈ held ∧ p ∈ held)
    (hR : ∀ x p, R x p → x ∈ D) (hRacyclic : Acyclic R) (h : Compatible held D L R) {a b : α}
    (ha : a ∈ held) (hb : b ∈ held) : SameVerdict (overlay D L R) L a b := by
  have hiff : ∀ {u v}, u ∈ held → v ∈ held →
      (ReflTransGen (overlay D L R) u v ↔ ReflTransGen L u v) :=
    fun hu hv => overlay_iff_held hLwf hLheld hR hRacyclic h hu hv
  have hclosed : ∀ {u v}, u ∈ held → ReflTransGen L u v → v ∈ held := fun hu huv =>
    mem_of_reflTransGen (S := held) (fun x p _ hxp => (hLheld x p hxp).2) hu huv
  have hbelow : ∀ {x}, Common L a b x → Common (overlay D L R) a b x := fun hx =>
    ⟨(hiff ha (hclosed ha hx.1)).mpr hx.1, (hiff hb (hclosed ha hx.1)).mpr hx.2⟩
  refine ⟨hiff ha hb, hiff hb ha, fun hab hba x => ⟨?_, ?_⟩⟩
  · rintro ⟨hx, hmax⟩
    obtain ⟨c, hc, hcx⟩ := common_below_held hLwf hLheld hR hRacyclic h ha hb hab hba hx
    -- `c` is held, so a best common ancestor at or below it is `c` itself.
    obtain rfl : c = x := by
      by_contra hne
      exact hmax c (hbelow hc) (transGen_of_ne hcx hne)
    exact ⟨hc, fun y hy hyx => hmax y (hbelow hy) (transGen_of_ne
      ((hiff (hclosed ha hy.1) (hclosed ha hc.1)).mpr hyx.to_reflTransGen) (hLacyclic.ne hyx))⟩
  · rintro ⟨hx, hmax⟩
    refine ⟨hbelow hx, fun y hy hyx => ?_⟩
    obtain ⟨c, hc, hcy⟩ := common_below_held hLwf hLheld hR hRacyclic h ha hb hab hba hy
    exact hmax c hc (transGen_of_overlay hLheld hRacyclic h.claims (hclosed ha hc.1)
      (hclosed ha hx.1) (hyx.trans_right hcy))

/-- **Compatibility is exact.** Over a finite acyclic `L` closed under parents and an acyclic
`R`, the overlay is acyclic and gives all held nodes their verdicts of `L` iff `R` is compatible
with `L`. -/
theorem compatible_iff (hLwf : WellFounded fun p x => L x p) (hLacyclic : Acyclic L)
    (hLheld : ∀ x p, L x p → x ∈ held ∧ p ∈ held) (hR : ∀ x p, R x p → x ∈ D)
    (hRacyclic : Acyclic R) (hfin : ∀ a, {y | ReflTransGen (overlay D L R) a y}.Finite) :
    (Acyclic (overlay D L R) ∧
      ∀ a ∈ held, ∀ b ∈ held, SameVerdict (overlay D L R) L a b) ↔ Compatible held D L R := by
  refine ⟨fun ⟨hacyclic, hsame⟩ => ⟨?_, ?_, ?_⟩, fun h =>
    ⟨overlay_acyclic hLacyclic hLheld hRacyclic h, fun a ha b hb =>
      sameVerdict_of_compatible hLwf hLacyclic hLheld hR hRacyclic h ha hb⟩⟩
  · intro u hu v hv huv
    exact (hsame u hu v hv).below.mp (overlay_of_claim hR huv)
  · intro u hu huD p hup
    have hp := (hLheld u p hup).2
    have hpath := transGen_of_ne ((hsame u hu p hp).below.mpr (.single hup))
      (hLacyclic.ne (.single hup))
    obtain ⟨z, hstep, hzp⟩ := TransGen.head'_iff.mp hpath
    obtain ⟨w, hw, hzw, hwp⟩ := overlay_enters_held hLheld hp hzp
    rcases hstep with ⟨-, hstep⟩ | ⟨hnD, -⟩
    · exact ⟨w, hw, .head' hstep hzw, (hsame w hw p hp).below.mp hwp⟩
    · exact absurd huD hnD
  · intro a ha b hb hab hba u w x hau hbw _ hux hwx
    have hclosed : ∀ {u v}, u ∈ held → ReflTransGen L u v → v ∈ held := fun hu huv =>
      mem_of_reflTransGen (S := held) (fun x p _ hxp => (hLheld x p hxp).2) hu huv
    have hcommon : Common (overlay D L R) a b x :=
      ⟨((hsame a ha u (hclosed ha hau)).below.mpr hau).trans (overlay_of_claim hR hux),
        ((hsame b hb w (hclosed hb hbw)).below.mpr hbw).trans (overlay_of_claim hR hwx)⟩
    obtain ⟨m, hm, hmx⟩ := exists_base hacyclic (hfin a) hcommon
    have hmL := ((hsame a ha b hb).bases hab hba m).mp hm
    have hmheld := hclosed ha hmL.1.1
    obtain ⟨c, hc, hmc, hcx⟩ := overlay_leaves_held hLheld hmheld hmx
    exact ⟨c, hmL.1.down ((hsame m hmheld c hc).below.mp hmc), hcx⟩

end Overlay

end Ancestry
