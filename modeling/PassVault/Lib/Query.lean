import Mathlib.Data.List.Dedup
import Mathlib.Data.List.Perm.Subperm
import Mathlib.Logic.Relation

/-!
# Queries

Two constructs of SQL over lists of rows. A `LEFT JOIN` gives every row of its left side, alone if
nothing on the right matches it. A recursive common table expression with `UNION` keeps the rows it
has found in a queue: each is extracted once, and adds the rows that it leads to and that have not
been found yet. Rows are arbitrary.
-/

namespace Query

open Relation

variable {α β γ : Type}

/-! ## Left joins -/

def leftJoin (left : List α) (right : List β) (on : α → β → Bool) : List (α × Option β) :=
  left.flatMap fun a =>
    let found := right.filter (on a)
    if found.isEmpty then [(a, none)] else found.map fun b => (a, some b)

/-- Every row of the left side is there. -/
theorem map_fst_leftJoin (left : List α) (right : List β) (on : α → β → Bool) (a : α) :
    a ∈ (leftJoin left right on).map (·.1) ↔ a ∈ left := by
  simp only [leftJoin, List.mem_map, List.mem_flatMap]
  constructor
  · rintro ⟨row, ⟨a', ha', hrow⟩, rfl⟩
    split at hrow
    · rw [List.mem_singleton.mp hrow]
      exact ha'
    · obtain ⟨b, -, rfl⟩ := List.mem_map.mp hrow
      exact ha'
  · intro ha
    cases hfound : right.filter (on a) with
    | nil => exact ⟨(a, none), ⟨a, ha, by simp [hfound]⟩, rfl⟩
    | cons b rest => exact ⟨(a, some b), ⟨a, ha, by simp [hfound]⟩, rfl⟩

/-- What the matches of the rows on the left give, in order. -/
theorem filterMap_leftJoin (left : List α) (right : List β) (on : α → β → Bool)
    (f : α → β → Option γ) :
    (leftJoin left right on).filterMap (fun row => row.2.bind (f row.1)) =
      left.flatMap fun a => (right.filter (on a)).filterMap (f a) := by
  rw [leftJoin, List.filterMap_flatMap]
  apply List.flatMap_congr
  intro a _
  cases right.filter (on a) with
  | nil => rfl
  | cons b rest =>
    change ((b :: rest).map fun b => (a, some b)).filterMap _ = _
    rw [List.filterMap_map]
    rfl

/-! ## Recursive unions -/

section Recursion

variable [DecidableEq α] {next : α → List α}

/-- Extract the rows of the queue, one after the other. -/
def recurse (next : α → List α) : Nat → List α → List α → List α
  | 0, found, _ => found
  | _ + 1, found, [] => found
  | budget + 1, found, row :: queue =>
    let fresh := (next row).dedup.filter (· ∉ found)
    recurse next budget (found ++ fresh) (queue ++ fresh)

/-- `WITH RECURSIVE t AS (SELECT start UNION SELECT … FROM t) SELECT * FROM t`. -/
def recursiveUnion (next : α → List α) (budget : Nat) (start : α) : List α :=
  recurse next budget [start] [start]

/-- What a recursion returns: a set closed under `next` over what was found, and nothing that
that does not lead to. -/
structure Closure (next : α → List α) (found result : List α) : Prop where
  nodup : result.Nodup
  keeps : ∀ x ∈ found, x ∈ result
  closed : ∀ x ∈ result, ∀ y ∈ next x, y ∈ result
  reached : ∀ x ∈ result, ∃ q ∈ found, ReflTransGen (fun a b => b ∈ next a) q x

/-- New rows are paid for by the rows still to be found. -/
theorem length_fresh {rows found fresh : List α} (hrows : rows.Nodup) (hfresh : fresh.Nodup)
    (hsub : ∀ x ∈ fresh, x ∈ rows ∧ x ∉ found) :
    fresh.length + (rows.filter (· ∉ found ++ fresh)).length ≤
      (rows.filter (· ∉ found)).length := by
  rw [← List.length_append]
  refine (List.subperm_of_subset (List.nodup_append.mpr
    ⟨hfresh, hrows.filter _, fun x hx y hy => ?_⟩) fun x hx => ?_).length_le
  · rintro rfl
    have hy := (List.mem_filter.mp hy).2
    exact of_decide_eq_true hy (List.mem_append_right _ hx)
  · rcases List.mem_append.mp hx with hx | hx
    · exact List.mem_filter.mpr ⟨(hsub x hx).1, decide_eq_true (hsub x hx).2⟩
    · obtain ⟨hmem, hnot⟩ := List.mem_filter.mp hx
      exact List.mem_filter.mpr ⟨hmem, decide_eq_true fun hfound =>
        of_decide_eq_true hnot (List.mem_append_left _ hfound)⟩

theorem closure_recurse {rows : List α} (hrows : rows.Nodup) (hnext : ∀ x, ∀ y ∈ next x, y ∈ rows)
    (budget : Nat) :
    ∀ found queue : List α, found.Nodup → (∀ x ∈ queue, x ∈ found) →
      (∀ x ∈ found, x ∈ queue ∨ ∀ y ∈ next x, y ∈ found) →
      queue.length + (rows.filter (· ∉ found)).length < budget →
      Closure next found (recurse next budget found queue) := by
  induction budget with
  | zero => intro found queue _ _ _ h; omega
  | succ budget ih =>
    intro found queue hnodup hqueue hclosed hbudget
    cases queue with
    | nil =>
      refine ⟨hnodup, fun _ h => h, fun x hx => ?_, fun x hx => ⟨x, hx, .refl⟩⟩
      exact (hclosed x hx).resolve_left List.not_mem_nil
    | cons row queue =>
      set fresh := (next row).dedup.filter (· ∉ found) with hfresh
      have hmem : ∀ x, x ∈ fresh ↔ x ∈ next row ∧ x ∉ found := fun x => by simp [hfresh]
      have hfreshNodup : fresh.Nodup := (List.nodup_dedup _).filter _
      have hlength := length_fresh hrows hfreshNodup fun x hx =>
        ⟨hnext row x ((hmem x).mp hx).1, ((hmem x).mp hx).2⟩
      have hrow : row ∈ found := hqueue row List.mem_cons_self
      have r := ih (found ++ fresh) (queue ++ fresh)
        (List.nodup_append.mpr ⟨hnodup, hfreshNodup, fun x hx y hy hxy =>
          ((hmem y).mp hy).2 (hxy ▸ hx)⟩)
        (fun x hx => by
          rcases List.mem_append.mp hx with hx | hx
          · exact List.mem_append_left _ (hqueue x (List.mem_cons_of_mem _ hx))
          · exact List.mem_append_right _ hx)
        (fun x hx => by
          rcases List.mem_append.mp hx with hx | hx
          · rcases hclosed x hx with hx | hx
            · rcases List.mem_cons.mp hx with rfl | hx
              -- The row that was extracted: what it leads to has been found.
              · refine .inr fun y hy => ?_
                by_cases hold : y ∈ found
                · exact List.mem_append_left _ hold
                · exact List.mem_append_right _ ((hmem y).mpr ⟨hy, hold⟩)
              · exact .inl (List.mem_append_left _ hx)
            · exact .inr fun y hy => List.mem_append_left _ (hx y hy)
          · exact .inl (List.mem_append_right _ hx))
        (by
          simp only [List.length_cons, List.length_append] at hbudget ⊢
          omega)
      refine ⟨r.nodup, fun x hx => r.keeps x (List.mem_append_left _ hx), r.closed,
        fun x hx => ?_⟩
      obtain ⟨q, hq, hpath⟩ := r.reached x hx
      rcases List.mem_append.mp hq with hq | hq
      · exact ⟨q, hq, hpath⟩
      · exact ⟨row, hrow, .head ((hmem q).mp hq).1 hpath⟩

/-- A recursive union is reachability. -/
theorem mem_recursiveUnion {rows : List α} (hnext : ∀ x, ∀ y ∈ next x, y ∈ rows) {budget : Nat}
    (hbudget : rows.length + 1 < budget) {start x : α} :
    x ∈ recursiveUnion next budget start ↔ ReflTransGen (fun a b => b ∈ next a) start x := by
  have hdedup : rows.dedup.length ≤ rows.length := (List.dedup_sublist rows).length_le
  have hfilter : (rows.dedup.filter (· ∉ [start])).length ≤ rows.dedup.length :=
    List.length_filter_le _ _
  have r := closure_recurse (List.nodup_dedup rows)
    (fun x y hy => List.mem_dedup.mpr (hnext x y hy)) budget [start] [start]
    (List.nodup_singleton _) (fun _ h => h) (fun _ h => .inl h) (by
      simp only [List.length_cons, List.length_nil]
      omega)
  constructor
  · intro hx
    obtain ⟨q, hq, hpath⟩ := r.reached x hx
    exact List.mem_singleton.mp hq ▸ hpath
  · intro hpath
    induction hpath with
    | refl => exact r.keeps start List.mem_cons_self
    | tail _ hstep ih => exact r.closed _ ih _ hstep

theorem nodup_recurse {budget : Nat} {found queue : List α} (h : found.Nodup) :
    (recurse next budget found queue).Nodup := by
  induction budget generalizing found queue with
  | zero => exact h
  | succ budget ih =>
    cases queue with
    | nil => exact h
    | cons row queue =>
      refine ih (List.nodup_append.mpr ⟨h, (List.nodup_dedup _).filter _, fun x hx y hy hxy => ?_⟩)
      exact of_decide_eq_true (List.mem_filter.mp hy).2 (hxy ▸ hx)

end Recursion

end Query
