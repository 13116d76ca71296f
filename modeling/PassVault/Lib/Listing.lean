import PassVault.Lib.Table

/-!
# Lists made from the rows of a table

A loop over a table that pushes at most one item for a row lists one item for each key of some
set, and nothing else.
-/

/-- `listed` has one item for each key that satisfies `P`, and no other; `R` says which. -/
def ListsRows {κ α : Type} (listed : List α) (P : κ → Prop) (R : κ → α → Prop) : Prop :=
  ∃ keys : List κ, keys.Nodup ∧ (∀ k, k ∈ keys ↔ P k) ∧ List.Forall₂ R keys listed

namespace ListsRows

variable {ρ κ α : Type}

theorem nil_iff {P : κ → Prop} {R : κ → α → Prop} {listed : List α} (h : ListsRows listed P R) :
    listed = [] ↔ ∀ k, ¬ P k := by
  obtain ⟨keys, -, hkeys, hlisted⟩ := h
  constructor
  · intro hnil k hk
    rw [hnil, List.forall₂_nil_right_iff] at hlisted
    rw [← hkeys, hlisted] at hk
    cases hk
  · intro hnone
    have hempty : keys = [] := List.eq_nil_iff_forall_not_mem.mpr fun k hk =>
      hnone k ((hkeys k).mp hk)
    rw [hempty, List.forall₂_nil_left_iff] at hlisted
    exact hlisted

/-- For a key of the set an item is listed. -/
theorem item {P : κ → Prop} {R : κ → α → Prop} {listed : List α} (h : ListsRows listed P R) {k : κ}
    (hk : P k) : ∃ a ∈ listed, R k a := by
  obtain ⟨keys, -, hkeys, hlisted⟩ := h
  have hmem := (hkeys k).mpr hk
  clear hkeys
  induction hlisted with
  | nil => cases hmem
  | cons hR _ ih =>
    rcases List.mem_cons.mp hmem with rfl | hmem
    · exact ⟨_, List.mem_cons_self, hR⟩
    · obtain ⟨a, ha, hRa⟩ := ih hmem
      exact ⟨a, List.mem_cons_of_mem _ ha, hRa⟩

/-- A listed item stands for a key of the set. -/
theorem of_item {P : κ → Prop} {R : κ → α → Prop} {listed : List α} (h : ListsRows listed P R) {a : α}
    (ha : a ∈ listed) : ∃ k, P k ∧ R k a := by
  obtain ⟨keys, -, hkeys, hlisted⟩ := h
  have hsub : ∀ k ∈ keys, P k := fun k hk => (hkeys k).mp hk
  clear hkeys
  induction hlisted with
  | nil => cases ha
  | cons hR _ ih =>
    rcases List.mem_cons.mp ha with rfl | ha
    · exact ⟨_, hsub _ List.mem_cons_self, hR⟩
    · exact ih ha fun k hk => hsub k (List.mem_cons_of_mem _ hk)

theorem congr {P P' : κ → Prop} {R R' : κ → α → Prop} {listed : List α} (h : ListsRows listed P R)
    (hP : ∀ k, P k ↔ P' k) (hR : ∀ k a, P k → R k a → R' k a) : ListsRows listed P' R' := by
  obtain ⟨keys, hnodup, hkeys, hlisted⟩ := h
  refine ⟨keys, hnodup, fun k => (hkeys k).trans (hP k), ?_⟩
  have hsub : ∀ k ∈ keys, P k := fun k hk => (hkeys k).mp hk
  clear hkeys hnodup
  induction hlisted with
  | nil => exact .nil
  | cons hRk _ ih =>
    apply List.Forall₂.cons
    · exact hR _ _ (hsub _ List.mem_cons_self) hRk
    · exact ih fun k hk => hsub k (List.mem_cons_of_mem _ hk)

/-- What a loop over the rows lists. -/
theorem of_rows [DecidableEq κ] {key : ρ → κ} (t : Table key) (f : ρ → Option α) :
    ListsRows (t.rows.filterMap f) (fun k => ∃ r, t.find k = some r ∧ (f r).isSome = true)
      (fun k a => ∃ r, t.find k = some r ∧ f r = some a) := by
  refine ⟨(t.rows.filter fun r => (f r).isSome).map key, ?_, ?_, ?_⟩
  · exact t.distinct.sublist (List.filter_sublist.map key)
  · intro k
    constructor
    · intro hk
      obtain ⟨r, hr, rfl⟩ := List.mem_map.mp hk
      obtain ⟨hr, hsome⟩ := List.mem_filter.mp hr
      exact ⟨r, Table.find_of_mem hr, hsome⟩
    · intro hk
      obtain ⟨r, hr, hsome⟩ := hk
      rw [← Table.key_of_find hr]
      exact List.mem_map_of_mem (List.mem_filter.mpr ⟨Table.mem_of_find hr, hsome⟩)
  · have hsub : ∀ r ∈ t.rows, t.find (key r) = some r := fun r hr => Table.find_of_mem hr
    generalize t.rows = rows at hsub
    induction rows with
    | nil => exact .nil
    | cons r rest ih =>
      have ih := ih fun r' hr' => hsub r' (List.mem_cons_of_mem _ hr')
      cases hf : f r with
      | none => simpa [hf] using ih
      | some a =>
        simp only [List.filterMap_cons, List.filter_cons, hf, Option.isSome_some, if_true,
          List.map_cons]
        exact .cons ⟨r, hsub r List.mem_cons_self, hf⟩ ih

end ListsRows
