import Mathlib.Data.List.Nodup

/-!
# Keyed tables

A table is a list of rows in insertion order with distinct keys. `insert` is SQL's
`INSERT … ON CONFLICT DO NOTHING`, `upsert` its `ON CONFLICT DO UPDATE`. Rows and keys are
arbitrary.
-/

/-- Rows with a primary key. -/
structure Table {ρ κ : Type} (key : ρ → κ) where
  rows : List ρ
  distinct : (rows.map key).Nodup

namespace Table

variable {ρ κ : Type} [DecidableEq κ] {key : ρ → κ}

def empty (key : ρ → κ) : Table key := ⟨[], List.nodup_nil⟩

def find (t : Table key) (k : κ) : Option ρ := t.rows.find? (key · = k)

def has (t : Table key) (k : κ) : Bool := (t.find k).isSome

theorem key_of_find {t : Table key} {k : κ} {r : ρ} (h : t.find k = some r) : key r = k := by
  simpa using List.find?_some h

theorem mem_of_find {t : Table key} {k : κ} {r : ρ} (h : t.find k = some r) : r ∈ t.rows :=
  List.mem_of_find?_eq_some h

theorem find_of_mem {t : Table key} {r : ρ} (h : r ∈ t.rows) : t.find (key r) = some r := by
  have hfind : ∀ rows : List ρ, (rows.map key).Nodup → r ∈ rows →
      rows.find? (key · = key r) = some r := by
    intro rows
    induction rows with
    | nil => intro _ h; cases h
    | cons r' rest ih =>
      intro hnodup h
      obtain ⟨hr', hrest⟩ := List.nodup_cons.mp hnodup
      rcases List.mem_cons.mp h with rfl | h
      · simp
      · have hne : key r' ≠ key r := fun e => hr' (e ▸ List.mem_map_of_mem h)
        rw [List.find?_cons_of_neg (by simpa using hne)]
        exact ih hrest h
  exact hfind t.rows t.distinct h

theorem has_iff {t : Table key} {k : κ} : t.has k = true ↔ ∃ r, t.find k = some r :=
  Option.isSome_iff_exists

theorem find_eq_none {t : Table key} {k : κ} : t.find k = none ↔ k ∉ t.rows.map key := by
  simp [find, List.find?_eq_none]

@[simp] theorem find_empty (k : κ) : (empty key).find k = none := rfl

/-- `INSERT … ON CONFLICT DO NOTHING`. -/
def insert (t : Table key) (r : ρ) : Table key :=
  if h : t.find (key r) = none then
    ⟨t.rows ++ [r], by
      rw [List.map_append, List.nodup_append]
      refine ⟨t.distinct, by simp, fun x hx y hy hxy => ?_⟩
      rw [List.map_singleton, List.mem_singleton] at hy
      exact find_eq_none.mp h (hy ▸ hxy ▸ hx)⟩
  else t

theorem rows_insert (t : Table key) (r : ρ) :
    (t.insert r).rows = if t.find (key r) = none then t.rows ++ [r] else t.rows := by
  rw [insert]
  split <;> rfl

theorem find_insert (t : Table key) (r : ρ) (k : κ) :
    (t.insert r).find k = if key r = k then some ((t.find k).getD r) else t.find k := by
  rw [find, rows_insert]
  by_cases hk : key r = k
  · subst hk
    rw [if_pos rfl]
    cases h : t.find (key r) with
    | none =>
      rw [if_pos rfl, List.find?_append]
      rw [find] at h
      simp [h]
    | some r' => simpa [find] using h
  · rw [if_neg hk]
    split
    · rw [List.find?_append]
      simp [hk, find]
    · rfl

/-- An inserted row changes no row that is there. -/
theorem find_insert_of_find {t : Table key} {r r' : ρ} {k : κ} (h : t.find k = some r') :
    (t.insert r).find k = some r' := by
  rw [find_insert, h]
  simp

theorem insert_of_has {t : Table key} {r : ρ} (h : t.has (key r) = true) : t.insert r = t := by
  obtain ⟨r', hr'⟩ := has_iff.mp h
  rw [insert, dif_neg]
  simp [hr']

theorem has_insert (t : Table key) (r : ρ) : (t.insert r).has (key r) = true := by
  rw [has_iff]
  exact ⟨_, by rw [find_insert, if_pos rfl]⟩

theorem mem_insert {t : Table key} {r r' : ρ} (h : r' ∈ (t.insert r).rows) :
    r' ∈ t.rows ∨ (r' = r ∧ t.find (key r) = none) := by
  rw [rows_insert] at h
  split at h
  · rename_i hnone
    rcases List.mem_append.mp h with h | h
    · exact Or.inl h
    · exact Or.inr ⟨List.mem_singleton.mp h, hnone⟩
  · exact Or.inl h

theorem mem_insert_of_mem {t : Table key} {r r' : ρ} (h : r' ∈ t.rows) :
    r' ∈ (t.insert r).rows := by
  rw [rows_insert]
  split
  · exact List.mem_append_left _ h
  · exact h

/-- Change the row under a key. -/
def update (t : Table key) (k : κ) (f : ρ → ρ) (hf : ∀ r, key (f r) = key r) : Table key where
  rows := t.rows.map fun r => if key r = k then f r else r
  distinct := by
    have h : (t.rows.map fun r => if key r = k then f r else r).map key = t.rows.map key := by
      rw [List.map_map]
      apply List.map_congr_left
      intro r _
      simp only [Function.comp_apply]
      split
      · exact hf r
      · rfl
    rw [h]
    exact t.distinct

theorem find_update (t : Table key) (k : κ) (f : ρ → ρ) (hf : ∀ r, key (f r) = key r) (k' : κ) :
    (t.update k f hf).find k' = (t.find k').map fun r => if k = k' then f r else r := by
  have h : ∀ rows : List ρ, (rows.map fun r => if key r = k then f r else r).find? (key · = k') =
      (rows.find? (key · = k')).map fun r => if k = k' then f r else r := by
    intro rows
    induction rows with
    | nil => rfl
    | cons r rest ih =>
      rw [List.map_cons]
      have hkey : key (if key r = k then f r else r) = key r := by
        split
        · exact hf r
        · rfl
      by_cases hr : key r = k'
      · rw [List.find?_cons_of_pos (by simpa [hkey] using hr),
          List.find?_cons_of_pos (by simpa using hr), Option.map_some, hr]
        simp [eq_comm]
      · rw [List.find?_cons_of_neg (by simpa [hkey] using hr),
          List.find?_cons_of_neg (by simpa using hr), ih]
  exact h t.rows

/-- `INSERT … ON CONFLICT DO UPDATE`, where `f` is what the conflicting row becomes. -/
def upsert (t : Table key) (r : ρ) (f : ρ → ρ) (hf : ∀ r, key (f r) = key r) : Table key :=
  if t.has (key r) then t.update (key r) f hf else t.insert r

theorem find_upsert (t : Table key) (r : ρ) (f : ρ → ρ) (hf : ∀ r, key (f r) = key r) (k : κ) :
    (t.upsert r f hf).find k = if key r = k then some ((t.find k).elim r f) else t.find k := by
  rw [upsert]
  by_cases hk : key r = k
  · subst hk
    rw [if_pos rfl]
    split
    · rename_i hhas
      obtain ⟨r', h⟩ := has_iff.mp hhas
      rw [find_update, h]
      simp
    · rename_i hhas
      have h : t.find (key r) = none := by simpa [has] using hhas
      rw [find_insert, h]
      simp
  · rw [if_neg hk]
    split
    · rw [find_update]
      simp [hk]
    · rw [find_insert, if_neg hk]

theorem has_upsert_of_has {t : Table key} {r : ρ} {f : ρ → ρ} {hf : ∀ r, key (f r) = key r}
    {k : κ} (h : t.has k = true) : (t.upsert r f hf).has k = true := by
  obtain ⟨r', h⟩ := has_iff.mp h
  rw [has_iff]
  by_cases hk : key r = k
  · exact ⟨_, by rw [find_upsert, if_pos hk]⟩
  · exact ⟨r', by rw [find_upsert, if_neg hk, h]⟩

/-- `map.set(key, row)`: a row that has the key is replaced where it is. -/
def set (t : Table key) (r : ρ) : Table key :=
  if t.has (key r) then
    { rows := t.rows.map fun r' => if key r' = key r then r else r'
      distinct := by
        have h : (t.rows.map fun r' => if key r' = key r then r else r').map key =
            t.rows.map key := by
          rw [List.map_map]
          apply List.map_congr_left
          intro r' _
          simp only [Function.comp_apply]
          split
          · rename_i hkey
            exact hkey.symm
          · rfl
        rw [h]
        exact t.distinct }
  else t.insert r

theorem mem_set {t : Table key} {r r' : ρ} :
    r' ∈ (t.set r).rows ↔ r' = r ∨ (r' ∈ t.rows ∧ key r' ≠ key r) := by
  rw [set]
  split
  · rename_i hhas
    obtain ⟨old, hold⟩ := has_iff.mp hhas
    have hkey := key_of_find hold
    rw [List.mem_map]
    constructor
    · rintro ⟨r'', hmem, rfl⟩
      split
      · exact .inl rfl
      · rename_i hne
        exact .inr ⟨hmem, hne⟩
    · rintro (rfl | ⟨hmem, hne⟩)
      · exact ⟨old, mem_of_find hold, if_pos hkey⟩
      · exact ⟨r', hmem, if_neg hne⟩
  · rename_i hhas
    have hnone : t.find (key r) = none := by simpa [has] using hhas
    rw [rows_insert, if_pos hnone, List.mem_append, List.mem_singleton]
    constructor
    · rintro (hmem | rfl)
      · exact .inr ⟨hmem, fun hkey => find_eq_none.mp hnone (hkey ▸ List.mem_map_of_mem hmem)⟩
      · exact .inl rfl
    · rintro (rfl | ⟨hmem, -⟩)
      · exact .inr rfl
      · exact .inl hmem

/-- A row with a new key goes to the end. -/
theorem rows_set_of_find_none {t : Table key} {r : ρ} (h : t.find (key r) = none) :
    (t.set r).rows = t.rows ++ [r] := by
  have hhas : t.has (key r) = false := by rw [has, h]; rfl
  rw [set, if_neg (by simp [hhas]), rows_insert, if_pos h]

theorem find_set (t : Table key) (r : ρ) (k : κ) :
    (t.set r).find k = if key r = k then some r else t.find k := by
  split
  · rename_i hkey
    exact hkey ▸ find_of_mem (mem_set.mpr (.inl rfl))
  · rename_i hkey
    cases h : t.find k with
    | some r' =>
      have hr' := key_of_find h
      have hne : key r' ≠ key r := fun heq => hkey (heq.symm.trans hr')
      exact hr' ▸ find_of_mem (mem_set.mpr (.inr ⟨mem_of_find h, hne⟩))
    | none =>
      apply find_eq_none.mpr
      intro hmem
      obtain ⟨r', hmem, hr'⟩ := List.mem_map.mp hmem
      rcases mem_set.mp hmem with rfl | ⟨hmem, -⟩
      · exact hkey hr'
      · exact find_eq_none.mp h (hr' ▸ List.mem_map_of_mem hmem)

/-- The rows that meet a condition. -/
def filter (t : Table key) (p : ρ → Bool) : Table key where
  rows := t.rows.filter p
  distinct := t.distinct.sublist (List.filter_sublist.map key)

/-- `DELETE … WHERE key = k`. -/
def delete (t : Table key) (k : κ) : Table key where
  rows := t.rows.filter (key · ≠ k)
  distinct := t.distinct.sublist (List.filter_sublist.map key)

theorem find_filter (t : Table key) (p : ρ → Bool) (k : κ) :
    (t.filter p).find k = (t.find k).filter p := by
  cases h : t.find k with
  | none =>
    rw [find_eq_none] at h
    refine find_eq_none.mpr fun hmem => h ?_
    exact (List.filter_sublist.map key).subset hmem
  | some r =>
    have hkey := key_of_find h
    cases hp : p r with
    | true =>
      have hmem : r ∈ (t.filter p).rows := List.mem_filter.mpr ⟨mem_of_find h, hp⟩
      simpa [Option.filter, hp, hkey] using find_of_mem hmem
    | false =>
      rw [Option.filter_some_neg (by simp [hp])]
      apply find_eq_none.mpr
      intro hmem
      obtain ⟨r', hmem, hkey'⟩ := List.mem_map.mp hmem
      obtain ⟨hmem, hp'⟩ := List.mem_filter.mp hmem
      have hsame := find_of_mem hmem
      rw [hkey', h] at hsame
      cases hsame
      rw [hp] at hp'
      cases hp'

theorem find_delete (t : Table key) (k k' : κ) :
    (t.delete k).find k' = if k = k' then none else t.find k' := by
  refine (find_filter t (fun r => key r ≠ k) k').trans ?_
  cases h : t.find k' with
  | none => simp
  | some r =>
    have hkey := key_of_find h
    by_cases hk : k = k'
    · simp [Option.filter, hkey, hk]
    · simp [Option.filter, hkey, hk, Ne.symm hk]

end Table
