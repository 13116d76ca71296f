import Mathlib.Data.List.DropRight

/-!
# Cutting lists

A list is stripped of the elements at its ends for which a predicate holds, and joined from words
by a separator. Elements are arbitrary.
-/

namespace Words

variable {α β : Type} {p : α → Bool}

/-! ## Stripping -/

/-- Without the elements at the ends for which `p` holds. -/
def strip (p : α → Bool) (text : List α) : List α := (text.dropWhile p).rdropWhile p

theorem mem_of_mem_strip {text : List α} {a : α} (h : a ∈ strip p text) : a ∈ text :=
  (List.dropWhile_suffix p).subset ((List.rdropWhile_prefix p _).subset h)

/-- What goes is what `p` holds for. -/
theorem mem_strip_or {text : List α} {a : α} (h : a ∈ text) : a ∈ strip p text ∨ p a = true := by
  by_cases ha : p a = true
  · exact .inr ha
  · left
    rw [← List.takeWhile_append_dropWhile (p := p) (l := text), List.mem_append] at h
    rcases h with h | h
    · exact absurd (List.mem_takeWhile_imp h) ha
    · rw [strip, List.rdropWhile, List.mem_reverse]
      rw [← List.mem_reverse,
        ← List.takeWhile_append_dropWhile (p := p) (l := (text.dropWhile p).reverse),
        List.mem_append] at h
      rcases h with h | h
      · exact absurd (List.mem_takeWhile_imp h) ha
      · exact h

theorem rdropWhile_append_of_last {middle after : List α} (hne : middle ≠ [])
    (hlast : p (middle.getLast hne) = false) :
    (middle ++ after).rdropWhile p = middle ++ after.rdropWhile p := by
  rw [List.rdropWhile, List.reverse_append, List.dropWhile_append, List.rdropWhile]
  split
  · rename_i hempty
    rw [List.isEmpty_iff.mp hempty, List.reverse_nil, List.append_nil]
    apply List.rdropWhile_eq_self_iff.mpr
    intro _
    simp [hlast]
  · rw [List.reverse_append, List.reverse_reverse]

/-- What stands before a middle that `p` does not hold for at either end goes, and what stands
after it is stripped on the right. -/
theorem strip_around {before middle after : List α} (hbefore : ∀ a ∈ before, p a = true)
    (hne : middle ≠ []) (hfirst : p (middle.head hne) = false)
    (hlast : p (middle.getLast hne) = false) :
    strip p (before ++ (middle ++ after)) = middle ++ after.rdropWhile p := by
  rw [strip, List.dropWhile_append_of_pos hbefore]
  obtain ⟨a, rest, rfl⟩ := List.exists_cons_of_ne_nil hne
  rw [List.cons_append, List.dropWhile_cons_of_neg (by simpa using hfirst), ← List.cons_append]
  exact rdropWhile_append_of_last hne hlast

theorem strip_eq_self {text : List α} (h : ∀ a ∈ text, p a = false) : strip p text = text := by
  by_cases hne : text = []
  · rw [hne]
    rfl
  · have haround : strip p ([] ++ (text ++ [])) = text ++ List.rdropWhile p [] :=
      strip_around nofun hne (h _ (List.head_mem hne)) (h _ (List.getLast_mem hne))
    simpa using haround

theorem rdropWhile_append_of_all {text after : List α} (h : ∀ a ∈ after, p a = true) :
    (text ++ after).rdropWhile p = text.rdropWhile p := by
  rw [List.rdropWhile, List.reverse_append,
    List.dropWhile_append_of_pos fun a ha => h a (List.mem_reverse.mp ha), List.rdropWhile]

theorem dropWhile_append_cons {text rest : List α} {a : α} (ha : p a = false) :
    (text ++ a :: rest).dropWhile p = text.dropWhile p ++ a :: rest := by
  induction text with
  | nil => rw [List.nil_append, List.dropWhile_cons_of_neg (by simp [ha]), List.dropWhile_nil,
      List.nil_append]
  | cons b text ih =>
    rw [List.cons_append, List.dropWhile_cons, List.dropWhile_cons, ih]
    split
    · rfl
    · rfl

/-- On the left no more goes than what stands before `a`, and on the right no more than what stands
after a middle that `p` does not hold for at its end. -/
theorem strip_between {text middle after : List α} {a : α} (ha : p a = false) (hne : middle ≠ [])
    (hlast : p (middle.getLast hne) = false) (hafter : ∀ a ∈ after, p a = true) :
    strip p (text ++ a :: (middle ++ after)) = text.dropWhile p ++ a :: middle := by
  have hmiddle : text.dropWhile p ++ a :: middle ≠ [] := by simp
  have hend : p ((text.dropWhile p ++ a :: middle).getLast hmiddle) = false := by
    rw [List.getLast_append_of_ne_nil hmiddle (List.cons_ne_nil a middle), List.getLast_cons hne]
    exact hlast
  rw [strip, dropWhile_append_cons ha, ← List.cons_append, ← List.append_assoc,
    rdropWhile_append_of_all hafter, ← List.append_nil (text.dropWhile p ++ a :: middle),
    rdropWhile_append_of_last hmiddle hend, List.rdropWhile_nil]

/-! ## Checking -/

/-- What a check of every element says. -/
theorem forall_of_all {P : α → Prop} [DecidablePred P] {l : List α}
    (h : (l.all fun a => decide (P a)) = true) : ∀ a ∈ l, P a :=
  fun a ha => of_decide_eq_true (List.all_eq_true.mp h a ha)

/-! ## Joining -/

theorem mem_intercalate {sep a : α} {words : List (List α)} (h : a ∈ [sep].intercalate words) :
    a = sep ∨ ∃ word ∈ words, a ∈ word := by
  induction words with
  | nil => cases h
  | cons word words ih =>
    cases words with
    | nil =>
      rw [List.intercalate_singleton] at h
      exact .inr ⟨word, List.mem_cons_self, h⟩
    | cons next words =>
      rw [List.intercalate_cons_cons, List.mem_append, List.mem_append] at h
      rcases h with (h | h) | h
      · exact .inr ⟨word, List.mem_cons_self, h⟩
      · exact .inl (List.mem_singleton.mp h)
      · rcases ih h with h | ⟨word', hword', h⟩
        · exact .inl h
        · exact .inr ⟨word', List.mem_cons_of_mem _ hword', h⟩

theorem mem_intercalate_of_mem {sep a : α} {word : List α} {words : List (List α)}
    (hword : word ∈ words) (ha : a ∈ word) : a ∈ [sep].intercalate words := by
  induction words with
  | nil => cases hword
  | cons first words ih =>
    cases words with
    | nil =>
      rw [List.mem_singleton.mp hword] at ha
      rwa [List.intercalate_singleton]
    | cons next words =>
      rw [List.intercalate_cons_cons, List.mem_append, List.mem_append]
      rcases List.mem_cons.mp hword with rfl | hword
      · exact .inl (.inl ha)
      · exact .inr (ih hword)

/-! ## Splitting -/

/-- Splitting looks at nothing but the separator. -/
theorem splitOn_map [DecidableEq α] [DecidableEq β] {f : β → α} {sep : α} {sep' : β}
    (h : ∀ b, f b = sep ↔ b = sep') (text : List β) :
    (text.map f).splitOn sep = (text.splitOn sep').map (List.map f) := by
  induction text with
  | nil => rfl
  | cons b text ih =>
    rw [List.map_cons, List.splitOn_cons_eq_if_modifyHead, List.splitOn_cons_eq_if_modifyHead, ih]
    by_cases hb : b = sep'
    · simp [hb, (h sep').mpr rfl]
    · have hfb : f b ≠ sep := fun heq => hb ((h b).mp heq)
      simp only [beq_iff_eq, hb, hfb, if_false]
      cases text.splitOn sep' with
      | nil => rfl
      | cons word words => rfl

end Words
