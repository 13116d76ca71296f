import PassVault.Core.DagOrder

/-!
# Divergence is classified exactly

Over an acyclic graph, which may mention parents that it does not define, `findMergeBase` lists
the maximal common ancestors and `classifyDivergence` names the one way in which two heads can
stand to each other.
-/

namespace PassVault

open Relation

/-- The verdict from the other side. -/
def Divergence.swap : Divergence → Divergence
  | .localAhead => .remoteAhead
  | .remoteAhead => .localAhead
  | d => d

section Acyclic

variable {graph : RevisionGraph} (hacyclic : Ancestry.Acyclic (Parent graph)) (a b : RevisionId)

include hacyclic in
/-- Every common ancestor is an ancestor of a listed one. -/
theorem exists_mem_findMergeBase {a b x : RevisionId}
    (h : Ancestry.Common (Parent graph) a b x) :
    ∃ m ∈ findMergeBase graph a b, ReflTransGen (Parent graph) m x := by
  obtain ⟨m, hm, hmx⟩ := Ancestry.exists_base hacyclic (finite_ancestors graph a) h
  exact ⟨m, mem_findMergeBase.mpr hm, hmx⟩

include hacyclic in
theorem findMergeBase_eq_nil :
    findMergeBase graph a b = [] ↔ ¬ ∃ x, Ancestry.Common (Parent graph) a b x := by
  constructor
  · rintro hnil ⟨x, hx⟩
    obtain ⟨m, hm, -⟩ := exists_mem_findMergeBase hacyclic hx
    rw [hnil] at hm
    cases hm
  · intro hnone
    refine List.eq_nil_iff_forall_not_mem.mpr fun m hm => hnone ⟨m, ?_⟩
    exact (mem_findMergeBase.mp hm).1

theorem mem_findMergeBase_comm {x : RevisionId} :
    x ∈ findMergeBase graph a b ↔ x ∈ findMergeBase graph b a := by
  rw [mem_findMergeBase, mem_findMergeBase]
  exact ⟨Ancestry.Base.symm, Ancestry.Base.symm⟩

theorem isAncestor_iff_of_ne {a b : RevisionId} (hne : a ≠ b) :
    isAncestor graph b a = true ↔ TransGen (Parent graph) a b := by
  rw [isAncestor_iff]
  exact ⟨fun h => Ancestry.transGen_of_ne h hne, TransGen.to_reflTransGen⟩

/-- The five ways in which two heads can stand to each other. -/
inductive Standing (graph : RevisionGraph) (a b : RevisionId) : Divergence → Prop where
  | equal : a = b → Standing graph a b .equal
  | localAhead : TransGen (Parent graph) a b → Standing graph a b .localAhead
  | remoteAhead : TransGen (Parent graph) b a → Standing graph a b .remoteAhead
  | unrelated : (¬ ∃ x, Ancestry.Common (Parent graph) a b x) → Standing graph a b .unrelated
  | diverged : a ≠ b → ¬ TransGen (Parent graph) a b → ¬ TransGen (Parent graph) b a →
      (∃ x, Ancestry.Common (Parent graph) a b x) →
      Standing graph a b (.diverged (findMergeBase graph a b))

include hacyclic in
/-- The verdict is how the heads stand to each other. -/
theorem standing_classifyDivergence :
    Standing graph a b (classifyDivergence graph a b) := by
  by_cases hab : a = b
  · rw [classifyDivergence, if_pos hab]
    exact .equal hab
  rw [classifyDivergence_eq _ _ _ hab]
  by_cases hlocal : isAncestor graph b a = true
  · rw [if_pos hlocal]
    exact .localAhead ((isAncestor_iff_of_ne hab).mp hlocal)
  rw [if_neg hlocal]
  by_cases hremote : isAncestor graph a b = true
  · rw [if_pos hremote]
    exact .remoteAhead ((isAncestor_iff_of_ne (Ne.symm hab)).mp hremote)
  rw [if_neg hremote, forkVerdict]
  have hnil := findMergeBase_eq_nil hacyclic a b
  split
  · rename_i hlength
    exact .unrelated (hnil.mp (List.length_eq_zero_iff.mp hlength))
  · rename_i hlength
    refine .diverged hab (mt (isAncestor_iff_of_ne hab).mpr hlocal)
      (mt (isAncestor_iff_of_ne (Ne.symm hab)).mpr hremote) ?_
    by_contra hnone
    exact hlength (by rw [hnil.mpr hnone]; rfl)

include hacyclic in
/-- Two heads stand to each other in one way only. -/
theorem Standing.unique {a b : RevisionId} {d d' : Divergence} (h : Standing graph a b d)
    (h' : Standing graph a b d') : d = d' := by
  have common : ∀ {x y}, TransGen (Parent graph) x y →
      Ancestry.Common (Parent graph) x y y ∧ Ancestry.Common (Parent graph) y x y := fun h =>
    ⟨⟨h.to_reflTransGen, .refl⟩, ⟨.refl, h.to_reflTransGen⟩⟩
  have self : a = b → ∃ x, Ancestry.Common (Parent graph) a b x := by
    rintro rfl
    exact ⟨a, .refl, .refl⟩
  have irrefl : ∀ x, ¬ TransGen (Parent graph) x x := hacyclic
  cases h with
  | equal hab =>
    subst hab
    cases h' with
    | equal => rfl
    | localAhead h | remoteAhead h => exact absurd h (irrefl a)
    | unrelated hnone => exact absurd (self rfl) hnone
    | diverged hne => exact absurd rfl hne
  | localAhead hup =>
    cases h' with
    | equal hab => exact absurd (hab ▸ hup) (irrefl b)
    | localAhead => rfl
    | remoteAhead hdown => exact absurd (hup.trans hdown) (irrefl a)
    | unrelated hnone => exact absurd ⟨b, (common hup).1⟩ hnone
    | diverged _ hnot => exact absurd hup hnot
  | remoteAhead hdown =>
    cases h' with
    | equal hab => exact absurd (hab ▸ hdown) (irrefl b)
    | localAhead hup => exact absurd (hup.trans hdown) (irrefl a)
    | remoteAhead => rfl
    | unrelated hnone => exact absurd ⟨a, (common hdown).2⟩ hnone
    | diverged _ _ hnot => exact absurd hdown hnot
  | unrelated hnone =>
    cases h' with
    | equal hab => exact absurd (self hab) hnone
    | localAhead hup => exact absurd ⟨b, (common hup).1⟩ hnone
    | remoteAhead hdown => exact absurd ⟨a, (common hdown).2⟩ hnone
    | unrelated => rfl
    | diverged _ _ _ hsome => exact absurd hsome hnone
  | diverged hne hup hdown hsome =>
    cases h' with
    | equal hab => exact absurd hab hne
    | localAhead h => exact absurd h hup
    | remoteAhead h => exact absurd h hdown
    | unrelated hnone => exact absurd hsome hnone
    | diverged => rfl

include hacyclic in
/-- Seen from the other side, the two ahead verdicts change places and a fork keeps its bases. -/
theorem classifyDivergence_swap :
    (classifyDivergence graph b a).Same (classifyDivergence graph a b).swap := by
  have hba := standing_classifyDivergence hacyclic b a
  have swapped : ∀ {d}, Standing graph b a d → classifyDivergence graph b a = d :=
    fun h => hba.unique hacyclic h
  have common : (∃ x, Ancestry.Common (Parent graph) a b x) ↔
      ∃ x, Ancestry.Common (Parent graph) b a x :=
    exists_congr fun x => ⟨Ancestry.Common.symm, Ancestry.Common.symm⟩
  generalize hd : classifyDivergence graph a b = d
  have hab : Standing graph a b d := hd ▸ standing_classifyDivergence hacyclic a b
  cases hab with
  | equal h =>
    rw [swapped (.equal h.symm)]
    exact Divergence.Same.refl _
  | localAhead h =>
    rw [swapped (.remoteAhead h)]
    exact Divergence.Same.refl _
  | remoteAhead h =>
    rw [swapped (.localAhead h)]
    exact Divergence.Same.refl _
  | unrelated h =>
    rw [swapped (.unrelated (mt common.mpr h))]
    exact Divergence.Same.refl _
  | diverged hne hup hdown hsome =>
    rw [swapped (.diverged (Ne.symm hne) hdown hup (common.mp hsome))]
    exact fun x => mem_findMergeBase_comm b a

end Acyclic

/-- What `findMergeBase` lists for two heads. -/
structure BasesExact (graph : RevisionGraph) (a b : RevisionId) : Prop where
  nodup : (findMergeBase graph a b).Nodup
  mem_iff : ∀ x, x ∈ findMergeBase graph a b ↔ Ancestry.Common (Parent graph) a b x ∧
    ∀ y, Ancestry.Common (Parent graph) a b y → ¬ TransGen (Parent graph) y x
  ne_nil_iff : findMergeBase graph a b ≠ [] ↔ ∃ x, Ancestry.Common (Parent graph) a b x
  cover : ∀ x, Ancestry.Common (Parent graph) a b x →
    ∃ m ∈ findMergeBase graph a b, ReflTransGen (Parent graph) m x
  comm : ∀ x, x ∈ findMergeBase graph a b ↔ x ∈ findMergeBase graph b a

/-- What each verdict on two heads means. -/
structure VerdictExact (graph : RevisionGraph) (a b : RevisionId) : Prop where
  equal : classifyDivergence graph a b = .equal ↔ a = b
  localAhead : classifyDivergence graph a b = .localAhead ↔ TransGen (Parent graph) a b
  remoteAhead : classifyDivergence graph a b = .remoteAhead ↔ TransGen (Parent graph) b a
  unrelated : classifyDivergence graph a b = .unrelated ↔
    ¬ ∃ x, Ancestry.Common (Parent graph) a b x
  diverged : ∀ bases, classifyDivergence graph a b = .diverged bases ↔
    bases = findMergeBase graph a b ∧ a ≠ b ∧ ¬ TransGen (Parent graph) a b ∧
      ¬ TransGen (Parent graph) b a ∧ ∃ x, Ancestry.Common (Parent graph) a b x
  swap : (classifyDivergence graph b a).Same (classifyDivergence graph a b).swap

/-- **Divergence is classified exactly**, in every acyclic graph and for every two ids. -/
theorem divergence_exact {graph : RevisionGraph} (hacyclic : Ancestry.Acyclic (Parent graph))
    (a b : RevisionId) : BasesExact graph a b ∧ VerdictExact graph a b := by
  have verdict : ∀ {d}, Standing graph a b d → classifyDivergence graph a b = d :=
    fun h => (standing_classifyDivergence hacyclic a b).unique hacyclic h
  have standing : ∀ {d}, classifyDivergence graph a b = d → Standing graph a b d := by
    rintro _ rfl
    exact standing_classifyDivergence hacyclic a b
  refine ⟨⟨nodup_findMergeBase graph a b, fun x => mem_findMergeBase, ?_,
    fun x hx => exists_mem_findMergeBase hacyclic hx, fun x => mem_findMergeBase_comm a b⟩, ?_⟩
  · rw [ne_eq, findMergeBase_eq_nil hacyclic, not_not]
  refine ⟨⟨fun h => ?_, fun h => verdict (.equal h)⟩,
    ⟨fun h => ?_, fun h => verdict (.localAhead h)⟩,
    ⟨fun h => ?_, fun h => verdict (.remoteAhead h)⟩,
    ⟨fun h => ?_, fun h => verdict (.unrelated h)⟩, fun bases => ⟨fun h => ?_, ?_⟩,
    classifyDivergence_swap hacyclic a b⟩
  · cases standing h; assumption
  · cases standing h; assumption
  · cases standing h; assumption
  · cases standing h; assumption
  · cases standing h with
    | diverged hne hup hdown hsome => exact ⟨rfl, hne, hup, hdown, hsome⟩
  · rintro ⟨rfl, hne, hup, hdown, hsome⟩
    exact verdict (.diverged hne hup hdown hsome)

/-- Two merges of the same two revisions, over a root whose parent is not defined. -/
def crissCross : RevisionGraph :=
  buildGraph [⟨⟨"root"⟩, [⟨"lost"⟩]⟩, ⟨⟨"left"⟩, [⟨"root"⟩]⟩, ⟨⟨"right"⟩, [⟨"root"⟩]⟩,
    ⟨⟨"ours"⟩, [⟨"left"⟩, ⟨"right"⟩]⟩, ⟨⟨"theirs"⟩, [⟨"right"⟩, ⟨"left"⟩]⟩]

theorem divergence_exact_crissCross :
    classifyDivergence crissCross ⟨"ours"⟩ ⟨"theirs"⟩ = .diverged [⟨"right"⟩, ⟨"left"⟩] ∧
      BasesExact crissCross ⟨"ours"⟩ ⟨"theirs"⟩ ∧ VerdictExact crissCross ⟨"ours"⟩ ⟨"theirs"⟩ :=
  ⟨by decide +kernel,
    divergence_exact (validateRemoteGraph_ok (u := ()) (by decide +kernel)).2 ⟨"ours"⟩ ⟨"theirs"⟩⟩

end PassVault
