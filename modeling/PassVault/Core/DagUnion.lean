import PassVault.Core.DagOrder

/-!
# Unions with a peer's summary

`unionGraphs` reads every id the overlay defines in the overlay, so it is the `overlay` of
ancestry on the parents of the two graphs. A summary that `validateRemoteGraph` accepts leaves
the verdicts about stored revisions alone exactly when it is `Compatible` with the stored
history; nothing in the code checks that it is.
-/

namespace PassVault

open Relation

namespace RevisionGraph

/-- Every parent a node mentions is defined. -/
def ParentClosed (graph : RevisionGraph) : Prop :=
  ∀ x p, Parent graph x p → graph.has p = true

/-- The ids a graph defines. -/
def defined (graph : RevisionGraph) : Set RevisionId := {x | graph.has x = true}

end RevisionGraph

theorem parent_defined {graph : RevisionGraph} {x p : RevisionId} (h : Parent graph x p) :
    x ∈ graph.defined := by
  obtain ⟨node, hnode, -⟩ := h
  exact RevisionGraph.has_iff.mpr ⟨node, hnode⟩

theorem parent_unionGraphs (base overlay : RevisionGraph) :
    Parent (unionGraphs base overlay) =
      Ancestry.overlay overlay.defined (Parent base) (Parent overlay) := by
  funext x p
  refine propext ?_
  rw [Parent, get_unionGraphs]
  cases hget : overlay.get x with
  | none =>
    have hx : x ∉ overlay.defined := fun h => by
      obtain ⟨node, hnode⟩ := RevisionGraph.has_iff.mp h
      rw [hget] at hnode
      cases hnode
    simp only [Option.none_or, Ancestry.overlay, hx, false_and, false_or, not_false_eq_true,
      true_and]
    rfl
  | some node =>
    have hx : x ∈ overlay.defined := RevisionGraph.has_iff.mpr ⟨node, hget⟩
    simp only [Option.some_or, Ancestry.overlay, hx, true_and, not_true_eq_false, false_and,
      or_false]
    rw [Parent, hget]

/-- In an acyclic graph a parent has fewer ancestors than its child. -/
theorem wellFounded_parent {graph : RevisionGraph}
    (hacyclic : Ancestry.Acyclic (Parent graph)) :
    WellFounded fun p x => Parent graph x p := by
  refine Subrelation.wf ?_ (measure fun x => (ancestorsOf graph x).length).wf
  intro p x hp
  have hx : x ∉ ancestorsOf graph p := fun hmem =>
    hacyclic x (.head' hp (mem_ancestorsOf.mp hmem))
  have hsub : x :: ancestorsOf graph p ⊆ ancestorsOf graph x := by
    intro y hy
    rcases List.mem_cons.mp hy with rfl | hy
    · exact mem_ancestorsOf.mpr .refl
    · exact mem_ancestorsOf.mpr (.head hp (mem_ancestorsOf.mp hy))
  exact (List.subperm_of_subset (List.nodup_cons.mpr ⟨hx, nodup_ancestorsOf graph p⟩) hsub).length_le

/-- A summary accepted by `validateRemoteGraph` leaves the stored history acyclic and every
verdict about two stored revisions as it was, up to the order of the merge bases, iff it claims
no ancestry between stored revisions that the store does not have, keeps each stored parent of a
revision it redefines above it, and puts a foreign revision above both sides of a stored fork
only where it is above an ancestor the two sides share in the store. -/
theorem unionGraphs_verdicts_iff {stored : RevisionGraph} {summary : List RevisionNode}
    (hacyclic : Ancestry.Acyclic (Parent stored)) (hclosed : stored.ParentClosed)
    (hvalid : validateRemoteGraph summary = .ok ()) :
    (Ancestry.Acyclic (Parent (unionGraphs stored (buildGraph summary))) ∧
      ∀ a b, stored.has a = true → stored.has b = true →
        (classifyDivergence (unionGraphs stored (buildGraph summary)) a b).Same
          (classifyDivergence stored a b)) ↔
      Ancestry.Compatible stored.defined (buildGraph summary).defined (Parent stored)
        (Parent (buildGraph summary)) := by
  have hheld : ∀ x p, Parent stored x p → x ∈ stored.defined ∧ p ∈ stored.defined :=
    fun x p h => ⟨parent_defined h, hclosed x p h⟩
  have hfin := finite_ancestors (unionGraphs stored (buildGraph summary))
  have hexact := Ancestry.compatible_iff (wellFounded_parent hacyclic) hacyclic hheld
    (fun x p => parent_defined) (validateRemoteGraph_ok hvalid).2
    (by rw [← parent_unionGraphs]; exact hfin)
  rw [← hexact, ← parent_unionGraphs]
  refine and_congr_right fun _ => ⟨fun h a ha b hb => ?_, fun h a b ha hb => ?_⟩
  · exact sameVerdict_of_classify (h a b ha hb) (h b a hb ha)
  · exact classifyDivergence_same (h a ha b hb)

theorem parentClosed_of_nodes {graph : RevisionGraph}
    (h : ∀ node ∈ graph.nodes, ∀ p ∈ node.parentIds, graph.has p = true) :
    graph.ParentClosed := by
  rintro x p ⟨node, hnode, hp⟩
  exact h node (RevisionGraph.mem_of_get hnode) p hp

/-- A stored history of two revisions, the second a child of the first. -/
def storedPair : RevisionGraph := buildGraph [⟨⟨"first"⟩, []⟩, ⟨⟨"second"⟩, [⟨"first"⟩]⟩]

theorem storedPair_acyclic : Ancestry.Acyclic (Parent storedPair) :=
  (validateRemoteGraph_ok (u := ()) (by decide)).2

theorem storedPair_closed : storedPair.ParentClosed := parentClosed_of_nodes (by decide)

/-- A summary that redefines `second` without its parent turns a head that is ahead of `first`
into one that shares no history with it, and a summary that makes `first` a child of `second`
closes a cycle through the two. Both are accepted. -/
theorem summary_rewrites_storedPair :
    (Ancestry.Acyclic (Parent storedPair) ∧ storedPair.ParentClosed) ∧
      (validateRemoteGraph [⟨⟨"second"⟩, []⟩] = .ok () ∧
        classifyDivergence storedPair ⟨"second"⟩ ⟨"first"⟩ = .localAhead ∧
        classifyDivergence (unionGraphs storedPair (buildGraph [⟨⟨"second"⟩, []⟩]))
          ⟨"second"⟩ ⟨"first"⟩ = .unrelated) ∧
      (validateRemoteGraph [⟨⟨"first"⟩, [⟨"second"⟩]⟩] = .ok () ∧
        ¬ Ancestry.Acyclic
          (Parent (unionGraphs storedPair (buildGraph [⟨⟨"first"⟩, [⟨"second"⟩]⟩])))) := by
  refine ⟨⟨storedPair_acyclic, storedPair_closed⟩, by decide, by decide, fun hacyclic => ?_⟩
  have hup : Parent (unionGraphs storedPair (buildGraph [⟨⟨"first"⟩, [⟨"second"⟩]⟩]))
      ⟨"first"⟩ ⟨"second"⟩ := ⟨⟨⟨"first"⟩, [⟨"second"⟩]⟩, by decide, by decide⟩
  have hdown : Parent (unionGraphs storedPair (buildGraph [⟨⟨"first"⟩, [⟨"second"⟩]⟩]))
      ⟨"second"⟩ ⟨"first"⟩ := ⟨⟨⟨"second"⟩, [⟨"first"⟩]⟩, by decide, by decide⟩
  exact hacyclic ⟨"first"⟩ (.head hup (.single hdown))

/-- A summary that repeats a stored revision and adds a child of it. -/
theorem unionGraphs_verdicts_iff_storedPair :
    (Ancestry.Acyclic (Parent (unionGraphs storedPair
        (buildGraph [⟨⟨"second"⟩, [⟨"first"⟩]⟩, ⟨⟨"third"⟩, [⟨"second"⟩]⟩]))) ∧
      ∀ a b, storedPair.has a = true → storedPair.has b = true →
        (classifyDivergence (unionGraphs storedPair
          (buildGraph [⟨⟨"second"⟩, [⟨"first"⟩]⟩, ⟨⟨"third"⟩, [⟨"second"⟩]⟩])) a b).Same
          (classifyDivergence storedPair a b)) ↔
      Ancestry.Compatible storedPair.defined
        (buildGraph [⟨⟨"second"⟩, [⟨"first"⟩]⟩, ⟨⟨"third"⟩, [⟨"second"⟩]⟩]).defined
        (Parent storedPair)
        (Parent (buildGraph [⟨⟨"second"⟩, [⟨"first"⟩]⟩, ⟨⟨"third"⟩, [⟨"second"⟩]⟩])) :=
  unionGraphs_verdicts_iff storedPair_acyclic storedPair_closed (by decide)

end PassVault
