import PassVault.Core.DagWalk

/-!
# Topological order

When `topologicalOrder` returns, it lists each target id once with its target parents before it.
So `validateRemoteGraph` lets through only summaries with distinct ids and no cycle, and
`missingRevisions` lists what the remote graph defines, the head reaches and we do not hold, in
an order in which it can be ingested.
-/

namespace PassVault

open Relation

/-- Every parent of a listed id that is in `target` is listed before it. -/
def ParentsFirst (graph : RevisionGraph) (target order : List RevisionId) : Prop :=
  ∀ before x after, order = before ++ x :: after →
    ∀ p, Parent graph x p → p ∈ target → p ∈ before

theorem ParentsFirst.snoc {graph : RevisionGraph} {target order : List RevisionId}
    (h : ParentsFirst graph target order) {x : RevisionId}
    (hx : ∀ p, Parent graph x p → p ∈ target → p ∈ order) :
    ParentsFirst graph target (order ++ [x]) := by
  intro before y after heq p hp hmem
  rcases List.eq_nil_or_concat after with rfl | ⟨after, z, rfl⟩
  · obtain ⟨rfl, hxy⟩ := List.append_inj' heq rfl
    exact hx p (by simpa [(List.cons.inj hxy).1] using hp) hmem
  · have heq' : order ++ [x] = (before ++ y :: after) ++ [z] := by simpa using heq
    obtain ⟨rfl, -⟩ := List.append_inj' heq' rfl
    exact h before y after rfl p hp hmem

/-- What the loops of `topologicalOrder` keep true. -/
structure TopologicalInv (graph : RevisionGraph) (target : List RevisionId)
    (s : TopologicalState) : Prop where
  same : s.done = s.ordered
  nodup : s.ordered.Nodup
  inTarget : ∀ x ∈ s.ordered, x ∈ target
  parentsFirst : ParentsFirst graph target s.ordered
  stackInTarget : ∀ frame ∈ s.stack, frame.id ∈ target
  /-- The parents of an expanded frame are done or wait above it. -/
  expanded : ∀ above frame below, s.stack = above ++ frame :: below → frame.expanded = true →
    ∀ p, Parent graph frame.id p → p ∈ target → p ∈ s.done ∨ p ∈ above.map (·.id)

/-- An id on the stack stays there until it is done. -/
def Progress (s s' : TopologicalState) : Prop :=
  ∀ x, x ∈ s.done ∨ x ∈ s.stack.map (·.id) → x ∈ s'.done ∨ x ∈ s'.stack.map (·.id)

/-- The frames `pushParents` puts on the stack: unexpanded, at most one for each parent, and one
for every target parent that is not done. -/
structure PushResult (target onStack done parentIds : List RevisionId) (pushed : List Frame) :
    Prop where
  unexpanded : ∀ frame ∈ pushed, frame.expanded = false
  inTarget : ∀ frame ∈ pushed, frame.id ∈ target
  fromParents : ∀ frame ∈ pushed, frame.id ∈ parentIds
  offStack : ∀ frame ∈ pushed, frame.id ∉ onStack
  length_le : pushed.length ≤ parentIds.length
  covers : ∀ p ∈ parentIds, p ∈ target → p ∈ done ∨ p ∈ pushed.map (·.id)

theorem PushResult.skip {target onStack done rest : List RevisionId} {parentId : RevisionId}
    {pushed : List Frame} (h : PushResult target onStack done rest pushed)
    (hskip : parentId ∉ target ∨ parentId ∈ done) :
    PushResult target onStack done (parentId :: rest) pushed := by
  refine ⟨h.unexpanded, h.inTarget, fun f hf => List.mem_cons_of_mem _ (h.fromParents f hf),
    h.offStack, ?_, fun p hp hmem => ?_⟩
  · have := h.length_le
    simp only [List.length_cons]
    omega
  · rcases List.mem_cons.mp hp with rfl | hp
    · exact Or.inl (hskip.resolve_left (not_not_intro hmem))
    · exact h.covers p hp hmem

theorem PushResult.push {target onStack done rest : List RevisionId} {parentId : RevisionId}
    {pushed : List Frame} (h : PushResult target onStack done rest pushed)
    (htarget : parentId ∈ target) (hoff : parentId ∉ onStack) :
    PushResult target onStack done (parentId :: rest) (pushed ++ [⟨parentId, false⟩]) := by
  have each : ∀ {q : Frame → Prop}, (∀ f ∈ pushed, q f) → q ⟨parentId, false⟩ →
      ∀ f ∈ pushed ++ [⟨parentId, false⟩], q f := by
    intro q hall hlast f hf
    rcases List.mem_append.mp hf with hf | hf
    · exact hall f hf
    · rw [List.mem_singleton.mp hf]
      exact hlast
  refine ⟨each h.unexpanded rfl, each h.inTarget htarget,
    each (fun f hf => List.mem_cons_of_mem _ (h.fromParents f hf)) List.mem_cons_self,
    each h.offStack hoff, ?_, fun p hp hmem => ?_⟩
  · have := h.length_le
    simp only [List.length_append, List.length_cons, List.length_nil]
    omega
  · rcases List.mem_cons.mp hp with rfl | hp
    · exact Or.inr (by simp)
    · exact (h.covers p hp hmem).imp_right fun h => by
        rw [List.map_append]
        exact List.mem_append_left _ h

theorem pushParents_ok {target onStack done parentIds : List RevisionId}
    {stack stack' : List Frame}
    (h : pushParents target onStack done parentIds stack = .ok stack') :
    ∃ pushed, stack' = pushed ++ stack ∧ PushResult target onStack done parentIds pushed := by
  induction parentIds generalizing stack with
  | nil =>
    cases h
    exact ⟨[], rfl, by simp, by simp, by simp, by simp, by simp, by simp⟩
  | cons parentId rest ih =>
    rw [pushParents] at h
    split at h
    · rename_i hskip
      obtain ⟨pushed, rfl, hpushed⟩ := ih h
      exact ⟨pushed, rfl, hpushed.skip hskip⟩
    · rename_i hpush
      obtain ⟨_, hassert, h⟩ := bind_eq_ok.mp h
      obtain ⟨pushed, rfl, hpushed⟩ := ih h
      push Not at hpush
      exact ⟨pushed ++ [⟨parentId, false⟩], by simp,
        hpushed.push hpush.1 (by simpa using assert_eq_ok.mp hassert)⟩

/-- Splitting a stack that begins with known frames: the split falls among them or below. -/
theorem append_eq_append_cons {α : Type} {pushed stack above below : List α} {frame : α}
    (h : pushed ++ stack = above ++ frame :: below) :
    (frame ∈ pushed) ∨ ∃ above', above = pushed ++ above' ∧ stack = above' ++ frame :: below := by
  rcases List.append_eq_append_iff.mp h with ⟨as, rfl, hs⟩ | ⟨bs, hp, hs⟩
  · exact Or.inr ⟨as, rfl, hs⟩
  · cases bs with
    | nil => exact Or.inr ⟨[], by simpa using hp.symm, by simpa using hs.symm⟩
    | cons b bs =>
      obtain ⟨rfl, -⟩ := List.cons.inj hs
      exact Or.inl (by simp [hp])

/-- Popping a frame that is done. -/
theorem TopologicalInv.pop {graph : RevisionGraph} {target : List RevisionId}
    {s : TopologicalState} (h : TopologicalInv graph target s) {frame : Frame}
    {rest : List Frame} (hstack : s.stack = frame :: rest) (hdone : frame.id ∈ s.done)
    (onStack : List RevisionId) :
    TopologicalInv graph target { s with stack := rest, onStack } := by
  refine ⟨h.same, h.nodup, h.inTarget, h.parentsFirst, fun f hf => ?_, ?_⟩
  · exact h.stackInTarget f (hstack ▸ List.mem_cons_of_mem _ hf)
  · intro above f below heq hexp p hp hmem
    have hs : s.stack = (frame :: above) ++ f :: below := by rw [hstack]; simpa using heq
    rcases h.expanded _ _ _ hs hexp p hp hmem with h' | h'
    · exact Or.inl h'
    · rcases List.mem_cons.mp h' with rfl | h'
      · exact Or.inl hdone
      · exact Or.inr h'

/-- Finishing an expanded frame: nothing is above it, so its parents are all done. -/
theorem TopologicalInv.finish {graph : RevisionGraph} {target : List RevisionId}
    {s : TopologicalState} (h : TopologicalInv graph target s) {frame : Frame}
    {rest : List Frame} (hstack : s.stack = frame :: rest) (hdone : frame.id ∉ s.done)
    (hexp : frame.expanded = true) (onStack : List RevisionId) :
    TopologicalInv graph target
      ⟨rest, onStack, s.done ++ [frame.id], s.ordered ++ [frame.id]⟩ := by
  have hparents : ∀ p, Parent graph frame.id p → p ∈ target → p ∈ s.done := fun p hp hmem => by
    simpa using h.expanded [] frame rest hstack hexp p hp hmem
  refine ⟨by rw [h.same], ?_, fun x hx => ?_, h.parentsFirst.snoc (h.same ▸ hparents),
    fun f hf => h.stackInTarget f (hstack ▸ List.mem_cons_of_mem _ hf), ?_⟩
  · exact nodup_snoc h.nodup (h.same ▸ hdone)
  · rcases List.mem_append.mp hx with hx | hx
    · exact h.inTarget x hx
    · rw [List.mem_singleton.mp hx]
      exact h.stackInTarget frame (by rw [hstack]; simp)
  · intro above f below heq hexp' p hp hmem
    have hs : s.stack = (frame :: above) ++ f :: below := by rw [hstack]; simpa using heq
    rcases h.expanded _ _ _ hs hexp' p hp hmem with h' | h'
    · exact Or.inl (List.mem_append_left _ h')
    · rcases List.mem_cons.mp h' with rfl | h'
      · exact Or.inl (by simp)
      · exact Or.inr h'

/-- Expanding a frame and pushing frames for its parents. -/
theorem TopologicalInv.expand {graph : RevisionGraph} {target : List RevisionId}
    {s : TopologicalState} (h : TopologicalInv graph target s) {frame : Frame}
    {rest pushed : List Frame} (hstack : s.stack = frame :: rest)
    (hunexpanded : ∀ f ∈ pushed, f.expanded = false) (hframes : ∀ f ∈ pushed, f.id ∈ target)
    (hparents : ∀ p, Parent graph frame.id p → p ∈ target →
      p ∈ s.done ∨ p ∈ pushed.map (·.id)) (onStack : List RevisionId) :
    TopologicalInv graph target
      { s with stack := pushed ++ ⟨frame.id, true⟩ :: rest, onStack } := by
  refine ⟨h.same, h.nodup, h.inTarget, h.parentsFirst, fun f hf => ?_, ?_⟩
  · rcases List.mem_append.mp hf with hf | hf
    · exact hframes f hf
    · rcases List.mem_cons.mp hf with rfl | hf
      · exact h.stackInTarget frame (by rw [hstack]; simp)
      · exact h.stackInTarget f (hstack ▸ List.mem_cons_of_mem _ hf)
  · intro above f below heq hexp p hp hmem
    rcases append_eq_append_cons heq with hf | ⟨above', rfl, heq'⟩
    · rw [hunexpanded f hf] at hexp
      cases hexp
    · cases above' with
      | nil =>
        obtain ⟨rfl, -⟩ := List.cons.inj heq'
        exact (hparents p hp hmem).imp_right fun h => by simpa using h
      | cons g above' =>
        obtain ⟨rfl, rfl⟩ := List.cons.inj heq'
        have hs : s.stack = (frame :: above') ++ f :: below := by rw [hstack]; rfl
        exact (h.expanded _ _ _ hs hexp p hp hmem).imp_right fun h => by
          simp at h ⊢
          tauto

theorem topologicalStep_ok {graph : RevisionGraph} {target : List RevisionId}
    {s s' : TopologicalState} (h : TopologicalInv graph target s) {frame : Frame}
    {rest : List Frame} (hstack : s.stack = frame :: rest)
    (hstep : topologicalStep graph target frame rest s = .ok s') :
    TopologicalInv graph target s' ∧ Progress s s' := by
  rw [topologicalStep] at hstep
  by_cases hdone : frame.id ∈ s.done
  · rw [if_pos hdone] at hstep
    cases hstep
    refine ⟨h.pop hstack hdone _, fun x hx => ?_⟩
    rw [hstack] at hx
    simp at hx ⊢
    rcases hx with hx | rfl | hx
    · exact Or.inl hx
    · exact Or.inl hdone
    · exact Or.inr hx
  rw [if_neg hdone] at hstep
  by_cases hexp : frame.expanded = true
  · rw [if_pos hexp] at hstep
    cases hstep
    refine ⟨h.finish hstack hdone hexp _, fun x hx => ?_⟩
    rw [hstack] at hx
    simp at hx ⊢
    tauto
  rw [if_neg hexp] at hstep
  have progress : ∀ pushed onStack,
      Progress s { s with stack := pushed ++ ⟨frame.id, true⟩ :: rest, onStack } := by
    intro pushed onStack x hx
    rw [hstack] at hx
    simp at hx ⊢
    tauto
  cases hget : graph.get frame.id with
  | none =>
    simp only [hget] at hstep
    cases hstep
    refine ⟨h.expand hstack (List.forall_mem_nil fun f : Frame => f.expanded = false)
      (List.forall_mem_nil _) (fun p hp => ?_) _, progress [] _⟩
    obtain ⟨node, hnode, -⟩ := hp
    rw [hget] at hnode
    cases hnode
  | some node =>
    simp only [hget] at hstep
    obtain ⟨stack, hpush, hstep⟩ := bind_eq_ok.mp hstep
    cases hstep
    obtain ⟨pushed, rfl, hpushed⟩ := pushParents_ok hpush
    refine ⟨h.expand hstack hpushed.unexpanded hpushed.inTarget (fun p hp hmem => ?_) _,
      progress pushed _⟩
    obtain ⟨node', hnode, hp⟩ := hp
    rw [hget] at hnode
    exact hpushed.covers p (Option.some.inj hnode ▸ hp) hmem

theorem topologicalLoop_ok {graph : RevisionGraph} {target : List RevisionId} (budget : Nat) :
    ∀ {s s' : TopologicalState}, TopologicalInv graph target s →
      topologicalLoop graph target budget s = .ok s' →
      TopologicalInv graph target s' ∧ Progress s s' ∧ s'.stack = [] := by
  induction budget with
  | zero => intro s s' _ hloop; cases hloop
  | succ budget ih =>
    intro s s' h hloop
    rw [topologicalLoop] at hloop
    split at hloop
    · rename_i hstack
      cases hloop
      exact ⟨h, fun _ hx => hx, hstack⟩
    · rename_i frame rest hstack
      obtain ⟨mid, hstep, hloop⟩ := bind_eq_ok.mp hloop
      obtain ⟨hmid, hprogress⟩ := topologicalStep_ok h hstack hstep
      obtain ⟨hs', hprogress', hempty⟩ := ih hmid hloop
      exact ⟨hs', fun x hx => hprogress' x (hprogress x hx), hempty⟩

theorem topologicalStarts_ok {graph : RevisionGraph} {target : List RevisionId} :
    ∀ {starts : List RevisionId} {s s' : TopologicalState}, TopologicalInv graph target s →
      s.stack = [] → (∀ x ∈ starts, x ∈ target) →
      topologicalStarts graph target starts s = .ok s' →
      TopologicalInv graph target s' ∧ (∀ x ∈ s.done, x ∈ s'.done) ∧
        ∀ x ∈ starts, x ∈ s'.done := by
  intro starts
  induction starts with
  | nil =>
    intro s s' h _ _ hrun
    cases hrun
    exact ⟨h, fun _ hx => hx, by simp⟩
  | cons start rest ih =>
    intro s s' h hempty htarget hrun
    rw [topologicalStarts] at hrun
    split at hrun
    · rename_i hdone
      obtain ⟨h', hkeep, hrest⟩ :=
        ih h hempty (fun x hx => htarget x (List.mem_cons_of_mem _ hx)) hrun
      refine ⟨h', hkeep, fun x hx => ?_⟩
      rcases List.mem_cons.mp hx with rfl | hx
      · exact hkeep _ hdone
      · exact hrest x hx
    · obtain ⟨mid, hloop, hrun⟩ := bind_eq_ok.mp hrun
      have hstart : TopologicalInv graph target { s with stack := [⟨start, false⟩] } := by
        refine ⟨h.same, h.nodup, h.inTarget, h.parentsFirst, fun f hf => ?_, ?_⟩
        · rw [List.mem_singleton.mp hf]
          exact htarget start (by simp)
        · intro above f below heq hexp
          have hf : f ∈ [(⟨start, false⟩ : Frame)] := by
            have : [(⟨start, false⟩ : Frame)] = above ++ f :: below := heq
            rw [this]
            simp
          rw [List.mem_singleton.mp hf] at hexp
          cases hexp
      obtain ⟨hmid, hprogress, hstack⟩ := topologicalLoop_ok _ hstart hloop
      have hdone : ∀ x, x ∈ s.done ∨ x = start → x ∈ mid.done := by
        intro x hx
        have := hprogress x (hx.imp_right fun e => by simp [e])
        simpa [hstack] using this
      obtain ⟨h', hkeep, hrest⟩ :=
        ih hmid hstack (fun x hx => htarget x (List.mem_cons_of_mem _ hx)) hrun
      refine ⟨h', fun x hx => hkeep x (hdone x (Or.inl hx)), fun x hx => ?_⟩
      rcases List.mem_cons.mp hx with rfl | hx
      · exact hkeep _ (hdone _ (Or.inr rfl))
      · exact hrest x hx

theorem mem_setOf {ids : List RevisionId} {x : RevisionId} : x ∈ setOf ids ↔ x ∈ ids := by
  have h : ∀ (ids acc : List RevisionId),
      x ∈ ids.foldl (fun seen id => if id ∈ seen then seen else seen ++ [id]) acc ↔
        x ∈ acc ∨ x ∈ ids := by
    intro ids
    induction ids with
    | nil => simp
    | cons id rest ih =>
      intro acc
      rw [List.foldl_cons, ih]
      by_cases hmem : id ∈ acc
      · rw [if_pos hmem, List.mem_cons]
        refine ⟨fun h => h.imp_right Or.inr, ?_⟩
        rintro (h | rfl | h)
        · exact Or.inl h
        · exact Or.inl hmem
        · exact Or.inr h
      · rw [if_neg hmem]
        simp
        tauto
  exact (h ids []).trans (by simp)

/-- What a successful `topologicalOrder` returns. -/
structure TopologicalResult (graph : RevisionGraph) (ids order : List RevisionId) : Prop where
  nodup : order.Nodup
  mem_iff : ∀ x, x ∈ order ↔ x ∈ ids
  parentsFirst : ParentsFirst graph ids order

theorem topologicalOrder_ok {graph : RevisionGraph} {ids order : List RevisionId}
    (h : topologicalOrder graph ids = .ok order) : TopologicalResult graph ids order := by
  obtain ⟨s, hrun, hs⟩ := bind_eq_ok.mp h
  cases hs
  have hinit : TopologicalInv graph (setOf ids) ⟨[], [], [], []⟩ :=
    ⟨rfl, List.nodup_nil, by simp, fun before x after heq => by simp at heq, by simp,
      fun above f below heq => by simp at heq⟩
  obtain ⟨h', -, hall⟩ := topologicalStarts_ok hinit rfl (fun _ hx => hx) hrun
  refine ⟨h'.nodup, fun x => ⟨fun hx => mem_setOf.mp (h'.inTarget x hx), fun hx => ?_⟩, ?_⟩
  · rw [← h'.same]
    exact hall x (mem_setOf.mpr hx)
  · exact fun before x after heq p hp hmem =>
      h'.parentsFirst before x after heq p hp (mem_setOf.mpr hmem)

/-- A listed parent comes at a smaller position. -/
theorem TopologicalResult.idxOf_lt {graph : RevisionGraph} {ids order : List RevisionId}
    (h : TopologicalResult graph ids order) {x p : RevisionId} (hx : x ∈ order)
    (hp : Parent graph x p) (hpmem : p ∈ order) : order.idxOf p < order.idxOf x := by
  obtain ⟨before, after, heq⟩ := List.append_of_mem hx
  have hbefore := h.parentsFirst before x after heq p hp ((h.mem_iff p).mp hpmem)
  have hnodup := h.nodup
  rw [heq] at hnodup
  have hxb : x ∉ before := fun hmem =>
    (List.nodup_append.mp hnodup).2.2 x hmem x (by simp) rfl
  rw [heq, List.idxOf_append_of_mem hbefore, List.idxOf_append_of_notMem hxb]
  have := List.idxOf_lt_length_of_mem hbefore
  omega

/-- `parent` is a parent of `child` and both are in `target`. -/
def ParentWithin (graph : RevisionGraph) (target : List RevisionId)
    (child parent : RevisionId) : Prop :=
  child ∈ target ∧ parent ∈ target ∧ Parent graph child parent

theorem parent_of_within {graph : RevisionGraph} {target : List RevisionId} {x y : RevisionId}
    (h : TransGen (ParentWithin graph target) x y) : TransGen (Parent graph) x y :=
  TransGen.mono (fun _ _ h => h.2.2) _ _ h

/-- A path along the parents of a graph stays in `ids` when every child is there. -/
theorem within_of_transGen {graph : RevisionGraph} {ids : List RevisionId}
    (hids : ∀ x p, Parent graph x p → x ∈ ids) {x y : RevisionId}
    (h : TransGen (Parent graph) x y) (hy : y ∈ ids) :
    TransGen (ParentWithin graph ids) x y := by
  induction h using TransGen.head_induction_on with
  | single hp => exact .single ⟨hids _ _ hp, hy, hp⟩
  | @head x z hp hzy ih =>
    obtain ⟨w, hzw, -⟩ := TransGen.head'_iff.mp hzy
    exact .head ⟨hids _ _ hp, hids _ _ hzw, hp⟩ ih

/-- Ids that can be ordered have no cycle among them: a parent comes at a smaller position. -/
theorem acyclicWithin_of_topologicalOrder {graph : RevisionGraph} {ids order : List RevisionId}
    (h : topologicalOrder graph ids = .ok order) :
    Ancestry.Acyclic (ParentWithin graph ids) := by
  have r := topologicalOrder_ok h
  have lt : ∀ x y, TransGen (ParentWithin graph ids) x y → order.idxOf y < order.idxOf x := by
    intro x y hxy
    induction hxy with
    | single hp => exact r.idxOf_lt ((r.mem_iff _).mpr hp.1) hp.2.2 ((r.mem_iff _).mpr hp.2.1)
    | tail _ hp ih =>
      have := r.idxOf_lt ((r.mem_iff _).mpr hp.1) hp.2.2 ((r.mem_iff _).mpr hp.2.1)
      omega
  exact fun x hxx => Nat.lt_irrefl _ (lt x x hxx)

/-- A graph whose ids can all be ordered has no cycle. -/
theorem acyclic_of_topologicalOrder {graph : RevisionGraph} {ids order : List RevisionId}
    (h : topologicalOrder graph ids = .ok order)
    (hids : ∀ x p, Parent graph x p → x ∈ ids) : Ancestry.Acyclic (Parent graph) := by
  intro x hxx
  obtain ⟨p, hp, -⟩ := TransGen.head'_iff.mp hxx
  exact acyclicWithin_of_topologicalOrder h x (within_of_transGen hids hxx (hids x p hp))

theorem checkDistinct_ok {nodes : List RevisionNode} :
    ∀ {seen ids : List RevisionId}, seen.Nodup → checkDistinct nodes seen = .ok ids →
      ids.Nodup ∧ ids = seen ++ nodes.map (·.id) := by
  induction nodes with
  | nil =>
    intro seen ids h hrun
    cases hrun
    exact ⟨h, by simp⟩
  | cons node rest ih =>
    intro seen ids h hrun
    obtain ⟨_, hassert, hrun⟩ := bind_eq_ok.mp hrun
    have hnot : node.id ∉ seen := by simpa using assert_eq_ok.mp hassert
    obtain ⟨hnodup, rfl⟩ := ih (nodup_snoc h hnot) hrun
    exact ⟨hnodup, by simp⟩

theorem parent_mem_ids {nodes : List RevisionNode} {x p : RevisionId}
    (h : Parent (buildGraph nodes) x p) : x ∈ nodes.map (·.id) := by
  obtain ⟨node, hnode, -⟩ := h
  rw [get_buildGraph] at hnode
  have hmem := List.mem_reverse.mp (List.mem_of_find?_eq_some hnode)
  have hid : node.id = x := by simpa using List.find?_some hnode
  exact List.mem_map.mpr ⟨node, hmem, hid⟩

/-- What `validateRemoteGraph` lets through. -/
theorem validateRemoteGraph_ok {nodes : List RevisionNode} {u : Unit}
    (h : validateRemoteGraph nodes = .ok u) :
    (nodes.map (·.id)).Nodup ∧ Ancestry.Acyclic (Parent (buildGraph nodes)) := by
  obtain ⟨ids, hdistinct, h⟩ := bind_eq_ok.mp h
  obtain ⟨order, horder, -⟩ := bind_eq_ok.mp h
  obtain ⟨hnodup, rfl⟩ := checkDistinct_ok List.nodup_nil hdistinct
  exact ⟨by simpa using hnodup, acyclic_of_topologicalOrder horder fun x p hp => by
    simpa using parent_mem_ids hp⟩

/-! ## The order exists unless there is a cycle

Every turn of the loop lowers `weight`, so the budget is never what ends it, and the assertion
on the stack only fails for a parent that the expanded frame is itself an ancestor of. -/

/-- The error `topologicalOrder` throws. -/
def cycleAt (id : RevisionId) : Failure :=
  .contract ("Contract violation: " ++ ("revision graph contains a cycle at " ++ id.value))

theorem pushParents_error {target onStack done parentIds : List RevisionId}
    {stack : List Frame} {e : Failure}
    (h : pushParents target onStack done parentIds stack = .error e) :
    ∃ p ∈ parentIds, p ∈ target ∧ p ∈ onStack ∧ e = cycleAt p := by
  induction parentIds generalizing stack with
  | nil => cases h
  | cons parentId rest ih =>
    rw [pushParents] at h
    split at h
    · obtain ⟨p, hp, hcycle⟩ := ih h
      exact ⟨p, List.mem_cons_of_mem _ hp, hcycle⟩
    · rename_i hpush
      push Not at hpush
      by_cases hon : parentId ∈ onStack
      · simp only [hon, not_true_eq_false, decide_false, assert_false] at h
        cases h
        exact ⟨parentId, List.mem_cons_self, hpush.1, hon, rfl⟩
      · simp only [hon, not_false_eq_true, decide_true, assert_true] at h
        obtain ⟨p, hp, hcycle⟩ := ih h
        exact ⟨p, List.mem_cons_of_mem _ hp, hcycle⟩

/-- `onStack` holds the expanded frames, and an expanded frame is a proper descendant of every
frame above it, along target ids; none of those frames carries its id. -/
structure StackInv (graph : RevisionGraph) (target : List RevisionId) (s : TopologicalState) :
    Prop where
  onStack : ∀ x, x ∈ s.onStack ↔ ⟨x, true⟩ ∈ s.stack
  inTarget : ∀ frame ∈ s.stack, frame.id ∈ target
  below : s.stack.Pairwise fun f g =>
    g.expanded = true → f.id ≠ g.id ∧ TransGen (ParentWithin graph target) g.id f.id

/-- What remains to be done: two turns for an unexpanded frame, one for an expanded one, and two
for every parent edge of a node not yet expanded. -/
def weight (graph : RevisionGraph) (s : TopologicalState) : Nat :=
  (s.stack.map fun f => if f.expanded then 1 else 2).sum +
    2 * unseenEdges graph.nodes (s.done ++ s.onStack)

theorem unseenEdges_anti {nodes : List RevisionNode} {seen seen' : List RevisionId}
    (h : ∀ x ∈ seen, x ∈ seen') : unseenEdges nodes seen' ≤ unseenEdges nodes seen := by
  induction nodes with
  | nil => simp [unseenEdges]
  | cons node rest ih =>
    rw [unseenEdges_cons, unseenEdges_cons]
    by_cases hseen : node.id ∈ seen
    · simp only [hseen, h _ hseen, if_true]
      omega
    · simp only [hseen, if_false]
      split <;> omega

theorem unexpanded_weight {pushed : List Frame} (h : ∀ f ∈ pushed, f.expanded = false) :
    (pushed.map fun f => if f.expanded then 1 else 2).sum = 2 * pushed.length := by
  induction pushed with
  | nil => rfl
  | cons f rest ih =>
    rw [List.map_cons, List.sum_cons, ih fun g hg => h g (List.mem_cons_of_mem _ hg),
      h f List.mem_cons_self]
    simp
    omega

/-- Removing the top frame, whose id leaves `onStack` with it. -/
theorem StackInv.pop {graph : RevisionGraph} {target : List RevisionId} {s : TopologicalState}
    (h : StackInv graph target s) {frame : Frame} {rest : List Frame}
    (hstack : s.stack = frame :: rest) (done ordered : List RevisionId) :
    StackInv graph target ⟨rest, s.onStack.filter (· ≠ frame.id), done, ordered⟩ := by
  have hbelow := h.below
  rw [hstack] at hbelow
  obtain ⟨htop, hrest⟩ := List.pairwise_cons.mp hbelow
  refine ⟨fun x => ?_, fun f hf => h.inTarget f (hstack ▸ List.mem_cons_of_mem _ hf), hrest⟩
  simp only [ne_eq, decide_not, List.mem_filter, Bool.not_eq_eq_eq_not, Bool.not_true,
    decide_eq_false_iff_not, h.onStack x, hstack, List.mem_cons]
  constructor
  · rintro ⟨rfl | hx, hne⟩
    · exact absurd rfl hne
    · exact hx
  · intro hx
    exact ⟨Or.inr hx, fun e => (htop _ hx rfl).1 e.symm⟩

/-- Expanding the top frame and pushing parents of it that are not on the stack. -/
theorem StackInv.expand {graph : RevisionGraph} {target : List RevisionId}
    {s : TopologicalState} (h : StackInv graph target s) {frame : Frame}
    {rest pushed : List Frame} (hstack : s.stack = frame :: rest)
    (hunexpanded : ∀ f ∈ pushed, f.expanded = false)
    (hparents : ∀ f ∈ pushed, ParentWithin graph target frame.id f.id)
    (hoff : ∀ f ∈ pushed, f.id ∉ frame.id :: s.onStack) (done ordered : List RevisionId) :
    StackInv graph target
      ⟨pushed ++ ⟨frame.id, true⟩ :: rest, frame.id :: s.onStack, done, ordered⟩ := by
  have hbelow := h.below
  rw [hstack] at hbelow
  obtain ⟨htop, hrest⟩ := List.pairwise_cons.mp hbelow
  have hframe : frame.id ∈ target := h.inTarget frame (by rw [hstack]; exact List.mem_cons_self)
  refine ⟨fun x => ?_, fun f hf => ?_, List.pairwise_append.mpr ⟨?_, ?_, ?_⟩⟩
  · have hpushed : (⟨x, true⟩ : Frame) ∉ pushed := fun hx => by
      have := hunexpanded _ hx
      cases this
    simp only [List.mem_cons, h.onStack x, hstack, List.mem_append, hpushed, false_or,
      Frame.mk.injEq, and_true]
    constructor
    · rintro (rfl | hx | hx)
      · exact Or.inl rfl
      · exact Or.inl (by rw [← hx])
      · exact Or.inr hx
    · rintro (rfl | hx)
      · exact Or.inl rfl
      · exact Or.inr (Or.inr hx)
  · rcases List.mem_append.mp hf with hf | hf
    · exact (hparents f hf).2.1
    · rcases List.mem_cons.mp hf with rfl | hf
      · exact hframe
      · exact h.inTarget f (hstack ▸ List.mem_cons_of_mem _ hf)
  · exact List.Pairwise.imp_of_mem (fun _ hg _ hexp => by
      rw [hunexpanded _ hg] at hexp
      cases hexp) (List.pairwise_of_forall fun _ _ : Frame => trivial)
  · exact List.pairwise_cons.mpr ⟨htop, hrest⟩
  · intro f hf g hg hexp
    have hp := hparents f hf
    rcases List.mem_cons.mp hg with rfl | hg
    · exact ⟨fun e => hoff f hf (e ▸ List.mem_cons_self), .single hp⟩
    · have hon : g.id ∈ s.onStack := (h.onStack g.id).mpr (by
        rw [hstack, ← hexp]
        exact List.mem_cons_of_mem _ hg)
      exact ⟨fun e => hoff f hf (e ▸ List.mem_cons_of_mem _ hon), (htop g hg hexp).2.tail hp⟩

/-- One turn of the loop gets on with the work or finds a cycle. -/
theorem topologicalStep_cases {graph : RevisionGraph} {target : List RevisionId}
    {s : TopologicalState} (h : StackInv graph target s) {frame : Frame} {rest : List Frame}
    (hstack : s.stack = frame :: rest) :
    (∃ s', topologicalStep graph target frame rest s = .ok s' ∧ StackInv graph target s' ∧
      weight graph s' < weight graph s) ∨
    ∃ x, topologicalStep graph target frame rest s = .error (cycleAt x) ∧
      TransGen (ParentWithin graph target) x x := by
  have hframe : frame.id ∈ target := h.inTarget frame (by rw [hstack]; exact List.mem_cons_self)
  have htop := h.below
  rw [hstack] at htop
  have htop := (List.pairwise_cons.mp htop).1
  rw [topologicalStep]
  by_cases hdone : frame.id ∈ s.done
  · rw [if_pos hdone]
    refine Or.inl ⟨_, rfl, h.pop hstack _ _, ?_⟩
    have : unseenEdges graph.nodes (s.done ++ s.onStack.filter (· ≠ frame.id)) ≤
        unseenEdges graph.nodes (s.done ++ s.onStack) := unseenEdges_anti fun x hx => by
      by_cases e : x = frame.id
      · exact List.mem_append_left _ (e ▸ hdone)
      · simpa [e] using hx
    simp only [weight, hstack, List.map_cons, List.sum_cons]
    split <;> omega
  rw [if_neg hdone]
  by_cases hexp : frame.expanded = true
  · rw [if_pos hexp]
    refine Or.inl ⟨_, rfl, h.pop hstack _ _, ?_⟩
    have : unseenEdges graph.nodes
        ((s.done ++ [frame.id]) ++ s.onStack.filter (· ≠ frame.id)) ≤
        unseenEdges graph.nodes (s.done ++ s.onStack) := unseenEdges_anti fun x hx => by
      by_cases e : x = frame.id
      · simp [e]
      · simpa [e] using hx
    simp only [weight, hstack, List.map_cons, List.sum_cons, hexp, if_true]
    omega
  rw [if_neg hexp]
  have hexp' : frame.expanded = false := by simpa using hexp
  have hon : frame.id ∉ s.onStack := by
    rw [h.onStack, hstack]
    intro hmem
    rcases List.mem_cons.mp hmem with e | hmem
    · rw [← e] at hexp
      exact hexp rfl
    · exact (htop _ hmem rfl).1 rfl
  cases hget : graph.get frame.id with
  | none =>
    refine Or.inl ⟨_, rfl, ?_, ?_⟩
    · exact h.expand hstack (List.forall_mem_nil fun f : Frame => f.expanded = false)
        (List.forall_mem_nil _) (List.forall_mem_nil _) _ _
    · have : unseenEdges graph.nodes (s.done ++ frame.id :: s.onStack) ≤
          unseenEdges graph.nodes (s.done ++ s.onStack) := unseenEdges_anti fun x hx => by
        simp at hx ⊢
        tauto
      simp only [weight, hstack, List.map_cons, List.sum_cons, hexp', if_true]
      simp
      omega
  | some node =>
    cases hpush : pushParents target (frame.id :: s.onStack) s.done node.parentIds
        (⟨frame.id, true⟩ :: rest) with
    | error e =>
      obtain ⟨p, hp, hptarget, hpon, rfl⟩ := pushParents_error hpush
      have hparent : ParentWithin graph target frame.id p :=
        ⟨hframe, hptarget, node, hget, hp⟩
      refine Or.inr ⟨p, by simp only [hpush]; rfl, ?_⟩
      rcases List.mem_cons.mp hpon with rfl | hpon
      · exact .single hparent
      · rw [h.onStack, hstack] at hpon
        rcases List.mem_cons.mp hpon with e | hpon
        · rw [← e] at hexp
          exact absurd rfl hexp
        · exact (htop _ hpon rfl).2.tail hparent
    | ok stack =>
      obtain ⟨pushed, rfl, hpushed⟩ := pushParents_ok hpush
      refine Or.inl ⟨_, by simp only [hpush]; rfl, ?_, ?_⟩
      · exact h.expand hstack hpushed.unexpanded
          (fun f hf => ⟨hframe, hpushed.inTarget f hf, node, hget, hpushed.fromParents f hf⟩)
          hpushed.offStack _ _
      · have hseen : frame.id ∉ s.done ++ s.onStack := by simp [hdone, hon]
        have hedges := unseenEdges_get hget hseen
        have : unseenEdges graph.nodes (s.done ++ frame.id :: s.onStack) ≤
            unseenEdges graph.nodes ((s.done ++ s.onStack) ++ [frame.id]) :=
          unseenEdges_anti fun x hx => by
            simp at hx ⊢
            tauto
        have hlength := hpushed.length_le
        simp only [weight, hstack, List.map_cons, List.sum_cons, List.map_append,
          List.sum_append, unexpanded_weight hpushed.unexpanded, hexp', if_true]
        simp
        omega

theorem topologicalLoop_cases {graph : RevisionGraph} {target : List RevisionId} (budget : Nat) :
    ∀ {s : TopologicalState}, StackInv graph target s → weight graph s < budget →
      (∃ s', topologicalLoop graph target budget s = .ok s' ∧ StackInv graph target s' ∧
        s'.stack = []) ∨
      ∃ x, topologicalLoop graph target budget s = .error (cycleAt x) ∧
        TransGen (ParentWithin graph target) x x := by
  induction budget with
  | zero => intro s _ h; omega
  | succ budget ih =>
    intro s h hweight
    rw [topologicalLoop]
    cases hstack : s.stack with
    | nil => exact Or.inl ⟨s, rfl, h, hstack⟩
    | cons frame rest =>
      rcases topologicalStep_cases h hstack with ⟨mid, hstep, hmid, hlt⟩ | ⟨x, hstep, hcycle⟩
      · simp only [hstep]
        exact ih hmid (by omega)
      · simp only [hstep]
        exact Or.inr ⟨x, rfl, hcycle⟩

theorem topologicalStarts_cases {graph : RevisionGraph} {target : List RevisionId} :
    ∀ (starts : List RevisionId) {s : TopologicalState}, StackInv graph target s →
      s.stack = [] → (∀ x ∈ starts, x ∈ target) →
      (∃ s', topologicalStarts graph target starts s = .ok s') ∨
      ∃ x, topologicalStarts graph target starts s = .error (cycleAt x) ∧
        TransGen (ParentWithin graph target) x x := by
  intro starts
  induction starts with
  | nil => exact fun _ _ _ => Or.inl ⟨_, rfl⟩
  | cons start rest ih =>
    intro s h hempty htarget
    have hrest : ∀ x ∈ rest, x ∈ target := fun x hx => htarget x (List.mem_cons_of_mem _ hx)
    rw [topologicalStarts]
    split
    · exact ih h hempty hrest
    · have honStack : s.onStack = [] := List.eq_nil_iff_forall_not_mem.mpr fun x hx => by
        rw [h.onStack, hempty] at hx
        cases hx
      have hstart : StackInv graph target { s with stack := [⟨start, false⟩] } :=
        ⟨fun x => by simp [honStack], fun f hf => by
          rw [List.mem_singleton.mp hf]
          exact htarget start List.mem_cons_self, List.pairwise_singleton _ _⟩
      have hweight : weight graph { s with stack := [⟨start, false⟩] } <
          topologicalBudget graph := by
        have : unseenEdges graph.nodes (s.done ++ s.onStack) ≤ unseenEdges graph.nodes [] :=
          unseenEdges_anti (by simp)
        rw [unseenEdges_nil] at this
        simp [weight, topologicalBudget]
        omega
      rcases topologicalLoop_cases _ hstart hweight with ⟨mid, hloop, hmid, hstack⟩ |
        ⟨x, hloop, hcycle⟩
      · rw [hloop]
        exact ih hmid hstack hrest
      · rw [hloop]
        exact Or.inr ⟨x, rfl, hcycle⟩

/-- `topologicalOrder` returns, or names a revision that is its own ancestor along the ids it
was given. -/
theorem topologicalOrder_cases (graph : RevisionGraph) (ids : List RevisionId) :
    (∃ order, topologicalOrder graph ids = .ok order) ∨
    ∃ x, topologicalOrder graph ids = .error (cycleAt x) ∧
      TransGen (ParentWithin graph ids) x x := by
  have hinit : StackInv graph (setOf ids) ⟨[], [], [], []⟩ :=
    ⟨by simp, by simp, List.Pairwise.nil⟩
  rw [topologicalOrder]
  rcases topologicalStarts_cases (setOf ids) hinit rfl fun _ hx => hx with
    ⟨s, hrun⟩ | ⟨x, hrun, hcycle⟩
  · exact Or.inl ⟨s.ordered, by rw [hrun]; rfl⟩
  · refine Or.inr ⟨x, by rw [hrun]; rfl, TransGen.mono (fun _ _ h => ?_) _ _ hcycle⟩
    exact ⟨mem_setOf.mp h.1, mem_setOf.mp h.2.1, h.2.2⟩

theorem checkDistinct_of_nodup {nodes : List RevisionNode} :
    ∀ {seen : List RevisionId}, (seen ++ nodes.map (·.id)).Nodup →
      checkDistinct nodes seen = .ok (seen ++ nodes.map (·.id)) := by
  induction nodes with
  | nil => intro seen _; simp [checkDistinct]
  | cons node rest ih =>
    intro seen h
    have hnot : node.id ∉ seen := fun hmem =>
      (List.nodup_append.mp h).2.2 _ hmem _ (by simp) rfl
    rw [checkDistinct, decide_eq_true hnot, assert_true]
    have h' : ((seen ++ [node.id]) ++ rest.map (·.id)).Nodup := by simpa using h
    exact (ih h').trans (by simp)

/-- `validateRemoteGraph` accepts exactly the summaries with distinct ids and no cycle. -/
theorem validateRemoteGraph_iff {nodes : List RevisionNode} :
    validateRemoteGraph nodes = .ok () ↔
      (nodes.map (·.id)).Nodup ∧ Ancestry.Acyclic (Parent (buildGraph nodes)) := by
  refine ⟨validateRemoteGraph_ok, fun ⟨hnodup, hacyclic⟩ => ?_⟩
  have hdistinct : checkDistinct nodes [] = .ok ([] ++ nodes.map (·.id)) :=
    checkDistinct_of_nodup (by simpa using hnodup)
  rw [validateRemoteGraph, hdistinct]
  rcases topologicalOrder_cases (buildGraph nodes) ([] ++ nodes.map (·.id)) with
    ⟨order, horder⟩ | ⟨x, -, hcycle⟩
  · simp only [bind, Except.bind, horder]
    rfl
  · exact absurd (parent_of_within hcycle) (hacyclic x)

/-- What can come of ordering ids: each of them once with its parents among them before it, or
an error that names one on a cycle among them. -/
structure OrderExact (graph : RevisionGraph) (ids : List RevisionId)
    (outcome : Except Failure (List RevisionId)) : Prop where
  throws_iff : (∃ e, outcome = .error e) ↔ ∃ x, TransGen (ParentWithin graph ids) x x
  names_cycle : ∀ e, outcome = .error e → ∃ x, e = cycleAt x ∧ TransGen (ParentWithin graph ids) x x
  ordered : ∀ order, outcome = .ok order → TopologicalResult graph ids order

theorem topologicalOrder_exact (graph : RevisionGraph) (ids : List RevisionId) :
    OrderExact graph ids (topologicalOrder graph ids) := by
  have names : ∀ e, topologicalOrder graph ids = .error e →
      ∃ x, e = cycleAt x ∧ TransGen (ParentWithin graph ids) x x := by
    intro e he
    rcases topologicalOrder_cases graph ids with ⟨order, horder⟩ | ⟨x, hx, hcycle⟩
    · rw [horder] at he
      cases he
    · rw [hx] at he
      cases he
      exact ⟨x, rfl, hcycle⟩
  refine ⟨⟨?_, ?_⟩, names, fun order h => topologicalOrder_ok h⟩
  · rintro ⟨e, he⟩
    obtain ⟨x, -, hcycle⟩ := names e he
    exact ⟨x, hcycle⟩
  · rintro ⟨x, hcycle⟩
    rcases topologicalOrder_cases graph ids with ⟨order, horder⟩ | ⟨y, hy, -⟩
    · exact absurd hcycle (acyclicWithin_of_topologicalOrder horder x)
    · exact ⟨_, hy⟩

/-- A summary announces `parent` as a parent of `child`, and announces both. -/
def Announced (nodes : List RevisionNode) (child parent : RevisionId) : Prop :=
  parent ∈ nodes.map (·.id) ∧ ∃ node ∈ nodes, node.id = child ∧ parent ∈ node.parentIds

theorem parent_buildGraph_iff {nodes : List RevisionNode} (h : (nodes.map (·.id)).Nodup)
    {x p : RevisionId} :
    Parent (buildGraph nodes) x p ↔ ∃ node ∈ nodes, node.id = x ∧ p ∈ node.parentIds := by
  simp only [Parent, get_buildGraph_of_nodup h]
  constructor
  · rintro ⟨node, hnode, hp⟩
    exact ⟨node, List.mem_of_find?_eq_some hnode, by simpa using List.find?_some hnode, hp⟩
  · rintro ⟨node, hnode, rfl, hp⟩
    exact ⟨node, RevisionGraph.find?_of_mem h hnode, hp⟩

/-- Among distinct ids the announced parents are the parents within the graph. -/
theorem announced_iff {nodes : List RevisionNode} (h : (nodes.map (·.id)).Nodup)
    {x p : RevisionId} :
    Announced nodes x p ↔ ParentWithin (buildGraph nodes) (nodes.map (·.id)) x p := by
  rw [Announced, ParentWithin, parent_buildGraph_iff h]
  constructor
  · rintro ⟨hp, node, hnode, rfl, hmem⟩
    exact ⟨List.mem_map_of_mem hnode, hp, node, hnode, rfl, hmem⟩
  · rintro ⟨-, hp, hnode⟩
    exact ⟨hp, hnode⟩

/-- **Ordering detects exactly the cycles.** `topologicalOrder` ends on every graph and every
ids; it throws iff there is a cycle among the ids, and otherwise lists each of them once, after
its parents among them. So `validateRemoteGraph` accepts exactly the summaries with distinct ids
and no cycle among what they announce. -/
theorem ordering_exact :
    (∀ (graph : RevisionGraph) (ids : List RevisionId),
      OrderExact graph ids (topologicalOrder graph ids)) ∧
    ∀ nodes : List RevisionNode, validateRemoteGraph nodes = .ok () ↔
      (nodes.map (·.id)).Nodup ∧ Ancestry.Acyclic (Announced nodes) := by
  refine ⟨topologicalOrder_exact, fun nodes => ?_⟩
  rw [validateRemoteGraph_iff]
  apply and_congr_right
  intro hnodup
  have hsame : Announced nodes = ParentWithin (buildGraph nodes) (nodes.map (·.id)) := by
    funext x p
    exact propext (announced_iff hnodup)
  rw [hsame]
  constructor
  · exact fun h x hxx => h x (parent_of_within hxx)
  · intro h x hxx
    obtain ⟨p, hp, -⟩ := TransGen.head'_iff.mp hxx
    exact h x (within_of_transGen (fun _ _ h => parent_mem_ids h) hxx (parent_mem_ids hp))

/-- What `missingRevisions` asks for: what the head reaches, the remote graph defines and we do
not hold, each parent of a listed id being listed before it unless it is held or undefined. -/
structure MissingResult (graph : RevisionGraph) (head : RevisionId)
    (hasLocally : RevisionId → Bool) (wanted : List RevisionId) : Prop where
  nodup : wanted.Nodup
  mem_iff : ∀ x, x ∈ wanted ↔
    ReflTransGen (Parent graph) head x ∧ hasLocally x = false ∧ graph.has x = true
  parents : ∀ before x after, wanted = before ++ x :: after → ∀ p, Parent graph x p →
    hasLocally p = true ∨ p ∈ before ∨ graph.has p = false

theorem missingRevisions_ok {graph : RevisionGraph} {head : RevisionId}
    {hasLocally : RevisionId → Bool} {wanted : List RevisionId}
    (h : missingRevisions graph head hasLocally = .ok wanted) :
    MissingResult graph head hasLocally wanted := by
  have r := topologicalOrder_ok h
  have hmem : ∀ x, x ∈ wanted ↔
      ReflTransGen (Parent graph) head x ∧ hasLocally x = false ∧ graph.has x = true := by
    intro x
    rw [r.mem_iff, List.mem_filter, mem_ancestorsOf]
    simp
  refine ⟨r.nodup, hmem, fun before x after heq p hp => ?_⟩
  by_cases hlocal : hasLocally p = true
  · exact Or.inl hlocal
  by_cases hhas : graph.has p = true
  · have hx := (hmem x).mp (by rw [heq]; simp)
    have hpw := (hmem p).mpr ⟨hx.1.tail hp, by simpa using hlocal, hhas⟩
    exact Or.inr (Or.inl (r.parentsFirst before x after heq p hp ((r.mem_iff p).mp hpw)))
  · exact Or.inr (Or.inr (by simpa using hhas))

/-- On a graph that `validateRemoteGraph` has accepted, `missingRevisions` returns. -/
theorem missingRevisions_of_valid {nodes : List RevisionNode}
    (h : validateRemoteGraph nodes = .ok ()) (head : RevisionId) (hasLocally : RevisionId → Bool) :
    ∃ wanted, missingRevisions (buildGraph nodes) head hasLocally = .ok wanted := by
  rcases topologicalOrder_cases (buildGraph nodes)
      ((ancestorsOf (buildGraph nodes) head).filter fun id =>
        !hasLocally id && (buildGraph nodes).has id) with h' | ⟨x, -, hcycle⟩
  · exact h'
  · exact absurd (parent_of_within hcycle) ((validateRemoteGraph_ok h).2 x)

end PassVault
