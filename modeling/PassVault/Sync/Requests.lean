import PassVault.Lib.Runs
import PassVault.Sync.Session
import PassVault.Sync.StoredHistory

/-!
# What a session asks for

`computeWants` of `packages/sync/src/session.ts` asks for what the peer's history has and this
device does not hold, and `ingestReceivedRevision` takes it in that order: whatever else happens
to the store in between, no revision is refused for a parent.
-/

namespace PassVault

open Async SyncEngine

section Requests

variable {σ ω ε : Type} [EngineState σ ω ε] (deps : EngineDeps)

/-- Ingest one revision after the other. -/
def ingestAll : List (Nat × IngestInput) → Async σ ε Failure (List IngestResult)
  | [] => return []
  | (now, input) :: rest => do
    let result ← ingestReceivedRevision deps now input
    return result :: (← ingestAll rest)

/-- Its parents are those that the summary announces, and its bytes hash to what it declares. -/
def Genuine (nodes : List RevisionNode) (input : IngestInput) : Prop :=
  ⟨input.revisionId, input.declaredParentIds⟩ ∈ nodes ∧ deps.sha256 input.bytes = input.declaredHash

/-- No stored revision is lost. -/
def Retains (s t : σ) : Prop :=
  ∀ id, (store s).tables.hasRevision id = true → (store t).tables.hasRevision id = true

variable {deps}

/-- Others keep what is stored; nothing is asked of the program. -/
def retaining : Contract σ ε where
  inv _ := True
  rely := Retains
  guar _ _ _ := True
  given _ _ := True
  cond _ _ := True
  prop _ _ := True
  prompt _ := False

theorem retaining_storeContract : StoreContract (retaining : Contract σ ε) where
  idle _ _ := trivial
  quiet _ _ _ _ _ := ⟨trivial, trivial⟩

/-- What an answer to a call of `ingestReceivedRevision` says when nothing was missing. -/
def Ingested (s : σ) (id : RevisionId) (result : IngestResult) (t : σ) : Prop :=
  (∀ reason, result ≠ .rejected reason) ∧ Retains s t ∧ (store t).tables.hasRevision id = true

theorem firstMissing_safe {parentIds : List RevisionId} {s : σ}
    (hparents : ∀ p ∈ parentIds, (store s).tables.hasRevision p = true) :
    Safe retaining (fun found t => found = none ∧ Retains s t) (fun _ _ => True)
      (firstMissing parentIds : Async σ ε Failure (Option RevisionId)) s := by
  induction parentIds generalizing s with
  | nil => exact ⟨rfl, fun _ h => h⟩
  | cons parentId rest ih =>
    obtain ⟨hparent, hrest⟩ := List.forall_mem_cons.mp hparents
    refine Safe.bind (safe_query retaining_storeContract trivial fun t hst _ => ?_)
    rw [hparent, if_pos rfl]
    exact (ih fun p hp => hst p (hrest p hp)).mono
      (fun _ u h => ⟨h.1, fun id hid => h.2 id (hst id hid)⟩) fun _ _ _ => trivial

theorem ingest_safe {input : IngestInput} {s : σ} (now : Nat)
    (hhash : deps.sha256 input.bytes = input.declaredHash)
    (hparents : ∀ p ∈ input.declaredParentIds, (store s).tables.hasRevision p = true) :
    Safe retaining (Ingested s input.revisionId) (fun _ _ => True)
      (ingestReceivedRevision deps now input) s := by
  refine Safe.bind (safe_query retaining_storeContract trivial fun t hst _ => ?_)
  split
  · rename_i hpresent
    exact ⟨nofun, hst, hst _ hpresent⟩
  · dsimp only
    rw [if_neg (not_not_intro hhash)]
    refine Safe.bind ((firstMissing_safe fun p hp => hst p (hparents p hp)).mono
      (fun found u h => ?_) fun _ _ _ => trivial)
    obtain ⟨rfl, htu⟩ := h
    refine Safe.bind (safe_putBlob fun _ => ⟨trivial, trivial, fun v huv _ => ?_⟩)
    have hsv : Retains s v := fun id hid => huv id (by
      rw [store_changeStore]
      exact htu id (hst id hid))
    cases hrevision : receivedRevision
        ⟨input.revisionId, input.vaultId, deps.sha256 input.bytes, input.bytes.length, now,
          input.message⟩ input.declaredParentIds input.fromDeviceId with
    | error e => trivial
    | ok revision =>
      obtain ⟨-, rfl⟩ := receivedRevision_ok hrevision
      rw [Async.ofExcept_ok, done_bind]
      refine Safe.bind (safe_execute retaining_storeContract trivial (fun tables htables _ => ?_)
        fun _ _ _ _ _ => trivial)
      refine ⟨fun _ _ => trivial, fun _ => ⟨trivial, trivial, fun w hvw _ => ?_⟩⟩
      have hgrows := Tables.grows_saveRevision htables
      have hvw' (id : RevisionId) (hid : tables.hasRevision id = true) :
          (store w).tables.hasRevision id = true := hvw id (by
        rw [store_changeStore]
        exact hid)
      refine ⟨nofun, fun id hid => hvw' id (hgrows.hasRevision (hsv id hid)), hvw' _ ?_⟩
      obtain ⟨-, -, rfl⟩ := Tables.saveRevision_ok htables
      exact Table.has_insert ..

/-- Revisions whose parents are stored or come before them are taken one after the other. -/
theorem ingestAll_safe {calls : List (Nat × IngestInput)} {s : σ}
    (hhash : ∀ call ∈ calls, deps.sha256 call.2.bytes = call.2.declaredHash)
    (hparents : ∀ before call after, calls = before ++ call :: after →
      ∀ p ∈ call.2.declaredParentIds,
        (store s).tables.hasRevision p = true ∨ p ∈ before.map (·.2.revisionId)) :
    Safe retaining (fun results _ => ∀ reason, IngestResult.rejected reason ∉ results)
      (fun _ _ => True) (ingestAll deps calls) s := by
  induction calls generalizing s with
  | nil => exact fun _ => List.not_mem_nil
  | cons call rest ih =>
    obtain ⟨hfirst, hrest⟩ := List.forall_mem_cons.mp hhash
    refine Safe.bind ((ingest_safe call.1 hfirst fun p hp =>
      (hparents [] call rest rfl p hp).resolve_right List.not_mem_nil).mono
        (fun result t htaken => ?_) fun _ _ _ => trivial)
    obtain ⟨hresult, hst, hstored⟩ := htaken
    refine Safe.bind ((ih hrest fun before call' after hsplit p hp => ?_).mono
      (fun results u hresults reason => ?_) fun _ _ _ => trivial)
    · rcases hparents (call :: before) call' after (by rw [hsplit]; rfl) p hp with hp | hp
      · exact .inl (hst p hp)
      · rcases List.mem_cons.mp hp with rfl | hp
        · exact .inl hstored
        · exact .inr hp
    · rw [List.mem_cons, not_or]
      exact ⟨fun heq => hresult reason heq.symm, hresults reason⟩

/-- **What is asked for can be ingested.** Of a summary that `validateRemoteGraph` accepts,
`missingRevisions` lists what the head reaches, the summary defines and we do not hold, each once
and after those of its parents that are listed; and where the summary defines all the parents that
it names, no revision of the list is rejected when they are ingested in this order, whatever others
add to the store meanwhile. -/
theorem requests_ingestible {nodes : List RevisionNode}
    (hvalid : validateRemoteGraph nodes = .ok ()) (head : RevisionId)
    (hasLocally : RevisionId → Bool) :
    ∃ wanted, missingRevisions (buildGraph nodes) head hasLocally = .ok wanted ∧
      MissingResult (buildGraph nodes) head hasLocally wanted ∧
      ((∀ x p, Parent (buildGraph nodes) x p → (buildGraph nodes).has p = true) →
        ∀ s : σ, (∀ id, hasLocally id = true → (store s).tables.hasRevision id = true) →
        ∀ calls : List (Nat × IngestInput), calls.map (·.2.revisionId) <+: wanted →
        (∀ call ∈ calls, Genuine deps nodes call.2) →
        ∀ results t, Interleaved Retains (ingestAll deps calls) s (.ok results) t →
        ∀ reason, IngestResult.rejected reason ∉ results) := by
  obtain ⟨wanted, hwanted⟩ := missingRevisions_of_valid hvalid head hasLocally
  have hresult := missingRevisions_ok hwanted
  have hnodup := (validateRemoteGraph_ok hvalid).1
  refine ⟨wanted, hwanted, hresult, fun hclosed s hheld calls hcalls hgenuine results t hrun => ?_⟩
  refine (Safe.interleaved (c := retaining) (fun _ => trivial) (fun _ _ => trivial)
    (fun _ _ => trivial) hrun (ingestAll_safe (fun call hcall => (hgenuine call hcall).2) ?_)).1
    results rfl
  rintro before call after rfl p hp
  obtain ⟨later, hlater⟩ := hcalls
  have hparent : Parent (buildGraph nodes) call.2.revisionId p :=
    (parent_buildGraph_iff hnodup).mpr ⟨_, (hgenuine call (by simp)).1, rfl, hp⟩
  rcases hresult.parents (before.map (·.2.revisionId)) call.2.revisionId
    (after.map (·.2.revisionId) ++ later) (by simp [← hlater]) p hparent with h | h | h
  · exact .inl (hheld p h)
  · exact .inr h
  · rw [hclosed _ p hparent] at h
    cases h

end Requests

/-- `computeWants` counts as held the revisions of the vault that are stored. -/
theorem computeWants_held {σ ω ε : Type} [SessionState σ ω ε] {vaultId : VaultId}
    {graph : RevisionGraph} {head : RevisionId} {s t : σ} {wanted : List RevisionId}
    (hrun : Interleaved Retains (SyncSession.computeWants vaultId graph (some head)) s (.ok wanted)
      t) :
    ∃ hasLocally, missingRevisions graph head hasLocally = .ok wanted ∧
      ∀ id, hasLocally id = true → (store t).tables.hasRevision id = true := by
  have hsafe : Safe retaining
      (fun wanted t => ∃ hasLocally, missingRevisions graph head hasLocally = .ok wanted ∧
        ∀ id, hasLocally id = true → (store t).tables.hasRevision id = true)
      (fun _ _ => True) (SyncSession.computeWants vaultId graph (some head)) s := by
    refine Safe.bind (safe_query retaining_storeContract trivial fun u hsu _ => ?_)
    dsimp only
    cases hwanted : missingRevisions graph head fun id =>
        id ∈ ((store s).tables.historySummary vaultId).map (·.revisionId) with
    | error e => trivial
    | ok wanted =>
      refine ⟨_, hwanted, fun id hid => hsu id ?_⟩
      obtain ⟨entry, hentry, rfl⟩ := List.mem_map.mp (of_decide_eq_true hid)
      obtain ⟨revision, hrevision, rfl⟩ := List.mem_map.mp hentry
      obtain ⟨row, hrow, rfl⟩ := List.mem_map.mp hrevision
      have hrow := (List.mem_filter.mp (List.mem_mergeSort.mp hrow)).1
      exact Table.has_iff.mpr ⟨row, Table.find_of_mem hrow⟩
  exact (Safe.interleaved (c := retaining) (fun _ => trivial) (fun _ _ => trivial)
    (fun _ _ => trivial) hrun hsafe).1 wanted rfl

/-- A root, an edit of it, and a merge of the two. -/
def threeNodes : List RevisionNode :=
  [⟨⟨"h3"⟩, [⟨"h1"⟩, ⟨"h2"⟩]⟩, ⟨⟨"h2"⟩, [⟨"h1"⟩]⟩, ⟨⟨"h1"⟩, []⟩]

def requested (id : String) (parentIds : List RevisionId) (bytes : Bytes) : Nat × IngestInput :=
  (4, ⟨⟨"home"⟩, ⟨id⟩, parentIds, plainDeps.sha256 bytes, bytes, ⟨"phone"⟩, none⟩)

def twoRequested : List (Nat × IngestInput) :=
  [requested "h2" [⟨"h1"⟩] [2], requested "h3" [⟨"h1"⟩, ⟨"h2"⟩] [3]]

/-- A device that holds the root asks for the other two and takes them. -/
theorem requests_ingestible_threeNodes :
    missingRevisions (buildGraph threeNodes) ⟨"h3"⟩ (· = ⟨"h1"⟩) = .ok [⟨"h2"⟩, ⟨"h3"⟩] ∧
      ∃ results t, Interleaved (Retains : Store → Store → Prop) (ingestAll plainDeps twoRequested)
        (storeAfter [.importVault ⟨"home"⟩ ⟨⟨"h1"⟩, 1⟩ "home.kdbx" [1] none]) (.ok results) t ∧
        results.length = 2 ∧ ∀ reason, IngestResult.rejected reason ∉ results := by
  have hwanted : missingRevisions (buildGraph threeNodes) ⟨"h3"⟩ (· = ⟨"h1"⟩) =
    .ok [⟨"h2"⟩, ⟨"h3"⟩] := by decide +kernel
  have hvalid : validateRemoteGraph threeNodes = .ok () := by decide +kernel
  obtain ⟨results, t, hrun, hlength⟩ : ∃ results t,
      Interleaved (Retains : Store → Store → Prop) (ingestAll plainDeps twoRequested)
        (storeAfter [.importVault ⟨"home"⟩ ⟨⟨"h1"⟩, 1⟩ "home.kdbx" [1] none]) (.ok results) t ∧
      results.length = 2 := ⟨_, _, .of_run (fun _ _ h => h) rfl, rfl⟩
  refine ⟨hwanted, results, t, hrun, hlength, ?_⟩
  obtain ⟨wanted, hwanted', -, hingest⟩ := @requests_ingestible Store _ _ _ plainDeps _ hvalid
    ⟨"h3"⟩ (· = ⟨"h1"⟩)
  cases hwanted.symm.trans hwanted'
  refine hingest (fun x p hparent => ?_) _ (fun id hid => ?_) _ List.prefix_rfl ?_ _ _ hrun
  · have hclosed : ∀ node ∈ threeNodes, ∀ p ∈ node.parentIds,
        (buildGraph threeNodes).has p = true := by decide +kernel
    obtain ⟨node, hnode, -, hp⟩ :=
      (parent_buildGraph_iff (validateRemoteGraph_ok hvalid).1).mp hparent
    exact hclosed node hnode p hp
  · cases of_decide_eq_true hid
    rfl
  · exact List.forall_mem_cons.mpr ⟨⟨by decide, rfl⟩, List.forall_mem_singleton.mpr ⟨by decide, rfl⟩⟩

end PassVault
