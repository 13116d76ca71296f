import PassVault.Lib.Traces
import PassVault.Sync.Ingest

/-!
# The first writer of a revision

Calls of `ingestReceivedRevision` that interleave on one store. Between the moment that a call
finds its revision missing and the moment that it saves it, another call may have saved it: then
`saveRevision` keeps the row and takes the edges, and both calls answer that they have stored it.
-/

namespace PassVault

open Async

/-- The store that the sessions of a device share. -/
structure Receiving where
  store : Store

inductive IngestReport where
  | engine (event : EngineEvent Unit)
  /-- A call has answered. -/
  | answered (input : IngestInput) (result : IngestResult)
  /-- A call has thrown. -/
  | threw (input : IngestInput) (error : Failure)

instance : EngineState Receiving Unit IngestReport where
  store s := s.store
  setStore store _ := ⟨store⟩
  note _ s := s
  store_setStore _ _ := rfl
  event := .engine

namespace Receiving

/-- Calls are made at any time, with whatever arguments. -/
def receiving (deps : EngineDeps) : System Receiving IngestReport Failure (Nat × IngestInput) :=
  fun (now, input) _ => some do
    match ← (SyncEngine.ingestReceivedRevision deps now input).attempt with
    | .ok result => Async.emit (.answered input result)
    | .error error => Async.emit (.threw input error)

/-- The revision is its own parent, or its vault is not stored. -/
def Refuses (s : Receiving) (input : IngestInput) : Prop :=
  input.revisionId ∈ input.declaredParentIds ∨ s.store.tables.vaults.has input.vaultId = false

instance (s : Receiving) (input : IngestInput) : Decidable (s.Refuses input) :=
  inferInstanceAs (Decidable (_ ∨ _))

/-- What is saved has not been stored before, and no call gets past its checks with itself for a
parent or with a vault that is not stored. -/
def Regular (s : Receiving) : IngestReport → Prop
  | .engine (.saved revision) => s.store.tables.hasRevision revision.id = false
  | .threw input _ => ¬ s.Refuses input
  | _ => True

instance (s : Receiving) (e : IngestReport) : Decidable (s.Regular e) :=
  match e with
  | .engine (.saved revision) =>
    inferInstanceAs (Decidable (s.store.tables.hasRevision revision.id = false))
  | .threw input _ => inferInstanceAs (Decidable (¬ s.Refuses input))
  | .engine (.wroteVault ..) | .engine (.called ..) | .engine (.unchanged ..)
  | .engine (.advancing ..) | .answered .. => isTrue trivial

/-- The row and the parents of the revision are those of the call. -/
def Holds (s : Receiving) (input : IngestInput) : Prop :=
  (∃ row, s.store.tables.revisions.find input.revisionId = some row ∧
    row.vaultId = input.vaultId ∧ row.hash = input.declaredHash) ∧
  ∀ p, s.store.tables.StoredParent input.revisionId p ↔ p ∈ input.declaredParentIds

/-- At most one call stores a revision, what it stored is what is stored, and the other calls for
the revision answer. -/
structure FirstWriterWins (s : Receiving) (log : List (Record Receiving IngestReport)) : Prop where
  once : ∀ r ∈ log, ∀ r' ∈ log, ∀ input revision input' revision',
    r.event = .answered input (.stored revision) →
    r'.event = .answered input' (.stored revision') →
    input.revisionId = input'.revisionId → r.task = r'.task
  holds : ∀ r ∈ log, ∀ input revision, r.event = .answered input (.stored revision) → s.Holds input
  answer : ∀ r ∈ log, ∀ r' ∈ log, ∀ input revision input' error,
    r.event = .answered input (.stored revision) → r'.event = .threw input' error →
    input.revisionId ≠ input'.revisionId

/-- Where a call is. -/
inductive IngestPlace where
  | asking
  | saved (input : IngestInput)
  | done

/-- The accesses of a call. -/
inductive IngestNext (deps : EngineDeps) :
    IngestPlace → Receiving → List IngestReport → Receiving → IngestPlace → Prop where
  | quiet {g : IngestPlace} {s t : Receiving} (h : t.store.tables = s.store.tables) :
      IngestNext deps g s [] t g
  | save {s t : Receiving} {now : Nat} {input : IngestInput}
      (hhash : deps.sha256 input.bytes = input.declaredHash)
      (hsave : s.store.tables.saveRevision (input.received deps now) = .ok t.store.tables) :
      IngestNext deps .asking s [.engine (.saved (input.received deps now))] t (.saved input)
  | stored {s : Receiving} {input : IngestInput} (revision : Revision) :
      IngestNext deps (.saved input) s [.answered input (.stored revision)] s .done
  | answered {s : Receiving} {input : IngestInput} {result : IngestResult}
      (h : ∀ revision, result ≠ .stored revision) :
      IngestNext deps .asking s [.answered input result] s .done
  | threw {s : Receiving} {input : IngestInput} {error : Failure} (h : s.Refuses input) :
      IngestNext deps .asking s [.threw input error] s .done

/-- Only stored revisions have parents. -/
def Rooted (s : Receiving) : Prop :=
  ∀ x p, s.store.tables.StoredParent x p → s.store.tables.hasRevision x = true

/-- What is stored stays, and there are no new vaults. -/
structure Grown (s t : Receiving) : Prop where
  revisions : ∀ id, s.store.tables.hasRevision id = true → t.store.tables.hasRevision id = true
  vaults : t.store.tables.vaults = s.store.tables.vaults

def discipline (deps : EngineDeps) : Discipline IngestPlace Receiving IngestReport where
  inv := Rooted
  rely := Grown
  cond := Regular
  next := IngestNext deps

variable {deps : EngineDeps} {s t : Receiving}

theorem rooted_save {revision : Revision} (hs : s.Rooted)
    (hsave : s.store.tables.saveRevision revision = .ok t.store.tables) : t.Rooted := by
  intro x p hp
  rcases (Tables.storedParent_saveRevision hsave).mp hp with hp | ⟨rfl, -⟩
  · exact (Tables.grows_saveRevision hsave).hasRevision (hs x p hp)
  · obtain ⟨-, -, htables⟩ := Tables.saveRevision_ok hsave
    rw [htables]
    exact Table.has_insert ..

theorem grown_of_tables (h : t.store.tables = s.store.tables) : Grown s t where
  revisions _ hid := by rw [h]; exact hid
  vaults := by rw [h]

theorem grown_save {revision : Revision}
    (hsave : s.store.tables.saveRevision revision = .ok t.store.tables) : Grown s t where
  revisions _ hid := (Tables.grows_saveRevision hsave).hasRevision hid
  vaults := by
    obtain ⟨-, -, htables⟩ := Tables.saveRevision_ok hsave
    rw [htables]
    rfl

theorem Grown.trans {u : Receiving} (h : Grown s t) (h' : Grown t u) : Grown s u where
  revisions id hid := h'.revisions id (h.revisions id hid)
  vaults := h'.vaults.trans h.vaults

theorem discipline_lawful : (discipline deps).Lawful where
  refl _ := grown_of_tables rfl
  trans _ _ _ := Grown.trans
  step g s events t g' h hs _ := by
    cases h with
    | quiet h =>
      refine ⟨fun x p hp => ?_, grown_of_tables h⟩
      rw [h] at hp ⊢
      exact hs x p hp
    | save _ hsave => exact ⟨rooted_save hs hsave, grown_save hsave⟩
    | stored | answered | threw => exact ⟨hs, grown_of_tables rfl⟩

/-! ## A call obeys the discipline -/

section Obeys

variable {α : Type}

theorem obeys_query {f : Tables → α} {g : IngestPlace} :
    Obeys (discipline deps) (fun g' t a => g' = g ∧ Grown s t ∧ a = f s.store.tables)
      (fun _ _ => False) (query f : Async Receiving IngestReport Failure α) g s :=
  fun _ => ⟨g, .quiet rfl, fun _ _ hgrown _ _ => ⟨rfl, hgrown, rfl⟩⟩

/-- What has been looked up stays, whatever the other calls do. -/
theorem obeys_firstMissing {parentIds : List RevisionId} :
    Obeys (discipline deps)
      (fun g t missing => g = .asking ∧ Grown s t ∧
        (missing = none → ∀ p ∈ parentIds, t.store.tables.hasRevision p = true))
      (fun _ _ => False)
      (SyncEngine.firstMissing parentIds :
        Async Receiving IngestReport Failure (Option RevisionId)) .asking s := by
  induction parentIds generalizing s with
  | nil => exact ⟨rfl, grown_of_tables rfl, fun _ _ hp => nomatch hp⟩
  | cons parentId rest ih =>
    apply obeys_query.bind
    intro g t stored hg
    obtain ⟨rfl, hgrown, rfl⟩ := hg
    split
    · rename_i hstored
      refine ih.mono ?_ fun _ _ h => h
      rintro g u missing ⟨rfl, hgrown', hrest⟩
      have htail : Grown s u := hgrown.trans hgrown'
      exact ⟨rfl, htail, fun hnone => List.forall_mem_cons.mpr
        ⟨htail.revisions _ hstored, hrest hnone⟩⟩
    · exact ⟨rfl, hgrown, nofun⟩

/-- Where a call is when it answers. -/
def Answers (input : IngestInput) (g : IngestPlace) : IngestResult → Prop
  | .stored _ => g = .saved input
  | .alreadyPresent _ | .rejected _ => g = .asking

def Ends (input : IngestInput) (g : IngestPlace) (s : Receiving) :
    Except Failure IngestResult → Prop
  | .ok result => Answers input g result
  | .error _ => g = .asking ∧ s.Refuses input

/-- The parents are there, so that `saveRevision` throws only where the vault is not. -/
theorem refuses_of_saveRevision {now : Nat} {input : IngestInput} {error : Failure}
    (hparents : ∀ p ∈ input.declaredParentIds, s.store.tables.hasRevision p = true)
    (hsave : s.store.tables.saveRevision (input.received deps now) = .error error) :
    s.Refuses input := by
  have hcheck : s.store.tables.checkParents (input.received deps now).id
      (input.received deps now).parentIds = .ok () := Tables.checkParents_ok.mpr hparents
  rw [Tables.saveRevision, hcheck, Tables.insertRevision] at hsave
  split at hsave
  · cases hsave
  · rename_i hnot
    exact .inr (Bool.eq_false_of_not_eq_true fun h => hnot (.inr h))

theorem mem_of_receivedRevision {seed : RevisionSeed} {declaredParentIds : List RevisionId}
    {deviceId : DeviceId} {error : Failure}
    (h : receivedRevision seed declaredParentIds deviceId = .error error) :
    seed.id ∈ declaredParentIds := by
  by_contra hnot
  have hassert : assert (seed.id ∉ declaredParentIds) "a revision cannot be its own parent" =
      .ok () := assert_eq_ok.mpr (decide_eq_true hnot)
  rw [receivedRevision, hassert] at h
  cases h

theorem obeys_saveRevision {now : Nat} {input : IngestInput}
    (hhash : deps.sha256 input.bytes = input.declaredHash)
    (hparents : ∀ p ∈ input.declaredParentIds, s.store.tables.hasRevision p = true) :
    Obeys (discipline deps) (fun g _ _ => g = .saved input)
      (fun g t => g = .asking ∧ t.Refuses input)
      (SyncEngine.saveRevision (input.received deps now) :
        Async Receiving IngestReport Failure Unit) .asking s := by
  intro _
  dsimp only
  split
  · rename_i tables hsave
    refine ⟨_, .save hhash hsave, fun _ u _ _ _ => ?_⟩
    rw [hsave]
    rfl
  · rename_i e hsave
    refine ⟨_, .quiet rfl, fun _ u hgrown _ _ => ?_⟩
    rw [hsave]
    exact ⟨rfl, (refuses_of_saveRevision hparents hsave).imp_right fun h => by rwa [hgrown.vaults]⟩

theorem obeys_ingest (now : Nat) (input : IngestInput) :
    Obeys (discipline deps) (fun g _ result => Answers input g result)
      (fun g t => g = .asking ∧ t.Refuses input)
      (SyncEngine.ingestReceivedRevision deps now input) .asking s := by
  refine (obeys_query.mono (fun _ _ _ h => h) (fun _ _ h => h.elim)).bind fun g t present hg => ?_
  obtain ⟨rfl, -, -⟩ := hg
  split
  · rfl
  · dsimp only
    split
    · rfl
    · rename_i hhash
      refine (obeys_firstMissing.mono (fun _ _ _ h => h) (fun _ _ h => h.elim)).bind
        fun g u missing hg => ?_
      obtain ⟨rfl, -, hparents⟩ := hg
      split
      · rfl
      · refine fun _ => ⟨_, .quiet rfl, fun _ v hgrown _ _ => ?_⟩
        have hreceived : Obeys (discipline deps)
            (fun g t revision => g = .asking ∧ t = v ∧ revision = input.received deps now)
            (fun g t => g = .asking ∧ t.Refuses input)
            (Async.ofExcept (receivedRevision
              ⟨input.revisionId, input.vaultId, deps.sha256 input.bytes, input.bytes.length, now,
                input.message⟩ input.declaredParentIds input.fromDeviceId) :
              Async Receiving IngestReport Failure Revision) .asking v := by
          refine Obeys.ofExcept (fun revision hrevision => ?_) fun error herror => ?_
          · obtain ⟨-, rfl⟩ := receivedRevision_ok hrevision
            exact ⟨rfl, rfl, rfl⟩
          · exact ⟨rfl, .inl (mem_of_receivedRevision herror)⟩
        refine hreceived.bind ?_
        rintro g w revision ⟨rfl, rfl, rfl⟩
        have hstored : ∀ p ∈ input.declaredParentIds, w.store.tables.hasRevision p = true :=
          fun p hp => hgrown.revisions p (hparents rfl p hp)
        exact (obeys_saveRevision (not_not.mp hhash) hstored).bind fun g _ _ hg => hg

/-- A call, with its answer. -/
theorem obeys_call (now : Nat) (input : IngestInput) :
    Obeys (discipline deps) (fun _ _ _ => True) (fun _ _ => True)
      (do
        match ← (SyncEngine.ingestReceivedRevision deps now input).attempt with
        | .ok result => Async.emit (.answered input result)
        | .error error => Async.emit (.threw input error)) .asking s := by
  have hattempt : Obeys (discipline deps) (fun g t result => Ends input g t result)
      (fun _ _ => True) (SyncEngine.ingestReceivedRevision deps now input).attempt .asking s :=
    (obeys_ingest now input).attempt (fun _ _ _ h => h) fun _ _ _ h => h
  apply hattempt.bind
  intro g t result hg
  split
  · rename_i result
    cases result with
    | stored revision =>
      cases (show g = .saved input from hg)
      exact fun _ => ⟨.done, .stored revision, fun _ => trivial⟩
    | alreadyPresent revisionId =>
      cases (show g = .asking from hg)
      exact fun _ => ⟨.done, .answered nofun, fun _ => trivial⟩
    | rejected reason =>
      cases (show g = .asking from hg)
      exact fun _ => ⟨.done, .answered nofun, fun _ => trivial⟩
  · obtain ⟨rfl, hrefuses⟩ := hg
    exact fun _ => ⟨.done, .threw hrefuses, fun _ => trivial⟩

end Obeys

/-! ## Runs -/

/-- The call in the place has saved its revision, whether it has answered or not. -/
def Claims (places : Nat → Option IngestPlace) (log : List (Record Receiving IngestReport))
    (i : Nat) (input : IngestInput) : Prop :=
  places i = some (.saved input) ∨
    ∃ r ∈ log, r.task = i ∧ ∃ revision, r.event = .answered input (.stored revision)

/-- Each revision that a call has saved is that call's alone. -/
structure Owned (places : Nat → Option IngestPlace) (s : Receiving)
    (log : List (Record Receiving IngestReport)) : Prop where
  holds : ∀ i input, Claims places log i input → s.Holds input
  apart : ∀ i j input input', Claims places log i input → Claims places log j input' →
    input.revisionId = input'.revisionId → i = j

section Owned

variable {places : Nat → Option IngestPlace} {log : List (Record Receiving IngestReport)}

theorem Holds.of_tables {input : IngestInput} (h : t.store.tables = s.store.tables)
    (hs : s.Holds input) : t.Holds input := by
  rw [Holds, h]
  exact hs

/-- Nothing is claimed that was not, and the tables are the same. -/
theorem Owned.of_claims {places' : Nat → Option IngestPlace}
    {log' : List (Record Receiving IngestReport)} (hs : Owned places s log)
    (htables : t.store.tables = s.store.tables)
    (hclaims : ∀ i input, Claims places' log' i input → Claims places log i input) :
    Owned places' t log' where
  holds i input h := (hs.holds i input (hclaims i input h)).of_tables htables
  apart i j input input' h h' := hs.apart i j input input' (hclaims i input h) (hclaims j input' h')

theorem holds_save {now : Nat} {input : IngestInput} (hs : s.Rooted)
    (hnew : s.store.tables.hasRevision input.revisionId = false)
    (hhash : deps.sha256 input.bytes = input.declaredHash)
    (hsave : s.store.tables.saveRevision (input.received deps now) = .ok t.store.tables) :
    t.Holds input := by
  refine ⟨⟨(input.received deps now).row, Store.find_saveRevision hsave hnew, rfl, hhash⟩,
    fun p => (Tables.storedParent_saveRevision hsave).trans ⟨fun h => ?_, fun hp => .inr ⟨rfl, hp⟩⟩⟩
  rcases h with h | ⟨-, hp⟩
  · exact absurd (hnew.symm.trans (hs _ _ h)) Bool.false_ne_true
  · exact hp

theorem holds_other {revision : Revision} {input : IngestInput} (hs : s.Holds input)
    (hne : input.revisionId ≠ revision.id)
    (hsave : s.store.tables.saveRevision revision = .ok t.store.tables) : t.Holds input := by
  obtain ⟨⟨row, hrow, hvault, hhash⟩, hparents⟩ := hs
  refine ⟨⟨row, (Tables.grows_saveRevision hsave).revisions _ _ hrow, hvault, hhash⟩, fun p => ?_⟩
  rw [Tables.storedParent_saveRevision hsave, hparents]
  exact or_iff_left fun h => hne h.1

theorem hasRevision_of_holds {input : IngestInput} (hs : s.Holds input) :
    s.store.tables.hasRevision input.revisionId = true := by
  obtain ⟨⟨row, hrow, -⟩, -⟩ := hs
  exact Table.has_iff.mpr ⟨row, hrow⟩

/-- What is claimed after a step was claimed before it, or the step claims it. -/
theorem claims_step {i j : Nat} {g : IngestPlace} {events : List IngestReport} {input : IngestInput}
    (h : Claims (Function.update places i (some g)) (log ++ events.map (⟨i, s, ·⟩)) j input) :
    Claims places log j input ∨
      (j = i ∧ (g = .saved input ∨ ∃ revision, .answered input (.stored revision) ∈ events)) := by
  rcases h with h | ⟨r, hr, rfl, revision, hevent⟩
  · by_cases hij : j = i
    · subst hij
      rw [Function.update_self] at h
      exact .inr ⟨rfl, .inl (Option.some.inj h)⟩
    · rw [Function.update_of_ne hij] at h
      exact .inl (.inl h)
  · rcases List.mem_append.mp hr with hr | hr
    · exact .inl (.inr ⟨r, hr, rfl, revision, hevent⟩)
    · obtain ⟨e, he, rfl⟩ := List.mem_map.mp hr
      exact .inr ⟨rfl, .inr ⟨revision, hevent ▸ he⟩⟩

theorem owned_step {i : Nat} {g g' : IngestPlace} {events : List IngestReport}
    (hi : places i = some g) (hs : Owned places s log) (hrooted : s.Rooted)
    (hcond : ∀ e ∈ events, s.Regular e) (hstep : IngestNext deps g s events t g') :
    Owned (Function.update places i (some g')) t (log ++ events.map (⟨i, s, ·⟩)) := by
  cases hstep with
  | quiet htables =>
    apply hs.of_claims htables
    intro j input h
    rcases claims_step h with h | ⟨rfl, rfl | ⟨_, hnil⟩⟩
    · exact h
    · exact .inl hi
    · cases hnil
  | @save _ _ now input hhash hsave =>
    have hnew : s.store.tables.hasRevision input.revisionId = false :=
      hcond _ (List.mem_singleton_self _)
    have hclaims (j : Nat) (input' : IngestInput)
        (h : Claims (Function.update places i (some (.saved input)))
          (log ++ [IngestReport.engine (.saved (input.received deps now))].map (⟨i, s, ·⟩)) j
          input') :
        (Claims places log j input' ∧ input'.revisionId ≠ input.revisionId) ∨
          (j = i ∧ input' = input) := by
      rcases claims_step h with h | ⟨rfl, h | ⟨_, h⟩⟩
      · refine .inl ⟨h, fun heq => ?_⟩
        have hstored := hasRevision_of_holds (hs.holds j input' h)
        rw [heq, hnew] at hstored
        cases hstored
      · cases h
        exact .inr ⟨rfl, rfl⟩
      · cases List.mem_singleton.mp h
    refine ⟨fun j input' h => ?_, fun j k input' input'' h h' heq => ?_⟩
    · rcases hclaims j input' h with ⟨h, hne⟩ | ⟨rfl, rfl⟩
      · exact holds_other (hs.holds j input' h) hne hsave
      · exact holds_save hrooted hnew hhash hsave
    · rcases hclaims j input' h with ⟨h, hne⟩ | ⟨rfl, rfl⟩
      · rcases hclaims k input'' h' with ⟨h', -⟩ | ⟨rfl, rfl⟩
        · exact hs.apart j k input' input'' h h' heq
        · exact absurd heq hne
      · rcases hclaims k input'' h' with ⟨-, hne⟩ | ⟨rfl, -⟩
        · exact absurd heq.symm hne
        · rfl
  | @stored _ input revision =>
    apply hs.of_claims rfl
    intro j input' h
    rcases claims_step h with h | ⟨rfl, h | ⟨_, h⟩⟩
    · exact h
    · cases h
    · cases List.mem_singleton.mp h
      exact .inl hi
  | answered hnot =>
    apply hs.of_claims rfl
    intro j input' h
    rcases claims_step h with h | ⟨rfl, h | ⟨_, h⟩⟩
    · exact h
    · cases h
    · cases List.mem_singleton.mp h
      exact absurd rfl (hnot _)
  | threw hrefuses => exact absurd hrefuses (hcond _ (List.mem_singleton_self _))

end Owned

theorem answers_step {g g' : IngestPlace} {events : List IngestReport}
    (hcond : ∀ e ∈ events, s.Regular e) (hstep : IngestNext deps g s events t g') :
    ∀ e ∈ events, ∀ input error, e ≠ .threw input error := by
  cases hstep with
  | quiet => exact fun e he => absurd he List.not_mem_nil
  | save | stored | answered =>
    intro e he input error heq
    cases List.mem_singleton.mp he
    cases heq
  | threw hrefuses => exact absurd hrefuses (hcond _ (List.mem_singleton_self _))

theorem owned_trace {moves : List (Move (Nat × IngestInput))}
    {w : Pool Receiving IngestReport Failure} {log : List (Record Receiving IngestReport)}
    (hrooted : s.Rooted) (h : Pool.trace (receiving deps) moves ⟨s, []⟩ = some (w, log))
    (hcond : ∀ r ∈ log, r.state.Regular r.event) :
    ∃ places, Owned places w.state log ∧
      ∀ r ∈ log, ∀ input error, r.event ≠ .threw input error := by
  let P (places : Nat → Option IngestPlace) (s : Receiving)
      (log : List (Record Receiving IngestReport)) : Prop :=
    Owned places s log ∧ ∀ r ∈ log, ∀ input error, r.event ≠ .threw input error
  have hinit : Pool.Obeys (discipline deps) P (fun _ => none)
      (⟨s, []⟩ : Pool Receiving IngestReport Failure) [] := by
    refine ⟨hrooted, ⟨⟨?_, ?_⟩, fun r hr => absurd hr List.not_mem_nil⟩,
      fun i p hp => absurd hp nofun, fun _ _ => rfl⟩
    · rintro i input (h | ⟨r, hr, -⟩)
      · cases h
      · cases hr
    · rintro i j input input' (h | ⟨r, hr, -⟩)
      · cases h
      · cases hr
  have hstart (places : Nat → Option IngestPlace) (i : Nat) (command : Nat × IngestInput)
      (s : Receiving) (log : List (Record Receiving IngestReport))
      (p : Async Receiving IngestReport Failure Unit) (hs : P places s log)
      (hp : receiving deps command s = some p) :
      ∃ g, P (Function.update places i (some g)) s log ∧
        Async.Obeys (discipline deps) (fun _ _ _ => True) (fun _ _ => True) p g s := by
    cases hp
    refine ⟨.asking, ⟨hs.1.of_claims rfl fun j input h => ?_, hs.2⟩, obeys_call command.1 command.2⟩
    have h' : Claims (Function.update places i (some .asking))
        (log ++ ([] : List IngestReport).map (⟨i, s, ·⟩)) j input := by
      rwa [List.map_nil, List.append_nil]
    rcases claims_step h' with h | ⟨-, h | ⟨_, h⟩⟩
    · exact h
    · cases h
    · cases h
  have hstep (places : Nat → Option IngestPlace) (i : Nat) (g : IngestPlace) (s : Receiving)
      (log : List (Record Receiving IngestReport)) (events : List IngestReport) (t : Receiving)
      (g' : IngestPlace) (hi : places i = some g) (hs : P places s log) (hinv : s.Rooted)
      (hcond : ∀ e ∈ events, s.Regular e) (hstep : IngestNext deps g s events t g') :
      P (Function.update places i (some g')) t (log ++ events.map (⟨i, s, ·⟩)) := by
    refine ⟨owned_step hi hs.1 hinv hcond hstep, fun r hr => ?_⟩
    rcases List.mem_append.mp hr with hr | hr
    · exact hs.2 r hr
    · obtain ⟨e, he, rfl⟩ := List.mem_map.mp hr
      exact answers_step hcond hstep e he
  obtain ⟨places, hw⟩ := Pool.Obeys.trace discipline_lawful
    (fun places i g s log events t g' hi hs hinv _ hcond h =>
      hstep places i g s log events t g' hi hs hinv hcond h)
    (fun places i command s log p _ hs _ hp => hstart places i command s log p hs hp) hinit h hcond
  exact ⟨places, hw.holds⟩

theorem insertParents_of_stored {t : Tables} {id : RevisionId} {parentIds : List RevisionId}
    (h : ∀ p ∈ parentIds, t.StoredParent id p) : t.insertParents id parentIds = t := by
  induction parentIds with
  | nil => rfl
  | cons parentId rest ih =>
    obtain ⟨hfirst, hrest⟩ := List.forall_mem_cons.mp h
    have hhas : t.revisionParents.has ⟨id, parentId⟩ = true :=
      Table.has_iff.mpr ⟨_, Table.find_of_mem hfirst⟩
    have hstep : t.insertParents id (parentId :: rest) =
        (t.insertParents id [parentId]).insertParents id rest := rfl
    have hone : t.insertParents id [parentId] = t := by
      rw [Tables.insertParents, List.foldl_cons, List.foldl_nil, Table.insert_of_has hhas]
    rw [hstep, hone]
    exact ih hrest

/-- A revision that is stored takes nothing from `saveRevision` iff it has all the parents, or one
of them is missing and `saveRevision` throws. -/
theorem saveRevision_of_stored_iff {revision : Revision} {t : Tables}
    (hstored : t.hasRevision revision.id = true) :
    (∀ u, t.saveRevision revision = .ok u → u = t) ↔
      (∃ p ∈ revision.parentIds, t.hasRevision p = false) ∨
        ∀ p ∈ revision.parentIds, t.StoredParent revision.id p := by
  have hrow : ({ t with revisions := t.revisions.insert revision.row } : Tables) = t := by
    rw [Table.insert_of_has (show t.revisions.has revision.row.id = true from hstored)]
  constructor
  · intro hsame
    by_cases hmissing : ∃ p ∈ revision.parentIds, t.hasRevision p = false
    · exact .inl hmissing
    · refine .inr fun p hp => ?_
      have hparents : ∀ p ∈ revision.parentIds, t.hasRevision p = true := fun p hp =>
        Bool.eq_true_of_not_eq_false fun h => hmissing ⟨p, hp, h⟩
      have hsave : t.saveRevision revision =
          .ok (t.insertParents revision.id revision.parentIds) := by
        rw [Tables.saveRevision, (Tables.checkParents_ok (u := ())).mpr hparents,
          Tables.insertRevision, if_pos (.inl hstored), hrow]
        rfl
      rw [← hsame _ hsave]
      exact Tables.storedParent_insertParents.mpr (.inr ⟨rfl, hp⟩)
  · rintro (⟨p, hp, hmissing⟩ | hparents) u hsave
    · rw [(Tables.saveRevision_ok hsave).1 p hp] at hmissing
      cases hmissing
    · obtain ⟨-, -, rfl⟩ := Tables.saveRevision_ok hsave
      rw [hrow]
      exact insertParents_of_stored hparents

/-- **The first writer wins.** In every interleaving of calls in which nothing is saved that has
been stored before, at most one call stores a revision, and its vault, hash and parents are those
of that call. What is saved again leaves the store as it was iff it brings no new parent. -/
theorem first_writer_wins {moves : List (Move (Nat × IngestInput))}
    {w : Pool Receiving IngestReport Failure} {log : List (Record Receiving IngestReport)}
    (hrooted : s.Rooted) (h : Pool.trace (receiving deps) moves ⟨s, []⟩ = some (w, log))
    (hcond : ∀ r ∈ log, r.state.Regular r.event) :
    FirstWriterWins w.state log ∧
      ∀ (revision : Revision) (t : Tables), t.hasRevision revision.id = true →
        ((∀ u, t.saveRevision revision = .ok u → u = t) ↔
          (∃ p ∈ revision.parentIds, t.hasRevision p = false) ∨
            ∀ p ∈ revision.parentIds, t.StoredParent revision.id p) := by
  obtain ⟨places, howned, hanswer⟩ := owned_trace hrooted h hcond
  refine ⟨⟨?_, ?_, ?_⟩, fun _ _ => saveRevision_of_stored_iff⟩
  · intro r hr r' hr' input revision input' revision' hevent hevent' heq
    exact howned.apart _ _ input input' (.inr ⟨r, hr, rfl, revision, hevent⟩)
      (.inr ⟨r', hr', rfl, revision', hevent'⟩) heq
  · intro r hr input revision hevent
    exact howned.holds r.task input (.inr ⟨r, hr, rfl, revision, hevent⟩)
  · intro r hr r' hr' input revision input' error hevent hevent'
    exact absurd hevent' (hanswer r' hr' input' error)

/-- Two peers send a revision under one id: the first without a parent, the second, with other
bytes, as an edit of the root. -/
def rootless : IngestInput := { IngestFaults.receivedEdit with declaredParentIds := [] }

def otherEdit : IngestInput :=
  { IngestFaults.receivedEdit with
    declaredHash := plainDeps.sha256 [3], bytes := [3], fromDeviceId := ⟨"tablet"⟩ }

/-- The second call is made when the first has answered. -/
def inTurn : List (Move (Nat × IngestInput)) :=
  [.start (4, rootless), .resume 0, .resume 0, .resume 0, .start (5, otherEdit), .resume 1]

theorem first_writer_wins_inTurn :
    ∃ w log, Pool.trace (receiving plainDeps) inTurn ⟨⟨IngestFaults.importedHome⟩, []⟩ =
        some (w, log) ∧
      log.length = 3 ∧ FirstWriterWins w.state log := by
  have hrun : ∃ w log,
      Pool.trace (receiving plainDeps) inTurn ⟨⟨IngestFaults.importedHome⟩, []⟩ =
          some (w, log) ∧
        log.length = 3 ∧ ∀ r ∈ log, r.state.Regular r.event :=
    ⟨_, _, rfl, rfl, by decide⟩
  obtain ⟨w, log, htrace, hlength, hcond⟩ := hrun
  have hrooted : Rooted ⟨IngestFaults.importedHome⟩ := fun x p hp => by cases hp
  exact ⟨w, log, htrace, hlength, (first_writer_wins hrooted htrace hcond).1⟩

/-- The second call is made before the first has saved the revision: both store it, and the row is
the first one's, with the parent of the second. -/
def atOnce : List (Move (Nat × IngestInput)) :=
  [.start (4, rootless), .start (5, otherEdit), .resume 0, .resume 0, .resume 0, .resume 1,
    .resume 1, .resume 1, .resume 1]

theorem second_writer :
    ∃ w log, Pool.trace (receiving plainDeps) atOnce ⟨⟨IngestFaults.importedHome⟩, []⟩ =
        some (w, log) ∧
      ¬ FirstWriterWins w.state log ∧
      (w.state.store.tables.getRevision ⟨"h2"⟩).map (·.hash) = some rootless.declaredHash ∧
      w.state.store.tables.parentsOf ⟨"h2"⟩ = otherEdit.declaredParentIds := by
  refine ⟨_, _, rfl, fun h => ?_, rfl, rfl⟩
  have hsame := h.once _ (List.mem_cons_of_mem _ (List.mem_cons_self ..)) _
    (List.mem_cons_of_mem _ (List.mem_cons_of_mem _ (List.mem_cons_of_mem _
      (List.mem_cons_self ..)))) rootless _ otherEdit _ rfl rfl rfl
  cases hsame

end Receiving

end PassVault
