import PassVault.Services.Combining

/-!
# Open conflicts

A conflict is opened for a fork and stays open until it is decided. Whether what it is about is
still outside of the head, whatever has moved the head since.
-/

namespace PassVault

open Async Relation

/-- No conflict is open about a revision that is in the head. -/
def Device.Genuine (v : Tracked) (s : Device) : Prop :=
  ∀ conflict ∈ s.store.tables.listOpenConflicts v.vaultId, ∀ head ∈ s.head v.vaultId,
    ¬ s.store.tables.Contains head conflict.incomingRevisionId

namespace DeviceEvent

def opens : DeviceEvent → Option Conflict
  | opened conflict => some conflict
  | _ => none

def stores : DeviceEvent → Option Revision
  | engine (.saved revision) => some revision
  | _ => none

/-- What is stored under a new id is new. -/
structure StoredOnce (s : Device) (e : DeviceEvent) : Prop where
  revision : ∀ revision ∈ e.stores, s.store.tables.hasRevision revision.id = false
  conflict : ∀ conflict ∈ e.opens, s.store.tables.conflicts.has conflict.id = false

instance (s : Device) : DecidablePred (StoredOnce s) := fun e =>
  decidable_of_iff ((∀ revision ∈ e.stores, s.store.tables.hasRevision revision.id = false) ∧
      ∀ conflict ∈ e.opens, s.store.tables.conflicts.has conflict.id = false)
    ⟨fun h => ⟨h.1, h.2⟩, fun h => ⟨h.revision, h.conflict⟩⟩

theorem StoredOnce.fresh {s : Device} {e : DeviceEvent} (h : e.StoredOnce s) : e.Fresh s := by
  cases e with
  | engine e =>
    cases e with
    | saved revision => exact fun _ => h.revision revision rfl
    | _ => trivial
  | _ => trivial

end DeviceEvent

/-- What is asked of the events of a run. -/
structure Separate (v : Tracked) (log : List (Record Device DeviceEvent)) : Prop where
  /-- A call that does not combine moves the head to nothing that has the incoming revision of an
  open conflict, except for the conflict that it decides. -/
  moved : ∀ x ∈ log, ∀ y ∈ log, y.task = x.task → ∀ call ∈ y.event.begins,
    call.combines = false → ∀ next ∈ x.event.headMove,
    ∀ conflict ∈ x.state.store.tables.listOpenConflicts v.vaultId,
    x.state.store.tables.Contains next conflict.incomingRevisionId →
    call.resolves = some conflict.id
  /-- What a conflict is opened about is not in the head of that moment. -/
  opened : ∀ x ∈ log, ∀ conflict ∈ x.event.opens, ∀ head ∈ x.state.head v.vaultId,
    ¬ x.state.store.tables.Contains head conflict.incomingRevisionId

theorem Separate.left {v : Tracked} {log later : List (Record Device DeviceEvent)}
    (h : Separate v (log ++ later)) : Separate v log where
  moved x hx y hy := h.moved x (List.mem_append_left _ hx) y (List.mem_append_left _ hy)
  opened x hx := h.opened x (List.mem_append_left _ hx)

/-- The call goes on to decide the conflict. -/
def Stage.WillDecide (conflictId : ConflictId) : Stage → Prop
  | owing (.decide conflict) => conflict.id = conflictId
  | owing .decideOpen => True
  | deciding conflicts => ∃ conflict ∈ conflicts, conflict.id = conflictId
  | _ => False

/-- Which calls may be there. -/
def Place.Known (g : Place) : Prop :=
  match g.stage with
  | .saved .. | .compared .. | .recorded _ | .owing .clear => ∀ call ∈ g.call, call.plain = true
  | .found conflict | .owing (.decide conflict) =>
    ∀ call ∈ g.call, call.resolves = some conflict.id
  | _ => True

section Conflicts

variable {sha256 : Bytes → Sha256Hex} {v : Tracked} {s t : Device} {g g' : Place}
  {events : List DeviceEvent}

theorem ServiceSteps.known (h : ServiceSteps sha256 v g s events t g') (hg : g.Known) :
    g'.Known := by
  cases h with
  | idle => exact hg
  | receives | starts | settles | merges => trivial
  | file h =>
    cases h with
    | @readsSaved _ path hplain =>
      cases s.files path with
      | none => trivial
      | some bytes =>
        rintro _ ⟨⟩
        exact hplain
    | _ => trivial
  | store h =>
    cases h with
    | compares | records => exact hg
    | moves hleads =>
      cases hleads with
      | calm | merging => trivial
      | found | recorded => exact hg
    | finds hresolves =>
      rintro _ ⟨⟩
      exact hresolves
    | @judges _ head remoteHead _ _ session =>
      cases s.store.tables.verdict v.vaultId session.summary head remoteHead <;> trivial
    | decides hdecides => cases hdecides <;> trivial
    | _ => trivial

/-- Only revisions that were not there get parents. -/
theorem ServiceSteps.parents (h : ServiceSteps sha256 v g s events t g')
    (honce : ∀ e ∈ events, e.StoredOnce s) {x p : RevisionId}
    (hp : t.store.tables.StoredParent x p) :
    s.store.tables.StoredParent x p ∨
      s.store.tables.hasRevision x = false ∧ ∃ e ∈ events, e.stores ≠ none := by
  have hsaves : ∀ {tables : Tables} {revision : Revision},
      Tables.saveRevision revision s.store.tables = .ok tables →
      events = [.engine (.saved revision)] → tables.StoredParent x p →
      s.store.tables.StoredParent x p ∨
        s.store.tables.hasRevision x = false ∧ ∃ e ∈ events, e.stores ≠ none := by
    rintro tables revision hsave rfl hp
    refine ((Tables.storedParent_saveRevision hsave).mp hp).imp_right fun hnew => ?_
    have he := List.mem_singleton.mpr (rfl : DeviceEvent.engine (.saved revision) = _)
    exact ⟨hnew.1 ▸ (honce _ he).revision revision rfl, _, he, Option.some_ne_none _⟩
  cases h with
  | idle hidle => exact Or.inl (by rwa [Tables.StoredParent, ← hidle.store.parents])
  | starts | settles => exact Or.inl hp
  | receives _ hsave => exact hsaves hsave rfl hp
  | merges _ hstored => exact hsaves hstored.save rfl hp
  | file h => exact Or.inl (h.keeps.1 ▸ hp)
  | store h =>
    cases h with
    | records _ _ hstored => exact hsaves hstored.save rfl hp
    | decides _ _ hsave | opens _ _ _ hsave =>
      have hsame := (Tables.saveConflict_same hsave).2.2
      exact Or.inl (by rwa [Tables.StoredParent, ← hsame])
    | _ => exact Or.inl hp

/-- What a stored revision contains, it has contained before. -/
theorem ServiceSteps.contained (h : ServiceSteps sha256 v g s events t g')
    (hs : s.Sound sha256 v) (honce : ∀ e ∈ events, e.StoredOnce s) {x z : RevisionId}
    (hx : s.store.tables.hasRevision x = true) (hin : t.store.tables.Contains x z) :
    s.store.tables.Contains x z := by
  suffices hreach : s.store.tables.Contains x z ∧ s.store.tables.hasRevision z = true from hreach.1
  induction hin with
  | refl => exact ⟨.refl, hx⟩
  | tail _ hp ih =>
    obtain ⟨hreach, hstored⟩ := ih
    rcases h.parents honce hp with hold | ⟨hnew, -⟩
    · exact ⟨ReflTransGen.tail hreach hold, (hs.wellFormed.closed _ _ hold).2⟩
    · rw [hstored] at hnew
      cases hnew

theorem Tables.open_of_saveConflict {tables : Tables} {conflict c : Conflict}
    (hsave : Tables.saveConflict conflict s.store.tables = .ok tables)
    (hc : c ∈ tables.listOpenConflicts v.vaultId) :
    (c ∈ s.store.tables.listOpenConflicts v.vaultId ∧ c.id ≠ conflict.id) ∨
      c.status = conflict.status ∧
        (s.store.tables.conflicts.has conflict.id = false → c = conflict) := by
  rw [Tables.saveConflict] at hsave
  split at hsave <;> cases hsave
  obtain ⟨hmem, hvault, hopen⟩ := Tables.mem_listOpenConflicts.mp hc
  have hfind := Table.find_of_mem hmem
  rw [Table.find_upsert] at hfind
  by_cases hid : conflict.id = c.id
  · rw [if_pos hid] at hfind
    refine Or.inr ?_
    cases hbefore : s.store.tables.conflicts.find c.id with
    | none =>
      rw [hbefore] at hfind
      cases hfind
      exact ⟨rfl, fun _ => rfl⟩
    | some row =>
      rw [hbefore] at hfind
      obtain rfl := Option.some.inj hfind
      refine ⟨rfl, fun hnew => ?_⟩
      rw [hid, Table.has_iff.mpr ⟨row, hbefore⟩] at hnew
      cases hnew
  · rw [if_neg hid] at hfind
    exact Or.inl ⟨Tables.mem_listOpenConflicts.mpr ⟨Table.mem_of_find hfind, hvault, hopen⟩,
      fun h => hid h.symm⟩

theorem Tables.listOpenConflicts_congr {t t' : Tables} (h : t'.conflicts = t.conflicts)
    (vaultId : VaultId) : t'.listOpenConflicts vaultId = t.listOpenConflicts vaultId := by
  rw [Tables.listOpenConflicts, h, Tables.listOpenConflicts]

theorem Tables.conflicts_saveRevision {t tables : Tables} {revision : Revision}
    (hsave : Tables.saveRevision revision t = .ok tables) : tables.conflicts = t.conflicts := by
  obtain ⟨-, -, rfl⟩ := Tables.saveRevision_ok hsave
  rfl

/-- A conflict that is open was open before and has not been decided, or it has been opened. -/
theorem ServiceSteps.open_conflict (h : ServiceSteps sha256 v g s events t g')
    (honce : ∀ e ∈ events, e.StoredOnce s) {c : Conflict}
    (hc : c ∈ t.store.tables.listOpenConflicts v.vaultId) :
    (c ∈ s.store.tables.listOpenConflicts v.vaultId ∧
      ∀ e ∈ events, ∀ decided ∈ e.decides, decided.id ≠ c.id) ∨ events = [.opened c] := by
  have hsame : t.store.tables.conflicts = s.store.tables.conflicts →
      (∀ e ∈ events, e.decides = none) →
      (c ∈ s.store.tables.listOpenConflicts v.vaultId ∧
        ∀ e ∈ events, ∀ decided ∈ e.decides, decided.id ≠ c.id) ∨ events = [.opened c] := by
    intro hconflicts hnone
    refine Or.inl ⟨Tables.listOpenConflicts_congr hconflicts v.vaultId ▸ hc, fun e he decided hd => ?_⟩
    cases (hnone e he).symm.trans hd
  cases h with
  | idle hidle hquiet =>
    apply hsame hidle.store.conflicts
    intro e he
    have hquiet := hquiet e he
    cases e <;> first | exact hquiet.elim | rfl
  | receives _ hsave =>
    exact hsame (Tables.conflicts_saveRevision hsave) (by simp [DeviceEvent.decides])
  | merges _ hstored =>
    exact hsame (Tables.conflicts_saveRevision hstored.save) (by simp [DeviceEvent.decides])
  | starts | settles => exact hsame rfl (by simp [DeviceEvent.decides])
  | file h =>
    refine hsame (by rw [h.keeps.1]) ?_
    cases h <;> simp [DeviceEvent.decides]
  | store h =>
    cases h with
    | records _ _ hstored =>
      exact hsame (Tables.conflicts_saveRevision hstored.save) (by simp [DeviceEvent.decides])
    | decides _ hdecided hsave =>
      obtain ⟨-, -, hopen⟩ := Tables.mem_listOpenConflicts.mp hc
      rcases Tables.open_of_saveConflict hsave hc with ⟨hold, hid⟩ | ⟨hstatus, -⟩
      · refine Or.inl ⟨hold, fun e he decided hd => ?_⟩
        cases List.mem_singleton.mp he
        cases hd
        exact hid.symm
      · exact absurd (hstatus.symm.trans hopen) hdecided.status
    | opens _ _ _ hsave =>
      rcases Tables.open_of_saveConflict hsave hc with ⟨hold, -⟩ | ⟨-, hnew⟩
      · refine Or.inl ⟨hold, fun e he decided hd => ?_⟩
        cases List.mem_singleton.mp he
        cases hd
      · have hnone := (honce _ (List.mem_singleton.mpr rfl)).conflict _ rfl
        rw [hnew hnone]
        exact Or.inr rfl
    | _ => exact hsame rfl (by simp [DeviceEvent.decides])

/-- A call that is going to decide a conflict still is, unless it has. -/
theorem ServiceSteps.willDecide (h : ServiceSteps sha256 v g s events t g') {c : Conflict}
    (hc : c ∈ s.store.tables.listOpenConflicts v.vaultId) (hg : g.stage.WillDecide c.id) :
    g'.stage.WillDecide c.id ∨ ∃ e ∈ events, ∃ decided ∈ e.decides, decided.id = c.id := by
  cases h with
  | idle => exact Or.inl hg
  | receives | starts | merges => exact hg.elim
  | @settles stage _ _ _ _ hend => cases stage <;> first | exact hend.elim | exact hg.elim
  | file h =>
    cases h with
    | looks hlooks | unbound hlooks =>
      cases hlooks with
      | calm | owing => exact hg.elim
      | deciding =>
        obtain ⟨_, hmem, -⟩ := hg
        cases hmem
    | _ => exact hg.elim
  | store h =>
    cases h with
    | lists => exact Or.inl ⟨c, hc, rfl⟩
    | moves hleads => cases hleads <;> exact hg.elim
    | decides hdecides hdecided =>
      cases hdecides with
      | found => exact hg.elim
      | owing => exact Or.inr ⟨_, List.mem_singleton.mpr rfl, _, rfl, hdecided.id.trans hg⟩
      | deciding =>
        obtain ⟨c', hmem, hid⟩ := hg
        rcases List.mem_cons.mp hmem with rfl | hmem
        · exact Or.inr ⟨_, List.mem_singleton.mpr rfl, _, rfl, hdecided.id.trans hid⟩
        · exact Or.inl ⟨c', hmem, hid⟩
    | _ => exact hg.elim

/-- What holds of the calls under way, when the run is as `Separate` asks: an open conflict about a
revision that is in the head is about to be decided. -/
structure ConflictsSafe (v : Tracked) (places : Nat → Option Place) (s : Device)
    (log : List (Record Device DeviceEvent)) : Prop where
  settling : Settling places log
  known : ∀ (i : Nat) g, places i = some g → g.Known
  pending : Separate v log → ∀ conflict ∈ s.store.tables.listOpenConflicts v.vaultId,
    ∀ head ∈ s.head v.vaultId, s.store.tables.Contains head conflict.incomingRevisionId →
    ∃ (i : Nat) (g : Place), places i = some g ∧ g.stage.WillDecide conflict.id

theorem Device.Sound.head_stored (h : s.Sound sha256 v) {head : RevisionId}
    (hhead : s.head v.vaultId = some head) : s.store.tables.hasRevision head = true := by
  obtain ⟨vault, hrow, hhead⟩ := Option.bind_eq_some_iff.mp hhead
  obtain ⟨row, hfind, -⟩ := h.wellFormed.heads _ _ hrow head hhead
  exact Table.has_iff.mpr ⟨row, hfind⟩

variable {places : Nat → Option Place} {log : List (Record Device DeviceEvent)} {i : Nat}

/-- The call that moves the head goes on to decide what is in the new one. -/
theorem ConflictsSafe.moved (h : ConflictsSafe v places s log) (hi : places i = some g)
    {e : DeviceEvent} {next : RevisionId} (hmove : e.headMove = some next)
    (hseparate : Separate v (log ++ [e].map (⟨i, s, ·⟩))) {call : ServiceCall} {todo : Todo}
    (hcall : g.call = some call) (hleads : Stage.Leads call g.combination g.stage next todo)
    {c : Conflict} (hc : c ∈ s.store.tables.listOpenConflicts v.vaultId)
    (hin : s.store.tables.Contains next c.incomingRevisionId) :
    (Stage.owing todo).WillDecide c.id := by
  have hnew : (⟨i, s, e⟩ : Record Device DeviceEvent) ∈ log ++ [e].map (⟨i, s, ·⟩) :=
    List.mem_append_right _ (List.mem_singleton.mpr rfl)
  obtain ⟨y, hy, htask, hstarted⟩ := h.settling.started i g call hi hcall
  have hbegins : y.event.begins = some call := by rw [hstarted]; rfl
  have hresolves : call.combines = false → call.resolves = some c.id := fun hnot =>
    hseparate.moved _ hnew y (List.mem_append_left _ hy) htask call hbegins hnot next hmove c hc hin
  have hplain : call.plain ≠ true := by
    intro hplain
    have hnone := ServiceCall.resolves_of_plain hplain
    rw [hresolves (ServiceCall.combines_of_plain hplain)] at hnone
    cases hnone
  have hknown := h.known i g hi
  obtain ⟨stage, _, _⟩ := g
  cases hleads with
  | calm hcalm => exact absurd hcalm hplain
  | recorded => exact absurd (hknown call hcall) hplain
  | found =>
    have hown := hknown call hcall
    have hnot := hresolves (ServiceCall.combines_of_resolves hown)
    exact Option.some.inj (hown.symm.trans hnot)
  | merging => trivial

theorem ConflictsSafe.step (h : ConflictsSafe v places s log) (hi : places i = some g)
    (hs : s.Sound sha256 v) (honce : ∀ e ∈ events, e.StoredOnce s)
    (hstep : ServiceSteps sha256 v g s events t g') :
    ConflictsSafe v (Function.update places i (some g')) t (log ++ events.map (⟨i, s, ·⟩)) := by
  refine ⟨h.settling.step hi hstep, ?_, fun hseparate c hc head hhead hin => ?_⟩
  · refine forall_update ?_ fun j k _ hj => h.known j k hj
    exact hstep.known (h.known i g hi)
  · rcases hstep.open_conflict honce hc with ⟨hold, hnot⟩ | rfl
    · rcases hstep.head with ⟨hsame, -⟩ | ⟨next, e, call, todo, rfl, hmove, -, hnow, hcall, hleads, rfl⟩
      · have hbefore : s.head v.vaultId = some head := hsame ▸ hhead
        obtain ⟨j, k, hj, hdecide⟩ := h.pending hseparate.left c hold head hbefore
          (hstep.contained hs honce (hs.head_stored hbefore) hin)
        by_cases hij : j = i
        · subst hij
          cases hi.symm.trans hj
          refine ⟨j, g', Function.update_self .., (hstep.willDecide hold hdecide).resolve_right ?_⟩
          rintro ⟨e, he, decided, hdecided, hid⟩
          exact hnot e he decided hdecided hid
        · exact ⟨j, k, by rw [Function.update_of_ne hij, hj], hdecide⟩
      · cases hnow.symm.trans hhead
        refine ⟨i, _, Function.update_self .., h.moved hi hmove hseparate hcall hleads hold ?_⟩
        refine ReflTransGen.mono (fun x p hp => ?_) _ _ hin
        refine (hstep.parents honce hp).resolve_right ?_
        rintro ⟨-, e', he', hstores⟩
        cases List.mem_singleton.mp he'
        cases e with
        | engine e => cases e <;> first | cases hmove | exact hstores rfl
        | _ => cases hmove
    · -- What has just been opened is not in the head.
      have hnew : (⟨i, s, .opened c⟩ : Record Device DeviceEvent) ∈
          log ++ [.opened c].map (⟨i, s, ·⟩) :=
        List.mem_append_right _ (List.mem_singleton.mpr rfl)
      rcases hstep.head with ⟨hsame, -⟩ | ⟨_, e, _, _, hevents, hmove, -⟩
      · have hbefore : s.head v.vaultId = some head := hsame ▸ hhead
        exact absurd (hstep.contained hs honce (hs.head_stored hbefore) hin)
          (hseparate.opened _ hnew c rfl head hbefore)
      · cases hevents
        cases hmove

theorem ConflictsSafe.start (h : ConflictsSafe v places s log) (hi : places i = none) :
    ConflictsSafe v (Function.update places i (some .first)) s log := by
  refine ⟨h.settling.start hi, ?_, fun hseparate c hc head hhead hin => ?_⟩
  · exact forall_update trivial fun j k _ hj => h.known j k hj
  · obtain ⟨j, k, hj, hdecide⟩ := h.pending hseparate c hc head hhead hin
    refine ⟨j, k, ?_, hdecide⟩
    rw [Function.update_of_ne, hj]
    rintro rfl
    rw [hi] at hj
    cases hj

end Conflicts

/-! ## Runs -/

/-- Whatever calls move the head, open conflicts and decide them, and however they overlap: when all
have settled, no conflict is open about a revision that is in the head. Nothing but a call that
combines may move the head to what has the incoming revision of an open conflict, unless it is the
conflict that the call decides; and what a conflict is opened about must not be in the head of that
moment. -/
theorem open_conflicts_genuine (deps : ServiceDeps) (v : Tracked) (start : Device)
    (hstart : start.Sound deps.sha256 v) (hgenuine : start.Genuine v)
    (moves : List (Move ServiceCommand)) (w : Pool Device DeviceEvent Failure)
    (log : List (Record Device DeviceEvent))
    (h : (⟨start, []⟩ : Pool Device DeviceEvent Failure).trace
      (services deps fun _ call => !call.writesOut) moves = some (w, log))
    (honce : ∀ x ∈ log, x.event.StoredOnce x.state) (hseparate : Separate v log)
    (hall : AllSettled log) : w.state.Genuine v := by
  have hinitial : ConflictsSafe v (fun _ => none) start [] := by
    refine ⟨⟨by simp, by simp, by simp, by simp⟩, by simp, ?_⟩
    intro _ c hc head hhead hin
    exact absurd hin (hgenuine c hc head hhead)
  obtain ⟨places, hsafe⟩ := VaultServices.trace_holds (fun _ _ h => h.fresh.freshIds)
    (fun _ _ h => by simpa using h) (fun _ _ _ _ hi hsafe => hsafe.start hi)
    (fun _ _ _ _ _ _ _ _ hi hsafe hs _ honce hstep => hsafe.step hi hs honce hstep) hstart hinitial
    h honce
  intro c hc head hhead hin
  obtain ⟨i, g, hi, hdecide⟩ := hsafe.pending hseparate c hc head hhead hin
  rcases hsafe.settling.stage hall hi with hstage | hstage
  · rw [hstage] at hdecide
    exact hdecide
  · rw [hstage] at hdecide
    exact hdecide

/-- As long as the second version is in use, the fork with the tablet is one. -/
theorem genuine_of_tabletFork {s : Device}
    (hopen : s.store.tables.listOpenConflicts home.vaultId = [tabletFork])
    (hnow : s.head home.vaultId = some ⟨"h2"⟩)
    (hclosed : ∀ x ∈ [(⟨"h2"⟩ : RevisionId), ⟨"h1"⟩], ∀ p ∈ s.store.tables.parentsOf x,
      p ∈ [(⟨"h2"⟩ : RevisionId), ⟨"h1"⟩]) : s.Genuine home := by
  intro conflict hconflict head hhead hin
  rw [hopen] at hconflict
  cases List.mem_singleton.mp hconflict
  cases hnow.symm.trans hhead
  have hbehind := hin.mem_of_closed hclosed List.mem_cons_self
  revert hbehind
  decide

theorem genuine_forked : forked.Genuine home :=
  genuine_of_tabletFork (by decide +kernel) rfl (by decide +kernel)

/-- The user switches to what the tablet has. -/
theorem open_conflicts_genuine_switched : ∃ moves w log,
    (⟨forked, []⟩ : Pool Device DeviceEvent Failure).trace
      (services laptopDeps fun _ call => !call.writesOut) moves = some (w, log) ∧
      w.state.Genuine home ∧ w.state.head home.vaultId = some ⟨"h4"⟩ := by
  let moves : List (Move ServiceCommand) :=
    .start (.call (.resolveConflict 7 ⟨"c1"⟩ .switchIncoming)) :: List.replicate 18 (.resume 0)
  have hrun : ((⟨forked, []⟩ : Pool Device DeviceEvent Failure).trace
      (services laptopDeps fun _ call => !call.writesOut) moves).map (fun (w, log) =>
        (w.state.head home.vaultId, decide (AllSettled log),
          decide (∀ x ∈ log, x.event.StoredOnce x.state),
          decide (∀ x ∈ log, ∀ y ∈ log, y.task = x.task → ∀ call ∈ y.event.begins,
            ∀ _next ∈ x.event.headMove,
            ∀ conflict ∈ x.state.store.tables.listOpenConflicts home.vaultId,
            call.resolves = some conflict.id),
          decide (∀ x ∈ log, x.event.opens = none))) =
      some (some ⟨"h4"⟩, true, true, true, true) := by
    decide +kernel
  obtain ⟨⟨w, log⟩, htrace, hends⟩ := Option.map_eq_some_iff.mp hrun
  simp only [Prod.mk.injEq, decide_eq_true_eq] at hends
  obtain ⟨hhead, hall, honce, hmoved, hopened⟩ := hends
  have hseparate : Separate home log := by
    refine ⟨fun x hx y hy htask call hcall _ next hnext conflict hconflict _ => ?_,
      fun x hx conflict hconflict => ?_⟩
    · exact hmoved x hx y hy htask call hcall next hnext conflict hconflict
    · cases (hopened x hx).symm.trans hconflict
  exact ⟨moves, w, log, htrace, open_conflicts_genuine laptopDeps home forked sound_forked
    genuine_forked moves w log htrace honce hseparate hall, hhead⟩

/-- The tablet has combined the two versions, and has sent the result. -/
def rejoined : Device :=
  let store := storeAfter (forks ++ [.ingestReceivedRevision 6
    ⟨⟨"home"⟩, ⟨"h6"⟩, [⟨"h2"⟩, ⟨"h4"⟩], plainDeps.sha256 [1, 4], [1, 4], ⟨"tablet"⟩, none⟩])
  { forked with
    store := store.setTables ((Tables.saveConflict tabletFork store.tables).toOption.getD .empty) }

/-- What the tablet has combined is put in use, and the fork is still open. -/
theorem open_conflict_rejoined : ∃ moves w log,
    (⟨rejoined, []⟩ : Pool Device DeviceEvent Failure).trace
      (services laptopDeps fun _ call => !call.writesOut) moves = some (w, log) ∧
      rejoined.Sound laptopDeps.sha256 home ∧ rejoined.Genuine home ∧
      (∀ x ∈ log, x.event.StoredOnce x.state) ∧ AllSettled log ∧ ¬ w.state.Genuine home := by
  let moves : List (Move ServiceCommand) :=
    .start (.call (.promote 7 ⟨"h6"⟩)) :: List.replicate 16 (.resume 0)
  have hrun : ((⟨rejoined, []⟩ : Pool Device DeviceEvent Failure).trace
      (services laptopDeps fun _ call => !call.writesOut) moves).map (fun (w, log) =>
        (w.state.head home.vaultId, w.state.store.tables.listOpenConflicts home.vaultId,
          decide (w.state.store.tables.StoredParent ⟨"h6"⟩ ⟨"h4"⟩),
          decide (∀ x ∈ log, x.event.StoredOnce x.state), decide (AllSettled log))) =
      some (some ⟨"h6"⟩, [tabletFork], true, true, true) := by
    decide +kernel
  obtain ⟨⟨w, log⟩, htrace, hends⟩ := Option.map_eq_some_iff.mp hrun
  simp only [Prod.mk.injEq, decide_eq_true_eq] at hends
  obtain ⟨hhead, hopen, hparent, honce, hall⟩ := hends
  have hsound : rejoined.Sound laptopDeps.sha256 home :=
    ⟨(wellFormed_storeAfter (forks ++ [.ingestReceivedRevision 6 ⟨⟨"home"⟩, ⟨"h6"⟩, [⟨"h2"⟩, ⟨"h4"⟩],
      plainDeps.sha256 [1, 4], [1, 4], ⟨"tablet"⟩, none⟩]) rfl).saveConflict
      (show Tables.saveConflict tabletFork _ = .ok _ from rfl), rfl, _, rfl, rfl⟩
  refine ⟨moves, w, log, htrace, hsound, ?_, honce, hall, fun hgenuine => ?_⟩
  · exact genuine_of_tabletFork (by decide +kernel) rfl (by decide +kernel)
  · exact hgenuine tabletFork (by simp [hopen]) ⟨"h6"⟩ hhead (ReflTransGen.single hparent)

end PassVault
