import PassVault.Services.InStep
import PassVault.Services.Verdicts

/-!
# Combining two versions

`combineAndUse` merges the head that it read with another version, makes the result the head and
decides every open conflict. What the result contains, whatever moves the head meanwhile.
-/

namespace PassVault

open Async Relation

/-- A revision is another one or has it among its ancestors, in the stored graph. -/
def Tables.Contains (t : Tables) (x z : RevisionId) : Prop := ReflTransGen t.StoredParent x z

theorem Tables.Contains.mono {t t' : Tables} (h : Tables.Grows t t') {x z : RevisionId}
    (hx : t.Contains x z) : t'.Contains x z :=
  ReflTransGen.mono h.parents x z hx

/-- What a parent contains, its child does. -/
theorem Tables.Contains.child {t : Tables} {x p z : RevisionId} (hp : t.StoredParent x p)
    (h : t.Contains p z) : t.Contains x z := .head hp h

def Device.head (vaultId : VaultId) (s : Device) : Option RevisionId :=
  s.store.tables.headOf vaultId

namespace DeviceEvent

theorem begins_iff {call : ServiceCall} {e : DeviceEvent} :
    e.begins = some call ↔ e = .started call := by
  cases e <;> simp [begins]

/-- The two versions that the call combines. -/
def bases : DeviceEvent → Option (RevisionId × RevisionId)
  | based base other => some (base, other)
  | _ => none

/-- The new head. -/
def headMove : DeviceEvent → Option RevisionId
  | engine (.wroteVault vault (.recorded ..)) | engine (.wroteVault vault (.moved ..)) =>
    vault.headRevisionId
  | _ => none

def decides : DeviceEvent → Option Conflict
  | decided conflict => some conflict
  | _ => none

end DeviceEvent

/-- Writing the file has failed. -/
def DeviceEvent.writeFails : DeviceEvent → Bool
  | writeFailed _ => true
  | _ => false

/-- Where a call of `combineAndUse` may be, when it has combined nothing yet and after. -/
def Stage.Combining : Option Combination → Stage → Prop
  | none, calm | none, based .. | none, looked .. | none, read .. | none, wrote ..
  | none, cleared _ | none, held | none, unbound | none, failed | none, settled => True
  | some _, merging | some _, owing .decideOpen | some _, deciding _ | some _, looked ..
  | some _, read .. | some _, wrote .. | some _, cleared _ | some _, held | some _, unbound
  | some _, settled => True
  | _, _ => False

/-- The call has moved no head and decided no conflict. -/
def Untouched (log : List (Record Device DeviceEvent)) (i : Nat) : Prop :=
  ∀ x ∈ log, x.task = i → x.event.headMove = none ∧ x.event.decides = none

/-- What is asked of the events of a run. -/
structure Contained (v : Tracked) (log : List (Record Device DeviceEvent)) : Prop where
  /-- A call that combines two versions replaces a head that is in one of them. -/
  replaced : ∀ x ∈ log, ∀ y ∈ log, y.task = x.task → ∀ b ∈ y.event.bases,
    ∀ _next ∈ x.event.headMove, ∀ head ∈ x.state.head v.vaultId,
    x.state.store.tables.Contains b.1 head ∨ x.state.store.tables.Contains b.2 head
  /-- It decides conflicts whose revisions are. -/
  decided : ∀ x ∈ log, ∀ y ∈ log, y.task = x.task → ∀ b ∈ y.event.bases,
    ∀ conflict ∈ x.event.decides,
    ∀ revisionId ∈ [conflict.currentRevisionId, conflict.incomingRevisionId],
    x.state.store.tables.Contains b.1 revisionId ∨ x.state.store.tables.Contains b.2 revisionId
  /-- It can write the file. -/
  written : ∀ x ∈ log, ∀ y ∈ log, y.task = x.task → ∀ _b ∈ y.event.bases, ∀ path,
    x.event ≠ .writeFailed path
  /-- Between its head move and its end, others only move the head to what contains the result. -/
  others : ∀ before x after, log = before ++ x :: after → ∀ z ∈ before, z.task ≠ x.task →
    ∀ y ∈ before, y.task = z.task → ∀ call ∈ y.event.begins, call.combines = true →
    (∀ u ∈ before, u.task = z.task → u.event.settles call = false) →
    ∀ result ∈ z.event.headMove, ∀ next ∈ x.event.headMove,
    x.state.store.tables.Contains next result

/-- What the events of a run show of all calls that combine. -/
structure Outcomes (v : Tracked) (log : List (Record Device DeviceEvent)) : Prop where
  /-- The conflicts that a call decided are in the head when it settles. -/
  resolved : ∀ x ∈ log, ∀ call, x.event.settles call = true → call.combines = true →
    ∀ y ∈ log, y.task = x.task → ∀ conflict ∈ y.event.decides,
    ∃ head, x.state.head v.vaultId = some head ∧
      x.state.store.tables.Contains head conflict.currentRevisionId ∧
      x.state.store.tables.Contains head conflict.incomingRevisionId
  /-- Nothing that was in the head falls out of it when such a call moves it. -/
  kept : ∀ x ∈ log, ∀ y ∈ log, y.task = x.task → ∀ call ∈ y.event.begins, call.combines = true →
    ∀ next ∈ x.event.headMove, ∀ head ∈ x.state.head v.vaultId,
    ∀ revisionId, x.state.store.tables.Contains head revisionId →
      x.state.store.tables.Contains next revisionId
  /-- A call that answers something else than that it has merged has touched nothing. -/
  unmerged : ∀ x ∈ log, ∀ call answer, x.event = .settled call answer → call.combines = true →
    (∀ revisionId, answer ≠ .ok (.merge (.merged revisionId))) → Untouched log x.task

/-- What is known of a call of `combineAndUse`. -/
structure Combines (v : Tracked) (log : List (Record Device DeviceEvent)) (i : Nat) (g : Place)
    (s : Device) : Prop where
  stage : g.stage.Combining g.combination
  untouched : g.combination = none ∨ g.stage = .merging → Untouched log i
  based : ∀ base other, g.stage = .based base other →
    ∃ x ∈ log, x.task = i ∧ x.event.bases = some (base, other)
  combined : ∀ c, g.combination = some c →
    (∃ x ∈ log, x.task = i ∧ x.event.bases = some (c.base, c.other)) ∧
      s.store.tables.StoredParent c.result c.base ∧ s.store.tables.StoredParent c.result c.other
  moved : ∀ c, g.combination = some c → g.stage ≠ .merging → g.stage ≠ .settled →
    ∃ x ∈ log, x.task = i ∧ x.event.headMove = some c.result
  /-- The result stays in the head until the call has settled. -/
  inHead : ∀ c, g.combination = some c → g.stage ≠ .merging → g.stage ≠ .settled →
    ∃ head, s.head v.vaultId = some head ∧ s.store.tables.Contains head c.result
  decided : ∀ c, g.combination = some c → ∀ x ∈ log, x.task = i → ∀ conflict ∈ x.event.decides,
    s.store.tables.Contains c.result conflict.currentRevisionId ∧
      s.store.tables.Contains c.result conflict.incomingRevisionId

/-- What holds of the calls under way and of the events so far, when the run is as `Contained`
asks. -/
structure CombiningSafe (v : Tracked) (places : Nat → Option Place) (s : Device)
    (log : List (Record Device DeviceEvent)) : Prop where
  settling : Settling places log
  idle : ∀ (i : Nat), (∀ g call, places i = some g → g.call ≠ some call) → Untouched log i
  combines : Contained v log → ∀ (i : Nat) g call, places i = some g → g.call = some call →
    call.combines = true → Combines v log i g s
  outcomes : Contained v log → Outcomes v log

section Combining

variable {sha256 : Bytes → Sha256Hex} {v : Tracked} {s t : Device} {g g' : Place}
  {events : List DeviceEvent}

theorem Device.head_eq_of_vaults (hvaults : t.store.tables.vaults = s.store.tables.vaults) :
    t.head v.vaultId = s.head v.vaultId :=
  congrArg (fun vaults => (vaults.find v.vaultId).bind (·.headRevisionId)) hvaults

/-- The head changes when it is moved, and not otherwise. -/
theorem ServiceSteps.head (h : ServiceSteps sha256 v g s events t g') :
    (t.head v.vaultId = s.head v.vaultId ∧ ∀ e ∈ events, e.headMove = none) ∨
      ∃ next e call todo, events = [e] ∧ e.headMove = some next ∧ e.decides = none ∧
        t.head v.vaultId = some next ∧ g.call = some call ∧
        Stage.Leads call g.combination g.stage next todo ∧
        g' = ⟨.owing todo, some call, g.combination⟩ := by
  cases h with
  | idle hidle hquiet =>
    refine Or.inl ⟨Device.head_eq_of_vaults hidle.store.vaults, fun e he => ?_⟩
    have hquiet := hquiet e he
    cases e with
    | engine e => cases e <;> first | rfl | exact hquiet.elim
    | _ => rfl
  | receives _ hsave =>
    exact Or.inl ⟨Device.head_eq_of_vaults (Tables.vaults_saveRevision hsave), by
      simp [DeviceEvent.headMove]⟩
  | merges _ hsaves =>
    exact Or.inl ⟨Device.head_eq_of_vaults (Tables.vaults_saveRevision hsaves.save), by
      simp [DeviceEvent.headMove]⟩
  | starts | settles => exact Or.inl ⟨rfl, by simp [DeviceEvent.headMove]⟩
  | file h => cases h <;> exact Or.inl ⟨rfl, by simp [DeviceEvent.headMove]⟩
  | store h =>
    cases h with
    | records _ _ hsaves =>
      exact Or.inl ⟨Device.head_eq_of_vaults (Tables.vaults_saveRevision hsaves.save), by
        simp [DeviceEvent.headMove]⟩
    | decides _ _ hsave | opens _ _ _ hsave =>
      exact Or.inl ⟨Device.head_eq_of_vaults (Tables.saveConflict_same hsave).1, by
        simp [DeviceEvent.headMove]⟩
    | @moves _ s vault revisionId todo why hleads hid hpath hhead hof hwhy =>
      refine Or.inr ⟨revisionId, _, _, todo, rfl, ?_, rfl, ?_, rfl, hleads, rfl⟩
      · cases why with
        | recorded | moved => exact hhead
        | created | imported | adopted | bound => exact hwhy.1.elim
      · obtain ⟨row, hrow, hrowHead, -⟩ := Tables.getVault_saveVault s.store.tables vault
        have hrow : (s.store.tables.saveVault vault).getVault v.vaultId = some row := hid ▸ hrow
        exact Option.bind_eq_some_iff.mpr ⟨row, hrow, hrowHead.trans hhead⟩
    | _ => exact Or.inl ⟨rfl, by simp [DeviceEvent.headMove]⟩

/-- A conflict that is decided is one that the call had found. -/
theorem ServiceSteps.decides (h : ServiceSteps sha256 v g s events t g') {e : DeviceEvent}
    (he : e ∈ events) {decided : Conflict} (hdecided : e.decides = some decided) :
    ∃ conflict call, events = [.decided decided] ∧ g.call = some call ∧
      conflict.DecidedAs decided ∧ Stage.Decides g.stage conflict g'.stage ∧
      g' = ⟨g'.stage, some call, g.combination⟩ := by
  cases h with
  | idle _ hquiet =>
    have hquiet := hquiet e he
    cases e <;> first | exact hquiet.elim | cases hdecided
  | receives | merges | starts | settles =>
    cases List.mem_singleton.mp he
    cases hdecided
  | file h => cases h <;> simp at he <;> subst he <;> cases hdecided
  | store h =>
    cases h with
    | decides hdecides hdecidedAs =>
      cases List.mem_singleton.mp he
      cases hdecided
      exact ⟨_, _, rfl, rfl, hdecidedAs, hdecides, rfl⟩
    | finds | lists | seesHead | judges => cases he
    | _ =>
      cases List.mem_singleton.mp he
      cases hdecided

/-- The call has combined two versions, or what it had combined before is all that it has. -/
theorem ServiceSteps.combination (h : ServiceSteps sha256 v g s events t g') :
    g'.combination = g.combination ∧ (g'.stage = .merging → g.stage = .merging) ∨
      ∃ head other result, g.combination = none ∧ g.stage = .based head other ∧
        g'.combination = some ⟨head, other, result⟩ ∧ g'.stage = .merging ∧
        t.store.tables.StoredParent result head ∧ t.store.tables.StoredParent result other := by
  cases h with
  | idle => exact Or.inl ⟨rfl, id⟩
  | receives | starts | settles => exact Or.inl ⟨rfl, fun hstage => by cases hstage⟩
  | merges hparents hsaves =>
    obtain ⟨-, -, rfl⟩ := Tables.saveRevision_ok hsaves.save
    refine Or.inr ⟨_, _, _, rfl, rfl, rfl, rfl, ?_, ?_⟩
    all_goals
      refine Tables.storedParent_insertParents.mpr (Or.inr ⟨rfl, ?_⟩)
      simp [hparents]
  | file h =>
    refine Or.inl ⟨rfl, fun hstage => ?_⟩
    cases h with
    | readsSaved => dsimp only at hstage; split at hstage <;> cases hstage
    | _ => cases hstage
  | store h =>
    refine Or.inl ⟨rfl, fun hstage => ?_⟩
    cases h with
    | judges => dsimp only at hstage; split at hstage <;> cases hstage
    | decides hdecides => cases hdecides <;> cases hstage
    | _ => cases hstage

/-- The two versions of a call are those that it reported. -/
theorem ServiceSteps.based (h : ServiceSteps sha256 v g s events t g') {base other : RevisionId}
    (hstage : g'.stage = .based base other) :
    g.stage = .based base other ∨ .based base other ∈ events := by
  cases h with
  | idle => exact Or.inl hstage
  | receives | starts | settles | merges => cases hstage
  | file h =>
    cases h with
    | readsSaved => dsimp only at hstage; split at hstage <;> cases hstage
    | _ => cases hstage
  | store h =>
    cases h with
    | bases =>
      cases hstage
      exact Or.inr (List.mem_singleton.mpr rfl)
    | judges => dsimp only at hstage; split at hstage <;> cases hstage
    | decides hdecides => cases hdecides <;> cases hstage
    | _ => cases hstage

/-- When a call settles, and with which answer. -/
theorem ServiceSteps.ends (h : ServiceSteps sha256 v g s events t g') {call : ServiceCall}
    {answer : Except Failure ServiceAnswer} (he : .settled call answer ∈ events) :
    events = [.settled call answer] ∧ g.call = some call ∧ g.stage.mayEnd ∧
      (g.stage ≠ .merging → g.stage ≠ .failed → ∀ c, g.combination = some c →
        answer = .ok (.merge (.merged c.result))) := by
  cases h with
  | idle _ hquiet => exact (hquiet _ he).elim
  | receives | starts | merges => simp at he
  | settles hend hmerged =>
    cases List.mem_singleton.mp he
    exact ⟨rfl, rfl, hend, hmerged⟩
  | file h => cases h <;> simp at he
  | store h => cases h <;> simp at he

/-- A call that combines goes on as it should. -/
theorem ServiceSteps.combining (h : ServiceSteps sha256 v g s events t g') {call : ServiceCall}
    (hcall : g.call = some call) (hcombines : call.combines = true)
    (hwritten : g.combination ≠ none → ∀ e ∈ events, ∀ path, e ≠ .writeFailed path)
    (hg : g.stage.Combining g.combination) : g'.stage.Combining g'.combination := by
  cases h with
  | idle => exact hg
  | receives | starts => cases hcall
  | settles => rename_i c _ _ _ _; cases c <;> trivial
  | merges => trivial
  | file h =>
    cases hcall
    rename_i c
    cases h with
    | readsSaved hplain => cases hcombines.symm.trans (ServiceCall.combines_of_plain hplain)
    | forgets => cases c <;> exact hg.elim
    | fails =>
      cases c with
      | none => trivial
      | some c => exact hwritten (Option.some_ne_none c) _ (List.mem_singleton.mpr rfl) _ rfl
    | _ => cases c <;> trivial
  | store h =>
    cases hcall
    rename_i c
    cases h with
    | compares | records | judges | opens | bases | lists =>
      cases c <;> first | exact hg.elim | trivial
    | seesHead hnot => cases hcombines.symm.trans hnot
    | finds hresolves => cases hcombines.symm.trans (ServiceCall.combines_of_resolves hresolves)
    | moves hleads =>
      cases hleads with
      | calm hplain => cases hcombines.symm.trans (ServiceCall.combines_of_plain hplain)
      | found | recorded => cases c <;> exact hg.elim
      | merging => trivial
    | decides hdecides => cases hdecides <;> cases c <;> first | exact hg.elim | trivial

theorem Contained.left {log later : List (Record Device DeviceEvent)}
    (h : Contained v (log ++ later)) : Contained v log where
  replaced x hx y hy := h.replaced x (List.mem_append_left _ hx) y (List.mem_append_left _ hy)
  decided x hx y hy := h.decided x (List.mem_append_left _ hx) y (List.mem_append_left _ hy)
  written x hx y hy := h.written x (List.mem_append_left _ hx) y (List.mem_append_left _ hy)
  others before x after heq :=
    h.others before x (after ++ later) (by rw [heq, List.append_assoc, List.cons_append])

theorem Untouched.append {log later : List (Record Device DeviceEvent)} {i : Nat}
    (h : Untouched log i)
    (hlater : ∀ x ∈ later, x.task = i → x.event.headMove = none ∧ x.event.decides = none) :
    Untouched (log ++ later) i := by
  intro x hx htask
  rcases List.mem_append.mp hx with hx | hx
  · exact h x hx htask
  · exact hlater x hx htask

/-- A call that has settled touches nothing any more. -/
theorem ServiceSteps.untouched_of_settled (h : ServiceSteps sha256 v g s events t g')
    (hg : g.stage = .settled) {e : DeviceEvent} (he : e ∈ events) :
    e.headMove = none ∧ e.decides = none := by
  obtain ⟨stage, call, c⟩ := g
  obtain rfl : stage = .settled := hg
  refine ⟨?_, ?_⟩
  · rcases h.head with ⟨-, hnone⟩ | ⟨next, e', call, todo, -, -, -, -, -, hleads, -⟩
    · exact hnone e he
    · cases hleads
  · cases hdecided : e.decides with
    | none => rfl
    | some conflict =>
      obtain ⟨_, _, -, -, -, hdecides, -⟩ := h.decides he hdecided
      cases hdecides

/-- The step of another call leaves a call as it was. -/
theorem Combines.bystander {log later : List (Record Device DeviceEvent)} {j : Nat}
    (h : Combines v log j g s) (hlater : ∀ x ∈ later, x.task ≠ j)
    (hgrows : s.store.tables.Grows t.store.tables)
    (hhead : ∀ c, g.combination = some c → g.stage ≠ .merging → g.stage ≠ .settled →
      ∃ next, t.head v.vaultId = some next ∧ t.store.tables.Contains next c.result) :
    Combines v (log ++ later) j g t := by
  refine ⟨h.stage, fun hg => ?_, fun base other hg => ?_, fun c hc => ?_,
    fun c hc hnot hlive => ?_, hhead,
    fun c hc x hx htask conflict hconflict => ?_⟩
  · exact (h.untouched hg).append fun x hx htask => absurd htask (hlater x hx)
  · obtain ⟨x, hx, hbased⟩ := h.based base other hg
    exact ⟨x, List.mem_append_left _ hx, hbased⟩
  · obtain ⟨⟨x, hx, hbased⟩, hbase, hother⟩ := h.combined c hc
    exact ⟨⟨x, List.mem_append_left _ hx, hbased⟩, hgrows.parents _ _ hbase,
      hgrows.parents _ _ hother⟩
  · obtain ⟨x, hx, hmoved⟩ := h.moved c hc hnot hlive
    exact ⟨x, List.mem_append_left _ hx, hmoved⟩
  · rcases List.mem_append.mp hx with hx | hx
    · obtain ⟨hcurrent, hincoming⟩ := h.decided c hc x hx htask conflict hconflict
      exact ⟨hcurrent.mono hgrows, hincoming.mono hgrows⟩
    · exact absurd htask (hlater x hx)

section Step

variable {places : Nat → Option Place} {log : List (Record Device DeviceEvent)} {i : Nat}

/-- A call that combines moves the head to the result, from where it is about to. -/
theorem ServiceSteps.moves_combined (h : ServiceSteps sha256 v g s events t g')
    (hg : g.stage.Combining g.combination) {call : ServiceCall} (hcall : g.call = some call)
    (hcombines : call.combines = true) :
    (t.head v.vaultId = s.head v.vaultId ∧ ∀ e ∈ events, e.headMove = none) ∨
      ∃ c e, g.combination = some c ∧ g.stage = .merging ∧ events = [e] ∧
        e.headMove = some c.result ∧ t.head v.vaultId = some c.result := by
  rcases h.head with hsame | ⟨next, e, call', todo, rfl, hmove, -, hnow, hcall', hleads, -⟩
  · exact Or.inl hsame
  · refine Or.inr ?_
    cases hcall.symm.trans hcall'
    obtain ⟨stage, _, c⟩ := g
    cases hleads with
    | calm hplain => cases hcombines.symm.trans (ServiceCall.combines_of_plain hplain)
    | found | recorded => cases c <;> exact hg.elim
    | merging => exact ⟨_, e, rfl, rfl, rfl, hmove, hnow⟩

/-- A call that combines loses nothing that was in the head. -/
theorem Combines.next_contains (hg : Combines v log i g s)
    (hstep : ServiceSteps sha256 v g s events t g')
    (hcontained : Contained v (log ++ events.map (⟨i, s, ·⟩))) {call : ServiceCall}
    (hcall : g.call = some call) (hcombines : call.combines = true) {e : DeviceEvent}
    (he : e ∈ events) {next : RevisionId} (hnext : e.headMove = some next) {head : RevisionId}
    (hhead : s.head v.vaultId = some head) : s.store.tables.Contains next head := by
  rcases hstep.moves_combined hg.stage hcall hcombines with ⟨-, hnone⟩ |
    ⟨c, e', hc, -, rfl, hmove, -⟩
  · rw [hnone e he] at hnext
    cases hnext
  obtain rfl := List.mem_singleton.mp he
  cases hmove.symm.trans hnext
  obtain ⟨⟨y, hy, htask, hbased⟩, hbase, hother⟩ := hg.combined c hc
  have hnew : (⟨i, s, e⟩ : Record Device DeviceEvent) ∈ log ++ [e].map (⟨i, s, ·⟩) :=
    List.mem_append_right _ (List.mem_singleton.mpr rfl)
  rcases hcontained.replaced _ hnew y (List.mem_append_left _ hy) htask _ hbased _ hmove _ hhead
    with hin | hin
  · exact hin.child hbase
  · exact hin.child hother

/-- A call that has combined nothing yet, or is about to move the head, touches nothing. -/
theorem ServiceSteps.untouched (h : ServiceSteps sha256 v g s events t g')
    (hg : g.stage.Combining g.combination) (hbefore : g.combination = none ∨ g.stage = .merging)
    (hafter : g'.combination = none ∨ g'.stage = .merging) {call : ServiceCall}
    (hcall : g.call = some call) (hcombines : call.combines = true) {e : DeviceEvent}
    (he : e ∈ events) : e.headMove = none ∧ e.decides = none := by
  obtain ⟨stage, call', c⟩ := g
  refine ⟨?_, ?_⟩
  · rcases h.head with ⟨-, hnone⟩ | ⟨_, _, call'', todo, -, -, -, -, hcall', hleads, rfl⟩
    · exact hnone e he
    · cases hcall.symm.trans hcall'
      cases hleads with
      | calm hplain => cases hcombines.symm.trans (ServiceCall.combines_of_plain hplain)
      | found | recorded => cases c <;> exact hg.elim
      | merging => rcases hafter with hafter | hafter <;> cases hafter
  · cases hdecided : e.decides with
    | none => rfl
    | some conflict =>
      obtain ⟨_, _, -, -, -, hdecides, -⟩ := h.decides he hdecided
      generalize g'.stage = after at hdecides
      rcases hbefore with rfl | rfl
      · cases hdecides <;> exact hg.elim
      · cases hdecides

/-- A call that was about to move the head has moved it, unless it settles. -/
theorem ServiceSteps.merged (h : ServiceSteps sha256 v g s events t g')
    (hbefore : g.stage = .merging) (hafter : g'.stage ≠ .merging) (hlive : g'.stage ≠ .settled) :
    ∃ e ∈ events, e.headMove ≠ none := by
  obtain ⟨stage, call, _⟩ := g
  obtain rfl : stage = .merging := hbefore
  cases h with
  | idle => exact absurd rfl hafter
  | settles => exact absurd rfl hlive
  | file h => cases h with | looks hlooks | unbound hlooks => cases hlooks
  | store h =>
    cases h with
    | decides hdecides => cases hdecides
    | @moves _ _ _ _ _ why _ _ _ hhead _ hwhy =>
      refine ⟨_, List.mem_singleton.mpr rfl, ?_⟩
      cases why with
      | recorded | moved =>
        rw [DeviceEvent.headMove, hhead]
        exact Option.some_ne_none _
      | created | imported | adopted | bound => exact hwhy.1.elim

/-- What the step of a call that combines leaves. -/
theorem CombiningSafe.combines_step (h : CombiningSafe v places s log) (hi : places i = some g)
    (hs : s.Sound sha256 v) (hstep : ServiceSteps sha256 v g s events t g')
    (hcontained : Contained v (log ++ events.map (⟨i, s, ·⟩))) {call : ServiceCall}
    (hcall : g.call = some call) (hcombines : call.combines = true) :
    Combines v (log ++ events.map (⟨i, s, ·⟩)) i g' t := by
  have hg := h.combines hcontained.left i g call hi hcall hcombines
  have hgrows : s.store.tables.Grows t.store.tables := (hstep.keeps hs).2.grows.tables
  have hold : ∀ {p : Record Device DeviceEvent → Prop}, (∃ x ∈ log, p x) →
      ∃ x ∈ log ++ events.map (⟨i, s, ·⟩), p x :=
    fun ⟨x, hx, hp⟩ => ⟨x, List.mem_append_left _ hx, hp⟩
  have hnew : ∀ {e : DeviceEvent}, e ∈ events →
      (⟨i, s, e⟩ : Record Device DeviceEvent) ∈ log ++ events.map (⟨i, s, ·⟩) :=
    fun he => List.mem_append_right _ (List.mem_map_of_mem he)
  have hwritten : g.combination ≠ none → ∀ e ∈ events, ∀ path, e ≠ .writeFailed path := by
    intro hsome e he path
    obtain ⟨c, hc⟩ := Option.ne_none_iff_exists'.mp hsome
    obtain ⟨⟨y, hy, htask, hbased⟩, -⟩ := hg.combined c hc
    exact hcontained.written _ (hnew he) y (List.mem_append_left _ hy) htask _ hbased path
  refine ⟨hstep.combining hcall hcombines hwritten hg.stage, fun hafter => ?_,
    fun base other hbased => ?_, fun c hc => ?_, fun c hc hnot hlive => ?_,
    fun c hc hnot hlive => ?_, fun c hc x hx htask conflict hconflict => ?_⟩
  · have hbefore : g.combination = none ∨ g.stage = .merging := by
      rcases hstep.combination with ⟨hsame, hmerging⟩ | ⟨_, _, _, hnone, -⟩
      · exact hafter.imp (hsame ▸ ·) hmerging
      · exact Or.inl hnone
    refine (hg.untouched hbefore).append fun x hx _ => ?_
    obtain ⟨e, he, rfl⟩ := List.mem_map.mp hx
    exact hstep.untouched hg.stage hbefore hafter hcall hcombines he
  · rcases hstep.based hbased with hbefore | he
    · exact hold (hg.based base other hbefore)
    · exact ⟨_, hnew he, rfl, rfl⟩
  · rcases hstep.combination with ⟨hsame, -⟩ |
      ⟨base, other, result, -, hbefore, hcombined, -, hbase, hother⟩
    · obtain ⟨hbased, hbase, hother⟩ := hg.combined c (hsame ▸ hc)
      exact ⟨hold hbased, hgrows.parents _ _ hbase, hgrows.parents _ _ hother⟩
    · cases hcombined.symm.trans hc
      exact ⟨hold (hg.based base other hbefore), hbase, hother⟩
  · rcases hstep.combination with ⟨hsame, -⟩ | ⟨_, _, _, -, -, -, hmerging, -⟩
    · by_cases hbefore : g.stage = .merging
      · obtain ⟨e, he, hmoves⟩ := hstep.merged hbefore hnot hlive
        rcases hstep.moves_combined hg.stage hcall hcombines with ⟨-, hnone⟩ |
          ⟨c', e', hc', -, rfl, hmove, -⟩
        · exact absurd (hnone e he) hmoves
        · cases hc'.symm.trans (hsame ▸ hc)
          exact ⟨_, hnew (List.mem_singleton.mpr rfl), rfl, hmove⟩
      · have hlive' : g.stage ≠ .settled := fun hsettled =>
          hlive (hstep.of_settled hsettled ▸ hsettled)
        exact hold (hg.moved c (hsame ▸ hc) hbefore hlive')
    · exact absurd hmerging hnot
  · rcases hstep.combination with ⟨hsame, -⟩ | ⟨_, _, _, -, -, -, hmerging, -⟩
    · rcases hstep.moves_combined hg.stage hcall hcombines with ⟨hhead, hnone⟩ |
        ⟨c', e', hc', -, rfl, hmove, hnow⟩
      · have hbefore : g.stage ≠ .merging := fun hbefore => by
          obtain ⟨e, he, hmoves⟩ := hstep.merged hbefore hnot hlive
          exact hmoves (hnone e he)
        have hlive' : g.stage ≠ .settled := fun hsettled =>
          hlive (hstep.of_settled hsettled ▸ hsettled)
        obtain ⟨head, hnow, hresult⟩ := hg.inHead c (hsame ▸ hc) hbefore hlive'
        exact ⟨head, hhead.trans hnow, hresult.mono hgrows⟩
      · cases hc'.symm.trans (hsame ▸ hc)
        exact ⟨_, hnow, .refl⟩
    · exact absurd hmerging hnot
  · rcases List.mem_append.mp hx with hx | hx
    · rcases hstep.combination with ⟨hsame, -⟩ | ⟨_, _, _, hnone, -⟩
      · obtain ⟨hcurrent, hincoming⟩ := hg.decided c (hsame ▸ hc) x hx htask conflict hconflict
        exact ⟨hcurrent.mono hgrows, hincoming.mono hgrows⟩
      · rw [(hg.untouched (Or.inl hnone) x hx htask).2] at hconflict
        cases hconflict
    · obtain ⟨e, he, rfl⟩ := List.mem_map.mp hx
      obtain ⟨_, _, -, -, -, -, hg'⟩ := hstep.decides he hconflict
      have hc' : g.combination = some c := by rw [hg'] at hc; exact hc
      obtain ⟨⟨y, hy, htask', hbased⟩, hbase, hother⟩ := hg.combined c hc'
      have hin : ∀ revisionId ∈ [conflict.currentRevisionId, conflict.incomingRevisionId],
          t.store.tables.Contains c.result revisionId := by
        intro revisionId hrevision
        rcases hcontained.decided _ (hnew he) y (List.mem_append_left _ hy) htask' _ hbased _
          hconflict revisionId hrevision with hin | hin
        · exact (hin.child hbase).mono hgrows
        · exact (hin.child hother).mono hgrows
      exact ⟨hin _ (by simp), hin _ (by simp)⟩

/-- Before its call has begun, a program touches nothing. -/
theorem ServiceSteps.untouched_of_no_call (h : ServiceSteps sha256 v g s events t g')
    (hg : g.call = none) {e : DeviceEvent} (he : e ∈ events) :
    e.headMove = none ∧ e.decides = none := by
  refine ⟨?_, ?_⟩
  · rcases h.head with ⟨-, hnone⟩ | ⟨_, _, call, _, -, -, -, -, hcall, -⟩
    · exact hnone e he
    · rw [hg] at hcall
      cases hcall
  · cases hdecided : e.decides with
    | none => rfl
    | some conflict =>
      obtain ⟨_, call, -, hcall, -⟩ := h.decides he hdecided
      rw [hg] at hcall
      cases hcall

theorem ServiceSteps.begins (h : ServiceSteps sha256 v g s events t g') {e : DeviceEvent}
    (he : e ∈ events) {call : ServiceCall} (hbegins : e.begins = some call) :
    g.call = none ∧ g'.call = some call := by
  cases e with
  | started call' =>
    cases hbegins
    refine ⟨?_, h.started he⟩
    cases h with
    | starts => rfl
    | idle _ hquiet => exact (hquiet _ he).elim
    | receives | settles | merges => simp at he
    | file h => cases h <;> simp at he
    | store h => cases h <;> simp at he
  | _ => cases hbegins

theorem untouched_idle (hidle : ∀ (i : Nat), (∀ g call, places i = some g → g.call ≠ some call) →
    Untouched log i) (hi : places i = some g) (hg : g.call = none) : Untouched log i := by
  apply hidle i
  intro k call hk hcall
  rw [hi] at hk
  cases hk
  rw [hg] at hcall
  cases hcall

theorem CombiningSafe.idle_step (h : CombiningSafe v places s log) (hi : places i = some g)
    (hstep : ServiceSteps sha256 v g s events t g') (j : Nat)
    (hj : ∀ k call, Function.update places i (some g') j = some k → k.call ≠ some call) :
    Untouched (log ++ events.map (⟨i, s, ·⟩)) j := by
  by_cases hij : j = i
  · subst hij
    have hnone : g.call = none := by
      rw [Option.eq_none_iff_forall_ne_some]
      intro call hcall
      exact hj g' call (Function.update_self ..) (hstep.keeps_call hcall)
    refine (untouched_idle h.idle hi hnone).append fun x hx _ => ?_
    obtain ⟨e, he, rfl⟩ := List.mem_map.mp hx
    exact hstep.untouched_of_no_call hnone he
  · refine (h.idle j fun k call hk => ?_).append fun x hx htask => ?_
    · exact hj k call (by rw [Function.update_of_ne hij, hk])
    · obtain ⟨e, he, rfl⟩ := List.mem_map.mp hx
      exact absurd htask.symm hij

theorem CombiningSafe.all_combine (h : CombiningSafe v places s log) (hi : places i = some g)
    (hs : s.Sound sha256 v) (hstep : ServiceSteps sha256 v g s events t g')
    (hcontained : Contained v (log ++ events.map (⟨i, s, ·⟩))) :
    ∀ (j : Nat) k, Function.update places i (some g') j = some k → ∀ call, k.call = some call →
      call.combines = true → Combines v (log ++ events.map (⟨i, s, ·⟩)) j k t := by
  refine forall_update ?_ fun j k hij hj => ?_
  · intro call hcall hcombines
    cases hbefore : g.call with
    | some call' =>
      cases hcall.symm.trans (hstep.keeps_call hbefore)
      exact h.combines_step hi hs hstep hcontained hbefore hcombines
    | none =>
      have huntouched : Untouched (log ++ events.map (⟨i, s, ·⟩)) i := by
        refine (untouched_idle h.idle hi hbefore).append fun x hx _ => ?_
        obtain ⟨e, he, rfl⟩ := List.mem_map.mp hx
        exact hstep.untouched_of_no_call hbefore he
      cases hstep with
      | starts => exact ⟨trivial, fun _ => huntouched, nofun, nofun, nofun, nofun, nofun⟩
      | idle | receives => rw [hbefore] at hcall; cases hcall
      | settles | file | store | merges => cases hbefore
  · intro call hcall hcombines
    have hk := h.combines hcontained.left j k call hj hcall hcombines
    have hgrows := (hstep.keeps hs).2.grows.tables
    refine hk.bystander ?_ hgrows fun c hc hnot hlive => ?_
    · intro x hx htask
      obtain ⟨e, he, rfl⟩ := List.mem_map.mp hx
      exact hij htask.symm
    · rcases hstep.head with ⟨hsame, -⟩ | ⟨next, e, _, _, rfl, hmove, -, hnow, -⟩
      · obtain ⟨head, hhead, hresult⟩ := hk.inHead c hc hnot hlive
        exact ⟨head, hsame.trans hhead, hresult.mono hgrows⟩
      · obtain ⟨z, hz, htask, hmoved⟩ := hk.moved c hc hnot hlive
        obtain ⟨y, hy, hytask, hstarted⟩ := h.settling.started j k call hj hcall
        have hbegins : y.event.begins = some call := by rw [hstarted]; rfl
        refine ⟨next, hnow, Tables.Contains.mono hgrows ?_⟩
        refine hcontained.others log ⟨i, s, e⟩ [] rfl z hz ?_ y hy (hytask.trans htask.symm) call
          hbegins hcombines (fun u hu hutask => ?_) _ hmoved _ hmove
        · rw [htask]
          exact hij
        · cases hsettles : u.event.settles call with
          | false => rfl
          | true =>
            obtain ⟨answer, hevent⟩ := DeviceEvent.settles_iff.mp hsettles
            obtain ⟨k', hk', hsettled, -⟩ := h.settling.settled u hu call answer hevent
            rw [hutask, htask, hj] at hk'
            cases hk'
            exact absurd hsettled hlive

/-- A call that settles has what it decided in the head. -/
theorem Combines.resolved (h : Combines v log i g s) (hend : g.stage.mayEnd)
    {x : Record Device DeviceEvent} (hx : x ∈ log) (htask : x.task = i) {conflict : Conflict}
    (hconflict : x.event.decides = some conflict) :
    ∃ head, s.head v.vaultId = some head ∧
      s.store.tables.Contains head conflict.currentRevisionId ∧
      s.store.tables.Contains head conflict.incomingRevisionId := by
  have htouched : ¬ Untouched log i := by
    intro huntouched
    rw [(huntouched x hx htask).2] at hconflict
    cases hconflict
  have hlive : g.stage ≠ .settled := by
    intro hsettled
    rw [hsettled] at hend
    exact hend
  obtain ⟨c, hc⟩ := Option.ne_none_iff_exists'.mp fun hnone => htouched (h.untouched (Or.inl hnone))
  obtain ⟨head, hhead, hresult⟩ :=
    h.inHead c hc (fun hmerging => htouched (h.untouched (Or.inr hmerging))) hlive
  obtain ⟨hcurrent, hincoming⟩ := h.decided c hc x hx htask conflict hconflict
  exact ⟨head, hhead, ReflTransGen.trans hresult hcurrent, ReflTransGen.trans hresult hincoming⟩

/-- A call that settles with another answer than that it has merged has touched nothing. -/
theorem Combines.unmerged (h : Combines v log i g s) {answer : Except Failure ServiceAnswer}
    (hmerged : g.stage ≠ .merging → g.stage ≠ .failed → ∀ c, g.combination = some c →
      answer = .ok (.merge (.merged c.result)))
    (hanswer : ∀ revisionId, answer ≠ .ok (.merge (.merged revisionId))) : Untouched log i := by
  cases hc : g.combination with
  | none => exact h.untouched (Or.inl hc)
  | some c =>
    by_cases hmerging : g.stage = .merging
    · exact h.untouched (Or.inr hmerging)
    · have hsound : g.stage ≠ .failed := by
        intro hfailed
        have hstage := h.stage
        rw [hfailed, hc] at hstage
        exact hstage
      exact absurd (hmerged hmerging hsound c hc) (hanswer _)

theorem CombiningSafe.outcomes_step (h : CombiningSafe v places s log) (hi : places i = some g)
    (hstep : ServiceSteps sha256 v g s events t g')
    (hcontained : Contained v (log ++ events.map (⟨i, s, ·⟩))) :
    Outcomes v (log ++ events.map (⟨i, s, ·⟩)) := by
  have hold := h.outcomes hcontained.left
  -- What a call has settled, it does not touch any more.
  have hover : ∀ x ∈ log, ∀ call answer, x.event = .settled call answer → x.task = i →
      ∀ e ∈ events, e.headMove = none ∧ e.decides = none := by
    rintro x hx call answer hevent rfl e he
    obtain ⟨k, hk, hsettled, -⟩ := h.settling.settled x hx call answer hevent
    cases hi.symm.trans hk
    exact hstep.untouched_of_settled hsettled he
  refine ⟨fun x hx call hsettles hcombines y hy htask conflict hconflict => ?_,
    fun x hx y hy htask call hbegins hcombines next hnext head hhead revisionId hin => ?_,
    fun x hx call answer hevent hcombines hanswer => ?_⟩
  · obtain ⟨answer, hevent⟩ := DeviceEvent.settles_iff.mp hsettles
    rcases List.mem_append.mp hx with hx | hx
    · rcases List.mem_append.mp hy with hy | hy
      · exact hold.resolved x hx call hsettles hcombines y hy htask conflict hconflict
      · obtain ⟨e, he, rfl⟩ := List.mem_map.mp hy
        have hnone := (hover x hx call answer hevent htask.symm e he).2
        cases hnone.symm.trans hconflict
    · obtain ⟨e, he, rfl⟩ := List.mem_map.mp hx
      obtain rfl : e = .settled call answer := hevent
      obtain ⟨rfl, hcall, hend, -⟩ := hstep.ends he
      rcases List.mem_append.mp hy with hy | hy
      · exact (h.combines hcontained.left i g call hi hcall hcombines).resolved hend hy htask hconflict
      · cases List.mem_singleton.mp hy
        cases hconflict
  · rcases List.mem_append.mp hx with hx | hx
    · rcases List.mem_append.mp hy with hy | hy
      · exact hold.kept x hx y hy htask call hbegins hcombines next hnext head hhead revisionId hin
      · obtain ⟨e, he, rfl⟩ := List.mem_map.mp hy
        have huntouched := untouched_idle h.idle hi (hstep.begins he hbegins).1
        rw [(huntouched x hx htask.symm).1] at hnext
        cases hnext
    · obtain ⟨e, he, rfl⟩ := List.mem_map.mp hx
      rcases List.mem_append.mp hy with hy | hy
      · obtain ⟨k, hk, hcall⟩ := h.settling.begun y hy call (DeviceEvent.begins_iff.mp hbegins)
        rw [htask] at hk
        cases hi.symm.trans hk
        have hg := h.combines hcontained.left i g call hi hcall hcombines
        exact ReflTransGen.trans (hg.next_contains hstep hcontained hcall hcombines he hnext hhead) hin
      · obtain ⟨e', he', rfl⟩ := List.mem_map.mp hy
        have hnone := (hstep.untouched_of_no_call (hstep.begins he' hbegins).1 he).1
        cases hnone.symm.trans hnext
  · rcases List.mem_append.mp hx with hx | hx
    · refine (hold.unmerged x hx call answer hevent hcombines hanswer).append fun y hy htask => ?_
      obtain ⟨e, he, rfl⟩ := List.mem_map.mp hy
      exact hover x hx call answer hevent htask.symm e he
    · obtain ⟨e, he, rfl⟩ := List.mem_map.mp hx
      obtain rfl : e = .settled call answer := hevent
      obtain ⟨rfl, hcall, -, hmerged⟩ := hstep.ends he
      have huntouched :=
        (h.combines hcontained.left i g call hi hcall hcombines).unmerged hmerged hanswer
      apply huntouched.append
      intro y hy _
      cases List.mem_singleton.mp hy
      exact ⟨rfl, rfl⟩

theorem CombiningSafe.step (h : CombiningSafe v places s log) (hi : places i = some g)
    (hs : s.Sound sha256 v) (hstep : ServiceSteps sha256 v g s events t g') :
    CombiningSafe v (Function.update places i (some g')) t (log ++ events.map (⟨i, s, ·⟩)) where
  settling := h.settling.step hi hstep
  idle := h.idle_step hi hstep
  combines hcontained j k call hj := h.all_combine hi hs hstep hcontained j k hj call
  outcomes := h.outcomes_step hi hstep

theorem CombiningSafe.start (h : CombiningSafe v places s log) (hi : places i = none) :
    CombiningSafe v (Function.update places i (some .first)) s log where
  settling := h.settling.start hi
  idle j hj := by
    refine h.idle j fun k call hk => hj k call ?_
    rw [Function.update_of_ne, hk]
    rintro rfl
    rw [hi] at hk
    cases hk
  combines hcontained := by
    intro j k call hj
    revert j k
    refine forall_update ?_ fun j k _ hj => ?_
    · intro hcall
      cases hcall
    · exact h.combines hcontained j k call hj
  outcomes := h.outcomes

end Step

end Combining

/-! ## Runs -/

/-- Whatever moves the head while calls of `combineAndUse` are under way: the conflicts that such a
call decides are in the head when it settles, nothing falls out of the head because of it, and it
has touched nothing unless it answers that it has merged. The head that it replaces and the
conflicts that it decides must be in one of the two versions that it combines, the file can be
written, and once the result is the head, the others only make such revisions the head that contain
it. -/
theorem combining_resolves_combined (deps : ServiceDeps) (v : Tracked) (start : Device)
    (hstart : start.Sound deps.sha256 v) (moves : List (Move ServiceCommand)) (w : Pool Device DeviceEvent Failure)
    (log : List (Record Device DeviceEvent))
    (h : (⟨start, []⟩ : Pool Device DeviceEvent Failure).trace
      (services deps fun _ call => !call.writesOut) moves = some (w, log))
    (hfresh : ∀ x ∈ log, x.event.Fresh x.state) (hcontained : Contained v log) :
    Outcomes v log := by
  have hinitial : CombiningSafe v (fun _ => none) start [] := by
    refine ⟨⟨by simp, by simp, by simp, by simp⟩, ?_, ?_, ?_⟩
    · intro i _ x hx
      cases hx
    · intro _ i g call hi
      cases hi
    · intro _
      exact ⟨by simp, by simp, by simp⟩
  obtain ⟨places, hsafe⟩ := VaultServices.trace_holds (fun _ _ h => h.freshIds)
    (fun _ _ h => by simpa using h) (fun _ _ _ _ hi hsafe => hsafe.start hi)
    (fun _ _ _ _ _ _ _ _ hi hsafe hs _ _ hstep => hsafe.step hi hs hstep) hstart hinitial h hfresh
  exact hsafe.outcomes hcontained

/-- A laptop whose vault was changed on the phone and on the tablet as well. -/
def forks : List Operation :=
  twoVersions ++
    [.ingestReceivedRevision 3
      ⟨⟨"home"⟩, ⟨"h3"⟩, [⟨"h1"⟩], plainDeps.sha256 [1, 2], [1, 2], ⟨"phone"⟩, none⟩,
    .ingestReceivedRevision 4
      ⟨⟨"home"⟩, ⟨"h4"⟩, [⟨"h1"⟩], plainDeps.sha256 [1, 3], [1, 3], ⟨"tablet"⟩, none⟩]

/-- The fork with the tablet is known. -/
def tabletFork : Conflict := ⟨⟨"c1"⟩, ⟨"home"⟩, ⟨"h2"⟩, ⟨"h4"⟩, .open, 5, none, none⟩

def forked : Device :=
  { Device.of ((storeAfter forks).setTables
      ((Tables.saveConflict tabletFork (storeAfter forks).tables).toOption.getD .empty)) ⟨"home"⟩ with
    files := fun path => if path = ⟨"home.kdbx"⟩ then some [1, 1] else none }

theorem sound_forked : forked.Sound laptopDeps.sha256 home :=
  ⟨(wellFormed_storeAfter forks rfl).saveConflict
    (show Tables.saveConflict tabletFork _ = .ok _ from rfl), rfl, _, rfl, rfl⟩

/-- The two versions of the fork are combined. -/
theorem combining_resolves_combined_tablet : ∃ moves w log,
    (⟨forked, []⟩ : Pool Device DeviceEvent Failure).trace
      (services laptopDeps fun _ call => !call.writesOut) moves = some (w, log) ∧
      Outcomes home log ∧ w.state.files ⟨"home.kdbx"⟩ = some [1, 1, 0] ∧
      w.state.store.tables.listOpenConflicts ⟨"home"⟩ = [] := by
  let moves : List (Move ServiceCommand) :=
    .start (.call (.combineAndUse ⟨⟨"h5"⟩, 7⟩ ⟨"h4"⟩)) :: List.replicate 25 (.resume 0)
  have hrun : ((⟨forked, []⟩ : Pool Device DeviceEvent Failure).trace
      (services laptopDeps fun _ call => !call.writesOut) moves).map (fun (w, log) =>
        (w.state.files ⟨"home.kdbx"⟩, w.state.store.tables.listOpenConflicts ⟨"home"⟩,
          decide (∀ x ∈ log, x.event.Fresh x.state),
          decide (∀ x ∈ log, ∀ y ∈ log, y.task = x.task → ∀ b ∈ y.event.bases,
            (∀ _next ∈ x.event.headMove, ∀ head ∈ x.state.head home.vaultId,
              head = b.1 ∨ head = b.2) ∧
            (∀ conflict ∈ x.event.decides,
              ∀ revisionId ∈ [conflict.currentRevisionId, conflict.incomingRevisionId],
              revisionId = b.1 ∨ revisionId = b.2) ∧
            x.event.writeFails = false),
          decide (∀ x ∈ log, x.task = 0))) =
      some (some [1, 1, 0], [], true, true, true) := by
    decide +kernel
  obtain ⟨⟨w, log⟩, htrace, hends⟩ := Option.map_eq_some_iff.mp hrun
  simp only [Prod.mk.injEq, decide_eq_true_eq] at hends
  obtain ⟨hfile, hopen, hfresh, hcombines, halone⟩ := hends
  have hsame : ∀ {t : Tables} {a b x : RevisionId}, x = a ∨ x = b → t.Contains a x ∨ t.Contains b x :=
    Or.imp (fun h => h ▸ .refl) (fun h => h ▸ .refl)
  have hcontained : Contained home log := by
    refine ⟨fun x hx y hy htask b hb next hnext head hhead => ?_,
      fun x hx y hy htask b hb conflict hconflict revisionId hrevision => ?_,
      fun x hx y hy htask b hb path hfailed => ?_,
      fun before x after heq z hz htask => ?_⟩
    · exact hsame ((hcombines x hx y hy htask b hb).1 next hnext head hhead)
    · exact hsame ((hcombines x hx y hy htask b hb).2.1 conflict hconflict revisionId hrevision)
    · have hwritten := (hcombines x hx y hy htask b hb).2.2
      rw [hfailed] at hwritten
      cases hwritten
    · subst heq
      exact absurd ((halone z (by simp [hz])).trans (halone x (by simp)).symm) htask
  exact ⟨moves, w, log, htrace, combining_resolves_combined laptopDeps home forked sound_forked
    moves w log htrace hfresh hcontained, hfile, hopen⟩

/-- What can be reached from one of some revisions is among them, when their parents are. -/
theorem Tables.Contains.mem_of_closed {t : Tables} {revisions : List RevisionId}
    (hclosed : ∀ x ∈ revisions, ∀ p ∈ t.parentsOf x, p ∈ revisions) {x z : RevisionId}
    (hx : x ∈ revisions) (h : t.Contains x z) : z ∈ revisions := by
  induction h with
  | refl => exact hx
  | tail _ hp ih => exact hclosed _ ih _ (Tables.mem_parentsOf.mpr hp)

/-- What the phone has is combined, and the fork with the tablet is taken for resolved. -/
theorem combining_resolves_uncombined : ∃ moves w log,
    (⟨forked, []⟩ : Pool Device DeviceEvent Failure).trace
      (services laptopDeps fun _ call => !call.writesOut) moves = some (w, log) ∧
      forked.Sound laptopDeps.sha256 home ∧ (∀ x ∈ log, x.event.Fresh x.state) ∧
      AllSettled log ∧ ∃ x ∈ log, ∃ y ∈ log, y.task = x.task ∧
        x.event.settles (.combineAndUse ⟨⟨"h5"⟩, 7⟩ ⟨"h3"⟩) = true ∧
        ∃ conflict ∈ y.event.decides, ∃ head ∈ x.state.head home.vaultId,
          ¬ x.state.store.tables.Contains head conflict.incomingRevisionId := by
  let moves : List (Move ServiceCommand) :=
    .start (.call (.combineAndUse ⟨⟨"h5"⟩, 7⟩ ⟨"h3"⟩)) :: List.replicate 25 (.resume 0)
  let behind : List RevisionId := [⟨"h5"⟩, ⟨"h3"⟩, ⟨"h2"⟩, ⟨"h1"⟩]
  have hrun : ((⟨forked, []⟩ : Pool Device DeviceEvent Failure).trace
      (services laptopDeps fun _ call => !call.writesOut) moves).map (fun (_, log) =>
        (decide (∀ x ∈ log, x.event.Fresh x.state), decide (AllSettled log),
          decide (∃ x ∈ log, ∃ y ∈ log, y.task = x.task ∧
            x.event.settles (.combineAndUse ⟨⟨"h5"⟩, 7⟩ ⟨"h3"⟩) = true ∧
            ∃ conflict ∈ y.event.decides, conflict.incomingRevisionId = ⟨"h4"⟩ ∧
              ∃ head ∈ x.state.head home.vaultId, head ∈ behind ∧
                ∀ r ∈ behind, ∀ p ∈ x.state.store.tables.parentsOf r, p ∈ behind))) =
      some (true, true, true) := by
    decide +kernel
  obtain ⟨⟨w, log⟩, htrace, hends⟩ := Option.map_eq_some_iff.mp hrun
  simp only [Prod.mk.injEq, decide_eq_true_eq] at hends
  obtain ⟨hfresh, hall, x, hx, y, hy, htask, hsettles, conflict, hconflict, hincoming, head, hhead,
    hmem, hclosed⟩ := hends
  refine ⟨moves, w, log, htrace, sound_forked, hfresh, hall, x, hx, y, hy, htask, hsettles, conflict,
    hconflict, head, hhead, fun hcontains => ?_⟩
  have hbehind := hcontains.mem_of_closed hclosed hmem
  rw [hincoming] at hbehind
  revert hbehind
  decide

end PassVault
