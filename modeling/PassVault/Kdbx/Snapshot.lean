import Mathlib.Data.List.Lex
import PassVault.Lib.Listing

/-!
# What a merge would change

`diffSnapshots` of `packages/kdbx/src/snapshot.ts`. A snapshot holds the entries and groups of an
open database; the value of a field is its fingerprint. A `Map` is a table in insertion order.
-/

namespace PassVault

/-- The UTF-16 code units of a text, by which `sort` orders texts. -/
def codeUnits (text : String) : List Nat :=
  text.toList.flatMap fun c =>
    if c.toNat < 0x10000 then [c.toNat]
    else [0xd800 + (c.toNat - 0x10000) / 0x400, 0xdc00 + (c.toNat - 0x10000) % 0x400]

/-- `Array.from(names).sort()`. -/
def sortNames (names : List String) : List String :=
  names.mergeSort fun s t => decide (codeUnits s ≤ codeUnits t)

/-- The attachment names are the sorted keys of a `Map`. -/
structure EntrySnapshot where
  uuid : String
  title : String
  groupPath : String
  fields : Table (Prod.fst : String × String → String)
  binaryKeys : List String
  sorted : binaryKeys.Pairwise fun s t => codeUnits s < codeUnits t

def EntrySnapshot.field (entry : EntrySnapshot) (name : String) : Option String :=
  (entry.fields.find name).map (·.2)

/-- An entry is kept under its uuid, the path of a group under the uuid of the group. -/
structure DatabaseSnapshot where
  entries : Table EntrySnapshot.uuid
  groups : Table (Prod.fst : String × String → String)

def DatabaseSnapshot.groupPath (snapshot : DatabaseSnapshot) (uuid : String) : Option String :=
  (snapshot.groups.find uuid).map (·.2)

structure DiffEntrySummary where
  uuid : String
  title : String
  groupPath : String
deriving DecidableEq, Repr

structure ChangedEntrySummary extends DiffEntrySummary where
  changedFields : List String
deriving DecidableEq, Repr

structure VaultDiff where
  addedEntries : List DiffEntrySummary
  removedEntries : List DiffEntrySummary
  changedEntries : List ChangedEntrySummary
  addedGroups : List String
  removedGroups : List String
  changedGroups : List String
deriving DecidableEq, Repr

def emptyVaultDiff : VaultDiff := ⟨[], [], [], [], [], []⟩

def summarize (entry : EntrySnapshot) : DiffEntrySummary :=
  ⟨entry.uuid, entry.title, entry.groupPath⟩

/-- `binaryKeys.join("\0")`. -/
def joinedKeys (entry : EntrySnapshot) : String := "\x00".intercalate entry.binaryKeys

/-- What is added to the set `changed`, in the order of the source. -/
def changedNames (base incoming : EntrySnapshot) : List String :=
  (incoming.fields.rows.filter fun row => base.field row.1 ≠ some row.2).map (·.1) ++
  (base.fields.rows.filter fun row => ¬ incoming.fields.has row.1).map (·.1) ++
  (if base.groupPath ≠ incoming.groupPath then ["Group"] else []) ++
  (if joinedKeys base ≠ joinedKeys incoming then ["Attachments"] else [])

def changedEntryFields (base incoming : EntrySnapshot) : List String :=
  sortNames (changedNames base incoming).eraseDups

/-- What the first loop pushes to `changedEntries` for one entry of `incoming`. -/
def changedEntry (base : DatabaseSnapshot) (entry : EntrySnapshot) : Option ChangedEntrySummary :=
  match base.entries.find entry.uuid with
  | none => none
  | some baseEntry =>
    let changedFields := changedEntryFields baseEntry entry
    if changedFields = [] then none else some { summarize entry with changedFields }

/-- What a loop over `present` pushes for an entry that `other` does not have. -/
def missingEntry (other : DatabaseSnapshot) (entry : EntrySnapshot) : Option DiffEntrySummary :=
  if other.entries.has entry.uuid then none else some (summarize entry)

def missingGroup (other : DatabaseSnapshot) (group : String × String) : Option String :=
  if other.groups.has group.1 then none else some group.2

def changedGroup (base : DatabaseSnapshot) (group : String × String) : Option String :=
  match base.groupPath group.1 with
  | none => none
  | some basePath => if basePath ≠ group.2 then some group.2 else none

def diffSnapshots (base incoming : DatabaseSnapshot) : VaultDiff where
  addedEntries := incoming.entries.rows.filterMap (missingEntry base)
  removedEntries := base.entries.rows.filterMap (missingEntry incoming)
  changedEntries := incoming.entries.rows.filterMap (changedEntry base)
  addedGroups := incoming.groups.rows.filterMap (missingGroup base)
  removedGroups := base.groups.rows.filterMap (missingGroup incoming)
  changedGroups := incoming.groups.rows.filterMap (changedGroup base)

/-! ## The exact diff -/

def SameAttachments (base incoming : EntrySnapshot) : Prop :=
  ∀ name, name ∈ base.binaryKeys ↔ name ∈ incoming.binaryKeys

/-- A field differs when one side lacks it or both have it with different fingerprints. -/
def EntryChanged (base incoming : EntrySnapshot) : Prop :=
  (∃ name, base.field name ≠ incoming.field name) ∨ base.groupPath ≠ incoming.groupPath ∨
    ¬ SameAttachments base incoming

/-- What a changed entry is to name. -/
def Named (base incoming : EntrySnapshot) (name : String) : Prop :=
  base.field name ≠ incoming.field name ∨
    (name = "Group" ∧ base.groupPath ≠ incoming.groupPath) ∨
    (name = "Attachments" ∧ ¬ SameAttachments base incoming)

def OnlyIn {ρ : Type} {key : ρ → String} (t other : Table key) (uuid : String) : Prop :=
  t.has uuid = true ∧ other.has uuid = false

def ChangedUuid (base incoming : DatabaseSnapshot) (uuid : String) : Prop :=
  ∃ x y, base.entries.find uuid = some x ∧ incoming.entries.find uuid = some y ∧ EntryChanged x y

def MovedGroup (base incoming : DatabaseSnapshot) (uuid : String) : Prop :=
  ∃ path path', base.groupPath uuid = some path ∧ incoming.groupPath uuid = some path' ∧
    path ≠ path'

/-- The summary of the entry that a snapshot has under the uuid. -/
def Summary (snapshot : DatabaseSnapshot) (uuid : String) (summary : DiffEntrySummary) : Prop :=
  ∃ entry, snapshot.entries.find uuid = some entry ∧ summary = summarize entry

/-- The summary of a changed entry, which names exactly what changed. -/
def ChangeSummary (base incoming : DatabaseSnapshot) (uuid : String)
    (summary : ChangedEntrySummary) : Prop :=
  ∃ x y, base.entries.find uuid = some x ∧ incoming.entries.find uuid = some y ∧
    summary.toDiffEntrySummary = summarize y ∧ ∀ name, name ∈ summary.changedFields ↔ Named x y name

def PathIn (snapshot : DatabaseSnapshot) (uuid path : String) : Prop :=
  snapshot.groupPath uuid = some path

/-- Each of the six lists has one item for each uuid it is about, and no other. -/
structure Exact (base incoming : DatabaseSnapshot) (diff : VaultDiff) : Prop where
  addedEntries : ListsRows diff.addedEntries (OnlyIn incoming.entries base.entries) (Summary incoming)
  removedEntries : ListsRows diff.removedEntries (OnlyIn base.entries incoming.entries) (Summary base)
  changedEntries : ListsRows diff.changedEntries (ChangedUuid base incoming)
    (ChangeSummary base incoming)
  addedGroups : ListsRows diff.addedGroups (OnlyIn incoming.groups base.groups) (PathIn incoming)
  removedGroups : ListsRows diff.removedGroups (OnlyIn base.groups incoming.groups) (PathIn base)
  changedGroups : ListsRows diff.changedGroups (MovedGroup base incoming) (PathIn incoming)

/-- What was added is removed, and the same entries and groups changed, in the same fields. -/
structure Dual (base incoming : DatabaseSnapshot) (diff dual : VaultDiff) : Prop where
  addedEntries : dual.addedEntries = diff.removedEntries
  removedEntries : dual.removedEntries = diff.addedEntries
  addedGroups : dual.addedGroups = diff.removedGroups
  removedGroups : dual.removedGroups = diff.addedGroups
  changedEntries : ∃ P : String → Prop, ∃ names : String → String → Prop,
    ListsRows diff.changedEntries P (fun uuid c => Summary incoming uuid c.toDiffEntrySummary ∧
      ∀ name, name ∈ c.changedFields ↔ names uuid name) ∧
    ListsRows dual.changedEntries P (fun uuid c => Summary base uuid c.toDiffEntrySummary ∧
      ∀ name, name ∈ c.changedFields ↔ names uuid name)
  changedGroups : ∃ P : String → Prop, ListsRows diff.changedGroups P (PathIn incoming) ∧
    ListsRows dual.changedGroups P (PathIn base)

/-- The snapshots have the same entries and groups, and none of them changed. -/
structure Agree (base incoming : DatabaseSnapshot) : Prop where
  entries : ∀ uuid, base.entries.has uuid = incoming.entries.has uuid
  unchanged : ∀ uuid x y, base.entries.find uuid = some x → incoming.entries.find uuid = some y →
    ¬ EntryChanged x y
  groups : ∀ uuid, base.groupPath uuid = incoming.groupPath uuid

structure ExactPreview (base incoming : DatabaseSnapshot) : Prop where
  exact : Exact base incoming (diffSnapshots base incoming)
  dual : Dual base incoming (diffSnapshots base incoming) (diffSnapshots incoming base)
  empty : diffSnapshots base incoming = emptyVaultDiff ↔ Agree base incoming

/-- Where the joined attachment names of an entry do not tell a difference, a field called
`Attachments` differs. -/
def AttachmentsTold (base incoming : DatabaseSnapshot) : Prop :=
  ∀ uuid x y, base.entries.find uuid = some x → incoming.entries.find uuid = some y →
    joinedKeys x = joinedKeys y → x.binaryKeys = y.binaryKeys ∨
      x.field "Attachments" ≠ y.field "Attachments"

/-! ## What the code compares -/

theorem nodup_binaryKeys (entry : EntrySnapshot) : entry.binaryKeys.Nodup := by
  apply entry.sorted.imp
  intro s t hst heq
  exact List.lt_irrefl _ (heq ▸ hst)

/-- Sorted lists of the same names are equal. -/
theorem sameAttachments_iff {x y : EntrySnapshot} :
    SameAttachments x y ↔ x.binaryKeys = y.binaryKeys := by
  constructor
  · intro h
    have hperm : x.binaryKeys.Perm y.binaryKeys :=
      (List.perm_ext_iff_of_nodup (nodup_binaryKeys x) (nodup_binaryKeys y)).mpr h
    apply hperm.eq_of_pairwise _ x.sorted y.sorted
    intro s t _ _ hst hts
    exact absurd hts (List.lt_asymm hst)
  · intro h name
    rw [h]

theorem mem_sortNames {names : List String} {name : String} :
    name ∈ sortNames names ↔ name ∈ names := List.mem_mergeSort

theorem field_of_mem {entry : EntrySnapshot} {row : String × String}
    (h : row ∈ entry.fields.rows) : entry.field row.1 = some row.2 := by
  rw [EntrySnapshot.field, Table.find_of_mem h]
  rfl

theorem field_eq_some {entry : EntrySnapshot} {name value : String} :
    entry.field name = some value ↔ (name, value) ∈ entry.fields.rows := by
  constructor
  · intro h
    obtain ⟨⟨name', value'⟩, hfind, hvalue⟩ := Option.map_eq_some_iff.mp h
    have hname : name' = name := Table.key_of_find hfind
    have hvalue : value' = value := hvalue
    rw [← hname, ← hvalue]
    exact Table.mem_of_find hfind
  · intro h
    exact field_of_mem h

theorem has_field {entry : EntrySnapshot} {name : String} :
    entry.fields.has name = (entry.field name).isSome := by
  simp [Table.has, EntrySnapshot.field]

/-- The two loops over the fields find the fields that differ. -/
theorem mem_changedNames {x y : EntrySnapshot} {name : String} :
    name ∈ changedNames x y ↔ x.field name ≠ y.field name ∨
      (name = "Group" ∧ x.groupPath ≠ y.groupPath) ∨
      (name = "Attachments" ∧ joinedKeys x ≠ joinedKeys y) := by
  have hif : ∀ (P : Prop) [Decidable P] (s : String),
      name ∈ (if P then [s] else []) ↔ name = s ∧ P := by
    intro P _ s
    by_cases hP : P <;> simp [hP]
  have hfields : (name ∈ (y.fields.rows.filter fun row => x.field row.1 ≠ some row.2).map (·.1) ∨
      name ∈ (x.fields.rows.filter fun row => ¬ y.fields.has row.1).map (·.1)) ↔
      x.field name ≠ y.field name := by
    constructor
    · intro h
      rcases h with h | h
      · obtain ⟨row, hrow, rfl⟩ := List.mem_map.mp h
        obtain ⟨hrow, hne⟩ := List.mem_filter.mp hrow
        rw [field_of_mem hrow]
        simpa using hne
      · obtain ⟨row, hrow, rfl⟩ := List.mem_map.mp h
        obtain ⟨hrow, hmissing⟩ := List.mem_filter.mp hrow
        rw [field_of_mem hrow]
        rw [has_field] at hmissing
        intro heq
        rw [← heq] at hmissing
        simp at hmissing
    · intro h
      cases hy : y.field name with
      | some value =>
        left
        rw [hy] at h
        refine List.mem_map.mpr ⟨(name, value), List.mem_filter.mpr ⟨field_eq_some.mp hy, ?_⟩, rfl⟩
        simpa using h
      | none =>
        right
        rw [hy] at h
        obtain ⟨value, hx⟩ := Option.ne_none_iff_exists'.mp h
        refine List.mem_map.mpr ⟨(name, value), List.mem_filter.mpr ⟨field_eq_some.mp hx, ?_⟩, rfl⟩
        simp [has_field, hy]
  rw [changedNames, List.mem_append, List.mem_append, List.mem_append, hfields, hif, hif, or_assoc]

theorem mem_changedEntryFields {x y : EntrySnapshot} {name : String} :
    name ∈ changedEntryFields x y ↔ name ∈ changedNames x y := by
  rw [changedEntryFields, mem_sortNames, List.mem_eraseDups]

theorem joinedKeys_of_same {x y : EntrySnapshot} (h : SameAttachments x y) :
    joinedKeys x = joinedKeys y := by
  rw [joinedKeys, joinedKeys, sameAttachments_iff.mp h]

/-- The pair is told apart as it should be: a hidden change of attachments has its name anyway. -/
def Told (x y : EntrySnapshot) : Prop :=
  joinedKeys x = joinedKeys y → x.binaryKeys = y.binaryKeys ∨
    x.field "Attachments" ≠ y.field "Attachments"

theorem named_iff_told {x y : EntrySnapshot} :
    (∀ name, name ∈ changedEntryFields x y ↔ Named x y name) ↔ Told x y := by
  constructor
  · intro h hjoined
    by_cases hsame : SameAttachments x y
    · exact Or.inl (sameAttachments_iff.mp hsame)
    · have hnamed : Named x y "Attachments" := Or.inr (Or.inr ⟨rfl, hsame⟩)
      rw [← h, mem_changedEntryFields, mem_changedNames] at hnamed
      rcases hnamed with hfield | ⟨hname, -⟩ | ⟨-, hne⟩
      · exact Or.inr hfield
      · exact absurd hname (by decide)
      · exact absurd hjoined hne
  · intro htold name
    rw [mem_changedEntryFields, mem_changedNames]
    constructor
    · intro h
      rcases h with hfield | hgroup | ⟨hname, hne⟩
      · exact Or.inl hfield
      · exact Or.inr (Or.inl hgroup)
      · exact Or.inr (Or.inr ⟨hname, fun hsame => hne (joinedKeys_of_same hsame)⟩)
    · intro h
      rcases h with hfield | hgroup | ⟨rfl, hne⟩
      · exact Or.inl hfield
      · exact Or.inr (Or.inl hgroup)
      · by_cases hjoined : joinedKeys x = joinedKeys y
        · rcases htold hjoined with heq | hfield
          · exact absurd (sameAttachments_iff.mpr heq) hne
          · exact Or.inl hfield
        · exact Or.inr (Or.inr ⟨rfl, hjoined⟩)

theorem entryChanged_iff {x y : EntrySnapshot} : EntryChanged x y ↔ ∃ name, Named x y name := by
  constructor
  · intro h
    rcases h with ⟨name, h⟩ | h | h
    · exact ⟨name, Or.inl h⟩
    · exact ⟨"Group", Or.inr (Or.inl ⟨rfl, h⟩)⟩
    · exact ⟨"Attachments", Or.inr (Or.inr ⟨rfl, h⟩)⟩
  · intro h
    obtain ⟨name, h | h | h⟩ := h
    · exact Or.inl ⟨name, h⟩
    · exact Or.inr (Or.inl h.2)
    · exact Or.inr (Or.inr h.2)

/-- What the comparison finds does not depend on which side is the base. -/
theorem changedEntryFields_symm {x y : EntrySnapshot} {name : String} :
    name ∈ changedEntryFields y x ↔ name ∈ changedEntryFields x y := by
  rw [mem_changedEntryFields, mem_changedEntryFields, mem_changedNames, mem_changedNames,
    ne_comm, ne_comm (a := y.groupPath), ne_comm (a := joinedKeys y)]

/-! ## The six lists -/

theorem missingEntries_list (present other : DatabaseSnapshot) :
    ListsRows (present.entries.rows.filterMap (missingEntry other))
      (OnlyIn present.entries other.entries) (Summary present) := by
  apply (ListsRows.of_rows present.entries (missingEntry other)).congr
  · intro uuid
    constructor
    · intro h
      obtain ⟨entry, hentry, hsome⟩ := h
      have huuid : entry.uuid = uuid := Table.key_of_find hentry
      rw [missingEntry, huuid] at hsome
      exact ⟨Table.has_iff.mpr ⟨entry, hentry⟩, by
        cases hother : other.entries.has uuid with
        | false => rfl
        | true => simp [hother] at hsome⟩
    · intro h
      obtain ⟨entry, hentry⟩ := Table.has_iff.mp h.1
      have huuid : entry.uuid = uuid := Table.key_of_find hentry
      exact ⟨entry, hentry, by simp [missingEntry, huuid, h.2]⟩
  · intro uuid summary _ h
    obtain ⟨entry, hentry, hsummary⟩ := h
    rw [missingEntry] at hsummary
    split at hsummary
    · cases hsummary
    · exact ⟨entry, hentry, (Option.some.inj hsummary).symm⟩

theorem groupPath_of_find {snapshot : DatabaseSnapshot} {uuid : String} {group : String × String}
    (h : snapshot.groups.find uuid = some group) : snapshot.groupPath uuid = some group.2 := by
  rw [DatabaseSnapshot.groupPath, h]
  rfl

theorem missingGroups_list (present other : DatabaseSnapshot) :
    ListsRows (present.groups.rows.filterMap (missingGroup other))
      (OnlyIn present.groups other.groups) (PathIn present) := by
  apply (ListsRows.of_rows present.groups (missingGroup other)).congr
  · intro uuid
    constructor
    · intro h
      obtain ⟨group, hgroup, hsome⟩ := h
      have huuid : group.1 = uuid := Table.key_of_find hgroup
      rw [missingGroup, huuid] at hsome
      exact ⟨Table.has_iff.mpr ⟨group, hgroup⟩, by
        cases hother : other.groups.has uuid with
        | false => rfl
        | true => simp [hother] at hsome⟩
    · intro h
      obtain ⟨group, hgroup⟩ := Table.has_iff.mp h.1
      have huuid : group.1 = uuid := Table.key_of_find hgroup
      exact ⟨group, hgroup, by simp [missingGroup, huuid, h.2]⟩
  · intro uuid path _ h
    obtain ⟨group, hgroup, hpath⟩ := h
    rw [missingGroup] at hpath
    split at hpath
    · cases hpath
    · rw [PathIn, groupPath_of_find hgroup]
      exact hpath

theorem changedGroups_list (base incoming : DatabaseSnapshot) :
    ListsRows (incoming.groups.rows.filterMap (changedGroup base)) (MovedGroup base incoming)
      (PathIn incoming) := by
  apply (ListsRows.of_rows incoming.groups (changedGroup base)).congr
  · intro uuid
    constructor
    · intro h
      obtain ⟨group, hgroup, hsome⟩ := h
      have huuid : group.1 = uuid := Table.key_of_find hgroup
      rw [changedGroup, huuid] at hsome
      cases hbase : base.groupPath uuid with
      | none => simp [hbase] at hsome
      | some path =>
        by_cases hpath : path = group.2
        · simp [hbase, hpath] at hsome
        · exact ⟨path, group.2, hbase, groupPath_of_find hgroup, hpath⟩
    · intro h
      obtain ⟨path, path', hbase, hincoming, hne⟩ := h
      obtain ⟨group, hgroup, hpath⟩ := Option.map_eq_some_iff.mp hincoming
      have huuid : group.1 = uuid := Table.key_of_find hgroup
      have hpath : group.2 = path' := hpath
      exact ⟨group, hgroup, by simp [changedGroup, huuid, hbase, hpath, hne]⟩
  · intro uuid path _ h
    obtain ⟨group, hgroup, hpath⟩ := h
    rw [PathIn, groupPath_of_find hgroup]
    rw [changedGroup] at hpath
    split at hpath
    · cases hpath
    · split at hpath
      · exact hpath
      · cases hpath

/-- The changed entries are those for which the comparison names something. -/
def ChangeFound (base incoming : DatabaseSnapshot) (uuid : String) : Prop :=
  ∃ x y, base.entries.find uuid = some x ∧ incoming.entries.find uuid = some y ∧
    ∃ name, name ∈ changedEntryFields x y

def FoundSummary (base incoming : DatabaseSnapshot) (uuid : String)
    (summary : ChangedEntrySummary) : Prop :=
  ∃ x y, base.entries.find uuid = some x ∧ incoming.entries.find uuid = some y ∧
    summary = { summarize y with changedFields := changedEntryFields x y }

theorem changedEntries_list (base incoming : DatabaseSnapshot) :
    ListsRows (incoming.entries.rows.filterMap (changedEntry base)) (ChangeFound base incoming)
      (FoundSummary base incoming) := by
  apply (ListsRows.of_rows incoming.entries (changedEntry base)).congr
  · intro uuid
    constructor
    · intro h
      obtain ⟨y, hy, hsome⟩ := h
      have huuid : y.uuid = uuid := Table.key_of_find hy
      rw [changedEntry, huuid] at hsome
      cases hx : base.entries.find uuid with
      | none => simp [hx] at hsome
      | some x =>
        refine ⟨x, y, hx, hy, List.exists_mem_of_ne_nil _ ?_⟩
        intro hnil
        simp [hx, hnil] at hsome
    · intro h
      obtain ⟨x, y, hx, hy, name, hname⟩ := h
      have huuid : y.uuid = uuid := Table.key_of_find hy
      have hne : changedEntryFields x y ≠ [] := List.ne_nil_of_mem hname
      exact ⟨y, hy, by simp [changedEntry, huuid, hx, hne]⟩
  · intro uuid summary _ h
    obtain ⟨y, hy, hsummary⟩ := h
    have huuid : y.uuid = uuid := Table.key_of_find hy
    rw [changedEntry, huuid] at hsummary
    cases hx : base.entries.find uuid with
    | none => simp [hx] at hsummary
    | some x =>
      simp only [hx] at hsummary
      split at hsummary
      · cases hsummary
      · exact ⟨x, y, hx, hy, (Option.some.inj hsummary).symm⟩

/-- The list of changed entries is exact when every pair is told apart as it should be. -/
theorem changedEntries_exact_iff {base incoming : DatabaseSnapshot} :
    ListsRows (diffSnapshots base incoming).changedEntries (ChangedUuid base incoming)
      (ChangeSummary base incoming) ↔ AttachmentsTold base incoming := by
  have hcode := changedEntries_list base incoming
  constructor
  · intro h uuid x y hx hy
    apply named_iff_told.mp
    by_cases hchanged : EntryChanged x y
    · -- The entry is listed, and the summary under its uuid is the one the loop pushed.
      obtain ⟨summary, hmem, x', y', hx', hy', hsummary, hnamed⟩ :=
        h.item ⟨x, y, hx, hy, hchanged⟩
      obtain ⟨uuid', -, x'', y'', hx'', hy'', hfound⟩ := hcode.of_item hmem
      have huuid : uuid' = uuid := by
        rw [hfound] at hsummary
        have huuids := congrArg DiffEntrySummary.uuid hsummary
        rw [← Table.key_of_find hy'', ← Table.key_of_find hy']
        exact huuids
      subst huuid
      rw [hx] at hx' hx''
      rw [hy] at hy' hy''
      cases hx'
      cases hx''
      cases hy'
      cases hy''
      intro name
      rw [← hnamed, hfound]
    · intro name
      constructor
      · intro hname
        have hfound : ChangeFound base incoming uuid := ⟨x, y, hx, hy, name, hname⟩
        -- What is listed without a change stands for a uuid of which the claim says it changed.
        obtain ⟨summary, hmem, x', y', hx', hy', rfl⟩ := hcode.item hfound
        obtain ⟨uuid', ⟨a, b, ha, hb, hab⟩, a', b', ha', hb', hsummary, -⟩ := h.of_item hmem
        have huuid : uuid = uuid' := by
          have huuids := congrArg DiffEntrySummary.uuid hsummary
          rw [← Table.key_of_find hy', ← Table.key_of_find hb']
          exact huuids
        subst huuid
        rw [hx] at ha
        rw [hy] at hb
        cases ha
        cases hb
        exact absurd hab hchanged
      · intro hnamed
        exact absurd (entryChanged_iff.mpr ⟨name, hnamed⟩) hchanged
  · intro htold
    apply hcode.congr
    · intro uuid
      constructor
      · intro h
        obtain ⟨x, y, hx, hy, name, hname⟩ := h
        have hnamed := (named_iff_told.mpr (htold uuid x y hx hy) name).mp hname
        exact ⟨x, y, hx, hy, entryChanged_iff.mpr ⟨name, hnamed⟩⟩
      · intro h
        obtain ⟨x, y, hx, hy, hchanged⟩ := h
        obtain ⟨name, hnamed⟩ := entryChanged_iff.mp hchanged
        exact ⟨x, y, hx, hy, name, (named_iff_told.mpr (htold uuid x y hx hy) name).mpr hnamed⟩
    · intro uuid summary _ h
      obtain ⟨x, y, hx, hy, rfl⟩ := h
      exact ⟨x, y, hx, hy, rfl, named_iff_told.mpr (htold uuid x y hx hy)⟩

theorem diffSnapshots_exact_iff {base incoming : DatabaseSnapshot} :
    Exact base incoming (diffSnapshots base incoming) ↔ AttachmentsTold base incoming := by
  constructor
  · intro h
    exact changedEntries_exact_iff.mp h.changedEntries
  · intro h
    constructor
    · exact missingEntries_list incoming base
    · exact missingEntries_list base incoming
    · exact changedEntries_exact_iff.mpr h
    · exact missingGroups_list incoming base
    · exact missingGroups_list base incoming
    · exact changedGroups_list base incoming

/-- The diff the other way round is the dual, whatever the names. -/
theorem diffSnapshots_dual (base incoming : DatabaseSnapshot) :
    Dual base incoming (diffSnapshots base incoming) (diffSnapshots incoming base) where
  addedEntries := rfl
  removedEntries := rfl
  addedGroups := rfl
  removedGroups := rfl
  changedEntries := by
    refine ⟨ChangeFound base incoming, fun uuid name => ∃ x y, base.entries.find uuid = some x ∧
      incoming.entries.find uuid = some y ∧ name ∈ changedEntryFields x y, ?_, ?_⟩
    · apply (changedEntries_list base incoming).congr (fun _ => Iff.rfl)
      intro uuid summary _ h
      obtain ⟨x, y, hx, hy, rfl⟩ := h
      refine ⟨⟨y, hy, rfl⟩, fun name => ?_⟩
      simp [hx, hy]
    · apply (changedEntries_list incoming base).congr
      · intro uuid
        constructor
        · intro h
          obtain ⟨y, x, hy, hx, name, hname⟩ := h
          exact ⟨x, y, hx, hy, name, changedEntryFields_symm.mp hname⟩
        · intro h
          obtain ⟨x, y, hx, hy, name, hname⟩ := h
          exact ⟨y, x, hy, hx, name, changedEntryFields_symm.mp hname⟩
      · intro uuid summary _ h
        obtain ⟨y, x, hy, hx, rfl⟩ := h
        refine ⟨⟨x, hx, rfl⟩, fun name => ?_⟩
        simp only [hx, hy, Option.some.injEq, exists_and_left, exists_eq_left']
        exact changedEntryFields_symm
  changedGroups := by
    refine ⟨MovedGroup base incoming, changedGroups_list base incoming, ?_⟩
    apply (changedGroups_list incoming base).congr
    · intro uuid
      constructor
      · intro h
        obtain ⟨path, path', hpath, hpath', hne⟩ := h
        exact ⟨path', path, hpath', hpath, hne.symm⟩
      · intro h
        obtain ⟨path, path', hpath, hpath', hne⟩ := h
        exact ⟨path', path, hpath', hpath, hne.symm⟩
    · intro uuid path _ h
      exact h

theorem none_only_iff {ρ : Type} {key : ρ → String} {t other : Table key} :
    (∀ uuid, ¬ OnlyIn t other uuid) ↔ ∀ uuid, t.has uuid = true → other.has uuid = true := by
  constructor
  · intro h uuid hhas
    have hnot := h uuid
    simp only [OnlyIn, hhas, true_and, Bool.not_eq_false] at hnot
    exact hnot
  · intro h uuid honly
    have hhas := h uuid honly.1
    rw [honly.2] at hhas
    cases hhas

theorem groups_has {snapshot : DatabaseSnapshot} {uuid : String} :
    snapshot.groups.has uuid = (snapshot.groupPath uuid).isSome := by
  simp [Table.has, DatabaseSnapshot.groupPath]

theorem same_keys {ρ ρ' : Type} {key : ρ → String} {key' : ρ' → String} {t : Table key}
    {t' : Table key'} {uuid : String} (h : t.has uuid = true → t'.has uuid = true)
    (h' : t'.has uuid = true → t.has uuid = true) : t.has uuid = t'.has uuid := by
  cases ht : t.has uuid with
  | true => exact (h ht).symm
  | false =>
    cases ht' : t'.has uuid with
    | false => rfl
    | true => exact absurd (h' ht') (by simp [ht])

/-- An exact diff is empty when the snapshots agree, and only then. -/
theorem Exact.empty_iff {base incoming : DatabaseSnapshot} {diff : VaultDiff}
    (h : Exact base incoming diff) : diff = emptyVaultDiff ↔ Agree base incoming := by
  have hlists : diff = emptyVaultDiff ↔ diff.addedEntries = [] ∧ diff.removedEntries = [] ∧
      diff.changedEntries = [] ∧ diff.addedGroups = [] ∧ diff.removedGroups = [] ∧
      diff.changedGroups = [] := by
    cases diff
    simp [emptyVaultDiff]
  rw [hlists, h.addedEntries.nil_iff, h.removedEntries.nil_iff, h.changedEntries.nil_iff,
    h.addedGroups.nil_iff, h.removedGroups.nil_iff, h.changedGroups.nil_iff, none_only_iff,
    none_only_iff, none_only_iff, none_only_iff]
  constructor
  · intro hempty
    obtain ⟨hadded, hremoved, hchanged, haddedGroups, hremovedGroups, hmoved⟩ := hempty
    constructor
    · intro uuid
      exact same_keys (hremoved uuid) (hadded uuid)
    · intro uuid x y hx hy hxy
      exact hchanged uuid ⟨x, y, hx, hy, hxy⟩
    · intro uuid
      have hsome := same_keys (hremovedGroups uuid) (haddedGroups uuid)
      rw [groups_has, groups_has] at hsome
      cases hbase : base.groupPath uuid with
      | none =>
        rw [hbase] at hsome
        exact (Option.not_isSome_iff_eq_none.mp (by simp [← hsome])).symm
      | some path =>
        rw [hbase] at hsome
        obtain ⟨path', hincoming⟩ := Option.isSome_iff_exists.mp hsome.symm
        rw [hincoming]
        by_cases hpath : path = path'
        · rw [hpath]
        · exact absurd ⟨path, path', hbase, hincoming, hpath⟩ (hmoved uuid)
  · intro hagree
    have hgroups : ∀ uuid, base.groups.has uuid = incoming.groups.has uuid := by
      intro uuid
      rw [groups_has, groups_has, hagree.groups]
    refine ⟨?_, ?_, ?_, ?_, ?_, ?_⟩
    · intro uuid hhas
      rw [hagree.entries, hhas]
    · intro uuid hhas
      rw [← hagree.entries, hhas]
    · intro uuid hchanged
      obtain ⟨x, y, hx, hy, hxy⟩ := hchanged
      exact hagree.unchanged uuid x y hx hy hxy
    · intro uuid hhas
      rw [hgroups, hhas]
    · intro uuid hhas
      rw [← hgroups, hhas]
    · intro uuid hmoved
      obtain ⟨path, path', hbase, hincoming, hne⟩ := hmoved
      rw [hagree.groups, hincoming] at hbase
      exact hne (Option.some.inj hbase).symm

/-- The preview of a merge is exact if and only if no change of attachments is hidden by the way
their names are joined. -/
theorem diffSnapshots_exact_when (base incoming : DatabaseSnapshot) :
    ExactPreview base incoming ↔ AttachmentsTold base incoming := by
  constructor
  · intro h
    exact diffSnapshots_exact_iff.mp h.exact
  · intro h
    have hexact := diffSnapshots_exact_iff.mpr h
    constructor
    · exact hexact
    · exact diffSnapshots_dual base incoming
    · exact hexact.empty_iff

/-- A snapshot of one entry, which has nothing but attachments. -/
def onlyAttachments (binaryKeys : List String)
    (h : binaryKeys.Pairwise fun s t => codeUnits s < codeUnits t) : DatabaseSnapshot where
  entries := ⟨[⟨"e", "Untitled", "Root", Table.empty _, binaryKeys, h⟩], by simp⟩
  groups := Table.empty _

/-- Two attachments `a` and `b` and one whose name is `a`, a NUL and `b` are not told apart. -/
theorem diffSnapshots_not_exact : ¬ ∀ base incoming : DatabaseSnapshot,
    ExactPreview base incoming := by
  intro hall
  have hexact := (hall (onlyAttachments ["a\x00b"] (by decide))
    (onlyAttachments ["a", "b"] (by decide))).exact
  have hnil : (diffSnapshots (onlyAttachments ["a\x00b"] (by decide))
      (onlyAttachments ["a", "b"] (by decide))).changedEntries = [] := by decide +kernel
  apply hexact.changedEntries.nil_iff.mp hnil "e"
  refine ⟨_, _, rfl, rfl, Or.inr (Or.inr ?_)⟩
  rw [sameAttachments_iff]
  decide

/-- Splitting at the separator gives the names back, and one empty name where there was none. -/
theorem split_joinedKeys {entry : EntrySnapshot}
    (h : ∀ name ∈ entry.binaryKeys, '\x00' ∉ name.toList) :
    (joinedKeys entry).toList.splitOn '\x00' =
      if entry.binaryKeys = [] then [[]] else entry.binaryKeys.map String.toList := by
  have hseparator : "\x00".toList = ['\x00'] := by decide
  rw [joinedKeys, String.toList_intercalate, hseparator]
  by_cases hnil : entry.binaryKeys = []
  · simp [hnil]
  · rw [if_neg hnil, List.splitOn_intercalate]
    · intro chars hchars
      obtain ⟨name, hname, rfl⟩ := List.mem_map.mp hchars
      exact h name hname
    · simpa using hnil

theorem nil_of_split {names : List String} (h : ∀ name ∈ names, name ≠ "")
    (hsplit : names.map String.toList = [[]]) : names = [] := by
  cases names with
  | nil => rfl
  | cons name rest =>
    have hempty : name.toList = [] := (List.cons.inj hsplit).1
    exact absurd (String.toList_eq_nil_iff.mp hempty) (h name List.mem_cons_self)

/-- Names without a NUL, none of them empty, are never confused. -/
theorem joinedKeys_plain {x y : EntrySnapshot}
    (hx : ∀ name ∈ x.binaryKeys, name ≠ "" ∧ '\x00' ∉ name.toList)
    (hy : ∀ name ∈ y.binaryKeys, name ≠ "" ∧ '\x00' ∉ name.toList)
    (h : joinedKeys x = joinedKeys y) : x.binaryKeys = y.binaryKeys := by
  have hsplitx := split_joinedKeys fun name hname => (hx name hname).2
  have hsplity := split_joinedKeys fun name hname => (hy name hname).2
  rw [h, hsplity] at hsplitx
  by_cases hxnil : x.binaryKeys = []
  · by_cases hynil : y.binaryKeys = []
    · rw [hxnil, hynil]
    · rw [if_pos hxnil, if_neg hynil] at hsplitx
      rw [hxnil]
      exact (nil_of_split (fun name hname => (hy name hname).1) hsplitx).symm
  · by_cases hynil : y.binaryKeys = []
    · rw [if_neg hxnil, if_pos hynil] at hsplitx
      rw [hynil]
      exact nil_of_split (fun name hname => (hx name hname).1) hsplitx.symm
    · rw [if_neg hxnil, if_neg hynil] at hsplitx
      exact (List.map_inj_right fun _ _ => String.toList_inj.mp).mp hsplitx.symm

/-- Snapshots whose attachments all have such names have an exact diff. -/
theorem attachmentsTold_plain {base incoming : DatabaseSnapshot}
    (hbase : ∀ entry ∈ base.entries.rows, ∀ name ∈ entry.binaryKeys,
      name ≠ "" ∧ '\x00' ∉ name.toList)
    (hincoming : ∀ entry ∈ incoming.entries.rows, ∀ name ∈ entry.binaryKeys,
      name ≠ "" ∧ '\x00' ∉ name.toList) : AttachmentsTold base incoming := by
  intro uuid x y hx hy hjoined
  left
  exact joinedKeys_plain (hbase x (Table.mem_of_find hx)) (hincoming y (Table.mem_of_find hy))
    hjoined

end PassVault
