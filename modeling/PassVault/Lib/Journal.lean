import Mathlib.Data.List.Infix

/-!
# Databases that crash

A script of statements, some of them between `BEGIN` and `COMMIT`, on a database of which a crash
leaves what has been committed. Outside a transaction every statement commits by itself. One that
fails ends the script, and the transaction it is in is rolled back. Databases, statements and
failures are arbitrary.
-/

namespace Journal

variable {δ ι φ : Type} {exec : ι → δ → Except φ δ}

inductive Instr (ι : Type) where
  | begin
  | commit
  | run (statement : ι)

structure Db (δ ι : Type) where
  committed : δ
  /-- What an open transaction sees. -/
  view : Option δ
  /-- What is left of the script. -/
  rest : List (Instr ι)

namespace Db

def opened (d : δ) : Db δ ι := ⟨d, none, []⟩

def current (s : Db δ ι) : δ := s.view.getD s.committed

def next (exec : ι → δ → Except φ δ) (s : Db δ ι) : Option (Db δ ι) :=
  match s.rest with
  | [] => none
  | .begin :: rest => some ⟨s.committed, some s.current, rest⟩
  | .commit :: rest => some ⟨s.current, none, rest⟩
  | .run statement :: rest =>
    match exec statement s.current with
    | .error _ => some (opened s.committed)
    | .ok d => some (if s.view.isSome then ⟨s.committed, some d, rest⟩ else ⟨d, none, rest⟩)

end Db

/-- The statements, one after the other. -/
def perform (exec : ι → δ → Except φ δ) : List ι → δ → Except φ δ
  | [], d => .ok d
  | statement :: rest, d => (exec statement d).bind (perform exec rest)

def inTransaction (body : List ι) : List (Instr ι) := .begin :: (body.map .run ++ [.commit])

theorem perform_append (body rest : List ι) (d : δ) :
    perform exec (body ++ rest) d = (perform exec body d).bind (perform exec rest) := by
  induction body generalizing d with
  | nil => rfl
  | cons statement body ih =>
    rw [List.cons_append, perform, perform]
    cases exec statement d with
    | error e => rfl
    | ok d' => exact ih d'

/-- Wherever the script is cut off, `P` holds of what is left of it and of what is committed. -/
def Holds (exec : ι → δ → Except φ δ) (P : List (Instr ι) → δ → Prop) :
    List (Instr ι) → δ → Option δ → Prop
  | [], d, view => P [] d ∧ view = none
  | .begin :: rest, d, view => P (.begin :: rest) d ∧ Holds exec P rest d (some (view.getD d))
  | .commit :: rest, d, view => P (.commit :: rest) d ∧ Holds exec P rest (view.getD d) none
  | .run statement :: rest, d, view =>
    P (.run statement :: rest) d ∧
      match exec statement (view.getD d) with
      | .error _ => P [] d
      | .ok d' => if view.isSome then Holds exec P rest d (some d') else Holds exec P rest d' none

variable {P : List (Instr ι) → δ → Prop}

theorem Holds.now {rest : List (Instr ι)} {d : δ} {view : Option δ}
    (h : Holds exec P rest d view) : P rest d := by
  cases rest with
  | nil => exact h.1
  | cons instr rest => cases instr <;> exact h.1

theorem Holds.next {s t : Db δ ι} (h : Holds exec P s.rest s.committed s.view)
    (hnext : s.next exec = some t) : Holds exec P t.rest t.committed t.view := by
  obtain ⟨d, view, rest⟩ := s
  cases rest with
  | nil => cases hnext
  | cons instr rest =>
    cases instr with
    | begin =>
      cases hnext
      exact h.2
    | commit =>
      cases hnext
      exact h.2
    | run statement =>
      obtain ⟨-, h⟩ := h
      rw [Db.next] at hnext
      simp only [Db.current] at h hnext
      cases hexec : exec statement (view.getD d) with
      | error e =>
        rw [hexec] at h hnext
        cases hnext
        exact ⟨h, rfl⟩
      | ok d' =>
        rw [hexec] at h hnext
        cases hnext
        cases view <;> exact h

/-- What is committed, and what an open transaction sees, is as `Q` asks. -/
def Db.All (Q : δ → Prop) (s : Db δ ι) : Prop := Q s.committed ∧ ∀ d, s.view = some d → Q d

theorem Db.All.current {Q : δ → Prop} {s : Db δ ι} (hs : s.All Q) : Q s.current := by
  rw [Db.current]
  cases hview : s.view with
  | none => exact hs.1
  | some d => exact hs.2 d hview

theorem Db.All.next {Q : δ → Prop} {s t : Db δ ι} (hs : s.All Q)
    (hexec : ∀ statement d d', .run statement ∈ s.rest → Q d → exec statement d = .ok d' → Q d')
    (h : s.next exec = some t) : t.All Q := by
  have hcurrent := hs.current
  rw [Db.next] at h
  split at h
  · cases h
  · cases h
    exact ⟨hs.1, fun d hd => Option.some.inj hd ▸ hcurrent⟩
  · cases h
    exact ⟨hcurrent, nofun⟩
  · rename_i statement rest hrest
    split at h
    · cases h
      exact ⟨hs.1, nofun⟩
    · rename_i d hd
      cases h
      have hmem : .run statement ∈ s.rest := hrest ▸ List.mem_cons_self
      have hnew := hexec statement s.current d hmem hcurrent hd
      split
      · exact ⟨hs.1, fun d' hd' => Option.some.inj hd' ▸ hnew⟩
      · exact ⟨hnew, nofun⟩

theorem Db.next_rest {s t : Db δ ι} (h : s.next exec = some t) : t.rest ⊆ s.rest := by
  rw [Db.next] at h
  split at h
  · cases h
  · rename_i hrest
    cases h
    rw [hrest]
    exact List.subset_cons_self _ _
  · rename_i hrest
    cases h
    rw [hrest]
    exact List.subset_cons_self _ _
  · rename_i hrest
    rw [hrest]
    split at h
    · cases h
      exact List.nil_subset _
    · cases h
      split <;> exact List.subset_cons_self _ _

/-- A transaction leaves what was committed until all of its statements have run. -/
theorem holds_body {body : List ι} {d view : δ}
    (hstay : ∀ left, left <:+ body → P (left.map .run ++ [.commit]) d) (hfail : P [] d)
    (hend : ∀ d', perform exec body view = .ok d' → P [] d') :
    Holds exec P (body.map .run ++ [.commit]) d (some view) := by
  induction body generalizing view with
  | nil => exact ⟨hstay [] List.suffix_rfl, hend view rfl, rfl⟩
  | cons statement body ih =>
    refine ⟨hstay _ List.suffix_rfl, ?_⟩
    rw [Option.getD_some]
    cases hexec : exec statement view with
    | error e => exact hfail
    | ok d' =>
      refine ih (fun left hleft => hstay left (hleft.trans (List.suffix_cons _ _))) ?_
      intro d'' hrun
      apply hend
      rw [perform, hexec]
      exact hrun

theorem holds_inTransaction {body : List ι} {d : δ} (hbegin : P (inTransaction body) d)
    (hstay : ∀ left, left <:+ body → P (left.map .run ++ [.commit]) d) (hfail : P [] d)
    (hend : ∀ d', perform exec body d = .ok d' → P [] d') :
    Holds exec P (inTransaction body) d none :=
  ⟨hbegin, holds_body hstay hfail hend⟩

end Journal
