import PassVault.Lib.Runs
import PassVault.Storage.DeviceStore

/-!
# Callers of `transaction`

Any number of callers write to one store, inside and outside of calls of `transaction`, which may
be nested. The ledger keeps what was written and by which calls, and what of it the database still
has: a rollback goes back to what it had at the last `BEGIN`.
-/

namespace PassVault

open Async

/-- A statement that succeeded, and the calls that it was made in, innermost first. -/
structure Entry where
  serial : Nat
  scope : List Nat
  statement : Tables → Except Failure Tables

inductive LedgerEvent where
  /-- `transaction` is called; `joins` when it finds a transaction open. -/
  | called (joins : Bool)
  | wrote (scope : List Nat) (statement : Tables → Except Failure Tables)
  /-- The body of a call threw. -/
  | failed (call : Nat) (joined : Bool)
  | resolved (call : Nat)
  | rejected (call : Nat)

structure Ledger where
  store : Store
  /-- How many calls there were. -/
  calls : Nat
  written : List Entry
  /-- What the database has of it, and had at the last `BEGIN`. -/
  applied : List Entry
  mark : List Entry
  failed : List Nat
  resolved : List Nat
  rejected : List Nat

namespace Ledger

def of (store : Store) : Ledger := ⟨store, 0, [], [], [], [], [], []⟩

def note : LedgerEvent → Ledger → Ledger
  | .called _, s => { s with calls := s.calls + 1 }
  | .wrote scope statement, s =>
    let entry := ⟨s.written.length, scope, statement⟩
    { s with written := s.written ++ [entry], applied := s.applied ++ [entry] }
  | .failed call _, s => { s with failed := s.failed ++ [call] }
  | .resolved call, s => { s with resolved := s.resolved ++ [call] }
  | .rejected call, s => { s with rejected := s.rejected ++ [call] }

instance : StoreState Ledger LedgerEvent where
  store s := s.store
  setStore store s :=
    { s with
      store
      applied := if s.store.rolledBack < store.rolledBack then s.mark else s.applied
      mark := if s.store.depth < store.depth then s.applied else s.mark }
  note := note
  store_setStore _ _ := rfl

end Ledger

/-- What a caller does, and what the body of a transaction does. A caller can go on whatever a
statement or a call of `transaction` ends with. -/
inductive Script where
  | done
  | fail (error : Failure)
  | read (next : Tables → Script)
  | write (statement : Tables → Except Failure Tables) (next : Except Failure Unit → Script)
  | transaction (body : Script) (next : Except Failure Unit → Script)

namespace Script

/-- Report an event at a point where the store is not touched. -/
def report (e : LedgerEvent) : Async Ledger LedgerEvent Failure Unit :=
  .act (changeStore id [e]) fun _ => .done ()

/-- `await body()`. -/
def settling (call : Nat) (joins : Bool) (body : Async Ledger LedgerEvent Failure Unit) :
    Async Ledger LedgerEvent Failure Unit := do
  let result ← body.attempt
  Async.pause
  match result with
  | .ok _ => return ()
  | .error error => do
    report (.failed call joins)
    throw error

def outcome (call : Nat) : Except Failure Unit → LedgerEvent
  | .ok _ => .resolved call
  | .error _ => .rejected call

/-- A script that runs inside of some calls. -/
def run : Script → List Nat → Async Ledger LedgerEvent Failure Unit
  | done, _ => return ()
  | fail error, _ => throw error
  | read next, scope => do
    let tables ← query fun tables => tables
    (next tables).run scope
  | write statement next, scope => do
    let result ← (execute statement [.wrote scope statement]).attempt
    (next result).run scope
  | transaction body next, scope => do
    let call ← Async.read fun s : Ledger => s.calls
    let joins ← Async.read fun s : Ledger => decide (0 < s.store.depth)
    report (.called joins)
    let result ← (PassVault.transaction (settling call joins (body.run (call :: scope)))).attempt
    report (outcome call result)
    (next result).run scope

end Script

/-- A caller starts whenever it likes. -/
def callers : System Ledger LedgerEvent Failure Script := fun script _ => some (script.run [])

/-- The statements, one after the other, make these tables. -/
inductive Replays (initial : Tables) : List Entry → Tables → Prop where
  | nil : Replays initial [] initial
  | concat {entries : List Entry} {tables tables' : Tables} {entry : Entry}
      (h : Replays initial entries tables) (hentry : entry.statement tables = .ok tables') :
    Replays initial (entries ++ [entry]) tables'

/-- Written by the body of the call, or in a nested call that resolved. -/
def Entry.WrittenIn (resolved : List Nat) (call : Nat) (entry : Entry) : Prop :=
  ∃ inner outer, entry.scope = inner ++ call :: outer ∧ ∀ other ∈ inner, other ∈ resolved

/-- The database is what the applied statements make it. A call that resolved has everything in it,
one that was rejected nothing, and what is written outside of calls stays. -/
structure Ledger.Atomic (initial : Tables) (s : Ledger) : Prop where
  replays : Replays initial s.applied s.store.tables
  resolved : ∀ call ∈ s.resolved, ∀ entry ∈ s.written, entry.WrittenIn s.resolved call →
    entry ∈ s.applied
  rejected : ∀ call ∈ s.rejected, ∀ entry ∈ s.applied, call ∉ entry.scope
  outside : ∀ entry ∈ s.written, entry.scope = [] → entry ∈ s.applied

end PassVault
