import PassVault.Lib.Async
import PassVault.Storage.MetadataStore

/-!
# The store as programs see it

The database connection with its transactions, and the blob store, as accesses of `Async`
programs. Each statement runs synchronously when it is called; its caller goes on after an
`await`. A blob is written by one atomic rename and read whole, so `put` and `get` are single
accesses too. `sha256` is a parameter wherever it is used.
-/

namespace PassVault

/-- A device's durable storage. -/
structure Store where
  tables : Tables
  blobs : Table (Prod.fst : Sha256Hex × Bytes → Sha256Hex)
  /-- Open transactions, the ones that joined not counted. -/
  depth : Nat
  /-- What `ROLLBACK` goes back to. -/
  snapshot : Option Tables
  /-- Transactions queued so far, and how those that ended did. -/
  queued : Nat
  committed : Nat
  rolledBack : Nat

namespace Store

def empty : Store := ⟨.empty, .empty _, 0, none, 0, 0, 0⟩

def setTables (tables : Tables) (s : Store) : Store := { s with tables }

def putBlob (sha256 : Bytes → Sha256Hex) (bytes : Bytes) (s : Store) : Store :=
  { s with blobs := s.blobs.insert (sha256 bytes, bytes) }

def getBlob (s : Store) (hash : Sha256Hex) : Option Bytes := (s.blobs.find hash).map (·.2)

def enqueue (s : Store) : Store := { s with queued := s.queued + 1 }

def begin (s : Store) : Store := { s with depth := s.depth + 1, snapshot := some s.tables }

def commit (s : Store) : Store :=
  { s with depth := s.depth - 1, snapshot := none, committed := s.committed + 1 }

def rollback (s : Store) : Store :=
  { s with
    tables := s.snapshot.getD s.tables, depth := s.depth - 1, snapshot := none
    rolledBack := s.rolledBack + 1 }

end Store

/-- States that contain a store. `note` is where a state keeps history of the events reported
with its accesses; no program reads it. -/
class StoreState (σ : Type) (ε : outParam Type) where
  store : σ → Store
  setStore : Store → σ → σ
  note : ε → σ → σ
  store_setStore : ∀ store' s, store (setStore store' s) = store'

export StoreState (store setStore note)

section Access

variable {σ ε α : Type} [StoreState σ ε]

/-- Change the store and report what happened. -/
def changeStore (f : Store → Store) (events : List ε) : σ → σ × List ε := fun s =>
  (setStore (f (store s)) (events.foldl (fun s e => note e s) s), events)

theorem store_changeStore (f : Store → Store) (events : List ε) (s : σ) :
    store (changeStore f events s).1 = f (store s) := StoreState.store_setStore _ _

/-- A `SELECT`. -/
def query (f : Tables → α) : Async σ ε Failure α :=
  .act (fun s => (s, [])) fun s => .await (fun _ => true) (.done (f (store s).tables))

/-- A statement that may fail, and then changes nothing. -/
def execute (f : Tables → Except Failure Tables) (events : List ε) : Async σ ε Failure Unit :=
  .act
    (fun s =>
      match f (store s).tables with
      | .ok tables => changeStore (Store.setTables tables) events s
      | .error _ => (s, []))
    fun s => .await (fun _ => true) (.ofExcept ((f (store s).tables).map fun _ => ()))

def putBlob (sha256 : Bytes → Sha256Hex) (bytes : Bytes) : Async σ ε Failure Sha256Hex :=
  .act (changeStore (Store.putBlob sha256 bytes) []) fun _ =>
    .await (fun _ => true) (.done (sha256 bytes))

def getBlob (hash : Sha256Hex) : Async σ ε Failure Bytes :=
  .act (fun s => (s, [])) fun s => .await (fun _ => true)
    (match (store s).getBlob hash with
    | some bytes => .done bytes
    | none => .fail (.io "ENOENT: no such file or directory"))

/-- `BEGIN IMMEDIATE` and what goes with it. -/
def beginTransaction : Async σ ε Failure Unit :=
  .act (changeStore Store.begin []) fun _ => .done ()

def commitTransaction : Async σ ε Failure Unit :=
  .act (changeStore Store.commit []) fun _ => .await (fun _ => true) (.done ())

def rollbackTransaction : Async σ ε Failure Unit :=
  .act (changeStore Store.rollback []) fun _ => .await (fun _ => true) (.done ())

/-- The body of a transaction that is first in the queue. -/
def runTransaction (body : Async σ ε Failure α) : Async σ ε Failure α := do
  beginTransaction
  let result ← body.tryCatch fun e => do
    rollbackTransaction
    throw e
  commitTransaction
  return result

/-- Run `body` in a transaction: one that is open is joined, otherwise it waits for its turn. -/
def transaction (body : Async σ ε Failure α) : Async σ ε Failure α := do
  if 0 < (← Async.read fun s : σ => (store s).depth) then
    body
  else
    let turn ← Async.read fun s : σ => (store s).queued
    .act (changeStore Store.enqueue []) fun _ =>
      .await (fun s => (store s).committed + (store s).rolledBack == turn) (runTransaction body)

/-! ## Safety rules -/

open Async

/-- What a transaction does to the store besides its body, when it does not fail. -/
inductive Bookkeeping : (Store → Store) → Prop where
  | enqueue : Bookkeeping Store.enqueue
  | begin : Bookkeeping Store.begin
  | commit : Bookkeeping Store.commit

/-- A contract that reading and the bookkeeping of transactions keep. -/
structure StoreContract (c : Contract σ ε) : Prop where
  idle : ∀ s, c.inv s → c.guar s [] s
  quiet : ∀ f, Bookkeeping f → ∀ s, c.inv s → c.given s (changeStore f [] s).1 →
    c.guar s [] (changeStore f [] s).1 ∧ c.inv (changeStore f [] s).1

variable {c : Contract σ ε} {post : α → σ → Prop} {exc : Failure → σ → Prop}

theorem safe_read {f : σ → α} {s : σ} (hc : StoreContract c) (hinv : c.inv s)
    (h : post (f s) s) : Safe c post exc (Async.read f) s :=
  fun _ => ⟨by simp, fun _ => ⟨hc.idle s hinv, hinv, h⟩⟩

theorem safe_query {f : Tables → α} {s : σ} (hc : StoreContract c) (hinv : c.inv s)
    (h : ∀ t, c.rely s t → c.inv t → post (f (store s).tables) t) :
    Safe c post exc (query f) s :=
  fun _ => ⟨by simp, fun _ => ⟨hc.idle s hinv, hinv, fun t hrely hinv =>
    ⟨fun _ => rfl, fun _ => h t hrely hinv⟩⟩⟩

theorem safe_execute {f : Tables → Except Failure Tables} {events : List ε}
    {post : Unit → σ → Prop} {s : σ} (hc : StoreContract c) (hinv : c.inv s)
    (hok : ∀ tables, f (store s).tables = .ok tables →
      (∀ e ∈ events, c.cond s e) →
      (∀ e ∈ events, c.prop s e) ∧
        (c.given s (changeStore (Store.setTables tables) events s).1 →
          c.guar s events (changeStore (Store.setTables tables) events s).1 ∧
          c.inv (changeStore (Store.setTables tables) events s).1 ∧
          ∀ t, c.rely (changeStore (Store.setTables tables) events s).1 t → c.inv t → post () t))
    (herror : ∀ e, f (store s).tables = .error e → ∀ t, c.rely s t → c.inv t → exc e t) :
    Safe c post exc (execute f events) s := by
  cases hf : f (store s).tables with
  | ok tables =>
    rw [execute, Safe]
    simp only [hf]
    intro hcond
    refine ⟨(hok tables hf hcond).1, fun hgiven => ?_⟩
    obtain ⟨hguar, hinv', hpost⟩ := (hok tables hf hcond).2 hgiven
    exact ⟨hguar, hinv', fun t hrely hinv => ⟨fun _ => rfl, fun _ => hpost t hrely hinv⟩⟩
  | error e =>
    rw [execute, Safe]
    simp only [hf]
    exact fun _ => ⟨by simp, fun _ => ⟨hc.idle s hinv, hinv, fun t hrely hinv =>
      ⟨fun _ => rfl, fun _ => herror e hf t hrely hinv⟩⟩⟩

theorem safe_putBlob {sha256 : Bytes → Sha256Hex} {bytes : Bytes} {post : Sha256Hex → σ → Prop}
    {s : σ}
    (h : c.given s (changeStore (Store.putBlob sha256 bytes) [] s).1 →
      c.guar s [] (changeStore (Store.putBlob sha256 bytes) [] s).1 ∧
        c.inv (changeStore (Store.putBlob sha256 bytes) [] s).1 ∧
        ∀ t, c.rely (changeStore (Store.putBlob sha256 bytes) [] s).1 t → c.inv t →
          post (sha256 bytes) t) :
    Safe c post exc (putBlob sha256 bytes) s := by
  refine fun _ => ⟨by simp [changeStore], fun hgiven => ?_⟩
  obtain ⟨hguar, hinv, hpost⟩ := h hgiven
  exact ⟨hguar, hinv, fun t hrely hinv => ⟨fun _ => rfl, fun _ => hpost t hrely hinv⟩⟩

theorem safe_getBlob {hash : Sha256Hex} {post : Bytes → σ → Prop} {s : σ}
    (hc : StoreContract c) (hinv : c.inv s)
    (hsome : ∀ bytes, (store s).getBlob hash = some bytes →
      ∀ t, c.rely s t → c.inv t → post bytes t)
    (hnone : (store s).getBlob hash = none → ∀ e t, c.rely s t → c.inv t → exc e t) :
    Safe c post exc (getBlob hash) s := by
  refine fun _ => ⟨by simp, fun _ => ⟨hc.idle s hinv, hinv, fun t hrely hinv =>
    ⟨fun _ => rfl, fun _ => ?_⟩⟩⟩
  cases hget : (store s).getBlob hash with
  | some bytes => exact hsome bytes hget t hrely hinv
  | none => exact hnone hget _ t hrely hinv

/-- A transaction that is not rolled back. `P` is what the body starts with: waiting for the turn
keeps it, and so does the bookkeeping. -/
theorem safe_transaction {body : Async σ ε Failure α} {excBody : Failure → σ → Prop} {s : σ}
    (hc : StoreContract c) (hprompt : ∀ t, ¬ c.prompt t) (hinv : c.inv s) (P : σ → Prop)
    (hs : P s)
    (hrely : ∀ t u, P t → c.rely t u → c.inv u → P u)
    (hquiet : ∀ f, Bookkeeping f → ∀ t, P t → P (changeStore f [] t).1)
    (hbody : ∀ t, P t → c.inv t → Safe c post excBody body t)
    (hpost : ∀ a t u, post a t → c.rely (changeStore Store.commit [] t).1 u → c.inv u →
      post a u)
    (hjoined : ∀ e t, excBody e t → exc e t)
    (hrollback : ∀ e t, excBody e t → ¬ c.given t (changeStore Store.rollback [] t).1) :
    Safe c post exc (transaction body) s := by
  refine Safe.bind (safe_read hc hinv ?_)
  split
  · exact (hbody s hs hinv).mono (fun _ _ h => h) hjoined
  · refine Safe.bind (safe_read hc hinv fun _ => ⟨by simp [changeStore], fun hgiven => ?_⟩)
    obtain ⟨hguar, hinv'⟩ := hc.quiet _ .enqueue s hinv hgiven
    refine ⟨hguar, hinv', fun t hst hinvt => ⟨fun h => absurd h (hprompt t), fun _ => ?_⟩⟩
    have ht := hrely _ _ (hquiet _ .enqueue s hs) hst hinvt
    refine Safe.bind fun _ => ⟨by simp [changeStore], fun hgiven => ?_⟩
    obtain ⟨hguarb, hinvb⟩ := hc.quiet _ .begin t hinvt hgiven
    refine ⟨hguarb, hinvb, Safe.bind (Safe.tryCatch ?_)⟩
    have hend := (hbody _ (hquiet _ .begin t ht) hinvb).with_inv hinvb
    refine hend.mono (fun a u h => ?_) fun e u h => ?_
    · refine Safe.bind fun _ => ⟨by simp [changeStore], fun hgiven => ?_⟩
      obtain ⟨hguarc, hinvc⟩ := hc.quiet _ .commit u h.2 hgiven
      exact ⟨hguarc, hinvc, fun v huv hinvv =>
        ⟨fun _ => rfl, fun _ => hpost a u v h.1 huv hinvv⟩⟩
    · exact Safe.bind fun _ => ⟨by simp [changeStore], fun hgiven =>
        absurd hgiven (hrollback e u h.1)⟩

/-! ## Accesses of one kind -/

variable {access : σ → List ε → σ → Prop}

theorem within_execute {f : Tables → Except Failure Tables} {events : List ε}
    (hidle : ∀ s, access s [] s)
    (h : ∀ tables s, access s events (changeStore (Store.setTables tables) events s).1) :
    Within access (execute f events) := by
  intro s
  refine ⟨?_, .ofExcept _⟩
  dsimp only
  split
  · exact h _ s
  · exact hidle s

theorem within_transaction_of {body : Async σ ε Failure α} (hidle : ∀ s, access s [] s)
    (hquiet : ∀ f, Bookkeeping f → ∀ s, access s [] (changeStore f [] s).1)
    (hback : ∀ s, access s [] (changeStore Store.rollback [] s).1) (h : Within access body) :
    Within access (transaction body) := by
  have hread : ∀ f : σ → Nat, Within access (Async.read f : Async σ ε Failure Nat) :=
    fun _ s => ⟨hidle s, trivial⟩
  have hbegin : Within access (beginTransaction : Async σ ε Failure Unit) :=
    fun s => ⟨hquiet _ .begin s, trivial⟩
  have hrollback : ∀ e : Failure, Within access (do
      rollbackTransaction
      throw e : Async σ ε Failure α) := fun _ s => ⟨hback s, trivial⟩
  apply Within.bind (hread _)
  intro depth
  split
  · exact h
  · apply Within.bind (hread _)
    intro turn s
    refine ⟨hquiet _ .enqueue s, ?_⟩
    change Within access (runTransaction body)
    apply Within.bind hbegin
    intro _
    apply Within.bind (Within.tryCatch h hrollback)
    intro result s
    exact ⟨hquiet _ .commit s, trivial⟩

theorem within_transaction {body : Async σ ε Failure α} (hidle : ∀ s, access s [] s)
    (hquiet : ∀ f s, access s [] (changeStore f [] s).1) (h : Within access body) :
    Within access (transaction body) :=
  within_transaction_of hidle (fun f _ => hquiet f) (hquiet _) h

end Access

end PassVault
