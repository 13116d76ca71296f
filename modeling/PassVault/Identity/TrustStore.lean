import Mathlib.Logic.Function.Basic
import PassVault.Identity.Authenticator
import PassVault.Lib.Machine

/-!
# The trust store

`createSqliteTrustStore` (`packages/storage-sql/src/sqliteTrustStore.ts`), and the calls that read
and write it: `verifyPeer`, and `disconnectDevice`, `reconnectDevice` and `forgetDevice` of
`VaultServices`, which interleave at their awaits. What a human answers is arbitrary.
-/

namespace PassVault

open Machine

structure DeviceRow where
  id : DeviceId
  publicKey : Bytes
  name : String
  trust : DeviceTrust
  pairedAt : Nat
  lastSeenAt : Option Nat
deriving DecidableEq

abbrev Devices := Table DeviceRow.id

def toPairedDevice (row : DeviceRow) : PairedDevice := ⟨row.id, row.publicKey, row.name, row.trust⟩

namespace Devices

def pair (devices : Devices) (deviceId : DeviceId) (publicKey : Bytes) (name : String)
    (pairedAt : Nat) : Devices :=
  devices.upsert ⟨deviceId, publicKey, name, .paired, pairedAt, none⟩
    (fun row => { row with publicKey, name, trust := .paired, pairedAt }) fun _ => rfl

def revoke (devices : Devices) (deviceId : DeviceId) : Devices :=
  devices.update deviceId (fun row => { row with trust := .revoked }) fun _ => rfl

def markSeen (devices : Devices) (deviceId : DeviceId) (now : Nat) : Devices :=
  devices.update deviceId (fun row => { row with lastSeenAt := some now }) fun _ => rfl

/-- The table, as `get` shows it. -/
def trustStore (devices : Devices) : TrustStore where
  rows := devices.rows.map toPairedDevice
  distinct := by
    rw [List.map_map]
    exact devices.distinct

/-- Every row has the id of its key. -/
def Consistent (crypto : Crypto) (devices : Devices) : Prop :=
  ∀ row ∈ devices.rows, deviceIdFor crypto row.publicKey = row.id

end Devices

/-- What a peer presents. -/
structure PeerProof where
  deviceId : DeviceId
  publicKey : Bytes
  claimedName : String
  nonce : Bytes
  signature : Bytes

/-- Where a `verifyPeer` is. -/
inductive VerifyStage where
  | decided (decision : TrustDecision)
  | asking
  | answered (confirmed : Bool)
  | accepted (deviceName : String)
  | rejected (reason : String)

structure Verification where
  input : PeerProof
  pairingMode : Bool
  stage : VerifyStage
  /-- The row of the claimed id when the call started. No call looks at it. -/
  seen : Option DeviceRow

inductive TrustCall where
  | verifyPeer (verification : Verification)
  | reconnectDevice (known : DeviceRow)
  | forgetDevice (deviceId : DeviceId)

/-- The table, and the calls by the order of their starts. -/
structure TrustRun where
  devices : Devices
  started : Nat
  calls : Nat → Option TrustCall

inductive TrustAction where
  | verifyPeer (input : PeerProof) (pairingMode : Bool)
  | answer (call : Nat) (confirmed : Bool)
  | disconnectDevice (deviceId : DeviceId)
  | reconnectDevice (deviceId : DeviceId)
  | forgetDevice (deviceId : DeviceId)
  /-- The call goes on after its await. -/
  | proceed (call : Nat) (now : Nat)

namespace TrustRun

variable {crypto : Crypto}

def opened (devices : Devices) : TrustRun := ⟨devices, 0, fun _ => none⟩

def set (i : Nat) (call : Option TrustCall) (s : TrustRun) : TrustRun :=
  { s with calls := Function.update s.calls i call }

def start (call : TrustCall) (s : TrustRun) : TrustRun :=
  { s.set s.started (some call) with started := s.started + 1 }

/-- `verifyPeer` up to its first await. -/
def verify (keyPair : DeviceKeyPair crypto) (devices : Devices) (input : PeerProof) :
    VerifyStage :=
  if h : deviceIdFor crypto input.publicKey = input.deviceId then
    if crypto.verify input.publicKey
        (authChallengeBytes input.nonce keyPair.deviceId input.deviceId) input.signature then
      .decided (evaluateTrust devices.trustStore
        (⟨input.deviceId, input.publicKey, input.claimedName, h⟩ : PublicIdentity crypto))
    else .rejected "signature did not verify against the presented key"
  else .rejected "device id does not match the presented public key"

/-- `verifyPeer` after an await. -/
def goOn (v : Verification) (now : Nat) (devices : Devices) : Option (Devices × VerifyStage) :=
  match v.stage with
  | .decided (.trusted device) =>
    some (devices.markSeen v.input.deviceId now, .accepted device.name)
  | .decided .unknownDevice =>
    if v.pairingMode then some (devices, .asking)
    else some (devices, .rejected "device is not paired with this one")
  | .decided .revoked => some (devices, .rejected "device has been revoked")
  | .decided .keyMismatch =>
    some (devices,
      .rejected "device key has changed since pairing; pair again to accept the new key")
  | .answered true =>
    some (devices.pair v.input.deviceId v.input.publicKey v.input.claimedName now,
      .accepted v.input.claimedName)
  | .answered false =>
    some (devices, .rejected "the pairing numbers were not confirmed on this device")
  | _ => none

def step (keyPair : DeviceKeyPair crypto) (s : TrustRun) : TrustAction → Option TrustRun
  | .verifyPeer input pairingMode =>
    some (s.start (.verifyPeer
      ⟨input, pairingMode, verify keyPair s.devices input, s.devices.find input.deviceId⟩))
  | .answer i confirmed =>
    match s.calls i with
    | some (.verifyPeer ⟨input, pairingMode, .asking, seen⟩) =>
      some (s.set i (some (.verifyPeer ⟨input, pairingMode, .answered confirmed, seen⟩)))
    | _ => none
  | .disconnectDevice deviceId => some { s with devices := s.devices.revoke deviceId }
  | .reconnectDevice deviceId =>
    match s.devices.find deviceId with
    | none => some s
    | some known => some (s.start (.reconnectDevice known))
  | .forgetDevice deviceId => some (s.start (.forgetDevice deviceId))
  | .proceed i now =>
    match s.calls i with
    | some (.verifyPeer v) =>
      (goOn v now s.devices).map fun (devices, stage) =>
        { s.set i (some (.verifyPeer { v with stage })) with devices }
    | some (.reconnectDevice known) =>
      some { s.set i none with
        devices := s.devices.pair known.id known.publicKey known.name known.pairedAt }
    | some (.forgetDevice deviceId) =>
      some { s.set i none with devices := s.devices.delete deviceId }
    | none => none

/-- A call starts or goes on. -/
def OfVerifyPeer (s : TrustRun) (action : TrustAction) (i : Nat) : Prop :=
  match action with
  | .verifyPeer .. => i = s.started
  | .answer j _ => i = j
  | .proceed j _ => i = j ∧ ∃ v, s.calls i = some (.verifyPeer v)
  | _ => False

/-- What one action leaves: the ids, the keys, the table of whoever rejects, and what is revoked. -/
structure Pins (crypto : Crypto) (s : TrustRun) (action : TrustAction) (t : TrustRun) : Prop where
  ids : t.devices.Consistent crypto
  keys : ∀ deviceId row row', s.devices.find deviceId = some row →
    t.devices.find deviceId = some row' → row'.publicKey = row.publicKey
  rejected : ∀ i, s.OfVerifyPeer action i → t.devices = s.devices ∨
    ∃ v deviceName, t.calls i = some (.verifyPeer v) ∧ v.stage = .accepted deviceName
  revoked : ∀ i, s.OfVerifyPeer action i → ∀ deviceId row, s.devices.find deviceId = some row →
    row.trust = .revoked → ∃ row', t.devices.find deviceId = some row' ∧ row'.trust = .revoked

/-- The proof holds, and the key was paired when the call started, or its owner was unknown and a
human has confirmed it. -/
structure Entitled (keyPair : DeviceKeyPair crypto) (v : Verification) (confirmed : Prop) : Prop
    where
  deviceId_eq : deviceIdFor crypto v.input.publicKey = v.input.deviceId
  verify_eq : crypto.verify v.input.publicKey
    (authChallengeBytes v.input.nonce keyPair.deviceId v.input.deviceId) v.input.signature = true
  known : (∃ row, v.seen = some row ∧ row.trust = .paired ∧ row.publicKey = v.input.publicKey) ∨
    (v.seen = none ∧ v.pairingMode = true ∧ confirmed)

/-- No pinned key changes in a run, and nobody is let in without one. -/
structure Pinned (keyPair : DeviceKeyPair crypto) (start : TrustRun) (actions : List TrustAction) :
    Prop where
  pins : ∀ before action after s t, actions = before ++ action :: after →
    play (step keyPair) start before = some s → step keyPair s action = some t →
    Pins crypto s action t
  accepts : ∀ before after s i v deviceName, actions = before ++ after →
    play (step keyPair) start before = some s → s.calls i = some (.verifyPeer v) →
    v.stage = .accepted deviceName → Entitled keyPair v (.answer i true ∈ before)

/-- A call that is about to pair finds no row of the id, or one that it does not contradict. -/
def Agrees (devices : Devices) : TrustCall → Prop
  | .verifyPeer ⟨input, _, .answered true, _⟩ =>
    ∀ row ∈ devices.find input.deviceId, row.trust = .paired ∧ row.publicKey = input.publicKey
  | .reconnectDevice known => ∀ row ∈ devices.find known.id, row.publicKey = known.publicKey
  | _ => True

def Current (s : TrustRun) : TrustAction → Prop
  | .proceed i _ => ∀ call ∈ s.calls i, Agrees s.devices call
  | _ => True

instance (devices : Devices) : DecidablePred (Agrees devices)
  | .verifyPeer ⟨input, _, .answered true, _⟩ => inferInstanceAs (Decidable
      (∀ row ∈ devices.find input.deviceId,
        row.trust = .paired ∧ row.publicKey = input.publicKey))
  | .verifyPeer ⟨_, _, .answered false, _⟩ => isTrue trivial
  | .verifyPeer ⟨_, _, .decided _, _⟩ => isTrue trivial
  | .verifyPeer ⟨_, _, .asking, _⟩ => isTrue trivial
  | .verifyPeer ⟨_, _, .accepted _, _⟩ => isTrue trivial
  | .verifyPeer ⟨_, _, .rejected _, _⟩ => isTrue trivial
  | .reconnectDevice known => inferInstanceAs (Decidable
      (∀ row ∈ devices.find known.id, row.publicKey = known.publicKey))
  | .forgetDevice _ => isTrue trivial

instance (s : TrustRun) : DecidablePred s.Current
  | .proceed i _ => inferInstanceAs (Decidable (∀ call ∈ s.calls i, Agrees s.devices call))
  | .verifyPeer .. | .answer .. | .disconnectDevice _ | .reconnectDevice _ | .forgetDevice _ =>
    isTrue trivial

theorem agrees_answered {devices : Devices} {v : Verification} (hv : v.stage = .answered true) :
    Agrees devices (.verifyPeer v) ↔ ∀ row ∈ devices.find v.input.deviceId,
      row.trust = .paired ∧ row.publicKey = v.input.publicKey := by
  obtain ⟨input, pairingMode, stage, seen⟩ := v
  cases hv
  exact Iff.rfl

theorem agrees_of_ne {devices : Devices} {v : Verification} (hv : v.stage ≠ .answered true) :
    Agrees devices (.verifyPeer v) := by
  obtain ⟨input, pairingMode, stage, seen⟩ := v
  cases stage with
  | answered confirmed =>
    cases confirmed with
    | true => exact absurd rfl hv
    | false => trivial
  | _ => trivial

end TrustRun

namespace Devices

variable {crypto : Crypto} {devices devices' : Devices}

theorem find_pair (devices : Devices) (deviceId : DeviceId) (publicKey : Bytes) (name : String)
    (pairedAt : Nat) (k : DeviceId) : (devices.pair deviceId publicKey name pairedAt).find k =
      if deviceId = k then
        some ((devices.find k).elim ⟨deviceId, publicKey, name, .paired, pairedAt, none⟩
          fun row => { row with publicKey, name, trust := .paired, pairedAt })
      else devices.find k :=
  Table.find_upsert ..

theorem find_trustStore (devices : Devices) (k : DeviceId) :
    devices.trustStore.find k = (devices.find k).map toPairedDevice := by
  unfold trustStore Table.find
  exact List.find?_map ..

/-- Rows may go or change, but no key does. -/
def Keep (devices devices' : Devices) : Prop :=
  ∀ deviceId row', devices'.find deviceId = some row' →
    ∃ row, devices.find deviceId = some row ∧ row'.publicKey = row.publicKey

theorem Keep.refl (devices : Devices) : devices.Keep devices := fun _ row h => ⟨row, h, rfl⟩

theorem keep_update {deviceId : DeviceId} {f : DeviceRow → DeviceRow} {hf : ∀ row, (f row).id = row.id}
    (hkey : ∀ row, (f row).publicKey = row.publicKey) : devices.Keep (devices.update deviceId f hf) := by
  intro k row' h
  rw [Table.find_update, Option.map_eq_some_iff] at h
  obtain ⟨row, hrow, rfl⟩ := h
  refine ⟨row, hrow, ?_⟩
  split
  · exact hkey row
  · rfl

theorem keep_revoke (deviceId : DeviceId) : devices.Keep (devices.revoke deviceId) :=
  keep_update fun _ => rfl

theorem keep_markSeen (deviceId : DeviceId) (now : Nat) :
    devices.Keep (devices.markSeen deviceId now) := keep_update fun _ => rfl

theorem keep_delete (deviceId : DeviceId) : devices.Keep (devices.delete deviceId) := by
  intro k row' h
  rw [Table.find_delete] at h
  split at h
  · cases h
  · exact ⟨row', h, rfl⟩

theorem Keep.keys (h : devices.Keep devices') {k : DeviceId} {row row' : DeviceRow}
    (hrow : devices.find k = some row) (hrow' : devices'.find k = some row') :
    row'.publicKey = row.publicKey := by
  obtain ⟨old, hold, hkey⟩ := h k row' hrow'
  cases hold.symm.trans hrow
  exact hkey

theorem Consistent.key (h : devices.Consistent crypto) {k : DeviceId} {row : DeviceRow}
    (hrow : devices.find k = some row) : deviceIdFor crypto row.publicKey = k :=
  (h row (Table.mem_of_find hrow)).trans (Table.key_of_find hrow)

theorem Keep.consistent (h : devices.Keep devices') (hs : devices.Consistent crypto) :
    devices'.Consistent crypto := by
  intro row' hmem
  obtain ⟨row, hrow, hkey⟩ := h row'.id row' (Table.find_of_mem hmem)
  rw [hkey]
  exact hs.key hrow

theorem Consistent.pair (hs : devices.Consistent crypto) {deviceId : DeviceId} {publicKey : Bytes}
    (hkey : deviceIdFor crypto publicKey = deviceId) (name : String) (pairedAt : Nat) :
    (devices.pair deviceId publicKey name pairedAt).Consistent crypto := by
  intro row' hmem
  have hfind := Table.find_of_mem hmem
  rw [find_pair] at hfind
  split at hfind
  · rename_i hid
    cases h : devices.find row'.id with
    | none =>
      rw [h] at hfind
      cases hfind
      exact hkey
    | some row =>
      rw [h] at hfind
      cases hfind
      exact hkey.trans hid
  · exact hs.key hfind

end Devices

namespace TrustRun

variable {crypto : Crypto} {keyPair : DeviceKeyPair crypto} {s t : TrustRun}

/-- The key was paired when the call started. -/
def Paired (v : Verification) : Prop :=
  ∃ row, v.seen = some row ∧ row.trust = .paired ∧ row.publicKey = v.input.publicKey

/-- What has been seen of a peer, by the stage. -/
def Founded (v : Verification) (confirmed : Prop) : Prop :=
  match v.stage with
  | .decided (.trusted _) => Paired v
  | .decided .unknownDevice => v.seen = none
  | .asking | .answered false => v.seen = none ∧ v.pairingMode = true
  | .answered true => v.seen = none ∧ v.pairingMode = true ∧ confirmed
  | .accepted _ => Paired v ∨ (v.seen = none ∧ v.pairingMode = true ∧ confirmed)
  | _ => True

/-- The key is that of the id, and it signed. -/
def Proven (keyPair : DeviceKeyPair crypto) (input : PeerProof) : Prop :=
  deviceIdFor crypto input.publicKey = input.deviceId ∧ crypto.verify input.publicKey
    (authChallengeBytes input.nonce keyPair.deviceId input.deviceId) input.signature = true

/-- What every action keeps. -/
structure Sound (keyPair : DeviceKeyPair crypto) (confirmed : Nat → Prop) (s : TrustRun) : Prop
    where
  devices : s.devices.Consistent crypto
  proven : ∀ i v, s.calls i = some (.verifyPeer v) → (∀ reason, v.stage ≠ .rejected reason) →
    Proven keyPair v.input
  founded : ∀ i v, s.calls i = some (.verifyPeer v) → Founded v (confirmed i)
  known : ∀ i row, s.calls i = some (.reconnectDevice row) →
    deviceIdFor crypto row.publicKey = row.id

theorem evaluateTrust_trusted {store : TrustStore} {claimed : PublicIdentity crypto}
    {device : PairedDevice} (h : evaluateTrust store claimed = .trusted device) :
    store.find claimed.deviceId = some device ∧ device.trust = .paired ∧
      device.publicKey = claimed.publicKey := by
  unfold evaluateTrust at h
  split at h
  · cases h
  · rename_i known hknown
    split at h
    · cases h
    · rename_i htrust
      split at h
      · cases h
      · rename_i hkey
        cases h
        refine ⟨hknown, ?_, Decidable.not_not.mp hkey⟩
        cases hdevice : device.trust with
        | paired => rfl
        | revoked => exact absurd hdevice htrust

theorem evaluateTrust_unknown {store : TrustStore} {claimed : PublicIdentity crypto}
    (h : evaluateTrust store claimed = .unknownDevice) : store.find claimed.deviceId = none := by
  unfold evaluateTrust at h
  split at h
  · assumption
  · split at h
    · cases h
    · split at h <;> cases h

theorem verify_cases (keyPair : DeviceKeyPair crypto) (devices : Devices) (input : PeerProof) :
    (∃ reason, verify keyPair devices input = .rejected reason) ∨
      ∃ hid, Proven keyPair input ∧ verify keyPair devices input =
        .decided (evaluateTrust devices.trustStore
          (⟨input.deviceId, input.publicKey, input.claimedName, hid⟩ : PublicIdentity crypto)) := by
  unfold verify
  split
  · rename_i hid
    split
    · rename_i hsig
      exact .inr ⟨hid, ⟨hid, hsig⟩, rfl⟩
    · exact .inl ⟨_, rfl⟩
  · exact .inl ⟨_, rfl⟩

/-- A call that has just started has seen what it decided on. -/
theorem founded_verify (keyPair : DeviceKeyPair crypto) (devices : Devices) (input : PeerProof)
    (pairingMode : Bool) (confirmed : Prop) :
    Founded ⟨input, pairingMode, verify keyPair devices input, devices.find input.deviceId⟩
      confirmed := by
  rcases verify_cases keyPair devices input with ⟨reason, h⟩ | ⟨hid, -, h⟩
  · rw [h]
    trivial
  · rw [h]
    cases hdecision : evaluateTrust devices.trustStore
      (⟨input.deviceId, input.publicKey, input.claimedName, hid⟩ : PublicIdentity crypto) with
    | trusted device =>
      obtain ⟨hfind, htrust, hkey⟩ := evaluateTrust_trusted hdecision
      rw [Devices.find_trustStore, Option.map_eq_some_iff] at hfind
      obtain ⟨row, hrow, rfl⟩ := hfind
      exact ⟨row, hrow, htrust, hkey⟩
    | unknownDevice =>
      have hfind := evaluateTrust_unknown hdecision
      rw [Devices.find_trustStore, Option.map_eq_none_iff] at hfind
      exact hfind
    | revoked => trivial
    | keyMismatch => trivial

/-- After an await a call rejects, asks, notes that it has seen a paired device, or pairs. -/
theorem goOn_cases {v : Verification} {now : Nat} {devices devices' : Devices} {stage : VerifyStage}
    (h : goOn v now devices = some (devices', stage)) :
    (devices' = devices ∧ ∃ reason, stage = .rejected reason) ∨
    (devices' = devices ∧ v.stage = .decided .unknownDevice ∧ v.pairingMode = true ∧
      stage = .asking) ∨
    (devices' = devices.markSeen v.input.deviceId now ∧ ∃ device,
      v.stage = .decided (.trusted device) ∧ stage = .accepted device.name) ∨
    (devices' = devices.pair v.input.deviceId v.input.publicKey v.input.claimedName now ∧
      v.stage = .answered true ∧ stage = .accepted v.input.claimedName) := by
  unfold goOn at h
  split at h <;> rename_i hstage
  · cases h
    exact .inr (.inr (.inl ⟨rfl, _, hstage, rfl⟩))
  · split at h <;> rename_i hmode <;> cases h
    · exact .inr (.inl ⟨rfl, hstage, hmode, rfl⟩)
    · exact .inl ⟨rfl, _, rfl⟩
  · cases h
    exact .inl ⟨rfl, _, rfl⟩
  · cases h
    exact .inl ⟨rfl, _, rfl⟩
  · cases h
    exact .inr (.inr (.inr ⟨rfl, hstage, rfl⟩))
  · cases h
    exact .inl ⟨rfl, _, rfl⟩
  · cases h

theorem Founded.goOn {v : Verification} {confirmed : Prop} {now : Nat} {devices devices' : Devices}
    {stage : VerifyStage} (hv : Founded v confirmed)
    (h : TrustRun.goOn v now devices = some (devices', stage)) :
    Founded { v with stage } confirmed := by
  unfold Founded at hv
  rcases goOn_cases h with ⟨-, reason, rfl⟩ | ⟨-, hstage, hmode, rfl⟩ | ⟨-, device, hstage, rfl⟩ |
    ⟨-, hstage, rfl⟩
  · trivial
  · rw [hstage] at hv
    exact ⟨hv, hmode⟩
  · rw [hstage] at hv
    exact .inl hv
  · rw [hstage] at hv
    exact .inr hv

/-- A call is replaced, and the other ones stay. -/
theorem calls_set {i j : Nat} {call : Option TrustCall} {c : TrustCall}
    (h : (s.set i call).calls j = some c) :
    (j = i ∧ call = some c) ∨ (j ≠ i ∧ s.calls j = some c) := by
  unfold set at h
  by_cases hij : j = i
  · subst hij
    exact .inl ⟨rfl, by simpa using h⟩
  · exact .inr ⟨hij, by simpa [hij] using h⟩

section Sound

variable {confirmed : Nat → Prop}

theorem Sound.set (hs : Sound keyPair confirmed s) {i : Nat} {call : Option TrustCall}
    (hdevices : t.devices.Consistent crypto) (hcalls : t.calls = (s.set i call).calls)
    (hproven : ∀ v, call = some (.verifyPeer v) → (∀ reason, v.stage ≠ .rejected reason) →
      Proven keyPair v.input)
    (hfounded : ∀ v, call = some (.verifyPeer v) → Founded v (confirmed i))
    (hknown : ∀ row, call = some (.reconnectDevice row) →
      deviceIdFor crypto row.publicKey = row.id) : Sound keyPair confirmed t where
  devices := hdevices
  proven j v hj := by
    rw [hcalls] at hj
    rcases calls_set hj with ⟨-, hcall⟩ | ⟨-, hj⟩
    · exact hproven v hcall
    · exact hs.proven j v hj
  founded j v hj := by
    rw [hcalls] at hj
    rcases calls_set hj with ⟨rfl, hcall⟩ | ⟨-, hj⟩
    · exact hfounded v hcall
    · exact hs.founded j v hj
  known j row hj := by
    rw [hcalls] at hj
    rcases calls_set hj with ⟨-, hcall⟩ | ⟨-, hj⟩
    · exact hknown row hcall
    · exact hs.known j row hj

/-- A call begins or ends that neither verifies nor connects a device again. -/
theorem Sound.setOther (hs : Sound keyPair confirmed s) {i : Nat} {call : Option TrustCall}
    (hdevices : t.devices.Consistent crypto) (hcalls : t.calls = (s.set i call).calls)
    (hverify : ∀ v, call ≠ some (.verifyPeer v))
    (hreconnect : ∀ row, call ≠ some (.reconnectDevice row)) : Sound keyPair confirmed t := by
  refine hs.set hdevices hcalls ?_ ?_ ?_
  · exact fun v hv => absurd hv (hverify v)
  · exact fun v hv => absurd hv (hverify v)
  · exact fun row hrow => absurd hrow (hreconnect row)

theorem Sound.goOn (hs : Sound keyPair confirmed s) {i now : Nat} {v : Verification}
    {devices : Devices} {stage : VerifyStage} (hi : s.calls i = some (.verifyPeer v))
    (h : TrustRun.goOn v now s.devices = some (devices, stage)) :
    Sound keyPair confirmed
      { s.set i (some (.verifyPeer { v with stage })) with devices := devices } := by
  have hproven : (∃ reason, stage = .rejected reason) ∨ Proven keyPair v.input := by
    rcases goOn_cases h with ⟨-, hreason⟩ | ⟨-, hv, -, -⟩ | ⟨-, device, hv, -⟩ | ⟨-, hv, -⟩
    · exact .inl hreason
    all_goals
      refine .inr (hs.proven i v hi fun reason => ?_)
      rw [hv]
      nofun
  have hdevices : devices.Consistent crypto := by
    rcases goOn_cases h with ⟨rfl, -⟩ | ⟨rfl, -⟩ | ⟨rfl, -⟩ | ⟨rfl, hv, -⟩
    · exact hs.devices
    · exact hs.devices
    · exact (Devices.keep_markSeen _ _).consistent hs.devices
    · exact hs.devices.pair (hs.proven i v hi fun reason => by rw [hv]; nofun).1 _ _
  refine hs.set hdevices rfl ?_ ?_ nofun
  · intro v' hv' hstage
    cases hv'
    exact hproven.resolve_left fun ⟨reason, hreason⟩ => hstage reason hreason
  · intro v' hv'
    cases hv'
    exact (hs.founded i v hi).goOn h

theorem Sound.step {action : TrustAction} (hs : Sound keyPair confirmed s)
    (hconfirmed : ∀ i, action = .answer i true → confirmed i)
    (h : TrustRun.step keyPair s action = some t) : Sound keyPair confirmed t := by
  cases action <;> simp only [TrustRun.step] at h
  case verifyPeer input pairingMode =>
    cases h
    refine hs.set hs.devices rfl ?_ ?_ (by simp)
    · intro v hv hstage
      cases hv
      rcases verify_cases keyPair s.devices input with ⟨reason, hreason⟩ | ⟨-, hproven, -⟩
      · exact absurd hreason (hstage reason)
      · exact hproven
    · intro v hv
      cases hv
      exact founded_verify keyPair s.devices input pairingMode _
  case answer i answer =>
    split at h
    case h_1 input pairingMode seen hi =>
      cases h
      refine hs.set hs.devices rfl ?_ ?_ (by simp)
      · intro v hv _
        cases hv
        exact hs.proven i ⟨input, pairingMode, .asking, seen⟩ hi (by simp)
      · intro v hv
        cases hv
        have hfounded := hs.founded i _ hi
        cases answer with
        | false => exact hfounded
        | true => exact ⟨hfounded.1, hfounded.2, hconfirmed i rfl⟩
    case h_2 => cases h
  case disconnectDevice deviceId =>
    cases h
    exact ⟨(Devices.keep_revoke deviceId).consistent hs.devices, hs.proven, hs.founded,
      hs.known⟩
  case reconnectDevice deviceId =>
    split at h
    · cases h
      exact hs
    · rename_i known hknown
      cases h
      refine hs.set hs.devices rfl (by simp) (by simp) fun row hrow => ?_
      cases hrow
      exact hs.devices known (Table.mem_of_find hknown)
  case forgetDevice deviceId =>
    cases h
    exact hs.setOther hs.devices rfl (by simp) (by simp)
  case proceed i now =>
    split at h
    case h_1 v hi =>
      obtain ⟨⟨devices, stage⟩, hgo, rfl⟩ := Option.map_eq_some_iff.mp h
      exact hs.goOn hi hgo
    case h_2 known hi =>
      cases h
      exact hs.setOther (hs.devices.pair (hs.known i known hi) _ _) rfl
        (by simp) (by simp)
    case h_3 deviceId hi =>
      cases h
      exact hs.setOther ((Devices.keep_delete deviceId).consistent hs.devices) rfl
        (by simp) (by simp)
    case h_4 => cases h

theorem sound_play {devices : Devices} {actions : List TrustAction}
    (hdevices : devices.Consistent crypto)
    (h : play (TrustRun.step keyPair) (opened devices) actions = some s) :
    Sound keyPair (fun i => .answer i true ∈ actions) s := by
  refine play_keeps (fun action hmem u u' hu hstep => hu.step ?_ hstep) h
    ⟨hdevices, (fun _ _ h => nomatch h), (fun _ _ h => nomatch h), fun _ _ h => nomatch h⟩
  rintro i rfl
  exact hmem

end Sound

/-- What does not contradict a row keeps its key. -/
theorem keys_pair {devices : Devices} {deviceId : DeviceId} {publicKey : Bytes} {name : String}
    {pairedAt : Nat}
    (hkey : ∀ row, devices.find deviceId = some row → row.publicKey = publicKey) (k : DeviceId)
    (row row' : DeviceRow) (hrow : devices.find k = some row)
    (hrow' : (devices.pair deviceId publicKey name pairedAt).find k = some row') :
    row'.publicKey = row.publicKey := by
  rw [Devices.find_pair, hrow] at hrow'
  split at hrow' <;> rename_i hk <;> cases hrow'
  · subst hk
    exact (hkey row hrow).symm
  · rfl

section Pins

variable {confirmed : Nat → Prop} {action : TrustAction}

/-- A call of `verifyPeer` that goes on keeps what is revoked, unless it pairs. -/
theorem revoked_markSeen {devices : Devices} {deviceId k : DeviceId} {now : Nat} {row : DeviceRow}
    (hrow : devices.find k = some row) (hrevoked : row.trust = .revoked) :
    ∃ row', (devices.markSeen deviceId now).find k = some row' ∧ row'.trust = .revoked := by
  refine ⟨_, by rw [Devices.markSeen, Table.find_update, hrow]; rfl, ?_⟩
  split <;> exact hrevoked

theorem revoked_pair {devices : Devices} {deviceId k : DeviceId} {publicKey : Bytes}
    {name : String} {pairedAt : Nat} {row : DeviceRow}
    (hpaired : ∀ row, devices.find deviceId = some row → row.trust = .paired)
    (hrow : devices.find k = some row) (hrevoked : row.trust = .revoked) :
    ∃ row', (devices.pair deviceId publicKey name pairedAt).find k = some row' ∧
      row'.trust = .revoked := by
  refine ⟨row, ?_, hrevoked⟩
  rw [Devices.find_pair, if_neg, hrow]
  rintro rfl
  cases hrevoked.symm.trans (hpaired row hrow)

/-- An action that leaves the table as it is. -/
theorem pins_same (hs : s.devices.Consistent crypto) (h : t.devices = s.devices) :
    Pins crypto s action t where
  ids := h ▸ hs
  keys k row row' hrow hrow' := by
    rw [h] at hrow'
    exact (Devices.Keep.refl s.devices).keys hrow hrow'
  rejected _ _ := .inl h
  revoked _ _ k row hrow hrevoked := ⟨row, h ▸ hrow, hrevoked⟩

/-- An action of another call. -/
theorem pins_other (ht : t.devices.Consistent crypto)
    (hkeys : ∀ k row row', s.devices.find k = some row → t.devices.find k = some row' →
      row'.publicKey = row.publicKey) (hnone : ∀ i, ¬ s.OfVerifyPeer action i) :
    Pins crypto s action t :=
  ⟨ht, hkeys, fun i hi => absurd hi (hnone i), fun i hi => absurd hi (hnone i)⟩

theorem pins_goOn (hs : Sound keyPair confirmed s) {i now : Nat} {v : Verification}
    (hi : s.calls i = some (.verifyPeer v)) {devices : Devices} {stage : VerifyStage}
    (h : goOn v now s.devices = some (devices, stage))
    (hC : Agrees s.devices (.verifyPeer v)) : Pins crypto s (.proceed i now)
      { s.set i (some (.verifyPeer { v with stage })) with devices := devices } := by
  have ht := (hs.goOn hi h).devices
  have haccepts : ∀ deviceName, stage = .accepted deviceName →
      ∃ v', (s.set i (some (.verifyPeer { v with stage }))).calls i = some (.verifyPeer v') ∧
        v'.stage = .accepted deviceName := fun deviceName hstage =>
    ⟨{ v with stage }, Function.update_self .., hstage⟩
  rcases goOn_cases h with ⟨hsame, -⟩ | ⟨hsame, -⟩ | ⟨rfl, device, -, hstage⟩ | ⟨rfl, hv, hstage⟩
  · exact pins_same hs.devices hsame
  · exact pins_same hs.devices hsame
  · refine ⟨ht, fun k row row' => (Devices.keep_markSeen _ _).keys, ?_, ?_⟩
    · rintro j ⟨rfl, -⟩
      obtain ⟨v', hv', hstage'⟩ := haccepts device.name hstage
      exact .inr ⟨v', device.name, hv', hstage'⟩
    · exact fun _ _ k row hrow hrevoked => revoked_markSeen hrow hrevoked
  · rw [agrees_answered hv] at hC
    refine ⟨ht, keys_pair fun row hrow => (hC row hrow).2, ?_, ?_⟩
    · rintro j ⟨rfl, -⟩
      obtain ⟨v', hv', hstage'⟩ := haccepts v.input.claimedName hstage
      exact .inr ⟨v', v.input.claimedName, hv', hstage'⟩
    · exact fun _ _ k row hrow hrevoked =>
        revoked_pair (fun row hrow => (hC row hrow).1) hrow hrevoked

/-- An action keeps what is pinned when it finds nothing that it contradicts. -/
theorem Sound.pins (hs : Sound keyPair confirmed s) (ht : t.devices.Consistent crypto)
    (hC : s.Current action) (h : TrustRun.step keyPair s action = some t) :
    Pins crypto s action t := by
  cases action <;> simp only [TrustRun.step] at h
  case verifyPeer input pairingMode =>
    cases h
    exact pins_same hs.devices rfl
  case answer i answer =>
    split at h <;> cases h
    exact pins_same hs.devices rfl
  case disconnectDevice deviceId =>
    cases h
    exact pins_other ht (fun k row row' => (Devices.keep_revoke deviceId).keys) fun _ => id
  case reconnectDevice deviceId =>
    split at h <;> cases h <;> exact pins_same hs.devices rfl
  case forgetDevice deviceId =>
    cases h
    exact pins_same hs.devices rfl
  case proceed i now =>
    split at h
    case h_1 v hi =>
      obtain ⟨⟨devices, stage⟩, hgo, rfl⟩ := Option.map_eq_some_iff.mp h
      exact pins_goOn hs hi hgo (hC _ hi)
    case h_2 known hi =>
      cases h
      refine pins_other ht (keys_pair (hC _ hi)) ?_
      rintro j ⟨rfl, v, hv⟩
      cases hi.symm.trans hv
    case h_3 deviceId hi =>
      cases h
      refine pins_other ht (fun k row row' => (Devices.keep_delete deviceId).keys) ?_
      rintro j ⟨rfl, v, hv⟩
      cases hi.symm.trans hv
    case h_4 => cases h

/-- An action that keeps what is pinned has found nothing that it contradicts. -/
theorem Pins.current (hpins : Pins crypto s action t)
    (h : TrustRun.step keyPair s action = some t) : s.Current action := by
  cases action <;> try trivial
  case proceed i now =>
    intro call hi
    simp only [TrustRun.step, Option.mem_def.mp hi] at h
    cases call with
    | verifyPeer v =>
      by_cases hv : v.stage = .answered true
      · rw [agrees_answered hv]
        intro row hrow
        obtain ⟨⟨devices, stage⟩, hgo, rfl⟩ := Option.map_eq_some_iff.mp h
        have hdevices : devices =
            s.devices.pair v.input.deviceId v.input.publicKey v.input.claimedName now := by
          simp only [goOn, hv, Option.some.injEq, Prod.mk.injEq] at hgo
          exact hgo.1.symm
        have hrow' : devices.find v.input.deviceId = some { row with
            publicKey := v.input.publicKey, name := v.input.claimedName, trust := .paired
            pairedAt := now } := by
          rw [hdevices, Devices.find_pair, if_pos rfl, hrow]
          rfl
        refine ⟨?_, (hpins.keys _ row _ hrow hrow').symm⟩
        cases htrust : row.trust with
        | paired => rfl
        | revoked =>
          obtain ⟨row'', hrow'', hrevoked⟩ := hpins.revoked i ⟨rfl, v, hi⟩ _ row hrow htrust
          cases hrow'.symm.trans hrow''
          cases hrevoked
      · exact agrees_of_ne hv
    | reconnectDevice known =>
      cases h
      intro row hrow
      have hrow' : (s.devices.pair known.id known.publicKey known.name known.pairedAt).find
          known.id = some { row with
            publicKey := known.publicKey, name := known.name, trust := .paired
            pairedAt := known.pairedAt } := by
        rw [Devices.find_pair, if_pos rfl, hrow]
        rfl
      exact (hpins.keys known.id row _ hrow hrow').symm
    | forgetDevice deviceId => trivial

end Pins

theorem Pinned.meets {start : TrustRun} {actions : List TrustAction}
    (hpinned : Pinned keyPair start actions) (h : play (step keyPair) start actions = some t) :
    Meets (step keyPair) Current start actions := by
  rw [meets_iff h]
  intro before action after u hsplit hbefore
  obtain ⟨v, v', hv, hstep, -⟩ := play_around (hsplit ▸ h)
  cases hbefore.symm.trans hv
  exact (hpinned.pins before action after u v' hsplit hbefore hstep).current hstep

/-- In a run, what is pinned stays so, and nobody is let in without it, exactly when every call
that pairs finds no row, or one of the same key that is not revoked. -/
theorem pinned_iff (keyPair : DeviceKeyPair crypto) (devices : Devices)
    (hdevices : devices.Consistent crypto) (actions : List TrustAction) (t : TrustRun)
    (h : play (step keyPair) (opened devices) actions = some t) :
    Pinned keyPair (opened devices) actions ↔
      Meets (step keyPair) Current (opened devices) actions := by
  constructor
  · exact fun hpinned => hpinned.meets h
  · intro hmeets
    have hall := (meets_iff h).mp hmeets
    refine ⟨fun before action after u u' hsplit hbefore hstep => ?_,
      fun before after u i v deviceName hsplit hbefore hi hstage => ?_⟩
    · have hu' := sound_play hdevices (play_concat hbefore hstep)
      exact (sound_play hdevices hbefore).pins hu'.devices
        (hall before action after u hsplit hbefore) hstep
    · have hu := sound_play hdevices hbefore
      have hfounded := hu.founded i v hi
      unfold Founded at hfounded
      rw [hstage] at hfounded
      obtain ⟨hid, hsig⟩ := hu.proven i v hi fun reason => by rw [hstage]; nofun
      exact ⟨hid, hsig, hfounded⟩

/-- Keys are their own hashes, and every signature verifies. -/
def plainCrypto : Crypto := ⟨id, id, fun _ message => message, fun _ _ _ => true⟩

def ownKeyPair : DeviceKeyPair plainCrypto := generateDeviceKeyPair plainCrypto [1]

/-- The phone presents its key. -/
def phoneProof : PeerProof := ⟨⟨"02"⟩, [2], "Phone", [], []⟩

def phoneRow : DeviceRow := ⟨⟨"02"⟩, [2], "Phone", .paired, 0, none⟩

/-- The phone is met for the first time. -/
theorem pinned_iff_met : Pinned ownKeyPair (opened (Table.empty _))
    [.verifyPeer phoneProof true, .proceed 0 1, .answer 0 true, .proceed 0 2] := by
  have hplays : (play (step ownKeyPair) (opened (Table.empty _))
      [.verifyPeer phoneProof true, .proceed 0 1, .answer 0 true, .proceed 0 2]).isSome := by
    decide +kernel
  obtain ⟨t, ht⟩ := Option.isSome_iff_exists.mp hplays
  exact (pinned_iff ownKeyPair (Table.empty _) nofun _ t ht).mpr (by decide +kernel)

/-- The row comes back while a human is asked, and is revoked before the answer. -/
def outpaced : List TrustAction :=
  [.forgetDevice ⟨"02"⟩, .reconnectDevice ⟨"02"⟩, .proceed 0 1, .verifyPeer phoneProof true,
    .proceed 1 2, .proceed 2 3, .disconnectDevice ⟨"02"⟩, .answer 2 true, .proceed 2 4]

theorem not_pinned_outpaced : ¬ Pinned ownKeyPair (opened ((Table.empty _).insert phoneRow))
    outpaced := by
  have hplays : (play (step ownKeyPair) (opened ((Table.empty _).insert phoneRow))
      outpaced).isSome := by
    decide +kernel
  obtain ⟨t, ht⟩ := Option.isSome_iff_exists.mp hplays
  intro hpinned
  exact absurd (hpinned.meets ht) (by decide +kernel)

end TrustRun

end PassVault
