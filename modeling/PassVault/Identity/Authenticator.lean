import PassVault.Identity.Identity
import PassVault.Lib.Table
import PassVault.Sync.Session

/-!
# Who is let in

`createAuthenticator` of `packages/identity/src/authenticator.ts`, with `evaluateTrust` of
`pairing.ts`. What `verifyPeer` writes to the trust store is left out: no session reads it.
-/

namespace PassVault

inductive DeviceTrust where
  | paired
  | revoked
deriving DecidableEq

structure PairedDevice where
  deviceId : DeviceId
  publicKey : Bytes
  name : String
  trust : DeviceTrust

abbrev TrustStore := Table PairedDevice.deviceId

/-- A claimed identity; the field is what `evaluateTrust` asserts. -/
structure PublicIdentity (crypto : Crypto) where
  deviceId : DeviceId
  publicKey : Bytes
  name : String
  deviceId_eq : deviceIdFor crypto publicKey = deviceId

inductive TrustDecision where
  | trusted (device : PairedDevice)
  | unknownDevice
  | revoked
  | keyMismatch

def evaluateTrust {crypto : Crypto} (store : TrustStore) (claimed : PublicIdentity crypto) :
    TrustDecision :=
  match store.find claimed.deviceId with
  | none => .unknownDevice
  | some known =>
    if known.trust = .revoked then .revoked
    else if known.publicKey ≠ claimed.publicKey then .keyMismatch
    else .trusted known

structure AuthenticatorOptions (crypto : Crypto) where
  keyPair : DeviceKeyPair crypto
  deviceName : String
  trustStore : TrustStore
  pairingMode : Bool
  /-- What a human answers. -/
  confirmPairing : Option (PublicIdentity crypto → Bool)

variable {crypto : Crypto}

/-- The name to show, or why the peer is rejected. -/
def verifyPeer (options : AuthenticatorOptions crypto) (deviceId : DeviceId)
    (publicKey nonce signature : Bytes) (claimedName : String) : Except String String :=
  if h : deviceIdFor crypto publicKey = deviceId then
    if crypto.verify publicKey (authChallengeBytes nonce options.keyPair.deviceId deviceId)
        signature then
      let claimed : PublicIdentity crypto := ⟨deviceId, publicKey, claimedName, h⟩
      match evaluateTrust options.trustStore claimed with
      | .trusted device => .ok device.name
      | .unknownDevice =>
        if options.pairingMode then
          if options.confirmPairing.any fun confirm => !confirm claimed then
            .error "the pairing numbers were not confirmed on this device"
          else .ok claimedName
        else .error "device is not paired with this one"
      | .revoked => .error "device has been revoked"
      | .keyMismatch =>
        .error "device key has changed since pairing; pair again to accept the new key"
    else .error "signature did not verify against the presented key"
  else .error "device id does not match the presented public key"

/-- `nonce` is what `newNonce` returns. -/
def createAuthenticator (options : AuthenticatorOptions crypto) (nonce : Bytes) :
    PeerAuthenticator where
  deviceId := options.keyPair.deviceId
  deviceName := options.deviceName
  publicKey := options.keyPair.publicKey
  nonce := nonce
  signChallenge nonce challenger responder :=
    crypto.sign options.keyPair.privateKey (authChallengeBytes nonce challenger responder)
  verifyPeer := verifyPeer options

/-- Whoever is accepted holds the key of its id, and has it sign the challenge. -/
theorem verifyPeer_ok {options : AuthenticatorOptions crypto} {deviceId : DeviceId}
    {publicKey nonce signature : Bytes} {claimedName name : String}
    (h : verifyPeer options deviceId publicKey nonce signature claimedName = .ok name) :
    deviceIdFor crypto publicKey = deviceId ∧
      crypto.verify publicKey (authChallengeBytes nonce options.keyPair.deviceId deviceId)
        signature = true := by
  unfold verifyPeer at h
  split at h
  · rename_i hid
    split at h
    · rename_i hverify
      exact ⟨hid, hverify⟩
    · cases h
  · cases h

end PassVault
