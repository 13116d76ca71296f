import PassVault.Core.Model
import PassVault.Lib.Digits

/-!
# Device identities

`packages/identity/src/identity.ts`: the id of a device is the hash of its public key, and a
challenge is a text in which each part can be read back.
-/

namespace PassVault

/-- What `@noble` computes. -/
structure Crypto where
  sha256 : Bytes → Bytes
  getPublicKey : (privateKey : Bytes) → Bytes
  sign : (privateKey message : Bytes) → Bytes
  verify : (publicKey message signature : Bytes) → Bool

/-- A signature verifies for the message that was signed, and for no other. -/
structure Crypto.Ideal (crypto : Crypto) : Prop where
  verify_sign : ∀ privateKey message, crypto.verify (crypto.getPublicKey privateKey) message
    (crypto.sign privateKey message) = true
  unambiguous : ∀ privateKey message message', crypto.verify (crypto.getPublicKey privateKey) message
    (crypto.sign privateKey message') = true → message = message'

def hexDigits : List Char := "0123456789abcdef".toList

def hexDigit (n : Nat) : Char := hexDigits.getD (n % 16) '0'

def hexOf (bytes : Bytes) : List Char :=
  bytes.flatMap fun byte => [hexDigit (byte.toNat / 16), hexDigit byte.toNat]

def toHex (bytes : Bytes) : String := String.ofList (hexOf bytes)

def deviceIdFor (crypto : Crypto) (publicKey : Bytes) : DeviceId :=
  ⟨toHex (crypto.sha256 publicKey)⟩

/-- The public key is that of the private one, and the id that of the public one. -/
structure DeviceKeyPair (crypto : Crypto) where
  deviceId : DeviceId
  publicKey : Bytes
  privateKey : Bytes
  publicKey_eq : publicKey = crypto.getPublicKey privateKey
  deviceId_eq : deviceId = deviceIdFor crypto publicKey

def generateDeviceKeyPair (crypto : Crypto) (privateKey : Bytes) : DeviceKeyPair crypto :=
  ⟨deviceIdFor crypto (crypto.getPublicKey privateKey), crypto.getPublicKey privateKey, privateKey,
    rfl, rfl⟩

/-- `TextEncoder`. A lone surrogate of a JavaScript string is encoded as U+FFFD is. -/
def utf8 (text : String) : Bytes := text.toUTF8.data.toList

def authChallengeText (nonce : Bytes) (challenger responder : DeviceId) : String :=
  "passvault/auth/v1\n" ++ challenger.value ++ "\n" ++ responder.value ++ "\n" ++ toHex nonce

/-- What a peer must prove to be let in. -/
def authChallengeBytes (nonce : Bytes) (challenger responder : DeviceId) : Bytes :=
  utf8 (authChallengeText nonce challenger responder)

theorem utf8_inj {s t : String} : utf8 s = utf8 t ↔ s = t := by
  constructor
  · intro h
    exact String.toByteArray_inj.mp (ByteArray.ext (Array.toList_inj.mp h))
  · rintro rfl
    rfl

theorem hexDigit_mem (n : Nat) : hexDigit n ∈ hexDigits := Digits.getD_mod_mem (by decide) n '0'

theorem hexDigit_inj {m n : Nat} (h : hexDigit m = hexDigit n) : m % 16 = n % 16 :=
  Digits.getD_mod_inj (α := Char) (by decide) (by decide) h

theorem newline_notMem_hexOf (bytes : Bytes) : '\n' ∉ hexOf bytes := by
  intro hmem
  obtain ⟨byte, -, hbyte⟩ := List.mem_flatMap.mp hmem
  have hnewline : '\n' ∉ hexDigits := by decide
  rcases List.mem_cons.mp hbyte with h | h
  · exact hnewline (h ▸ hexDigit_mem _)
  · exact hnewline (List.mem_singleton.mp h ▸ hexDigit_mem _)

theorem hexOf_inj {a b : Bytes} (h : hexOf a = hexOf b) : a = b := by
  induction a generalizing b with
  | nil =>
    cases b with
    | nil => rfl
    | cons y b => cases h
  | cons x a ih =>
    cases b with
    | nil => cases h
    | cons y b =>
      obtain ⟨hhigh, h⟩ := List.cons.inj h
      obtain ⟨hlow, h⟩ := List.cons.inj h
      have hhigh := hexDigit_inj hhigh
      have hlow := hexDigit_inj hlow
      have hx := x.toNat_lt
      have hy := y.toNat_lt
      have hxy : x = y := UInt8.toNat_inj.mp (by omega)
      rw [hxy, ih h]

theorem newline_notMem_deviceId {crypto : Crypto} (keyPair : DeviceKeyPair crypto) :
    '\n' ∉ keyPair.deviceId.value.toList := by
  rw [keyPair.deviceId_eq]
  simp only [deviceIdFor, toHex, String.toList_ofList]
  exact newline_notMem_hexOf _

/-- What follows the last occurrence of a separator, and what stands before it. -/
theorem split_last {α : Type} {c : α} {s s' t t' : List α} (ht : c ∉ t) (ht' : c ∉ t')
    (h : s ++ c :: t = s' ++ c :: t') : s = s' ∧ t = t' := by
  rcases List.append_eq_append_iff.mp h with ⟨between, hs, htail⟩ | ⟨between, hs, htail⟩
  · rcases List.cons_eq_append_iff.mp htail with ⟨rfl, hcons⟩ | ⟨rest, rfl, rfl⟩
    · exact ⟨by simpa using hs.symm, (List.cons.inj hcons).2.symm⟩
    · exact absurd (by simp) ht
  · rcases List.cons_eq_append_iff.mp htail with ⟨rfl, hcons⟩ | ⟨rest, rfl, rfl⟩
    · exact ⟨by simpa using hs, (List.cons.inj hcons).2⟩
    · exact absurd (by simp) ht'

/-- Whatever the challenger calls itself, a challenge says who asked whom, and with which nonce. -/
theorem authChallengeBytes_inj {nonce nonce' : Bytes} {challenger challenger' responder responder' :
    DeviceId} (hresponder : '\n' ∉ responder.value.toList)
    (hresponder' : '\n' ∉ responder'.value.toList)
    (h : authChallengeBytes nonce challenger responder =
      authChallengeBytes nonce' challenger' responder') :
    challenger = challenger' ∧ responder = responder' ∧ nonce = nonce' := by
  unfold authChallengeBytes at h
  have htext := congrArg String.toList (utf8_inj.mp h)
  unfold authChallengeText toHex at htext
  have hnewline : "\n".toList = ['\n'] := by decide
  simp only [String.toList_append, String.toList_ofList, hnewline, ← List.append_cons] at htext
  obtain ⟨htext, hhex⟩ := split_last (newline_notMem_hexOf nonce) (newline_notMem_hexOf nonce')
    htext
  obtain ⟨htext, hname⟩ := split_last hresponder hresponder' htext
  have hasker : challenger.value = challenger'.value :=
    String.toList_inj.mp (List.append_cancel_left htext)
  exact ⟨congrArg DeviceId.mk hasker, congrArg DeviceId.mk (String.toList_inj.mp hname),
    hexOf_inj hhex⟩

theorem Crypto.Ideal.sign_inj {crypto : Crypto} (ideal : crypto.Ideal)
    {privateKey message message' : Bytes}
    (h : crypto.sign privateKey message = crypto.sign privateKey message') : message = message' :=
  ideal.unambiguous privateKey message message' (h ▸ ideal.verify_sign privateKey message)

/-- A signature that a device makes for a challenge verifies for that challenge only. -/
theorem Crypto.Ideal.verify_challenge {crypto : Crypto} (ideal : crypto.Ideal)
    (challenger responder : DeviceKeyPair crypto) (claimed : DeviceId) (nonce claimedNonce : Bytes) :
    crypto.verify responder.publicKey
        (authChallengeBytes nonce challenger.deviceId responder.deviceId)
        (crypto.sign responder.privateKey
          (authChallengeBytes claimedNonce claimed responder.deviceId)) = true ↔
      claimed = challenger.deviceId ∧ claimedNonce = nonce := by
  have hnewline := newline_notMem_deviceId responder
  rw [responder.publicKey_eq]
  constructor
  · intro hverify
    obtain ⟨hclaimed, -, hnonce⟩ := authChallengeBytes_inj hnewline hnewline
      (ideal.unambiguous _ _ _ hverify)
    exact ⟨hclaimed.symm, hnonce.symm⟩
  · rintro ⟨rfl, rfl⟩
    exact ideal.verify_sign _ _

end PassVault
