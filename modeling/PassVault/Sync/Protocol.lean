import PassVault.Core.Framing
import PassVault.Lib.Digits
import PassVault.Lib.Words
import PassVault.Sync.Engine

/-!
# Control messages

The messages of `packages/core/src/protocol.ts` and the checks `parseMessage` makes on one of
the right shape. Keys, nonces and signatures travel as base64.
-/

namespace PassVault

def protocolVersion : Int := 1

namespace Limits

def maxHistoryNodes : Nat := 100000
def maxParentsPerRevision : Nat := 64
def maxWantedRevisions : Nat := 100000
def maxRevisionBytes : Nat := 512 * 1024 * 1024
def maxChunks : Nat := 262144
def maxStringLength : Nat := 4096

end Limits

structure RevisionHeader where
  transferSeq : Nat
  vaultId : VaultId
  revisionId : RevisionId
  hash : Sha256Hex
  sizeBytes : Nat
  parentIds : List RevisionId
  totalChunks : Nat
  message : Option String
deriving DecidableEq, Repr

inductive MessageType where
  | hello
  | auth
  | vaultSummary
  | historySummary
  | wantRevisions
  | revisionHeader
  | revisionAck
  | transferCancel
  | syncComplete
  | bye
  | error
deriving DecidableEq, Repr

inductive Message where
  | hello (version : Int) (deviceId : DeviceId) (deviceName publicKey nonce : String)
  | auth (signature : String)
  | vaultSummary (vaultId : VaultId) (vaultName : String) (headRevisionId : Option RevisionId)
      (revisionCount : Nat)
  | historySummary (vaultId : VaultId) (revisions : List HistorySummaryEntry)
  | wantRevisions (vaultId : VaultId) (revisionIds : List RevisionId)
  | revisionHeader (header : RevisionHeader)
  | revisionAck (revisionId : RevisionId) (accepted : Bool) (reason : Option String)
  | transferCancel (transferSeq : Nat) (reason : String)
  | syncComplete (vaultId : VaultId)
  | bye
  | error (code : ProtocolErrorCode) (message : String)
deriving DecidableEq, Repr

namespace MessageType

/-- `message.type` on the wire. -/
def name : MessageType → String
  | hello => "hello"
  | auth => "auth"
  | vaultSummary => "vault-summary"
  | historySummary => "history-summary"
  | wantRevisions => "want-revisions"
  | revisionHeader => "revision-header"
  | revisionAck => "revision-ack"
  | transferCancel => "transfer-cancel"
  | syncComplete => "sync-complete"
  | bye => "bye"
  | error => "error"

end MessageType

namespace Message

def type : Message → MessageType
  | hello .. => .hello
  | auth .. => .auth
  | vaultSummary .. => .vaultSummary
  | historySummary .. => .historySummary
  | wantRevisions .. => .wantRevisions
  | revisionHeader .. => .revisionHeader
  | revisionAck .. => .revisionAck
  | transferCancel .. => .transferCancel
  | syncComplete .. => .syncComplete
  | bye => .bye
  | error .. => .error

end Message

/-! ## Parsing -/

/-- Length in UTF-16 code units. -/
def utf16Length (text : String) : Nat :=
  (text.toList.map fun c => if c.toNat < 0x10000 then 1 else 2).sum

/-- `text.slice(0, maxStringLength)`; a character that straddles the cut is dropped. -/
def sliceText (text : String) : String :=
  String.ofList (go Limits.maxStringLength text.toList)
where
  go : Nat → List Char → List Char
  | _, [] => []
  | room, c :: rest =>
    let width := if c.toNat < 0x10000 then 1 else 2
    if width ≤ room then c :: go (room - width) rest else []

/-- A string that is non-empty and short enough to be worth keeping. -/
def str (text : String) : Option String :=
  if text.isEmpty ∨ Limits.maxStringLength < utf16Length text then none else some text

def hex64 (hash : Sha256Hex) : Bool :=
  hash.value.toList.length = 64 ∧
    hash.value.toList.all fun c => c.isDigit || ('a' ≤ c && c ≤ 'f')

def malformed (reason : String) : Failure :=
  .session (.protocol .malformedMessage) reason

def exceeded (reason : String) : Failure :=
  .session (.protocol .limitExceeded) reason

def require (condition : Bool) (failure : Failure) : Except Failure Unit :=
  if condition then .ok () else .error failure

theorem require_eq_ok {condition : Bool} {failure : Failure} {u : Unit} :
    require condition failure = .ok u ↔ condition = true := by
  cases condition <;> simp [require]

def isStr (text : String) : Bool := (str text).isSome

def parseSummaryEntry (entry : HistorySummaryEntry) : Except Failure Unit := do
  require (isStr entry.revisionId.value && hex64 entry.hash)
    (malformed "history-summary entry requires revisionId and a sha256 hash")
  require (entry.sizeBytes ≤ Limits.maxRevisionBytes)
    (malformed "history-summary entry has an invalid sizeBytes")
  require (entry.parentIds.length ≤ Limits.maxParentsPerRevision)
    (exceeded ("revision " ++ entry.revisionId.value ++ " declares " ++
      toString entry.parentIds.length ++ " parents"))
  require (entry.parentIds.all fun id => isStr id.value) (malformed "parentIds must be strings")

def parseHeader (header : RevisionHeader) : Except Failure Unit := do
  require (isStr header.vaultId.value && isStr header.revisionId.value && hex64 header.hash)
    (malformed "revision-header requires vaultId, revisionId and a sha256 hash")
  require (header.sizeBytes ≤ Limits.maxRevisionBytes)
    (exceeded "revision-header declares an unacceptable sizeBytes")
  require (header.totalChunks ≤ Limits.maxChunks)
    (exceeded "revision-header declares an unacceptable totalChunks")
  require (header.parentIds.length ≤ Limits.maxParentsPerRevision)
    (malformed "revision-header requires a bounded parentIds array")
  require (header.parentIds.all fun id => isStr id.value) (malformed "parentIds must be strings")
  require (header.message.all isStr) (malformed "revision-header message must be a bounded string")

/-- What `parseMessage` makes of an encoded message: itself, unless a field is out of bounds. -/
def parseMessage : Message → Except Failure Message
  | .hello version deviceId deviceName publicKey nonce => do
    require (isStr deviceId.value && isStr deviceName)
      (malformed "hello requires deviceId and deviceName")
    require (isStr publicKey && isStr nonce) (malformed "hello requires publicKey and nonce")
    return .hello version deviceId deviceName publicKey nonce
  | .auth signature => do
    require (isStr signature) (malformed "auth requires a signature")
    return .auth signature
  | .vaultSummary vaultId vaultName headRevisionId revisionCount => do
    require (isStr vaultId.value) (malformed "vault-summary requires vaultId")
    return .vaultSummary vaultId ((str vaultName).getD "Shared vault")
      (headRevisionId.filter fun id => isStr id.value) revisionCount
  | .historySummary vaultId revisions => do
    require (isStr vaultId.value) (malformed "history-summary requires vaultId")
    require (revisions.length ≤ Limits.maxHistoryNodes)
      (exceeded ("history-summary carries " ++ toString revisions.length ++ " revisions"))
    revisions.forM parseSummaryEntry
    return .historySummary vaultId revisions
  | .wantRevisions vaultId revisionIds => do
    require (isStr vaultId.value) (malformed "want-revisions requires vaultId")
    require (revisionIds.length ≤ Limits.maxWantedRevisions)
      (exceeded ("want-revisions asks for " ++ toString revisionIds.length ++ " revisions"))
    require (revisionIds.all fun id => isStr id.value) (malformed "revisionIds must be strings")
    return .wantRevisions vaultId revisionIds
  | .revisionHeader header => do
    parseHeader header
    return .revisionHeader header
  | .revisionAck revisionId accepted reason => do
    require (isStr revisionId.value) (malformed "revision-ack requires revisionId and accepted")
    return .revisionAck revisionId accepted (reason.map sliceText)
  | .transferCancel transferSeq reason =>
    return .transferCancel transferSeq ((str reason).getD "cancelled")
  | .syncComplete vaultId => do
    require (isStr vaultId.value) (malformed "sync-complete requires vaultId")
    return .syncComplete vaultId
  | .bye => return .bye
  | .error code message => return .error code ((str message).getD "")

/-- What is read has the type that was sent. -/
theorem type_parseMessage {sent message : Message} (h : parseMessage sent = .ok message) :
    message.type = sent.type := by
  cases sent with
  | transferCancel | bye | error =>
    cases h
    rfl
  | auth | vaultSummary | revisionHeader | revisionAck | syncComplete =>
    obtain ⟨_, -, h⟩ := bind_eq_ok.mp h
    cases h
    rfl
  | hello =>
    obtain ⟨_, -, h⟩ := bind_eq_ok.mp h
    obtain ⟨_, -, h⟩ := bind_eq_ok.mp h
    cases h
    rfl
  | historySummary | wantRevisions =>
    obtain ⟨_, -, h⟩ := bind_eq_ok.mp h
    obtain ⟨_, -, h⟩ := bind_eq_ok.mp h
    obtain ⟨_, -, h⟩ := bind_eq_ok.mp h
    cases h
    rfl

/-! ## Base64 -/

def base64Alphabet : List Char :=
  "ABCDEFGHIJKLMNOPQRSTUVWXYZabcdefghijklmnopqrstuvwxyz0123456789+/".toList

def base64Digit (n : Nat) : Char := base64Alphabet.getD (n % 64) 'A'

/-- `btoa`, on groups of three bytes. -/
def encodeBase64Digits : Bytes → List Char
  | [] => []
  | [a] => [base64Digit (a.toNat / 4), base64Digit (a.toNat * 16), '=', '=']
  | [a, b] =>
    [base64Digit (a.toNat / 4), base64Digit (a.toNat * 16 + b.toNat / 16),
      base64Digit (b.toNat * 4), '=']
  | a :: b :: c :: rest =>
    base64Digit (a.toNat / 4) :: base64Digit (a.toNat * 16 + b.toNat / 16) ::
      base64Digit (b.toNat * 4 + c.toNat / 64) :: base64Digit c.toNat :: encodeBase64Digits rest

def encodeBase64 (bytes : Bytes) : String := String.ofList (encodeBase64Digits bytes)

/-- The bytes of six-bit digits; left-over bits are dropped. -/
def base64Bytes : List Nat → Bytes
  | a :: b :: c :: d :: rest =>
    UInt8.ofNat (a * 4 + b / 16) :: UInt8.ofNat (b * 16 + c / 4) :: UInt8.ofNat (c * 64 + d) ::
      base64Bytes rest
  | [a, b, c] => [UInt8.ofNat (a * 4 + b / 16), UInt8.ofNat (b * 16 + c / 4)]
  | [a, b] => [UInt8.ofNat (a * 4 + b / 16)]
  | _ => []

/-- Up to two trailing `=` go when the length is a multiple of four. -/
def dropPadding (digits : List Char) : List Char :=
  if digits.length % 4 ≠ 0 then digits
  else
    match digits.reverse with
    | '=' :: '=' :: rest => rest.reverse
    | '=' :: rest => rest.reverse
    | _ => digits

/-- `atob`; `none` where it throws. -/
def decodeBase64 (text : String) : Option Bytes :=
  let isSpace := fun c : Char => c = ' ' ∨ c = '\t' ∨ c = '\n' ∨ c = '\x0c' ∨ c = '\r'
  let digits := dropPadding (text.toList.filter fun c => ¬ isSpace c)
  if digits.length % 4 = 1 then none
  else (digits.mapM fun c => base64Alphabet.idxOf? c).map base64Bytes

theorem base64Digit_inj {m n : Nat} (h : base64Digit m = base64Digit n) : m % 64 = n % 64 :=
  Digits.getD_mod_inj (α := Char) (by decide) (by decide) h

theorem base64Digit_ne_pad (n : Nat) : base64Digit n ≠ '=' := by
  have hmem : base64Digit n ∈ base64Alphabet := Digits.getD_mod_mem (by decide) n 'A'
  have hpad : '=' ∉ base64Alphabet := by decide
  exact fun h => hpad (h ▸ hmem)

theorem encodeBase64Digits_inj : ∀ {a b : Bytes}, encodeBase64Digits a = encodeBase64Digits b →
    a = b
  | [], [], _ => rfl
  | [x], [y], h => by
    have hx := x.toNat_lt
    have hy := y.toNat_lt
    simp only [encodeBase64Digits, List.cons.injEq, and_true] at h
    have hhigh := base64Digit_inj h.1
    have hlow := base64Digit_inj h.2
    have hxy : x = y := UInt8.toNat_inj.mp (by omega)
    rw [hxy]
  | [x, x'], [y, y'], h => by
    have hx := x.toNat_lt
    have hx' := x'.toNat_lt
    have hy := y.toNat_lt
    have hy' := y'.toNat_lt
    simp only [encodeBase64Digits, List.cons.injEq, and_true] at h
    have hhigh := base64Digit_inj h.1
    have hmiddle := base64Digit_inj h.2.1
    have hlow := base64Digit_inj h.2.2
    have hxy : x = y := UInt8.toNat_inj.mp (by omega)
    have hxy' : x' = y' := UInt8.toNat_inj.mp (by omega)
    rw [hxy, hxy']
  | x :: x' :: x'' :: rest, y :: y' :: y'' :: rest', h => by
    have hx := x.toNat_lt
    have hx' := x'.toNat_lt
    have hx'' := x''.toNat_lt
    have hy := y.toNat_lt
    have hy' := y'.toNat_lt
    have hy'' := y''.toNat_lt
    simp only [encodeBase64Digits, List.cons.injEq] at h
    obtain ⟨h1, h2, h3, h4, hrest⟩ := h
    have h1 := base64Digit_inj h1
    have h2 := base64Digit_inj h2
    have h3 := base64Digit_inj h3
    have h4 := base64Digit_inj h4
    have hxy : x = y := UInt8.toNat_inj.mp (by omega)
    have hxy' : x' = y' := UInt8.toNat_inj.mp (by omega)
    have hxy'' : x'' = y'' := UInt8.toNat_inj.mp (by omega)
    rw [hxy, hxy', hxy'', encodeBase64Digits_inj hrest]
  | [_], [_, _], h | [_, _], [_], h | [_], _ :: _ :: _ :: _, h | _ :: _ :: _ :: _, [_], h
  | [_, _], _ :: _ :: _ :: _, h | _ :: _ :: _ :: _, [_, _], h => by
    simp [encodeBase64Digits, base64Digit_ne_pad, (base64Digit_ne_pad _).symm] at h
  | [], [_], h | [], [_, _], h | [], _ :: _ :: _ :: _, h | [_], [], h | [_, _], [], h
  | _ :: _ :: _ :: _, [], h => by simp [encodeBase64Digits] at h

theorem encodeBase64_inj {a b : Bytes} (h : encodeBase64 a = encodeBase64 b) : a = b :=
  encodeBase64Digits_inj (String.ofList_injective h)

/-- `digits` are six-bit values that give the bytes back, padded to groups of four. -/
structure Base64Form (bytes : Bytes) (digits : List Char) (values : List Nat) (pad : List Char) :
    Prop where
  digits_eq : digits = values.map base64Digit ++ pad
  small : ∀ n ∈ values, n < 64
  padding : pad = [] ∨ pad = ['='] ∨ pad = ['=', '=']
  length : (values.length + pad.length) % 4 = 0
  bytes_eq : base64Bytes values = bytes

theorem base64Digit_mod (n : Nat) : base64Digit (n % 64) = base64Digit n := by
  rw [base64Digit, base64Digit, Nat.mod_mod]

theorem base64Form : ∀ bytes : Bytes, ∃ values pad,
    Base64Form bytes (encodeBase64Digits bytes) values pad
  | [] => ⟨[], [], rfl, nofun, .inl rfl, rfl, rfl⟩
  | [a] => by
    have ha := a.toNat_lt
    refine ⟨[a.toNat / 4, a.toNat * 16 % 64], ['=', '='], ?_, ?_, .inr (.inr rfl), by simp, ?_⟩
    · simp [encodeBase64Digits, base64Digit_mod]
    · simp
      omega
    · have hvalue : a.toNat / 4 * 4 + a.toNat * 16 % 64 / 16 = a.toNat := by omega
      rw [base64Bytes, hvalue, UInt8.ofNat_toNat]
  | [a, b] => by
    have ha := a.toNat_lt
    have hb := b.toNat_lt
    refine ⟨[a.toNat / 4, (a.toNat * 16 + b.toNat / 16) % 64, b.toNat * 4 % 64], ['='], ?_, ?_,
      .inr (.inl rfl), by simp, ?_⟩
    · simp [encodeBase64Digits, base64Digit_mod]
    · simp
      omega
    · have hfirst : a.toNat / 4 * 4 + (a.toNat * 16 + b.toNat / 16) % 64 / 16 = a.toNat := by omega
      have hsecond : (a.toNat * 16 + b.toNat / 16) % 64 * 16 + b.toNat * 4 % 64 / 4 =
          b.toNat + 256 * (a.toNat % 4) := by
        omega
      rw [base64Bytes, hfirst, hsecond]
      simp
  | a :: b :: c :: rest => by
    have ha := a.toNat_lt
    have hb := b.toNat_lt
    have hc := c.toNat_lt
    obtain ⟨values, pad, hform⟩ := base64Form rest
    refine ⟨a.toNat / 4 :: (a.toNat * 16 + b.toNat / 16) % 64 ::
      (b.toNat * 4 + c.toNat / 64) % 64 :: c.toNat % 64 :: values, pad, ?_, ?_, hform.padding, ?_, ?_⟩
    · simp [encodeBase64Digits, base64Digit_mod, hform.digits_eq]
    · simp
      exact ⟨by omega, by omega, by omega, by omega, hform.small⟩
    · have hlength := hform.length
      simp
      omega
    · have hfirst : a.toNat / 4 * 4 + (a.toNat * 16 + b.toNat / 16) % 64 / 16 = a.toNat := by omega
      have hsecond : (a.toNat * 16 + b.toNat / 16) % 64 * 16 + (b.toNat * 4 + c.toNat / 64) % 64 / 4 =
          b.toNat + 256 * (a.toNat % 4) := by
        omega
      have hthird : (b.toNat * 4 + c.toNat / 64) % 64 * 64 + c.toNat % 64 =
          c.toNat + 256 * (b.toNat % 16) := by
        omega
      rw [base64Bytes, hfirst, hsecond, hthird, hform.bytes_eq]
      simp

theorem idxOf_base64Digit {n : Nat} (hn : n < 64) : base64Alphabet.idxOf? (base64Digit n) = some n := by
  have hall : ∀ n < 64, base64Alphabet.idxOf? (base64Digit n) = some n := by decide
  exact hall n hn

theorem mapM_idxOf {values : List Nat} (h : ∀ n ∈ values, n < 64) :
    (values.map base64Digit).mapM (base64Alphabet.idxOf? ·) = some values := by
  induction values with
  | nil => rfl
  | cons n values ih =>
    obtain ⟨hn, hvalues⟩ := List.forall_mem_cons.mp h
    rw [List.map_cons, List.mapM_cons, idxOf_base64Digit hn, ih hvalues]
    rfl

theorem dropPadding_form {bytes : Bytes} {digits : List Char} {values : List Nat} {pad : List Char}
    (h : Base64Form bytes digits values pad) : dropPadding digits = values.map base64Digit := by
  have hlast : ∀ rest, (values.map base64Digit).reverse ≠ '=' :: rest := by
    intro rest heq
    have hmem : '=' ∈ (values.map base64Digit).reverse := by rw [heq]; exact List.mem_cons_self
    obtain ⟨n, -, hn⟩ := List.mem_map.mp (List.mem_reverse.mp hmem)
    exact base64Digit_ne_pad n hn
  rw [dropPadding, if_neg]
  · rw [h.digits_eq, List.reverse_append]
    rcases h.padding with hpad | hpad | hpad
    · rw [hpad, List.reverse_nil, List.nil_append, List.append_nil]
      split
      · rename_i heq
        exact absurd heq (hlast _)
      · rename_i heq
        exact absurd heq (hlast _)
      · rfl
    · rw [hpad, List.reverse_singleton, List.singleton_append]
      split
      · rename_i heq
        exact absurd (List.cons.inj heq).2 (hlast _)
      · rename_i heq
        rw [← (List.cons.inj heq).2, List.reverse_reverse]
      · rename_i hnot
        exact absurd rfl (hnot _)
    · rw [hpad]
      exact List.reverse_reverse _
  · rw [h.digits_eq]
    have hlength := h.length
    simp
    omega

theorem base64_not_blank {bytes : Bytes} {c : Char} (hc : c ∈ encodeBase64Digits bytes) :
    ¬ (c = ' ' ∨ c = '\t' ∨ c = '\n' ∨ c = '\x0c' ∨ c = '\r') := by
  obtain ⟨values, pad, hform⟩ := base64Form bytes
  have hall : ∀ c ∈ '=' :: base64Alphabet,
      ¬ (c = ' ' ∨ c = '\t' ∨ c = '\n' ∨ c = '\x0c' ∨ c = '\r') :=
    Words.forall_of_all (by decide)
  apply hall
  rw [hform.digits_eq, List.mem_append] at hc
  rcases hc with hc | hc
  · obtain ⟨n, -, rfl⟩ := List.mem_map.mp hc
    exact List.mem_cons_of_mem _ (Digits.getD_mod_mem (by decide) n 'A')
  · rcases hform.padding with hpad | hpad | hpad
    · rw [hpad] at hc
      cases hc
    · rw [hpad, List.mem_singleton] at hc
      rw [hc]
      exact List.mem_cons_self
    · rw [hpad] at hc
      simp at hc
      rw [hc]
      exact List.mem_cons_self

/-- What was encoded is decoded. -/
theorem decodeBase64_encodeBase64 (bytes : Bytes) :
    decodeBase64 (encodeBase64 bytes) = some bytes := by
  obtain ⟨values, pad, hform⟩ := base64Form bytes
  have hlength : values.length % 4 ≠ 1 := by
    have hfour := hform.length
    rcases hform.padding with hpad | hpad | hpad
    · rw [hpad, List.length_nil] at hfour
      omega
    · rw [hpad, List.length_singleton] at hfour
      omega
    · rw [hpad] at hfour
      simp at hfour
      omega
  rw [decodeBase64, encodeBase64, String.toList_ofList, List.filter_eq_self.mpr, dropPadding_form hform,
    if_neg (by simpa using hlength), mapM_idxOf hform.small, Option.map_some, hform.bytes_eq]
  intro c hc
  simpa using base64_not_blank hc

end PassVault
