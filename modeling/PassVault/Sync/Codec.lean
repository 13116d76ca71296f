import PassVault.Core.Transfer
import PassVault.Sync.Protocol

/-!
# The control messages as JSON

`encodeMessage` and `parseMessage` of `packages/core/src/protocol.ts`, field by field. Strings are
sequences of UTF-16 code units, which need not form characters. `JSON.stringify` and `JSON.parse`
are parameters.
-/

namespace PassVault

/-! ## Strings -/

/-- A string of the source: its UTF-16 code units. -/
abbrev Text := List UInt16

def utf16Units (c : Char) : Text :=
  if c.toNat < 0x10000 then [UInt16.ofNat c.toNat]
  else
    [UInt16.ofNat (0xd800 + (c.toNat - 0x10000) / 0x400),
      UInt16.ofNat (0xdc00 + (c.toNat - 0x10000) % 0x400)]

def utf16 (text : String) : Text := text.toList.flatMap utf16Units

/-! ## JSON values -/

/-- A number of the source. Nothing is asked of one that is not an integer, so it is kept as it
was written; `-0` counts as `0`. -/
inductive Number where
  | integer (value : Int)
  | other (literal : Text)
deriving DecidableEq, Repr

/-- What `JSON.parse` returns. -/
inductive Json where
  | null
  | bool (value : Bool)
  | number (value : Number)
  | string (value : Text)
  | array (items : List Json)
  | object (fields : List (Text × Json))

/-- `value[name]`; `none` where that is `undefined`. -/
def field (fields : List (Text × Json)) (name : String) : Option Json :=
  (fields.find? (·.1 = utf16 name)).map (·.2)

/-! ## Messages -/

structure SummaryRow where
  revisionId : Text
  hash : Text
  sizeBytes : Nat
  parentIds : List Text
deriving DecidableEq, Repr

inductive ProtocolMessage where
  | hello (protocolVersion : Int) (deviceId deviceName publicKey nonce : Text)
  | auth (signature : Text)
  | vaultSummary (vaultId vaultName : Text) (headRevisionId : Option Text) (revisionCount : Nat)
  | historySummary (vaultId : Text) (revisions : List SummaryRow)
  | wantRevisions (vaultId : Text) (revisionIds : List Text)
  | revisionHeader (transferSeq : Nat) (vaultId revisionId hash : Text) (sizeBytes : Nat)
      (parentIds : List Text) (totalChunks : Nat) (message : Option Text)
  | revisionAck (revisionId : Text) (accepted : Bool) (reason : Option Text)
  | transferCancel (transferSeq : Nat) (reason : Text)
  | syncComplete (vaultId : Text)
  | bye
  | error (code : ProtocolErrorCode) (message : Text)
deriving DecidableEq, Repr

namespace ProtocolErrorCode

/-- `code` on the wire. -/
def name : ProtocolErrorCode → String
  | unsupportedVersion => "unsupported-version"
  | unauthorized => "unauthorized"
  | unknownVault => "unknown-vault"
  | malformedMessage => "malformed-message"
  | limitExceeded => "limit-exceeded"
  | internal => "internal"

/-- The codes that `parseError` knows. -/
def known : List ProtocolErrorCode :=
  [unsupportedVersion, unauthorized, unknownVault, malformedMessage, limitExceeded, internal]

end ProtocolErrorCode

/-! ## Encoding -/

def jsonNat (n : Nat) : Json := .number (.integer n)

/-- A field that is left out when it is `undefined`. -/
def optional (name : String) (value : Option Text) : List (Text × Json) :=
  value.toList.map fun text => (utf16 name, .string text)

/-- A message is an object with its type first. -/
def jsonMessage (type : MessageType) (fields : List (Text × Json)) : Json :=
  .object ((utf16 "type", .string (utf16 type.name)) :: fields)

def SummaryRow.toJson (row : SummaryRow) : Json :=
  .object [(utf16 "revisionId", .string row.revisionId), (utf16 "hash", .string row.hash),
    (utf16 "sizeBytes", jsonNat row.sizeBytes),
    (utf16 "parentIds", .array (row.parentIds.map .string))]

def ProtocolMessage.toJson : ProtocolMessage → Json
  | .hello protocolVersion deviceId deviceName publicKey nonce =>
    jsonMessage .hello [(utf16 "protocolVersion", .number (.integer protocolVersion)),
      (utf16 "deviceId", .string deviceId), (utf16 "deviceName", .string deviceName),
      (utf16 "publicKey", .string publicKey), (utf16 "nonce", .string nonce)]
  | .auth signature => jsonMessage .auth [(utf16 "signature", .string signature)]
  | .vaultSummary vaultId vaultName headRevisionId revisionCount =>
    jsonMessage .vaultSummary ([(utf16 "vaultId", .string vaultId),
      (utf16 "vaultName", .string vaultName), (utf16 "revisionCount", jsonNat revisionCount)] ++
      optional "headRevisionId" headRevisionId)
  | .historySummary vaultId revisions =>
    jsonMessage .historySummary [(utf16 "vaultId", .string vaultId),
      (utf16 "revisions", .array (revisions.map (·.toJson)))]
  | .wantRevisions vaultId revisionIds =>
    jsonMessage .wantRevisions [(utf16 "vaultId", .string vaultId),
      (utf16 "revisionIds", .array (revisionIds.map .string))]
  | .revisionHeader transferSeq vaultId revisionId hash sizeBytes parentIds totalChunks message =>
    jsonMessage .revisionHeader ([(utf16 "transferSeq", jsonNat transferSeq),
      (utf16 "vaultId", .string vaultId), (utf16 "revisionId", .string revisionId),
      (utf16 "hash", .string hash), (utf16 "sizeBytes", jsonNat sizeBytes),
      (utf16 "parentIds", .array (parentIds.map .string)),
      (utf16 "totalChunks", jsonNat totalChunks)] ++ optional "message" message)
  | .revisionAck revisionId accepted reason =>
    jsonMessage .revisionAck ([(utf16 "revisionId", .string revisionId),
      (utf16 "accepted", .bool accepted)] ++ optional "reason" reason)
  | .transferCancel transferSeq reason =>
    jsonMessage .transferCancel [(utf16 "transferSeq", jsonNat transferSeq),
      (utf16 "reason", .string reason)]
  | .syncComplete vaultId => jsonMessage .syncComplete [(utf16 "vaultId", .string vaultId)]
  | .bye => jsonMessage .bye []
  | .error code message =>
    jsonMessage .error [(utf16 "code", .string (utf16 code.name)),
      (utf16 "message", .string message)]

def encodeMessage (stringify : Json → Text) (message : ProtocolMessage) : Text :=
  stringify message.toJson

/-! ## Parsing -/

/-- A `ParseOutcome` that is not ok. -/
structure Rejection where
  code : ProtocolErrorCode
  reason : Text
deriving DecidableEq, Repr

abbrev ParseOutcome := Except Rejection ProtocolMessage

namespace Codec

def malformed (reason : String) : Rejection := ⟨.malformedMessage, utf16 reason⟩

def exceeded (reason : String) : Rejection := ⟨.limitExceeded, utf16 reason⟩

/-- Go on with a value that has passed its check. -/
def need {α : Type} (value : Option α) (rejection : Rejection) : Except Rejection α :=
  match value with
  | some a => .ok a
  | none => .error rejection

def str : Option Json → Option Text
  | some (.string text) =>
    if text.length = 0 ∨ Limits.maxStringLength < text.length then none else some text
  | _ => none

/-- `[a-f0-9]` -/
def isHexDigit (unit : UInt16) : Bool :=
  (48 ≤ unit.toNat && unit.toNat ≤ 57) || (97 ≤ unit.toNat && unit.toNat ≤ 102)

def hex64 : Option Json → Option Text
  | some (.string text) => if text.length = 64 ∧ text.all isHexDigit then some text else none
  | _ => none

/-- The value of a number that `isCount`. -/
def count : Option Json → Option Nat
  | some (.number (.integer value)) => if 0 ≤ value then some value.toNat else none
  | _ => none

/-- A count that is no more than a limit. -/
def countUpTo (limit : Nat) (value : Option Json) : Option Nat :=
  (count value).filter (· ≤ limit)

def integer : Option Json → Option Int
  | some (.number (.integer value)) => some value
  | _ => none

def array : Option Json → Option (List Json)
  | some (.array items) => some items
  | _ => none

def record : Json → Option (List (Text × Json))
  | .object fields => some fields
  | _ => none

def text : Option Json → Option Text
  | some (.string text) => some text
  | _ => none

def bool : Option Json → Option Bool
  | some (.bool value) => some value
  | _ => none

/-- The loops over `parentIds` and `revisionIds`. -/
def strings (items : List Json) (rejection : Rejection) : Except Rejection (List Text) :=
  items.mapM fun item => need (str (some item)) rejection

def parseHello (value : List (Text × Json)) : ParseOutcome := do
  let deviceId ← need (str (field value "deviceId"))
    (malformed "hello requires deviceId and deviceName")
  let deviceName ← need (str (field value "deviceName"))
    (malformed "hello requires deviceId and deviceName")
  let publicKey ← need (str (field value "publicKey"))
    (malformed "hello requires publicKey and nonce")
  let nonce ← need (str (field value "nonce")) (malformed "hello requires publicKey and nonce")
  let protocolVersion ← need (integer (field value "protocolVersion"))
    (malformed "hello requires an integer protocolVersion")
  return .hello protocolVersion deviceId deviceName publicKey nonce

def parseAuth (value : List (Text × Json)) : ParseOutcome := do
  let signature ← need (str (field value "signature")) (malformed "auth requires a signature")
  return .auth signature

def parseVaultSummary (value : List (Text × Json)) : ParseOutcome := do
  let vaultId ← need (str (field value "vaultId")) (malformed "vault-summary requires vaultId")
  let revisionCount ← need (count (field value "revisionCount"))
    (malformed "vault-summary requires a non-negative revisionCount")
  return .vaultSummary vaultId ((str (field value "vaultName")).getD (utf16 "Shared vault"))
    (str (field value "headRevisionId")) revisionCount

def parseRow (row : Json) : Except Rejection SummaryRow := do
  let row ← need (record row) (malformed "history-summary entry is not an object")
  let revisionId ← need (str (field row "revisionId"))
    (malformed "history-summary entry requires revisionId and a sha256 hash")
  let hash ← need (hex64 (field row "hash"))
    (malformed "history-summary entry requires revisionId and a sha256 hash")
  let sizeBytes ← need (countUpTo Limits.maxRevisionBytes (field row "sizeBytes"))
    (malformed "history-summary entry has an invalid sizeBytes")
  let parents ← need (array (field row "parentIds"))
    (malformed "history-summary entry requires parentIds")
  if Limits.maxParentsPerRevision < parents.length then
    throw ⟨.limitExceeded, utf16 "revision " ++ revisionId ++ utf16 " declares " ++
      utf16 (toString parents.length) ++ utf16 " parents"⟩
  let parentIds ← strings parents (malformed "parentIds must be strings")
  return ⟨revisionId, hash, sizeBytes, parentIds⟩

def parseHistorySummary (value : List (Text × Json)) : ParseOutcome := do
  let vaultId ← need (str (field value "vaultId")) (malformed "history-summary requires vaultId")
  let rows ← need (array (field value "revisions"))
    (malformed "history-summary requires a revisions array")
  if Limits.maxHistoryNodes < rows.length then
    throw (exceeded ("history-summary carries " ++ toString rows.length ++ " revisions"))
  let revisions ← rows.mapM parseRow
  return .historySummary vaultId revisions

def parseWantRevisions (value : List (Text × Json)) : ParseOutcome := do
  let vaultId ← need (str (field value "vaultId")) (malformed "want-revisions requires vaultId")
  let ids ← need (array (field value "revisionIds"))
    (malformed "want-revisions requires a revisionIds array")
  if Limits.maxWantedRevisions < ids.length then
    throw (exceeded ("want-revisions asks for " ++ toString ids.length ++ " revisions"))
  let revisionIds ← strings ids (malformed "revisionIds must be strings")
  return .wantRevisions vaultId revisionIds

def parseRevisionHeader (value : List (Text × Json)) : ParseOutcome := do
  let vaultId ← need (str (field value "vaultId"))
    (malformed "revision-header requires vaultId, revisionId and a sha256 hash")
  let revisionId ← need (str (field value "revisionId"))
    (malformed "revision-header requires vaultId, revisionId and a sha256 hash")
  let hash ← need (hex64 (field value "hash"))
    (malformed "revision-header requires vaultId, revisionId and a sha256 hash")
  let transferSeq ← need (count (field value "transferSeq"))
    (malformed "revision-header requires a transferSeq")
  let sizeBytes ← need (countUpTo Limits.maxRevisionBytes (field value "sizeBytes"))
    (exceeded "revision-header declares an unacceptable sizeBytes")
  let totalChunks ← need (countUpTo Limits.maxChunks (field value "totalChunks"))
    (exceeded "revision-header declares an unacceptable totalChunks")
  let parents ← need ((array (field value "parentIds")).filter
      (·.length ≤ Limits.maxParentsPerRevision))
    (malformed "revision-header requires a bounded parentIds array")
  let parentIds ← strings parents (malformed "parentIds must be strings")
  if (field value "message").isSome ∧ str (field value "message") = none then
    throw (malformed "revision-header message must be a bounded string")
  return .revisionHeader transferSeq vaultId revisionId hash sizeBytes parentIds totalChunks
    (text (field value "message"))

def parseRevisionAck (value : List (Text × Json)) : ParseOutcome := do
  let revisionId ← need (str (field value "revisionId"))
    (malformed "revision-ack requires revisionId and accepted")
  let accepted ← need (bool (field value "accepted"))
    (malformed "revision-ack requires revisionId and accepted")
  return .revisionAck revisionId accepted
    ((text (field value "reason")).map (·.take Limits.maxStringLength))

def parseTransferCancel (value : List (Text × Json)) : ParseOutcome := do
  let transferSeq ← need (count (field value "transferSeq"))
    (malformed "transfer-cancel requires a transferSeq")
  return .transferCancel transferSeq ((str (field value "reason")).getD (utf16 "cancelled"))

def parseSyncComplete (value : List (Text × Json)) : ParseOutcome := do
  let vaultId ← need (str (field value "vaultId")) (malformed "sync-complete requires vaultId")
  return .syncComplete vaultId

def parseError (value : List (Text × Json)) : ParseOutcome :=
  let code := (str (field value "code")).getD (utf16 "internal")
  let message := (str (field value "message")).getD []
  return .error ((ProtocolErrorCode.known.find? (utf16 ·.name = code)).getD .internal) message

/-- The parser for the messages of a type. -/
def parserFor : MessageType → List (Text × Json) → ParseOutcome
  | .hello => parseHello
  | .auth => parseAuth
  | .vaultSummary => parseVaultSummary
  | .historySummary => parseHistorySummary
  | .wantRevisions => parseWantRevisions
  | .revisionHeader => parseRevisionHeader
  | .revisionAck => parseRevisionAck
  | .transferCancel => parseTransferCancel
  | .syncComplete => parseSyncComplete
  | .bye => fun _ => return .bye
  | .error => parseError

/-- The cases of `switch (value["type"])`. -/
def types : List MessageType :=
  [.hello, .auth, .vaultSummary, .historySummary, .wantRevisions, .revisionHeader, .revisionAck,
    .transferCancel, .syncComplete, .bye, .error]

/-- `parseMessage`, from the value that `JSON.parse` returns. -/
def parseValue (value : Json) : ParseOutcome := do
  let value ← need (record value) (malformed "message has no type")
  let typeName ← need (text (field value "type")) (malformed "message has no type")
  match types.find? (utf16 ·.name = typeName) with
  | some type => parserFor type value
  | none => throw ⟨.malformedMessage, utf16 "unknown message type " ++ typeName⟩

/-- `parse` is `JSON.parse`, `none` where it throws. -/
def parseMessage (parse : Text → Option Json) (raw : Text) : ParseOutcome := do
  let value ← need (parse raw) (malformed "message is not valid JSON")
  parseValue value

/-! ## Bounds -/

/-- A string field that is present. -/
def Bounded (text : Text) : Prop := text ≠ [] ∧ text.length ≤ Limits.maxStringLength

/-- 64 lower-case hex digits. -/
def IsHash (text : Text) : Prop := text.length = 64 ∧ ∀ unit ∈ text, isHexDigit unit = true

def BoundedParents (ids : List Text) : Prop :=
  ids.length ≤ Limits.maxParentsPerRevision ∧ ∀ id ∈ ids, Bounded id

structure BoundedRow (row : SummaryRow) : Prop where
  revisionId : Bounded row.revisionId
  hash : IsHash row.hash
  sizeBytes : row.sizeBytes ≤ Limits.maxRevisionBytes
  parentIds : BoundedParents row.parentIds

/-- The bounds that the protocol declares. -/
def InBounds : ProtocolMessage → Prop
  | .hello _ deviceId deviceName publicKey nonce =>
    Bounded deviceId ∧ Bounded deviceName ∧ Bounded publicKey ∧ Bounded nonce
  | .auth signature => Bounded signature
  | .vaultSummary vaultId vaultName headRevisionId _ =>
    Bounded vaultId ∧ Bounded vaultName ∧ ∀ id ∈ headRevisionId, Bounded id
  | .historySummary vaultId revisions =>
    Bounded vaultId ∧ revisions.length ≤ Limits.maxHistoryNodes ∧ ∀ row ∈ revisions, BoundedRow row
  | .wantRevisions vaultId revisionIds =>
    Bounded vaultId ∧ revisionIds.length ≤ Limits.maxWantedRevisions ∧
      ∀ id ∈ revisionIds, Bounded id
  | .revisionHeader _ vaultId revisionId hash sizeBytes parentIds totalChunks message =>
    Bounded vaultId ∧ Bounded revisionId ∧ IsHash hash ∧ sizeBytes ≤ Limits.maxRevisionBytes ∧
      BoundedParents parentIds ∧ totalChunks ≤ Limits.maxChunks ∧ ∀ text ∈ message, Bounded text
  | .revisionAck revisionId _ reason =>
    Bounded revisionId ∧ ∀ text ∈ reason, text.length ≤ Limits.maxStringLength
  | .transferCancel _ reason => Bounded reason
  | .syncComplete vaultId => Bounded vaultId
  | .bye => True
  | .error _ message => message.length ≤ Limits.maxStringLength

/-! ## Fields -/

theorem charRange (c : Char) : c.toNat < 0xd800 ∨ 0xdfff < c.toNat ∧ c.toNat < 0x110000 := c.valid

theorem unit_inj {m n : Nat} (h : UInt16.ofNat m = UInt16.ofNat n) (hm : m < 0x10000)
    (hn : n < 0x10000) : m = n := by
  have h := congrArg UInt16.toNat h
  simp only [UInt16.toNat_ofNat'] at h
  omega

/-- The units of a character tell where it ends. -/
theorem utf16Units_append {c d : Char} {rest rest' : Text}
    (h : utf16Units c ++ rest = utf16Units d ++ rest') : c = d ∧ rest = rest' := by
  have hc := charRange c
  have hd := charRange d
  have hchar : c.toNat = d.toNat ∧ rest = rest' := by
    unfold utf16Units at h
    split at h
    · split at h
      · simp only [List.cons_append, List.nil_append, List.cons.injEq] at h
        exact ⟨unit_inj h.1 (by omega) (by omega), h.2⟩
      · simp only [List.cons_append, List.nil_append, List.cons.injEq] at h
        have := unit_inj h.1 (by omega) (by omega)
        omega
    · split at h
      · simp only [List.cons_append, List.nil_append, List.cons.injEq] at h
        have := unit_inj h.1 (by omega) (by omega)
        omega
      · simp only [List.cons_append, List.nil_append, List.cons.injEq] at h
        have hhigh := unit_inj h.1 (by omega) (by omega)
        have hlow := unit_inj h.2.1 (by omega) (by omega)
        exact ⟨by omega, h.2.2⟩
  exact ⟨Char.toNat_inj.mp hchar.1, hchar.2⟩

theorem utf16Units_ne_nil (c : Char) : utf16Units c ≠ [] := by
  unfold utf16Units
  split
  · simp
  · simp

theorem utf16_inj {a b : String} : utf16 a = utf16 b ↔ a = b := by
  have hlists : ∀ l l' : List Char, l.flatMap utf16Units = l'.flatMap utf16Units → l = l' := by
    intro l
    induction l with
    | nil =>
      intro l' h
      cases l' with
      | nil => rfl
      | cons d rest =>
        rw [List.flatMap_nil, List.flatMap_cons, eq_comm, List.append_eq_nil_iff] at h
        exact (utf16Units_ne_nil d h.1).elim
    | cons c rest ih =>
      intro l' h
      cases l' with
      | nil =>
        rw [List.flatMap_nil, List.flatMap_cons, List.append_eq_nil_iff] at h
        exact (utf16Units_ne_nil c h.1).elim
      | cons d rest' =>
        rw [List.flatMap_cons, List.flatMap_cons] at h
        obtain ⟨rfl, htail⟩ := utf16Units_append h
        rw [ih rest' htail]
  refine ⟨fun h => ?_, fun h => h ▸ rfl⟩
  exact String.toList_inj.mp (hlists _ _ h)

theorem field_cons (other name : String) (value : Json) (rest : List (Text × Json)) :
    field ((utf16 other, value) :: rest) name =
      if other = name then some value else field rest name := by
  by_cases hname : other = name
  · simp [field, hname]
  · simp [field, hname, utf16_inj]

theorem field_optional (other name : String) (value : Option Text) :
    field (optional other value) name = if other = name then value.map .string else none := by
  cases value with
  | none => simp [optional, field]
  | some text =>
    change field [(utf16 other, .string text)] name = _
    rw [field_cons]
    rfl

theorem str_string {text : Text} (h : Bounded text) : str (some (.string text)) = some text := by
  obtain ⟨hne, hle⟩ := h
  have hlength : ¬ (text.length = 0 ∨ Limits.maxStringLength < text.length) := by
    rw [List.length_eq_zero_iff]
    rintro (hnil | hlong)
    · exact hne hnil
    · omega
  rw [str, if_neg hlength]

theorem str_eq_some {value : Option Json} {text : Text} (h : str value = some text) :
    value = some (.string text) ∧ Bounded text := by
  unfold str at h
  split at h
  · split at h
    · cases h
    · rename_i hlength
      cases h
      exact ⟨rfl, fun hnil => hlength (.inl (by simp [hnil])), by omega⟩
  · cases h

theorem str_optional {value : Option Text} (h : ∀ text ∈ value, Bounded text) :
    str (value.map .string) = value := by
  cases value with
  | none => rfl
  | some text => exact str_string (h text rfl)

@[simp] theorem text_optional (value : Option Text) :
    text (value.map .string) = value := by
  cases value with
  | none => rfl
  | some text => rfl

theorem text_eq_some {value : Option Json} {kept : Text} (h : text value = some kept) :
    value = some (.string kept) := by
  unfold text at h
  split at h
  · cases h
    rfl
  · cases h

theorem hex64_string {text : Text} (h : IsHash text) : hex64 (some (.string text)) = some text := by
  have hall : text.length = 64 ∧ text.all isHexDigit = true :=
    ⟨h.1, List.all_eq_true.mpr h.2⟩
  rw [hex64, if_pos hall]

theorem hex64_eq_some {value : Option Json} {text : Text} (h : hex64 value = some text) :
    IsHash text := by
  unfold hex64 at h
  split at h
  · split at h
    · rename_i hhash
      cases h
      exact ⟨hhash.1, List.all_eq_true.mp hhash.2⟩
    · cases h
  · cases h

@[simp] theorem count_nat (n : Nat) : count (some (jsonNat n)) = some n := by
  simp [count, jsonNat]

theorem countUpTo_nat {limit n : Nat} (h : n ≤ limit) :
    countUpTo limit (some (jsonNat n)) = some n := by
  simp [countUpTo, h]

theorem countUpTo_eq_some {limit n : Nat} {value : Option Json}
    (h : countUpTo limit value = some n) : n ≤ limit := by
  simpa using (Option.filter_eq_some_iff.mp h).2

theorem need_eq_ok {α : Type} {value : Option α} {rejection : Rejection} {a : α} :
    need value rejection = .ok a ↔ value = some a := by
  cases value with
  | none => simp [need]
  | some b => simp [need]

@[simp] theorem need_some {α : Type} (a : α) (rejection : Rejection) :
    need (some a) rejection = .ok a := rfl

@[simp] theorem ok_bind {α β : Type} (a : α) (f : α → Except Rejection β) :
    Except.ok a >>= f = f a := rfl

theorem strings_string {ids : List Text} (h : ∀ id ∈ ids, Bounded id) (rejection : Rejection) :
    strings (ids.map .string) rejection = .ok ids := by
  apply mapM_eq_ok.mpr
  rw [List.forall₂_map_left_iff, List.forall₂_same]
  intro id hid
  exact need_eq_ok.mpr (str_string (h id hid))

theorem strings_eq_ok {items : List Json} {rejection : Rejection} {ids : List Text}
    (h : strings items rejection = .ok ids) :
    ids.length = items.length ∧ ∀ id ∈ ids, Bounded id := by
  have hall := mapM_eq_ok.mp h
  refine ⟨hall.length_eq.symm, fun id hid => ?_⟩
  obtain ⟨item, -, hitem⟩ := (forall₂_mem hall).1 id hid
  exact (str_eq_some (need_eq_ok.mp hitem)).2

/-! ## Parsing what was encoded -/

theorem parseRow_toJson {row : SummaryRow} (h : BoundedRow row) : parseRow row.toJson = .ok row := by
  simp [parseRow, SummaryRow.toJson, record, field_cons, str_string h.revisionId,
    hex64_string h.hash, countUpTo_nat h.sizeBytes, array, Nat.not_lt.mpr h.parentIds.1,
    strings_string h.parentIds.2]

theorem parserFor_type (type : MessageType) (fields : List (Text × Json)) :
    parseValue (jsonMessage type fields) =
      parserFor type ((utf16 "type", .string (utf16 type.name)) :: fields) := by
  have hfind : types.find? (utf16 ·.name = utf16 type.name) = some type := by
    cases type <;> simp [types, utf16_inj, MessageType.name]
  simp [parseValue, jsonMessage, record, text, field_cons, hfind]

/-- What is encoded within the bounds is parsed to itself. -/
theorem parseValue_toJson {message : ProtocolMessage} (h : InBounds message) :
    parseValue message.toJson = .ok message := by
  cases message with
  | hello protocolVersion deviceId deviceName publicKey nonce =>
    obtain ⟨hdevice, hname, hkey, hnonce⟩ := h
    rw [ProtocolMessage.toJson, parserFor_type]
    simp [parserFor, parseHello, field_cons, str_string hdevice, str_string hname,
      str_string hkey, str_string hnonce, integer]
  | auth signature =>
    rw [ProtocolMessage.toJson, parserFor_type]
    simp [parserFor, parseAuth, field_cons, str_string h]
  | vaultSummary vaultId vaultName headRevisionId revisionCount =>
    obtain ⟨hvault, hname, hhead⟩ := h
    rw [ProtocolMessage.toJson, parserFor_type]
    simp [parserFor, parseVaultSummary, field_cons, field_optional, str_string hvault,
      str_string hname, str_optional hhead]
  | historySummary vaultId revisions =>
    obtain ⟨hvault, hlength, hrows⟩ := h
    have hparse : (revisions.map (·.toJson)).mapM parseRow = .ok revisions := by
      apply mapM_eq_ok.mpr
      rw [List.forall₂_map_left_iff, List.forall₂_same]
      exact fun row hrow => parseRow_toJson (hrows row hrow)
    rw [ProtocolMessage.toJson, parserFor_type]
    simp [parserFor, parseHistorySummary, field_cons, str_string hvault, array,
      Nat.not_lt.mpr hlength, hparse]
  | wantRevisions vaultId revisionIds =>
    obtain ⟨hvault, hlength, hids⟩ := h
    rw [ProtocolMessage.toJson, parserFor_type]
    simp [parserFor, parseWantRevisions, field_cons, str_string hvault, array,
      Nat.not_lt.mpr hlength, strings_string hids]
  | revisionHeader transferSeq vaultId revisionId hash sizeBytes parentIds totalChunks message =>
    obtain ⟨hvault, hrevision, hhash, hsize, hparents, hchunks, hmessage⟩ := h
    rw [ProtocolMessage.toJson, parserFor_type]
    have hbounded : ¬ (message.isSome = true ∧ message = none) := by
      rintro ⟨hsome, rfl⟩
      cases hsome
    have hfilter : (some (parentIds.map Json.string)).filter
        (·.length ≤ Limits.maxParentsPerRevision) = some (parentIds.map .string) := by
      simp [Option.filter, hparents.1]
    simp [parserFor, parseRevisionHeader, field_cons, field_optional, str_string hvault,
      str_string hrevision, hex64_string hhash, countUpTo_nat hsize, countUpTo_nat hchunks, array,
      hfilter, strings_string hparents.2, str_optional hmessage, hbounded]
  | revisionAck revisionId accepted reason =>
    obtain ⟨hrevision, hreason⟩ := h
    have htake : reason.map (·.take Limits.maxStringLength) = reason := by
      cases reason with
      | none => rfl
      | some text => exact congrArg some (List.take_of_length_le (hreason text rfl))
    rw [ProtocolMessage.toJson, parserFor_type]
    simp [parserFor, parseRevisionAck, field_cons, field_optional, str_string hrevision, bool,
      htake]
  | transferCancel transferSeq reason =>
    rw [ProtocolMessage.toJson, parserFor_type]
    simp [parserFor, parseTransferCancel, field_cons, str_string h]
  | syncComplete vaultId =>
    rw [ProtocolMessage.toJson, parserFor_type]
    simp [parserFor, parseSyncComplete, field_cons, str_string h]
  | bye => exact parserFor_type .bye []
  | error code message =>
    have hcode : Bounded (utf16 code.name) := by
      cases code <;> exact ⟨by decide, by decide⟩
    have hfind : ProtocolErrorCode.known.find? (utf16 ·.name = utf16 code.name) = some code := by
      cases code <;> simp [ProtocolErrorCode.known, utf16_inj, ProtocolErrorCode.name]
    have hmessage : (str (some (.string message))).getD [] = message := by
      cases message with
      | nil => rfl
      | cons unit rest => rw [str_string ⟨by simp, h⟩, Option.getD_some]
    rw [ProtocolMessage.toJson, parserFor_type]
    simp [parserFor, parseError, field_cons, str_string hcode, hfind, hmessage]
    rfl

/-! ## What is parsed is within the bounds -/

theorem boundedRow_of_parseRow {value : Json} {row : SummaryRow} (h : parseRow value = .ok row) :
    BoundedRow row := by
  simp only [parseRow, bind_eq_ok, need_eq_ok] at h
  obtain ⟨fields, -, revisionId, hrevision, hash, hhash, sizeBytes, hsize, parents, -, h⟩ := h
  split at h
  · cases h
  · rename_i hlength
    obtain ⟨parentIds, hparents, h⟩ := bind_eq_ok.mp h
    cases h
    obtain ⟨hsame, hbounded⟩ := strings_eq_ok hparents
    have hcount : parentIds.length ≤ Limits.maxParentsPerRevision := by omega
    exact ⟨(str_eq_some hrevision).2, hex64_eq_some hhash, countUpTo_eq_some hsize, hcount, hbounded⟩

theorem inBounds_of_parserFor {type : MessageType} {value : List (Text × Json)}
    {message : ProtocolMessage} (h : parserFor type value = .ok message) : InBounds message := by
  cases type with
  | hello =>
    simp only [parserFor, parseHello, bind_eq_ok, need_eq_ok] at h
    obtain ⟨_, hdevice, _, hname, _, hkey, _, hnonce, _, -, h⟩ := h
    cases h
    exact ⟨(str_eq_some hdevice).2, (str_eq_some hname).2, (str_eq_some hkey).2,
      (str_eq_some hnonce).2⟩
  | auth =>
    simp only [parserFor, parseAuth, bind_eq_ok, need_eq_ok] at h
    obtain ⟨_, hsignature, h⟩ := h
    cases h
    exact (str_eq_some hsignature).2
  | vaultSummary =>
    simp only [parserFor, parseVaultSummary, bind_eq_ok, need_eq_ok] at h
    obtain ⟨_, hvault, _, -, h⟩ := h
    cases h
    refine ⟨(str_eq_some hvault).2, ?_, fun id hid => (str_eq_some hid).2⟩
    cases hname : str (field value "vaultName") with
    | none => exact ⟨by decide, by decide⟩
    | some name => exact (str_eq_some hname).2
  | historySummary =>
    simp only [parserFor, parseHistorySummary, bind_eq_ok, need_eq_ok] at h
    obtain ⟨_, hvault, rows, -, h⟩ := h
    split at h
    · cases h
    · rename_i hlength
      obtain ⟨revisions, hrows, h⟩ := bind_eq_ok.mp h
      cases h
      have hall := mapM_eq_ok.mp hrows
      refine ⟨(str_eq_some hvault).2, ?_, fun row hrow => ?_⟩
      · rw [← hall.length_eq]
        omega
      · obtain ⟨_, -, hparse⟩ := (forall₂_mem hall).1 row hrow
        exact boundedRow_of_parseRow hparse
  | wantRevisions =>
    simp only [parserFor, parseWantRevisions, bind_eq_ok, need_eq_ok] at h
    obtain ⟨_, hvault, ids, -, h⟩ := h
    split at h
    · cases h
    · rename_i hlength
      obtain ⟨revisionIds, hids, h⟩ := bind_eq_ok.mp h
      cases h
      obtain ⟨hsame, hbounded⟩ := strings_eq_ok hids
      exact ⟨(str_eq_some hvault).2, by omega, hbounded⟩
  | revisionHeader =>
    simp only [parserFor, parseRevisionHeader, bind_eq_ok, need_eq_ok] at h
    obtain ⟨_, hvault, _, hrevision, _, hhash, _, -, _, hsize, _, hchunks, parents, hcount,
      parentIds, hparents, h⟩ := h
    split at h
    · cases h
    · rename_i hmessage
      cases h
      obtain ⟨hsame, hbounded⟩ := strings_eq_ok hparents
      have hlength : parents.length ≤ Limits.maxParentsPerRevision := by
        simpa using (Option.filter_eq_some_iff.mp hcount).2
      refine ⟨(str_eq_some hvault).2, (str_eq_some hrevision).2, hex64_eq_some hhash,
        countUpTo_eq_some hsize, ⟨by omega, hbounded⟩, countUpTo_eq_some hchunks,
        fun message htext => ?_⟩
      have hfield : field value "message" = some (.string message) := text_eq_some htext
      cases hstr : str (field value "message") with
      | none => exact (hmessage ⟨by simp [hfield], hstr⟩).elim
      | some kept =>
        obtain ⟨hkept, hbounded⟩ := str_eq_some hstr
        cases hfield.symm.trans hkept
        exact hbounded
  | revisionAck =>
    simp only [parserFor, parseRevisionAck, bind_eq_ok, need_eq_ok] at h
    obtain ⟨_, hrevision, _, -, h⟩ := h
    cases h
    refine ⟨(str_eq_some hrevision).2, fun reason hreason => ?_⟩
    obtain ⟨whole, -, rfl⟩ := Option.map_eq_some_iff.mp hreason
    rw [List.length_take]
    omega
  | transferCancel =>
    simp only [parserFor, parseTransferCancel, bind_eq_ok, need_eq_ok] at h
    obtain ⟨_, -, h⟩ := h
    cases h
    cases hreason : str (field value "reason") with
    | none => exact ⟨by decide, by decide⟩
    | some reason => exact (str_eq_some hreason).2
  | syncComplete =>
    simp only [parserFor, parseSyncComplete, bind_eq_ok, need_eq_ok] at h
    obtain ⟨_, hvault, h⟩ := h
    cases h
    exact (str_eq_some hvault).2
  | bye =>
    cases h
    trivial
  | error =>
    cases h
    cases hmessage : str (field value "message") with
    | none => exact Nat.zero_le _
    | some message => exact (str_eq_some hmessage).2.2

theorem inBounds_of_parseValue {value : Json} {message : ProtocolMessage}
    (h : parseValue value = .ok message) : InBounds message := by
  simp only [parseValue, bind_eq_ok, need_eq_ok] at h
  obtain ⟨fields, -, typeName, -, h⟩ := h
  split at h
  · exact inBounds_of_parserFor h
  · cases h

/-- The codec is a retraction: what is within the bounds is parsed to itself, and whatever is
parsed is within the bounds and survives being sent again. -/
theorem parse_encodeMessage (parse : Text → Option Json) (stringify : Json → Text)
    (message : ProtocolMessage)
    (hjson : parse (stringify message.toJson) = some message.toJson) :
    (InBounds message → parseMessage parse (encodeMessage stringify message) = .ok message) ∧
      ∀ raw, parseMessage parse raw = .ok message →
        InBounds message ∧ parseMessage parse (encodeMessage stringify message) = .ok message := by
  have hround : InBounds message →
      parseMessage parse (encodeMessage stringify message) = .ok message := by
    intro hbounds
    rw [parseMessage, encodeMessage, hjson, need_some, ok_bind]
    exact parseValue_toJson hbounds
  refine ⟨hround, fun raw hraw => ?_⟩
  obtain ⟨value, -, hvalue⟩ := bind_eq_ok.mp hraw
  have hbounds := inBounds_of_parseValue hvalue
  exact ⟨hbounds, hround hbounds⟩

def authMessage : ProtocolMessage := .auth (utf16 "AA==")

def authText : Text := utf16 "\x7b\"type\":\"auth\",\"signature\":\"AA==\"\x7d"

theorem parse_encodeMessage_auth :
    parseMessage (fun raw => if raw = authText then some authMessage.toJson else none)
      (encodeMessage (fun _ => authText) authMessage) = .ok authMessage :=
  (parse_encodeMessage (fun raw => if raw = authText then some authMessage.toJson else none)
    (fun _ => authText) authMessage (if_pos rfl)).1 ⟨by decide, by decide⟩

/-! ## The messages of a session

`Message` carries strings that are made of characters. `PassVault.parseMessage`, which the sessions
use, is `parseValue` on what they encode to. -/

def wireRow (entry : HistorySummaryEntry) : SummaryRow :=
  ⟨utf16 entry.revisionId.value, utf16 entry.hash.value, entry.sizeBytes,
    entry.parentIds.map (utf16 ·.value)⟩

def wire : Message → ProtocolMessage
  | .hello version deviceId deviceName publicKey nonce =>
    .hello version (utf16 deviceId.value) (utf16 deviceName) (utf16 publicKey) (utf16 nonce)
  | .auth signature => .auth (utf16 signature)
  | .vaultSummary vaultId vaultName headRevisionId revisionCount =>
    .vaultSummary (utf16 vaultId.value) (utf16 vaultName) (headRevisionId.map (utf16 ·.value))
      revisionCount
  | .historySummary vaultId revisions =>
    .historySummary (utf16 vaultId.value) (revisions.map wireRow)
  | .wantRevisions vaultId revisionIds =>
    .wantRevisions (utf16 vaultId.value) (revisionIds.map (utf16 ·.value))
  | .revisionHeader header =>
    .revisionHeader header.transferSeq (utf16 header.vaultId.value) (utf16 header.revisionId.value)
      (utf16 header.hash.value) header.sizeBytes (header.parentIds.map (utf16 ·.value))
      header.totalChunks (header.message.map utf16)
  | .revisionAck revisionId accepted reason =>
    .revisionAck (utf16 revisionId.value) accepted (reason.map utf16)
  | .transferCancel transferSeq reason => .transferCancel transferSeq (utf16 reason)
  | .syncComplete vaultId => .syncComplete (utf16 vaultId.value)
  | .bye => .bye
  | .error code message => .error code (utf16 message)

/-- A failure that stands for a rejection. -/
def rejectedWith (failure : Failure) (rejection : Rejection) : Prop :=
  ∃ reason, failure = .session (.protocol rejection.code) reason ∧ rejection.reason = utf16 reason

/-- The parsers agree: the same outcome, or the same rejection. -/
def Agree {α β : Type} (f : α → β) : Except Failure α → Except Rejection β → Prop
  | .ok a, outcome => outcome = .ok (f a)
  | .error failure, outcome => ∃ rejection, rejectedWith failure rejection ∧ outcome = .error rejection

theorem rejectedWith_malformed (reason : String) :
    rejectedWith (PassVault.malformed reason) (malformed reason) := ⟨reason, rfl, rfl⟩

theorem rejectedWith_exceeded (reason : String) :
    rejectedWith (PassVault.exceeded reason) (exceeded reason) := ⟨reason, rfl, rfl⟩

section Agree

variable {α β γ δ : Type} {f : α → β} {g : γ → δ}

theorem Agree.bind {x : Except Failure α} {y : Except Rejection β} {k : α → Except Failure γ}
    {l : β → Except Rejection δ} (h : Agree f x y) (hk : ∀ a, Agree g (k a) (l (f a))) :
    Agree g (x >>= k) (y >>= l) := by
  cases x with
  | ok a =>
    cases (h : y = .ok (f a))
    exact hk a
  | error failure =>
    obtain ⟨rejection, hrejected, rfl⟩ := h
    exact ⟨rejection, hrejected, rfl⟩

theorem Agree.map {x : Except Failure α} {y : Except Rejection β} (h : Agree f x y) (g : β → δ) :
    Agree (fun a => g (f a)) x (y >>= fun b => pure (g b)) := by
  cases x with
  | ok a =>
    rw [show y = .ok (f a) from h]
    rfl
  | error failure =>
    obtain ⟨rejection, hrejected, hy⟩ := h
    rw [hy]
    exact ⟨rejection, hrejected, rfl⟩

theorem Agree.returning {x : Except Failure α} {y : Except Rejection δ} {c : γ}
    (h : Agree (fun _ => g c) x y) : Agree g (x >>= fun _ => pure c) y := by
  cases x with
  | ok a => exact h
  | error failure => exact h

theorem require_true (failure : Failure) (k : Unit → Except Failure α) :
    require true failure >>= k = k () := rfl

/-- A check on one side, a field that passes it on the other. -/
theorem agree_require {condition : Bool} {failure : Failure} {rejection : Rejection}
    {value : Option β} {b : β} (hrejected : rejectedWith failure rejection)
    (hvalue : value = if condition then some b else none) :
    Agree (fun _ => b) (require condition failure) (need value rejection) := by
  cases condition with
  | true =>
    rw [hvalue]
    rfl
  | false =>
    rw [hvalue]
    exact ⟨rejection, hrejected, rfl⟩

theorem agree_and {a b : Bool} {failure : Failure} {rejection : Rejection} {value : Option β}
    {v : β} {x : Except Failure γ} {l : β → Except Rejection δ}
    (hrejected : rejectedWith failure rejection) (hvalue : value = if a then some v else none)
    (h : Agree g (require b failure >>= fun _ => x) (l v)) :
    Agree g (require (a && b) failure >>= fun _ => x) (need value rejection >>= l) := by
  cases a with
  | true =>
    rw [hvalue]
    exact h
  | false =>
    rw [hvalue]
    exact ⟨rejection, hrejected, rfl⟩

end Agree

theorem length_utf16 (text : String) : (utf16 text).length = utf16Length text := by
  have hunits : ∀ c : Char, (utf16Units c).length = if c.toNat < 0x10000 then 1 else 2 := by
    intro c
    unfold utf16Units
    split
    · rfl
    · rfl
  rw [utf16, utf16Length, List.length_flatMap]
  simp only [hunits]

theorem str_utf16 (text : String) :
    str (some (.string (utf16 text))) = if isStr text then some (utf16 text) else none := by
  have hempty : (utf16 text).length = 0 ↔ text.isEmpty = true := by
    rw [List.length_eq_zero_iff, show ([] : Text) = utf16 "" from rfl, utf16_inj,
      String.isEmpty_iff]
  have hstr : isStr text = true ↔
      ¬ ((utf16 text).length = 0 ∨ Limits.maxStringLength < (utf16 text).length) := by
    rw [hempty, length_utf16, isStr, PassVault.str]
    split
    · rename_i hout
      simp only [Option.isSome_none, Bool.false_eq_true, hout, not_true_eq_false]
    · rename_i hin
      simp only [Option.isSome_some, hin, not_false_eq_true]
  by_cases h : isStr text = true
  · rw [if_pos h, str, if_neg (hstr.mp h)]
  · rw [if_neg h, str, if_pos (not_not.mp fun hnot => h (hstr.mpr hnot))]

theorem isHexChar_iff (c : Char) : (c.isDigit || ('a' ≤ c && c ≤ 'f')) = true ↔
    48 ≤ c.toNat ∧ c.toNat ≤ 57 ∨ 97 ≤ c.toNat ∧ c.toNat ≤ 102 := by
  simp only [Char.isDigit, Bool.or_eq_true, Bool.and_eq_true, decide_eq_true_eq, Char.le_def,
    UInt32.le_iff_toNat_le]
  rfl

theorem hexUnits_iff (c : Char) : (∀ unit ∈ utf16Units c, isHexDigit unit = true) ↔
    (c.isDigit || ('a' ≤ c && c ≤ 'f')) = true := by
  have hc := charRange c
  rw [isHexChar_iff]
  unfold utf16Units
  split
  · simp only [List.mem_singleton, forall_eq, isHexDigit, Bool.or_eq_true, Bool.and_eq_true,
      decide_eq_true_eq, UInt16.toNat_ofNat']
    omega
  · simp only [List.mem_cons, List.not_mem_nil, or_false, forall_eq_or_imp, forall_eq, isHexDigit,
      Bool.or_eq_true, Bool.and_eq_true, decide_eq_true_eq, UInt16.toNat_ofNat']
    omega

theorem length_hexUnits {c : Char} (h : (c.isDigit || ('a' ≤ c && c ≤ 'f')) = true) :
    (utf16Units c).length = 1 := by
  have hc := (isHexChar_iff c).mp h
  rw [utf16Units, if_pos (by omega)]
  rfl

theorem hex64_utf16 (hash : Sha256Hex) :
    hex64 (some (.string (utf16 hash.value))) =
      if PassVault.hex64 hash then some (utf16 hash.value) else none := by
  have hall : (utf16 hash.value).all isHexDigit = true ↔
      ∀ c ∈ hash.value.toList, (c.isDigit || ('a' ≤ c && c ≤ 'f')) = true := by
    rw [List.all_eq_true, utf16]
    constructor
    · intro h c hc
      exact (hexUnits_iff c).mp fun unit hunit => h unit (List.mem_flatMap.mpr ⟨c, hc, hunit⟩)
    · intro h unit hunit
      obtain ⟨c, hc, hunit⟩ := List.mem_flatMap.mp hunit
      exact (hexUnits_iff c).mpr (h c hc) unit hunit
  have hlength : (∀ c ∈ hash.value.toList, (c.isDigit || ('a' ≤ c && c ≤ 'f')) = true) →
      (utf16 hash.value).length = hash.value.toList.length := by
    intro h
    rw [utf16, List.length_flatMap,
      List.map_congr_left (g := fun _ => 1) fun c hc => length_hexUnits (h c hc)]
    simp
  have hhash : PassVault.hex64 hash = true ↔
      (utf16 hash.value).length = 64 ∧ (utf16 hash.value).all isHexDigit = true := by
    rw [hall, PassVault.hex64, decide_eq_true_iff, List.all_eq_true]
    constructor
    · rintro ⟨hcount, h⟩
      exact ⟨(hlength h).trans hcount, h⟩
    · rintro ⟨hcount, h⟩
      exact ⟨(hlength h).symm.trans hcount, h⟩
  by_cases h : PassVault.hex64 hash = true
  · rw [if_pos h, hex64, if_pos (hhash.mp h)]
  · rw [if_neg h, hex64, if_neg fun hnot => h (hhash.mpr hnot)]

theorem countUpTo_jsonNat (limit n : Nat) :
    countUpTo limit (some (jsonNat n)) = if decide (n ≤ limit) then some n else none := by
  by_cases h : n ≤ limit
  · rw [countUpTo_nat h, decide_eq_true h, if_pos rfl]
  · rw [countUpTo, count_nat, decide_eq_false h, if_neg (by simp)]
    simp [Option.filter, h]

/-- The loop over a list of ids. -/
theorem agree_strings {ids : List RevisionId} {failure : Failure} {rejection : Rejection}
    (hrejected : rejectedWith failure rejection) :
    Agree (fun _ => ids.map (utf16 ·.value)) (require (ids.all fun id => isStr id.value) failure)
      (strings ((ids.map (utf16 ·.value)).map .string) rejection) := by
  induction ids with
  | nil => rfl
  | cons id rest ih =>
    have hcons : strings (((id :: rest).map (utf16 ·.value)).map .string) rejection =
        need (str (some (.string (utf16 id.value)))) rejection >>= fun text =>
          strings ((rest.map (utf16 ·.value)).map .string) rejection >>= fun texts =>
            pure (text :: texts) := List.mapM_cons
    rw [hcons, str_utf16, List.all_cons]
    cases isStr id.value with
    | false => exact ⟨rejection, hrejected, rfl⟩
    | true =>
      rw [Bool.true_and, if_pos rfl, need_some, ok_bind]
      cases hrest : rest.all fun id => isStr id.value with
      | true =>
        rw [hrest] at ih
        rw [show strings _ rejection = .ok (rest.map (utf16 ·.value)) from ih]
        rfl
      | false =>
        rw [hrest] at ih
        obtain ⟨rejection', hrejected', hstrings⟩ := ih
        rw [hstrings]
        exact ⟨rejection', hrejected', rfl⟩

theorem utf16_append (a b : String) : utf16 (a ++ b) = utf16 a ++ utf16 b := by
  simp [utf16]

theorem agree_row (entry : HistorySummaryEntry) :
    Agree (fun _ => wireRow entry) (parseSummaryEntry entry) (parseRow (wireRow entry).toJson) := by
  simp only [parseRow, wireRow, SummaryRow.toJson, record, need_some, ok_bind, field_cons,
    String.reduceEq, if_true, if_false, array, List.length_map]
  refine agree_and (rejectedWith_malformed _) (str_utf16 _) ?_
  apply Agree.bind (agree_require (rejectedWith_malformed _) (hex64_utf16 _))
  intro _
  apply Agree.bind (agree_require (rejectedWith_malformed _) (countUpTo_jsonNat _ _))
  intro _
  by_cases hcount : entry.parentIds.length ≤ Limits.maxParentsPerRevision
  · rw [decide_eq_true hcount, if_neg (Nat.not_lt.mpr hcount), require_true]
    exact (agree_strings (rejectedWith_malformed _)).map _
  · rw [decide_eq_false hcount, if_pos (Nat.lt_of_not_le hcount)]
    refine ⟨_, ⟨_, rfl, ?_⟩, rfl⟩
    simp only [utf16_append]

theorem agree_rows (entries : List HistorySummaryEntry) :
    Agree (fun _ => entries.map wireRow) (entries.forM parseSummaryEntry)
      (((entries.map wireRow).map (·.toJson)).mapM parseRow) := by
  induction entries with
  | nil => rfl
  | cons entry rest ih =>
    rw [List.map_cons, List.map_cons, List.mapM_cons]
    apply Agree.bind (x := parseSummaryEntry entry) (agree_row entry)
    intro _
    exact ih.map _

theorem str_getD (text default : String) :
    (str (some (.string (utf16 text)))).getD (utf16 default) =
      utf16 ((PassVault.str text).getD default) := by
  rw [str_utf16, isStr]
  unfold PassVault.str
  split
  · rfl
  · rfl

theorem str_head (headRevisionId : Option RevisionId) :
    str ((headRevisionId.map (utf16 ·.value)).map .string) =
      (headRevisionId.filter fun id => isStr id.value).map (utf16 ·.value) := by
  cases headRevisionId with
  | none => rfl
  | some id =>
    rw [Option.map_some, Option.map_some, str_utf16]
    cases h : isStr id.value with
    | true => simp [Option.filter, h]
    | false => simp [Option.filter, h]

theorem sliceText_eq {text : String} (h : utf16Length text ≤ Limits.maxStringLength) :
    sliceText text = text := by
  have hgo : ∀ (room : Nat) (l : List Char),
      (l.map fun c => if c.toNat < 0x10000 then 1 else 2).sum ≤ room →
        sliceText.go room l = l := by
    intro room l
    induction l generalizing room with
    | nil => intro _; rfl
    | cons c rest ih =>
      intro hroom
      rw [List.map_cons, List.sum_cons] at hroom
      rw [sliceText.go, if_pos (by omega), ih _ (by omega)]
  rw [sliceText, hgo _ _ h, String.ofList_toList]

theorem agree_header (header : RevisionHeader) :
    Agree (fun _ => wire (.revisionHeader header)) (parseHeader header)
      (parseValue (wire (.revisionHeader header)).toJson) := by
  rw [wire, ProtocolMessage.toJson, parserFor_type]
  simp only [parserFor, parseRevisionHeader, List.cons_append, List.nil_append, field_cons,
    field_optional, String.reduceEq, if_true, if_false, array, count_nat, need_some, ok_bind,
    text_optional]
  rw [parseHeader, Bool.and_assoc]
  refine agree_and (rejectedWith_malformed _) (str_utf16 _) ?_
  refine agree_and (rejectedWith_malformed _) (str_utf16 _) ?_
  apply Agree.bind (agree_require (rejectedWith_malformed _) (hex64_utf16 _))
  intro _
  apply Agree.bind (agree_require (rejectedWith_exceeded _) (countUpTo_jsonNat _ _))
  intro _
  apply Agree.bind (agree_require (rejectedWith_exceeded _) (countUpTo_jsonNat _ _))
  intro _
  have hparents : (some ((header.parentIds.map (utf16 ·.value)).map Json.string)).filter
      (·.length ≤ Limits.maxParentsPerRevision) =
        if decide (header.parentIds.length ≤ Limits.maxParentsPerRevision) then
          some ((header.parentIds.map (utf16 ·.value)).map .string) else none := by
    simp [Option.filter]
  apply Agree.bind (agree_require (rejectedWith_malformed _) hparents)
  intro _
  apply Agree.bind (agree_strings (rejectedWith_malformed _))
  intro _
  cases hmessage : header.message with
  | none => rfl
  | some text =>
    rw [Option.map_some, Option.map_some, str_utf16, Option.all_some]
    cases isStr text with
    | true => rfl
    | false => exact ⟨_, rejectedWith_malformed _, rfl⟩

/-- What a session makes of a message is what the parser makes of its JSON, as long as no reason is
cut short. -/
theorem agree_parseMessage (message : Message)
    (hreason : ∀ revisionId accepted reason, message = .revisionAck revisionId accepted (some reason) →
      utf16Length reason ≤ Limits.maxStringLength) :
    Agree wire (PassVault.parseMessage message) (parseValue (wire message).toJson) := by
  cases message with
  | hello version deviceId deviceName publicKey nonce =>
    rw [wire, ProtocolMessage.toJson, parserFor_type]
    simp only [parserFor, parseHello, field_cons, String.reduceEq, if_true, if_false, integer]
    refine agree_and (rejectedWith_malformed _) (str_utf16 _) ?_
    apply Agree.bind (agree_require (rejectedWith_malformed _) (str_utf16 _))
    intro _
    refine agree_and (rejectedWith_malformed _) (str_utf16 _) ?_
    apply Agree.bind (agree_require (rejectedWith_malformed _) (str_utf16 _))
    intro _
    rfl
  | auth signature =>
    rw [wire, ProtocolMessage.toJson, parserFor_type]
    simp only [parserFor, parseAuth, field_cons, String.reduceEq, if_true, if_false]
    exact Agree.bind (agree_require (rejectedWith_malformed _) (str_utf16 _)) fun _ => rfl
  | vaultSummary vaultId vaultName headRevisionId revisionCount =>
    rw [wire, ProtocolMessage.toJson, parserFor_type]
    simp only [parserFor, parseVaultSummary, List.cons_append, List.nil_append, field_cons,
      field_optional, String.reduceEq, if_true, if_false, count_nat, str_getD, str_head]
    exact Agree.bind (agree_require (rejectedWith_malformed _) (str_utf16 _)) fun _ => rfl
  | historySummary vaultId revisions =>
    rw [wire, ProtocolMessage.toJson, parserFor_type]
    simp only [parserFor, parseHistorySummary, field_cons, String.reduceEq, if_true, if_false,
      array, need_some, ok_bind, List.length_map]
    apply Agree.bind (agree_require (rejectedWith_malformed _) (str_utf16 _))
    intro _
    by_cases hcount : revisions.length ≤ Limits.maxHistoryNodes
    · rw [decide_eq_true hcount, if_neg (Nat.not_lt.mpr hcount), require_true]
      exact Agree.bind (agree_rows revisions) fun _ => rfl
    · rw [decide_eq_false hcount, if_pos (Nat.lt_of_not_le hcount)]
      exact ⟨_, rejectedWith_exceeded _, rfl⟩
  | wantRevisions vaultId revisionIds =>
    rw [wire, ProtocolMessage.toJson, parserFor_type]
    simp only [parserFor, parseWantRevisions, field_cons, String.reduceEq, if_true, if_false,
      array, need_some, ok_bind, List.length_map]
    apply Agree.bind (agree_require (rejectedWith_malformed _) (str_utf16 _))
    intro _
    by_cases hcount : revisionIds.length ≤ Limits.maxWantedRevisions
    · rw [decide_eq_true hcount, if_neg (Nat.not_lt.mpr hcount), require_true]
      exact Agree.bind (agree_strings (rejectedWith_malformed _)) fun _ => rfl
    · rw [decide_eq_false hcount, if_pos (Nat.lt_of_not_le hcount)]
      exact ⟨_, rejectedWith_exceeded _, rfl⟩
  | revisionHeader header => exact (agree_header header).returning
  | revisionAck revisionId accepted reason =>
    rw [wire, ProtocolMessage.toJson, parserFor_type]
    simp only [parserFor, parseRevisionAck, List.cons_append, List.nil_append, field_cons,
      field_optional, String.reduceEq, if_true, if_false, bool, need_some, ok_bind, text_optional]
    apply Agree.bind (agree_require (rejectedWith_malformed _) (str_utf16 _))
    intro _
    cases reason with
    | none => rfl
    | some reason =>
      have hlength := hreason _ _ reason rfl
      have htake : (utf16 reason).take Limits.maxStringLength = utf16 (sliceText reason) := by
        rw [sliceText_eq hlength, List.take_of_length_le (length_utf16 reason ▸ hlength)]
      exact congrArg (fun kept => Except.ok (ProtocolMessage.revisionAck _ accepted (some kept))) htake
  | transferCancel transferSeq reason =>
    rw [wire, ProtocolMessage.toJson, parserFor_type]
    simp only [parserFor, parseTransferCancel, field_cons, String.reduceEq, if_true, if_false,
      count_nat, need_some, ok_bind, str_getD]
    rfl
  | syncComplete vaultId =>
    rw [wire, ProtocolMessage.toJson, parserFor_type]
    simp only [parserFor, parseSyncComplete, field_cons, String.reduceEq, if_true, if_false]
    exact Agree.bind (agree_require (rejectedWith_malformed _) (str_utf16 _)) fun _ => rfl
  | bye => exact parserFor_type .bye []
  | error code message =>
    have hcode : Bounded (utf16 code.name) := by
      cases code <;> exact ⟨by decide, by decide⟩
    have hfind : ProtocolErrorCode.known.find? (utf16 ·.name = utf16 code.name) = some code := by
      cases code <;> simp [ProtocolErrorCode.known, utf16_inj, ProtocolErrorCode.name]
    rw [wire, ProtocolMessage.toJson, parserFor_type]
    simp only [parserFor, parseError, field_cons, String.reduceEq, if_true, if_false,
      str_string hcode, Option.getD_some, hfind]
    exact congrArg (fun kept => Except.ok (ProtocolMessage.error code kept)) (str_getD message "")

end Codec

end PassVault
