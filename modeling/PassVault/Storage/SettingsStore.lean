import PassVault.Signaling.CanonicalHost

/-!
# Where a device meets other devices

`SettingsStore` of `packages/storage-sql/src/settingsStore.ts`, over the row of `settings` that holds
the connection. `JSON.parse` and `JSON.stringify` are parameters.
-/

namespace PassVault

structure ConnectionSettings where
  serverHost : String
  turnUrl : Option String
  turnUsername : Option String
  turnCredential : Option String
deriving DecidableEq, Repr

structure IceServer where
  urls : String
  username : Option String
  credential : Option String
deriving DecidableEq, Repr

/-- A value that was stored as JSON. -/
inductive StoredJson where
  | null
  | bool (value : Bool)
  | number (literal : String)
  | string (value : String)
  | array (items : List StoredJson)
  | object (fields : List (String × StoredJson))

namespace StoredJson

/-- `value[name]` where that is a string. Only objects have the names that are asked for. -/
def text (name : String) : StoredJson → Option String
  | .object fields => (fields.find? (·.1 = name)).bind fun field =>
    match field.2 with
    | .string value => some value
    | _ => none
  | _ => none

end StoredJson

def ConnectionSettings.toJson (settings : ConnectionSettings) : StoredJson :=
  .object ([("serverHost", .string settings.serverHost)] ++
    (settings.turnUrl.toList.map fun url => ("turnUrl", .string url)) ++
    (settings.turnUsername.toList.map fun name => ("turnUsername", .string name)) ++
    settings.turnCredential.toList.map fun credential => ("turnCredential", .string credential))

/-- The row under the key `connection`, if there is one, and what has been read of it. -/
structure SettingsStore where
  row : Option String
  cached : Option ConnectionSettings
  fallbackHost : String
deriving DecidableEq, Repr

namespace SettingsStore

/-- A new store over the same database. -/
def reopen (store : SettingsStore) (fallbackHost : String) : SettingsStore :=
  ⟨store.row, none, fallbackHost⟩

/-- What is taken from a stored value. -/
def fromStored (fallbackHost : String) (stored : StoredJson) : ConnectionSettings where
  serverHost := ((stored.text "serverHost").filter (isValidServerHost ·.toList)).getD fallbackHost
  turnUrl := (stored.text "turnUrl").filter (· ≠ "")
  turnUsername := stored.text "turnUsername"
  turnCredential := stored.text "turnCredential"

/-- `parse` is `JSON.parse`, `none` where it throws. -/
def get (parse : String → Option StoredJson) (store : SettingsStore) :
    SettingsStore × Except Failure ConnectionSettings :=
  match store.cached with
  | some settings => (store, .ok settings)
  | none =>
    match (store.row.bind parse).getD (.object []) with
    -- The first property that is read of it is one of `null`.
    | .null => (store, .error (.error "Cannot read properties of null (reading 'serverHost')"))
    | stored =>
      let settings := fromStored store.fallbackHost stored
      ({ store with cached := some settings }, .ok settings)

def trimmed (text : String) : String := String.ofList (trim text.toList)

/-- `/^turns?:/iu`. -/
def isTurnUrl (url : String) : Bool :=
  (url.toList.take 4).map Char.toLower = ['t', 'u', 'r', 'n'] && match url.toList.drop 4 with
    | ':' :: _ => true
    | c :: ':' :: _ => c.toLower = 's' || c = longS
    | _ => false

/-- Accepts a pasted URL, not just a bare host. -/
def save (l : LowerCase) (stringify : StoredJson → String) (next : ConnectionSettings)
    (store : SettingsStore) : SettingsStore × Except Failure ConnectionSettings :=
  match normalizeServerHost l next.serverHost.toList with
  | none =>
    let typed := trimmed next.serverHost
    (store, .error (.error
      s!"Could not read \"{typed}\" as a server address. It should look like sync.example.org."))
  | some host =>
    let turnUrl := trimmed (next.turnUrl.getD "")
    if turnUrl ≠ "" ∧ ¬ isTurnUrl turnUrl then
      (store, .error (.error
        s!"\"{turnUrl}\" is not a relay address. It should start with turn: or turns:."))
    else
      let settings : ConnectionSettings :=
        { serverHost := String.ofList host
          turnUrl := if turnUrl ≠ "" then some turnUrl else none
          turnUsername := next.turnUsername.map trimmed
          turnCredential := next.turnCredential }
      ({ store with row := some (stringify settings.toJson), cached := some settings }, .ok settings)

/-- What the renderer hands to WebRTC. -/
def iceServers (parse : String → Option StoredJson) (store : SettingsStore) :
    SettingsStore × Except Failure (List IceServer) :=
  match store.get parse with
  | (store, .error failure) => (store, .error failure)
  | (store, .ok settings) =>
    (store, .ok (⟨"stun:stun.l.google.com:19302", none, none⟩ ::
      settings.turnUrl.toList.map fun url =>
        ⟨url, settings.turnUsername, settings.turnCredential⟩))

/-- A store that finds the text. -/
def opened (value fallbackHost : String) : SettingsStore := ⟨some value, none, fallbackHost⟩

/-- A store that finds the text gives a host that can be used, and throws nothing. -/
def Recovers (parse : String → Option StoredJson) (value fallbackHost : String) : Prop :=
  ∃ settings servers, ((opened value fallbackHost).get parse).2 = .ok settings ∧
    ((opened value fallbackHost).iceServers parse).2 = .ok servers ∧
    (settings.serverHost = fallbackHost ∨ isValidServerHost settings.serverHost.toList = true ∧
      trimmed settings.serverHost = settings.serverHost)

/-- The text is no JSON `null`, and a host that is accepted in it has no whitespace around it. -/
def Readable (parse : String → Option StoredJson) (value fallbackHost : String) : Prop :=
  ∀ stored, parse value = some stored → stored ≠ .null ∧ ∀ host, stored.text "serverHost" = some host →
    isValidServerHost host.toList = true → host = fallbackHost ∨ trimmed host = host

variable {l : LowerCase} {parse : String → Option StoredJson} {stringify : StoredJson → String}

/-! ## Reading what was stored -/

/-- What a store makes of the JSON that it finds. -/
theorem get_stored {store : SettingsStore} {stored : StoredJson} (hcached : store.cached = none)
    (hstored : (store.row.bind parse).getD (.object []) = stored) (hnull : stored ≠ .null) :
    (store.get parse).2 = .ok (fromStored store.fallbackHost stored) := by
  rw [get, hcached, hstored]
  dsimp only
  split
  · exact absurd rfl hnull
  · rfl

theorem get_null {store : SettingsStore} (hcached : store.cached = none)
    (hstored : (store.row.bind parse).getD (.object []) = .null) :
    ∃ failure, (store.get parse).2 = .error failure := by
  rw [get, hcached, hstored]
  exact ⟨_, rfl⟩

/-- The servers are there when the settings are. -/
theorem iceServers_of_get {store : SettingsStore} {settings : ConnectionSettings}
    (h : (store.get parse).2 = .ok settings) :
    ∃ servers, (store.iceServers parse).2 = .ok servers := by
  rw [iceServers]
  split
  · rename_i heq
    rw [heq] at h
    cases h
  · exact ⟨_, rfl⟩

theorem fromStored_host {fallbackHost host : String} {stored : StoredJson}
    (hhost : stored.text "serverHost" = some host) (hvalid : isValidServerHost host.toList = true) :
    (fromStored fallbackHost stored).serverHost = host := by
  simp [fromStored, hhost, Option.filter_some, hvalid]

/-- The host is the fallback, or a stored one that was accepted. -/
theorem fromStored_cases (fallbackHost : String) (stored : StoredJson) :
    (fromStored fallbackHost stored).serverHost = fallbackHost ∨
      ∃ host, (fromStored fallbackHost stored).serverHost = host ∧
        stored.text "serverHost" = some host ∧ isValidServerHost host.toList = true := by
  cases hhost : stored.text "serverHost" with
  | none =>
    left
    simp [fromStored, hhost]
  | some host =>
    by_cases hvalid : isValidServerHost host.toList = true
    · exact .inr ⟨host, fromStored_host hhost hvalid, rfl, hvalid⟩
    · left
      simp [fromStored, hhost, Option.filter_some, hvalid]

theorem recovers_iff (parse : String → Option StoredJson) (value fallbackHost : String) :
    Recovers parse value fallbackHost ↔ Readable parse value fallbackHost := by
  have hrow : ∀ stored, (parse value).getD (.object []) = stored →
      ((opened value fallbackHost).row.bind parse).getD (.object []) = stored := by
    intro stored hstored
    rwa [opened, Option.bind_some]
  constructor
  · intro h stored hstored
    obtain ⟨settings, servers, hget, -, hhost⟩ := h
    have hvalue := hrow stored (by rw [hstored, Option.getD_some])
    have hnull : stored ≠ .null := by
      intro heq
      obtain ⟨failure, hfailure⟩ := get_null rfl (hvalue.trans heq)
      rw [hfailure] at hget
      cases hget
    apply And.intro hnull
    intro host htext hvalid
    rw [get_stored rfl hvalue hnull] at hget
    obtain rfl := Except.ok.inj hget
    rw [fromStored_host htext hvalid] at hhost
    rcases hhost with hhost | hhost
    · exact .inl hhost
    · exact .inr hhost.2
  · intro h
    have hnull : (parse value).getD (.object []) ≠ .null := by
      cases hstored : parse value with
      | none => exact nofun
      | some stored => exact (h stored hstored).1
    have hget := get_stored rfl (hrow _ rfl) hnull
    obtain ⟨servers, hservers⟩ := iceServers_of_get hget
    refine ⟨_, servers, hget, hservers, ?_⟩
    rcases fromStored_cases fallbackHost ((parse value).getD (.object [])) with hhost |
      ⟨host, hhost, htext, hvalid⟩
    · exact .inl hhost
    · cases hstored : parse value with
      | none =>
        rw [hstored] at htext
        cases htext
      | some stored =>
        rw [hstored, Option.getD_some] at htext hhost
        change (fromStored fallbackHost _).serverHost = fallbackHost ∨ _
        rw [Option.getD_some, opened, hhost]
        rcases (h stored hstored).2 host htext hvalid with heq | htrim
        · exact .inl heq
        · exact .inr ⟨hvalid, htrim⟩

/-! ## Reading what was saved -/

theorem text_toJson (settings : ConnectionSettings) :
    settings.toJson.text "serverHost" = some settings.serverHost ∧
      settings.toJson.text "turnUrl" = settings.turnUrl ∧
      settings.toJson.text "turnUsername" = settings.turnUsername ∧
      settings.toJson.text "turnCredential" = settings.turnCredential := by
  obtain ⟨serverHost, turnUrl, turnUsername, turnCredential⟩ := settings
  cases turnUrl <;> cases turnUsername <;> cases turnCredential <;>
    simp [ConnectionSettings.toJson, StoredJson.text]

/-- What is saved has a host that was accepted and no empty relay address, and is the row. -/
theorem save_ok {store t : SettingsStore} {next settings : ConnectionSettings}
    (h : store.save l stringify next = (t, .ok settings)) :
    normalizeServerHost l next.serverHost.toList = some settings.serverHost.toList ∧
      settings.turnUrl ≠ some "" ∧ t.row = some (stringify settings.toJson) ∧
      t.cached = some settings := by
  rw [save] at h
  cases hhost : normalizeServerHost l next.serverHost.toList with
  | none =>
    rw [hhost] at h
    cases h
  | some host =>
    rw [hhost] at h
    dsimp only at h
    split at h
    · cases h
    · obtain ⟨rfl, hsettings⟩ := Prod.mk.inj h
      obtain rfl := Except.ok.inj hsettings
      refine ⟨by rw [String.toList_ofList], ?_, rfl, rfl⟩
      dsimp only
      split
      · rename_i hne
        intro heq
        exact hne (Option.some.inj heq)
      · exact nofun

/-- A new store over the database reads the settings that were saved. -/
theorem get_reopen {store t : SettingsStore} {next settings : ConnectionSettings}
    (h : store.save l stringify next = (t, .ok settings))
    (hjson : parse (stringify settings.toJson) = some settings.toJson) (fallbackHost : String) :
    ((t.reopen fallbackHost).get parse).2 = .ok settings := by
  obtain ⟨hhost, hturn, hrow, -⟩ := save_ok h
  have hvalid := normalizeServerHost_valid hhost
  have hstored : ((t.reopen fallbackHost).row.bind parse).getD (.object []) = settings.toJson := by
    rw [reopen, hrow, Option.bind_some, hjson, Option.getD_some]
  rw [get_stored rfl hstored nofun]
  obtain ⟨htext, hurl, hname, hcredential⟩ := text_toJson settings
  have hsettings : fromStored fallbackHost settings.toJson = settings := by
    obtain ⟨serverHost, turnUrl, turnUsername, turnCredential⟩ := settings
    rw [fromStored, htext, hurl, hname, hcredential, Option.filter_some, if_pos hvalid,
      Option.getD_some]
    cases turnUrl with
    | none => rfl
    | some url => rw [Option.filter_some, if_pos (by simpa using hturn)]
  exact congrArg Except.ok hsettings

/-- Settings stop nothing exactly when the stored text is readable, and what was saved is read
after a restart. -/
theorem recovers_iff_readable (l : LowerCase) (parse : String → Option StoredJson)
    (stringify : StoredJson → String) :
    (∀ value fallbackHost, Recovers parse value fallbackHost ↔ Readable parse value fallbackHost) ∧
      ∀ store t next settings, save l stringify next store = (t, .ok settings) →
        parse (stringify settings.toJson) = some settings.toJson → ∀ fallbackHost,
          ((t.reopen fallbackHost).get parse).2 = .ok settings := by
  constructor
  · intro value fallbackHost
    exact recovers_iff parse value fallbackHost
  · intro store t next settings h hjson fallbackHost
    exact get_reopen h hjson fallbackHost

def sentSettings : ConnectionSettings :=
  ⟨"sync.example.org", some "turn:relay.example.org", some "me", none⟩

def sentText : String :=
  "\x7b\"serverHost\":\"sync.example.org\",\"turnUrl\":\"turn:relay.example.org\"," ++
    "\"turnUsername\":\"me\"\x7d"

def paddedText : String := "\x7b\"serverHost\":\" sync.example.org \"\x7d"

/-- `JSON.parse` on a few texts. -/
def parseText (text : String) : Option StoredJson :=
  if text = "null" then some .null
  else if text = paddedText then some (.object [("serverHost", .string " sync.example.org ")])
  else if text = sentText then some sentSettings.toJson
  else none

theorem parseText_sent : parseText sentText = some sentSettings.toJson := by
  rw [parseText, if_neg (by decide), if_neg (by decide +kernel), if_pos rfl]

theorem parseText_padded :
    parseText paddedText = some (.object [("serverHost", .string " sync.example.org ")]) := by
  rw [parseText, if_neg (by decide), if_pos rfl]

theorem recovers_iff_readable_restart : ∃ t, save plainLower (fun _ => sentText)
      ⟨" https://SYNC.example.org/health", some " turn:relay.example.org ", some "me ", none⟩
      (opened "null" "localhost:8787") = (t, .ok sentSettings) ∧
    ((t.reopen "localhost:8787").get parseText).2 = .ok sentSettings :=
  have hsave : ∃ t, save plainLower (fun _ => sentText)
      ⟨" https://SYNC.example.org/health", some " turn:relay.example.org ", some "me ", none⟩
      (opened "null" "localhost:8787") = (t, .ok sentSettings) :=
    ⟨⟨some sentText, some sentSettings, "localhost:8787"⟩, by decide⟩
  hsave.elim fun t h => ⟨t, h,
    (recovers_iff_readable plainLower parseText fun _ => sentText).2 _ t _ _ h parseText_sent _⟩

/-- A stored `null` stops the app, and whitespace around a stored host stays. -/
theorem not_recovers : ¬ Recovers parseText "null" "localhost:8787" ∧
    ¬ Recovers parseText paddedText "localhost:8787" := by
  rw [recovers_iff, recovers_iff]
  constructor
  · intro h
    exact (h .null (by rw [parseText, if_pos rfl])).1 rfl
  · intro h
    have hhost := (h _ parseText_padded).2 " sync.example.org " rfl (by decide)
    revert hhost
    decide

end SettingsStore

/-! ## The address of a device -/

/-- `host` is what a device makes of the address `raw`: it is canonical and stays as it is, and it is
what the settings store and return, what a code is sent with and what is connected to. -/
structure KeptCanonical (l : LowerCase) (raw host : List Char) : Prop where
  canonical : Canonical host
  stable : normalizeServerHost l host = some host
  stored : ∀ parse stringify next store t settings, next.serverHost.toList = raw →
    SettingsStore.save l stringify next store = (t, .ok settings) →
      settings.serverHost.toList = host ∧ (t.get parse).2 = .ok settings
  sent : ∀ u code, ∃ shown, formatQualifiedShortCode u code host = shown ++ '@' :: host
  connected : ∃ http ∈ ["http://", "https://"], ∃ ws ∈ ["ws://", "wss://"],
    httpUrlFor l host = http.toList ++ host ∧
      signalUrlFor l host = ws.toList ++ host ++ "/signal".toList

/-- What is left of the address between scheme and path is refused, or has neither whitespace nor `ſ`
in it. -/
def Clean (l : LowerCase) (raw : List Char) : Prop :=
  isValidServerHost (l.lower (hostPart raw)) = true →
    ∀ c ∈ hostPart raw, c ∉ jsWhitespace ∧ c ≠ longS

variable {l : LowerCase}

theorem url_connected (l : LowerCase) (host : List Char) :
    ∃ http ∈ ["http://", "https://"], ∃ ws ∈ ["ws://", "wss://"],
      httpUrlFor l host = http.toList ++ host ∧
        signalUrlFor l host = ws.toList ++ host ++ "/signal".toList := by
  rw [httpUrlFor, signalUrlFor]
  cases isLocalHost l host with
  | true => exact ⟨"http://", by simp, "ws://", by simp, rfl, rfl⟩
  | false => exact ⟨"https://", by simp, "wss://", by simp, rfl, rfl⟩

/-- An address is kept in canonical form exactly when what is left of it is clean. A canonical address
is kept however it is pasted. -/
theorem normalizeServerHost_canonical_iff (l : LowerCase) (raw : List Char) :
    ((∀ host, normalizeServerHost l raw = some host → KeptCanonical l raw host) ↔ Clean l raw) ∧
      ∀ host, Canonical host → Pasted l host raw → normalizeServerHost l raw = some host := by
  constructor
  · constructor
    · intro h hvalid c hc
      have hkept := h _ (normalizeServerHost_eq_some.mpr ⟨rfl, hvalid⟩)
      exact clean_of_canonical hkept.canonical hc
    · intro hclean host hhost
      obtain ⟨rfl, hvalid⟩ := normalizeServerHost_eq_some.mp hhost
      have hcanonical := canonical_of_clean hvalid (hclean hvalid)
      constructor
      · exact hcanonical
      · exact normalizeServerHost_self hcanonical
      · intro parse stringify next store t settings hraw hsave
        obtain ⟨hsaved, -, -, hcached⟩ := SettingsStore.save_ok hsave
        rw [hraw, hhost] at hsaved
        constructor
        · exact (Option.some.inj hsaved).symm
        · rw [SettingsStore.get, hcached]
      · intro u code
        exact ⟨_, rfl⟩
      · exact url_connected l _
  · intro host hcanonical pasted
    exact normalizeServerHost_pasted hcanonical pasted

theorem not_canonical_of_unclean {l : LowerCase} {raw : List Char}
    (hunclean : ((normalizeServerHost l raw).any fun host => !host.all isHostChar) = true) :
    ¬ ∀ host, normalizeServerHost l raw = some host →
      Canonical host ∧ normalizeServerHost l host = some host := by
  intro h
  cases hhost : normalizeServerHost l raw with
  | none =>
    rw [hhost] at hunclean
    cases hunclean
  | some host =>
    rw [hhost, Option.any_some, List.all_eq_true.mpr (canonical_iff.mp (h host hhost).1).2] at hunclean
    cases hunclean

/-- Whitespace after the scheme or before the path, and `ſ`, are kept. -/
theorem normalizeServerHost_not_canonical :
    (¬ ∀ host, normalizeServerHost plainLower "https:// sync.example.org".toList = some host →
      Canonical host ∧ normalizeServerHost plainLower host = some host) ∧
    (¬ ∀ host, normalizeServerHost plainLower "sync.example.org /health".toList = some host →
      Canonical host ∧ normalizeServerHost plainLower host = some host) ∧
    ¬ ∀ host, normalizeServerHost plainLower "https://ſync.example.org".toList = some host →
      Canonical host ∧ normalizeServerHost plainLower host = some host := by
  constructor
  · exact not_canonical_of_unclean (by decide +kernel)
  · constructor
    · exact not_canonical_of_unclean (by decide +kernel)
    · exact not_canonical_of_unclean (by decide +kernel)

end PassVault
