import Mathlib.Data.List.Infix
import PassVault.Identity.Identity
import PassVault.Signaling.CanonicalHost
import PassVault.Sync.Protocol

/-!
# Pairing codes and pairing links

`parseShortCode` of `packages/core/src/shortCode.ts`, and `encodePairingOffer` and
`decodePairingOffer` of `packages/identity/src/pairing.ts`. `URL` and `URLSearchParams` are
parameters.
-/

namespace PassVault

/-! ## Codes -/

structure ParsedShortCode where
  code : String
  host : Option (List Char)
deriving DecidableEq, Repr

/-- Cut at `lastIndexOf`, and all of the text where that is `-1`. -/
def cutLast (c : Char) (text : List Char) : List Char × Option (List Char) :=
  if c ∈ text then
    let after := (text.reverse.takeWhile (· ≠ c)).reverse
    (text.take (text.length - after.length - 1), some after)
  else (text, none)

/-- Parse what someone typed into the connect box. -/
def parseShortCode (u : UpperCase) (l : LowerCase) (raw : List Char) : Option ParsedShortCode :=
  let trimmed := trim raw
  if [':', '/', '/'] <:+: trimmed then none
  else
    let (codePart, hostPart) := cutLast '@' trimmed
    let code := normalizeShortCode u (String.ofList codePart)
    if jsLength code ≠ shortCodeLength ∨ ¬ code.toList.all (· ∈ shortCodeAlphabet) then none
    else
      match hostPart.map trim with
      | none => some ⟨code, none⟩
      | some host => if isValidServerHost host then some ⟨code, some (l.lower host)⟩ else none

/-! ## Links -/

def pairingScheme : String := "passvault"

def pairingVersion : Int := 1

structure PairingOffer where
  version : Int
  deviceId : DeviceId
  publicKey : Bytes
  name : String
  roomId : String
  inviteToken : String
  signalUrl : String
deriving DecidableEq, Repr

/-- The parameters of a link. The device id is derivable from the key. -/
def PairingOffer.params (offer : PairingOffer) : List (String × String) :=
  [("v", toString pairingVersion), ("k", encodeBase64 offer.publicKey), ("n", offer.name),
    ("r", offer.roomId), ("t", offer.inviteToken), ("s", offer.signalUrl)]

/-- `toQuery` is `toString` of `URLSearchParams`. -/
def encodePairingOffer (toQuery : List (String × String) → String) (offer : PairingOffer) : String :=
  pairingScheme ++ "://pair?" ++ toQuery offer.params

/-- What is read of a `URL`. -/
structure Url where
  protocol : String
  searchParams : List (String × String)
deriving DecidableEq, Repr

/-- `searchParams.get`. -/
def Url.param (url : Url) (name : String) : Option String :=
  (url.searchParams.find? (·.1 = name)).map (·.2)

/-- `Number.parseInt(text, 10)`; `none` for `NaN`. -/
def parseInt (text : List Char) : Option Int :=
  let text := text.dropWhile (· ∈ jsWhitespace)
  let unsigned := match text with
    | '-' :: rest => rest
    | '+' :: rest => rest
    | _ => text
  let digits := unsigned.takeWhile Char.isDigit
  if digits = [] then none
  else
    let value : Int := Nat.ofDigitChars 10 digits 0
    some (if text.head? = some '-' then -value else value)

/-- `parseUrl` is `new URL`, `none` where it throws. -/
def decodePairingOffer (crypto : Crypto) (parseUrl : List Char → Option Url) (raw : String) :
    Except String PairingOffer :=
  match parseUrl (trim raw.toList) with
  | none => .error "That does not look like a pairing code."
  | some url =>
    if url.protocol ≠ pairingScheme ++ ":" then
      .error "That pairing code is for a different application."
    else if parseInt ((url.param "v").getD "").toList ≠ some pairingVersion then
      let shown := (url.param "v").getD "?"
      .error s!"Unsupported pairing code version {shown}."
    else
      match url.param "k", url.param "n", url.param "r", url.param "t", url.param "s" with
      | some encodedKey, some name, some roomId, some inviteToken, some signalUrl =>
        match decodeBase64 encodedKey with
        | none => .error "That pairing code has an unreadable key."
        | some publicKey =>
          if publicKey.length ≠ 32 then .error "That pairing code has an invalid key."
          else
            .ok ⟨pairingVersion, deviceIdFor crypto publicKey, publicKey, name, roomId, inviteToken,
              signalUrl⟩
      | _, _, _, _, _ => .error "That pairing code is incomplete."

/-! ## Reading codes -/

/-- A code of the alphabet. -/
structure ShortCode (code : String) : Prop where
  length : code.toList.length = shortCodeLength
  chars : ∀ c ∈ code.toList, c ∈ shortCodeAlphabet

variable {u : UpperCase} {l : LowerCase}

theorem ShortCode.jsLength {code : String} (h : ShortCode code) :
    jsLength code = shortCodeLength := by
  have hall : ∀ c ∈ shortCodeAlphabet, c.toNat < 0x10000 := Words.forall_of_all (by decide)
  have hones : (code.toList.map fun c => if c.toNat < 0x10000 then 1 else 2) =
      code.toList.map fun _ => 1 := by
    apply List.map_congr_left
    intro c hc
    exact if_pos (hall c (h.chars c hc))
  rw [PassVault.jsLength, hones, List.map_const', List.sum_replicate_nat, h.length, Nat.mul_one]

theorem spells_chars {raw code : List Char} (h : Spells raw code) {c : Char} (hc : c ∈ raw) :
    c ∉ ['/', '@'] := by
  induction h with
  | nil => cases hc
  | @separator c' raw code hsep _ ih =>
    rcases List.mem_cons.mp hc with rfl | hc
    · have hall : ∀ c ∈ jsWhitespace, c ∉ ['/', '@'] := Words.forall_of_all (by decide)
      rcases hsep with hsep | rfl
      · exact hall c hsep
      · decide
    · exact ih hc
  | @char c' c'' raw code hmem hvariant _ ih =>
    rcases List.mem_cons.mp hc with rfl | hc
    · have hall : (shortCodeAlphabet.all fun c' => (variants c').all (· ∉ ['/', '@'])) = true := by
        decide +kernel
      exact of_decide_eq_true (List.all_eq_true.mp (List.all_eq_true.mp hall c' hmem) c hvariant)
    · exact ih hc

theorem cutLast_of_notMem {c : Char} {text : List Char} (h : c ∉ text) :
    cutLast c text = (text, none) :=
  if_neg h

/-- The cut is at the last place where the character stands. -/
theorem cutLast_append {c : Char} {before after : List Char} (h : c ∉ after) :
    cutLast c (before ++ c :: after) = (before, some after) := by
  have hafter : ((before ++ c :: after).reverse.takeWhile (· ≠ c)).reverse = after := by
    have hall : ∀ c' ∈ after.reverse, decide (c' ≠ c) = true := by
      intro c' hc'
      apply decide_eq_true
      rintro rfl
      exact h (List.mem_reverse.mp hc')
    rw [List.reverse_append, List.reverse_cons, List.append_assoc,
      List.takeWhile_append_of_pos hall, List.singleton_append,
      List.takeWhile_cons_of_neg (by simp), List.append_nil, List.reverse_reverse]
  have hlength : (before ++ c :: after).length - after.length - 1 = before.length := by
    simp
    omega
  rw [cutLast, if_pos (by simp), hafter]
  dsimp only
  rw [hlength, List.take_left' rfl]

/-- What is typed is taken as a code where it is cut. -/
theorem parseShortCode_cut {raw codePart : List Char} {hostPart : Option (List Char)} {code : String}
    (hcode : ShortCode code) (hlink : '/' ∉ trim raw) (hcut : cutLast '@' (trim raw) = (codePart, hostPart))
    (hnormal : normalizeShortCode u (String.ofList codePart) = code) :
    parseShortCode u l raw = match hostPart.map trim with
      | none => some ⟨code, none⟩
      | some host => if isValidServerHost host then some ⟨code, some (l.lower host)⟩ else none := by
  have hinfix : ¬ [':', '/', '/'] <:+: trim raw := fun h => hlink (h.subset (by simp))
  rw [parseShortCode]
  dsimp only
  rw [if_neg hinfix, hcut]
  dsimp only
  rw [hnormal, if_neg]
  intro h
  rcases h with h | h
  · exact h hcode.jsLength
  · exact h (List.all_eq_true.mpr fun c hc => decide_eq_true (hcode.chars c hc))

theorem normalizeShortCode_flatMap {raw : List Char} {t code : String}
    (hraw : raw.flatMap (normalizeChar u) = t.toList.flatMap (normalizeChar u))
    (h : Spells t.toList code.toList) : normalizeShortCode u (String.ofList raw) = code := by
  rw [normalizeShortCode_eq, String.toList_ofList, hraw, ← normalizeShortCode_eq]
  exact normalizeShortCode_spells h

/-- A code is read however it is spelt. -/
theorem parseShortCode_spells {code t : String} (hcode : ShortCode code)
    (h : Spells t.toList code.toList) : parseShortCode u l t.toList = some ⟨code, none⟩ := by
  have hchars : ∀ c ∈ trim t.toList, c ∉ ['/', '@'] :=
    fun c hc => spells_chars h (Words.mem_of_mem_strip hc)
  have hslash : '/' ∉ trim t.toList := fun hc => hchars _ hc (by simp)
  have hat : '@' ∉ trim t.toList := fun hc => hchars _ hc (by simp)
  rw [parseShortCode_cut hcode hslash (cutLast_of_notMem hat)
    (normalizeShortCode_flatMap (flatMap_trim t.toList) h)]
  rfl

/-- A code is read with the server that holds it, in any letter case and with whitespace around. -/
theorem parseShortCode_qualified {code t : String} {before body after : List Char}
    (hcode : ShortCode code) (h : Spells t.toList code.toList) (hhost : Canonical (l.lower body))
    (hbefore : ∀ c ∈ before, c ∈ jsWhitespace) (hafter : ∀ c ∈ after, c ∈ jsWhitespace) :
    parseShortCode u l (t.toList ++ '@' :: (before ++ body ++ after)) =
      some ⟨code, some (l.lower body)⟩ := by
  have hne : body ≠ [] := by
    rintro rfl
    obtain ⟨front, last, hlast, -⟩ := canonical_last hhost
    rw [(eq_map_of_canonical hhost).1] at hlast
    simp at hlast
  have hblank : ∀ c ∈ body, decide (c ∈ jsWhitespace) = false :=
    fun c hc => decide_eq_false (clean_of_canonical hhost hc).1
  have hsigns : '/' ∉ before ++ body ∧ '@' ∉ before ++ body := by
    have hspaces : '/' ∉ jsWhitespace ∧ '@' ∉ jsWhitespace := by decide
    have hlower : isHostChar (lowerChar '/') = false ∧ isHostChar (lowerChar '@') = false := by
      decide
    simp only [List.mem_append, not_or]
    exact ⟨⟨fun hc => hspaces.1 (hbefore _ hc), notMem_of_canonical hhost hlower.1⟩,
      fun hc => hspaces.2 (hbefore _ hc), notMem_of_canonical hhost hlower.2⟩
  -- The text is trimmed on the left of the code and on the right of the host.
  have htrim : trim (t.toList ++ '@' :: (before ++ body ++ after)) =
      t.toList.dropWhile (· ∈ jsWhitespace) ++ '@' :: (before ++ body) := by
    have hat : decide ('@' ∈ jsWhitespace) = false := by decide
    have hmiddle : before ++ body ≠ [] := by simp [hne]
    have hend : decide ((before ++ body).getLast hmiddle ∈ jsWhitespace) = false := by
      rw [List.getLast_append_of_ne_nil hmiddle hne]
      exact hblank _ (List.getLast_mem hne)
    exact Words.strip_between hat hmiddle hend fun c hc => decide_eq_true (hafter c hc)
  have hhostPart : trim (before ++ body) = body := by
    have haround : trim (before ++ (body ++ [])) = body ++ [].rdropWhile _ :=
      Words.strip_around (fun c hc => decide_eq_true (hbefore c hc)) hne
        (hblank _ (List.head_mem hne)) (hblank _ (List.getLast_mem hne))
    simpa using haround
  have hslash : '/' ∉ trim (t.toList ++ '@' :: (before ++ body ++ after)) := by
    rw [htrim, List.mem_append, List.mem_cons]
    rintro (hc | hc | hc)
    · exact spells_chars h ((List.dropWhile_suffix _).subset hc) (by simp)
    · cases hc
    · exact hsigns.1 hc
  have hcut : cutLast '@' (trim (t.toList ++ '@' :: (before ++ body ++ after))) =
      (t.toList.dropWhile (· ∈ jsWhitespace), some (before ++ body)) := by
    rw [htrim]
    exact cutLast_append hsigns.2
  rw [parseShortCode_cut hcode hslash hcut
    (normalizeShortCode_flatMap (flatMap_dropWhile
      (fun c hc => normalizeChar_separator (.inl (of_decide_eq_true hc))) t.toList) h)]
  dsimp only [Option.map_some]
  rw [hhostPart, if_pos (isValidServerHost_of_lower hhost)]

/-- What is shown with the server is read back. -/
theorem parseShortCode_format {code : String} {host : List Char} (hcode : ShortCode code)
    (hhost : Canonical host) :
    parseShortCode u l (formatQualifiedShortCode u code host) = some ⟨code, some host⟩ := by
  have hnormal : normalizeShortCode u code = code := normalizeShortCode_spells (.self hcode.chars)
  have hcanonical : Canonical (l.lower host) := by
    rw [lower_canonical hhost]
    exact hhost
  rw [formatQualifiedShortCode, hnormal, if_pos hcode.jsLength]
  have hread : parseShortCode u l ((formatShortCode code).toList ++ '@' :: ([] ++ host ++ [])) =
      some ⟨code, some (l.lower host)⟩ :=
    parseShortCode_qualified hcode (spells_format hcode.chars) hcanonical nofun nofun
  rwa [lower_canonical hhost, List.nil_append, List.append_nil] at hread

/-! ## Reading links -/

theorem toList_link (toQuery : List (String × String) → String) (offer : PairingOffer) :
    (encodePairingOffer toQuery offer).toList =
      "passvault".toList ++ [':', '/', '/'] ++ ("pair?".toList ++ (toQuery offer.params).toList) := by
  rw [encodePairingOffer, String.toList_append, String.toList_append, ← List.append_assoc]
  rfl

/-- Without whitespace in its parameters a link is taken as it stands. -/
theorem trim_link {toQuery : List (String × String) → String} {offer : PairingOffer}
    (hquery : ∀ c ∈ (toQuery offer.params).toList, c ∉ jsWhitespace) :
    trim (encodePairingOffer toQuery offer).toList = (encodePairingOffer toQuery offer).toList := by
  have hall : ∀ c ∈ "passvault".toList ++ [':', '/', '/'] ++ "pair?".toList, c ∉ jsWhitespace :=
    Words.forall_of_all (by decide +kernel)
  apply trim_eq_self
  rw [toList_link, ← List.append_assoc]
  intro c hc
  rcases List.mem_append.mp hc with hc | hc
  · exact hall c hc
  · exact hquery c hc

/-- A link is no code. -/
theorem parseShortCode_link {toQuery : List (String × String) → String} {offer : PairingOffer}
    (hquery : ∀ c ∈ (toQuery offer.params).toList, c ∉ jsWhitespace) :
    parseShortCode u l (encodePairingOffer toQuery offer).toList = none := by
  have hinfix : [':', '/', '/'] <:+: trim (encodePairingOffer toQuery offer).toList := by
    rw [trim_link hquery, toList_link]
    exact List.infix_append _ _ _
  rw [parseShortCode]
  exact if_pos hinfix

theorem param_params (offer : PairingOffer) (protocol : String) :
    (Url.mk protocol offer.params).param "v" = some (toString pairingVersion) ∧
      (Url.mk protocol offer.params).param "k" = some (encodeBase64 offer.publicKey) ∧
      (Url.mk protocol offer.params).param "n" = some offer.name ∧
      (Url.mk protocol offer.params).param "r" = some offer.roomId ∧
      (Url.mk protocol offer.params).param "t" = some offer.inviteToken ∧
      (Url.mk protocol offer.params).param "s" = some offer.signalUrl := by
  simp [Url.param, PairingOffer.params]

/-- What was offered is read, with the id of its key. -/
theorem decodePairingOffer_encode {crypto : Crypto} {toQuery : List (String × String) → String}
    {parseUrl : List Char → Option Url} {offer : PairingOffer} (hkey : offer.publicKey.length = 32)
    (hquery : ∀ c ∈ (toQuery offer.params).toList, c ∉ jsWhitespace)
    (hurl : parseUrl (encodePairingOffer toQuery offer).toList =
      some ⟨pairingScheme ++ ":", offer.params⟩) :
    decodePairingOffer crypto parseUrl (encodePairingOffer toQuery offer) = .ok
      { offer with
        version := pairingVersion
        deviceId := deviceIdFor crypto offer.publicKey } := by
  have hversion : parseInt ((some (toString pairingVersion)).getD "").toList = some pairingVersion := by
    decide
  obtain ⟨hv, hk, hn, hr, ht, hs⟩ := param_params offer (pairingScheme ++ ":")
  rw [decodePairingOffer, trim_link hquery, hurl]
  dsimp only
  rw [if_neg (fun h => h rfl), hv, if_neg (fun h => h hversion), hk, hn, hr, ht, hs]
  dsimp only
  rw [decodeBase64_encodeBase64]
  exact if_neg fun h => h hkey

/-! ## Codes and links -/

/-- Typed codes and pasted links are told apart and read back. -/
theorem codes_and_links (u : UpperCase) (l : LowerCase) (crypto : Crypto)
    (toQuery : List (String × String) → String) (parseUrl : List Char → Option Url) :
    (∀ code t : String, ShortCode code → Spells t.toList code.toList →
      parseShortCode u l t.toList = some ⟨code, none⟩ ∧
        ∀ host, PlainHost host →
          (∀ before body after, (∀ c ∈ before, c ∈ jsWhitespace) → (∀ c ∈ after, c ∈ jsWhitespace) →
            l.lower body = host →
              parseShortCode u l (t.toList ++ '@' :: (before ++ body ++ after)) =
                some ⟨code, some host⟩) ∧
          parseShortCode u l (formatQualifiedShortCode u code host) = some ⟨code, some host⟩) ∧
    ∀ offer : PairingOffer, offer.publicKey.length = 32 →
      (∀ c ∈ (toQuery offer.params).toList, c ∉ jsWhitespace) →
        parseUrl (encodePairingOffer toQuery offer).toList =
            some ⟨pairingScheme ++ ":", offer.params⟩ →
          parseShortCode u l (encodePairingOffer toQuery offer).toList = none ∧
            decodePairingOffer crypto parseUrl (encodePairingOffer toQuery offer) = .ok
              { offer with
                version := pairingVersion
                deviceId := deviceIdFor crypto offer.publicKey } := by
  constructor
  · intro code t hcode hspells
    constructor
    · exact parseShortCode_spells hcode hspells
    · intro host hhost
      constructor
      · rintro before body after hbefore hafter rfl
        exact parseShortCode_qualified hcode hspells hhost.canonical hbefore hafter
      · exact parseShortCode_format hcode hhost.canonical
  · intro offer hkey hquery hurl
    constructor
    · exact parseShortCode_link hquery
    · exact decodePairingOffer_encode hkey hquery hurl

def phoneOffer : PairingOffer :=
  ⟨1, ⟨""⟩, List.replicate 32 7, "P", "r", "t", "wss://a.b/signal"⟩

def phoneQuery : String :=
  "v=1&k=BwcHBwcHBwcHBwcHBwcHBwcHBwcHBwcHBwcHBwcHBwc%3D&n=P&r=r&t=t&s=wss%3A%2F%2Fa.b%2Fsignal"

theorem printable_not_blank {c : Char} (h : 32 < c.toNat ∧ c.toNat < 127) : c ∉ jsWhitespace := by
  have hall : ∀ c ∈ jsWhitespace, ¬ (32 < c.toNat ∧ c.toNat < 127) := Words.forall_of_all (by decide)
  exact fun hblank => hall c hblank h

theorem phoneQuery_not_blank : ∀ c ∈ phoneQuery.toList, c ∉ jsWhitespace := by
  have hall : ∀ c ∈ phoneQuery.toList, 32 < c.toNat ∧ c.toNat < 127 :=
    Words.forall_of_all (by decide +kernel)
  exact fun c hc => printable_not_blank (hall c hc)

theorem codes_and_links_phone :
    parseShortCode CodeHistory.asciiCase plainLower ((formatShortCode "4F7K2QX9").toList ++
        '@' :: ([' '] ++ "SYNC.example.org:8443".toList ++ [])) =
      some ⟨"4F7K2QX9", some "sync.example.org:8443".toList⟩ ∧
    parseShortCode CodeHistory.asciiCase plainLower
      (encodePairingOffer (fun _ => phoneQuery) phoneOffer).toList = none :=
  have hcode : ShortCode "4F7K2QX9" := ⟨by decide +kernel, Words.forall_of_all (by decide +kernel)⟩
  have hhost : PlainHost "sync.example.org:8443".toList :=
    ⟨by decide +kernel, Words.forall_of_all (by decide +kernel),
      Words.forall_of_all (by decide +kernel), Words.forall_of_all (by decide +kernel)⟩
  have hboth := codes_and_links CodeHistory.asciiCase plainLower ⟨id, id, fun _ message => message,
    fun _ _ _ => true⟩ (fun _ => phoneQuery) fun text =>
      if text = (pairingScheme ++ "://pair?" ++ phoneQuery).toList then
        some ⟨pairingScheme ++ ":", phoneOffer.params⟩
      else none
  ⟨((hboth.1 _ _ hcode (spells_format hcode.chars)).2 _ hhost).1 _ _ _
    (Words.forall_of_all (by decide)) nofun (by decide +kernel), (hboth.2 phoneOffer rfl phoneQuery_not_blank (if_pos rfl)).1⟩

end PassVault
