import Mathlib.Data.List.Forall2
import PassVault.Lib.Words
import PassVault.Signaling.ShortCodes

/-!
# Server addresses

`isValidServerHost`, `normalizeServerHost` and what a host is put into, of
`packages/core/src/shortCode.ts`.
-/

namespace PassVault

/-! ## Letter case -/

/-- `ſ`, which the classes of letters match as an `s`. -/
def longS : Char := Char.ofNat 0x17f

/-- The Kelvin sign, which they match as a `k`. -/
def kelvin : Char := Char.ofNat 0x212a

/-- Outside ASCII, and nothing that is looked for here. -/
def Foreign (c : Char) : Prop := 128 ≤ c.toNat ∧ c ∉ jsWhitespace ∧ c ≠ longS ∧ c ≠ kelvin

/-- What `toLowerCase` makes of a character. -/
inductive Lowered : Char → List Char → Prop where
  | ascii {c : Char} (h : c.toNat < 128) : Lowered c [c.toLower]
  | same {c : Char} (h : c ∈ jsWhitespace ∨ c = longS) : Lowered c [c]
  | kelvinSign : Lowered kelvin ['k']
  | foreign {c d : Char} {piece : List Char} (hc : Foreign c) (hd : d ∈ piece) (h : Foreign d) :
      Lowered c piece

/-- `toLowerCase`. What becomes of a letter may depend on those around it. -/
structure LowerCase where
  lower : List Char → List Char
  pieces : ∀ text, ∃ parts, lower text = parts.flatten ∧ List.Forall₂ Lowered text parts

/-! ## Hosts -/

/-- `[a-z]` under the flags `iu`. -/
def isLetter (c : Char) : Bool := c.isAlpha || c = longS || c = kelvin

/-- `[a-z0-9]`. -/
def isLetterOrDigit (c : Char) : Bool := isLetter c || c.isDigit

/-- `[a-z0-9]([a-z0-9-]*[a-z0-9])?`. -/
def isLabel (label : List Char) : Bool :=
  label.head?.any isLetterOrDigit && label.getLast?.any isLetterOrDigit &&
    label.all fun c => isLetterOrDigit c || c = '-'

/-- `label(\.label)*`. -/
def isName (name : List Char) : Bool := (name.splitOn '.').all isLabel

/-- `\d{1,5}`. -/
def isPort (port : List Char) : Bool :=
  0 < port.length && port.length ≤ 5 && port.all Char.isDigit

/-- The whole of the regular expression. -/
def matchesHost (text : List Char) : Bool :=
  match text.splitOn ':' with
  | [name] => isName name
  | [name, port] => isName name && isPort port
  | _ => false

/-- `Number(port)`, where the expression has left digits and whitespace at the ends. -/
def portNumber (port : List Char) : Nat := Nat.ofDigitChars 10 (trim port) 0

/-- `host` or `host:port`: a name, not a URL. -/
def isValidServerHost (host : List Char) : Bool :=
  matchesHost (trim host) && match (host.splitOn ':')[1]? with
    | none => true
    | some port => 0 < portNumber port && portNumber port ≤ 65535

/-- `[a-z0-9+.-]`. -/
def isSchemeChar (c : Char) : Bool := isLetterOrDigit c || c ∈ ['+', '.', '-']

/-- `replace(/^[a-z][a-z0-9+.-]*:\/\//iu, "")`. -/
def withoutScheme (text : List Char) : List Char :=
  let rest := text.dropWhile isSchemeChar
  if text.head?.any isLetter && [':', '/', '/'].isPrefixOf rest then rest.drop 3 else text

/-- `split(/[/?#]/u)[0]`. -/
def beforePath (text : List Char) : List Char := text.takeWhile (· ∉ ['/', '?', '#'])

/-- What is left of a pasted address. -/
def hostPart (raw : List Char) : List Char := beforePath (withoutScheme (trim raw))

/-- Turn whatever someone pasted into a bare host. -/
def normalizeServerHost (l : LowerCase) (raw : List Char) : Option (List Char) :=
  let host := l.lower (hostPart raw)
  if isValidServerHost host then some host else none

/-- Whether a server is reached in the clear. -/
def isLocalHost (l : LowerCase) (host : List Char) : Bool :=
  let name := l.lower ((host.splitOn ':').headD [])
  name = "localhost".toList || name = "127.0.0.1".toList || name = "::1".toList ||
    ".local".toList.isSuffixOf name

def httpUrlFor (l : LowerCase) (host : List Char) : List Char :=
  (if isLocalHost l host then "http" else "https").toList ++ "://".toList ++ host

def signalUrlFor (l : LowerCase) (host : List Char) : List Char :=
  (if isLocalHost l host then "ws" else "wss").toList ++ "://".toList ++ host ++ "/signal".toList

/-- `4F7K-2QX9@sync.example.org`. -/
def formatQualifiedShortCode (u : UpperCase) (code : String) (host : List Char) : List Char :=
  let normalized := normalizeShortCode u code
  (if jsLength normalized = shortCodeLength then formatShortCode normalized else code).toList ++
    '@' :: host

/-! ## The canonical form -/

structure CanonicalLabel (label : List Char) : Prop where
  chars : ∀ c ∈ label, c.isLower = true ∨ c.isDigit = true ∨ c = '-'
  nonempty : label ≠ []
  first : label.head? ≠ some '-'
  last : label.getLast? ≠ some '-'

/-- Labels with dots between them, then a colon and a port or nothing. -/
inductive Canonical : List Char → Prop where
  | name {labels : List (List Char)} (hne : labels ≠ [])
      (hlabels : ∀ label ∈ labels, CanonicalLabel label) : Canonical (['.'].intercalate labels)
  | port {labels : List (List Char)} {digits : List Char} (hne : labels ≠ [])
      (hlabels : ∀ label ∈ labels, CanonicalLabel label) (hdigits : isPort digits = true)
      (hport : 1 ≤ Nat.ofDigitChars 10 digits 0 ∧ Nat.ofDigitChars 10 digits 0 ≤ 65535) :
      Canonical (['.'].intercalate labels ++ ':' :: digits)

/-- What ends an address is empty or starts with a character that ends it. -/
def EndsHost (tail : List Char) : Prop :=
  tail = [] ∨ ∃ first rest, tail = first :: rest ∧ first ∈ ['/', '?', '#']

/-- An address as people paste it: the host in some letter case, with or without a scheme, a path
or more after it, and whitespace around it all. -/
structure Pasted (l : LowerCase) (host raw : List Char) where
  before : List Char
  scheme : List Char
  body : List Char
  tail : List Char
  after : List Char
  raw_eq : raw = before ++ scheme ++ body ++ tail ++ after
  before_blank : ∀ c ∈ before, c ∈ jsWhitespace
  after_blank : ∀ c ∈ after, c ∈ jsWhitespace
  scheme_form : scheme = [] ∨ ∃ first rest, scheme = first :: rest ++ [':', '/', '/'] ∧
    isLetter first = true ∧ ∀ c ∈ rest, isSchemeChar c = true
  body_lower : l.lower body = host
  tail_form : EndsHost tail

/-! ## Characters -/

/-- What a canonical address is made of. -/
def isHostChar (c : Char) : Bool := c.isLower || c.isDigit || c ∈ ['-', '.', ':']

/-- What `toLowerCase` makes of a character that stays alone. -/
def lowerChar (c : Char) : Char := if c = kelvin then 'k' else c.toLower

theorem isAlpha_eq (c : Char) : c.isAlpha = (c.isUpper || c.isLower) :=
  rfl

theorem isUpper_iff {c : Char} : c.isUpper = true ↔ 65 ≤ c.toNat ∧ c.toNat ≤ 90 := by
  change decide (c.val ≥ 'A'.val ∧ c.val ≤ 'Z'.val) = true ↔ _
  rw [decide_eq_true_eq, ge_iff_le, UInt32.le_iff_toNat_le, UInt32.le_iff_toNat_le]
  exact Iff.rfl

theorem isLower_iff {c : Char} : c.isLower = true ↔ 97 ≤ c.toNat ∧ c.toNat ≤ 122 := by
  change (decide (c.val ≥ 'a'.val) && decide (c.val ≤ 'z'.val)) = true ↔ _
  rw [Bool.and_eq_true, decide_eq_true_eq, decide_eq_true_eq, ge_iff_le, UInt32.le_iff_toNat_le,
    UInt32.le_iff_toNat_le]
  exact Iff.rfl

theorem isDigit_iff {c : Char} : c.isDigit = true ↔ 48 ≤ c.toNat ∧ c.toNat ≤ 57 := by
  change (decide (c.val ≥ '0'.val) && decide (c.val ≤ '9'.val)) = true ↔ _
  rw [Bool.and_eq_true, decide_eq_true_eq, decide_eq_true_eq, ge_iff_le, UInt32.le_iff_toNat_le,
    UInt32.le_iff_toNat_le]
  exact Iff.rfl

theorem toLower_of_not_upper {c : Char} (h : c.isUpper = false) : c.toLower = c := by
  have hrange : ¬ (c.val ≥ 'A'.val ∧ c.val ≤ 'Z'.val) := of_decide_eq_false h
  exact dif_neg hrange

theorem upper_ascii {c : Char} (h : c.isUpper = true) :
    ∃ c' ∈ "ABCDEFGHIJKLMNOPQRSTUVWXYZ".toList, c = c' := by
  obtain ⟨hfirst, hlast⟩ := isUpper_iff.mp h
  have hall : ∀ n < 26, Char.ofNat (65 + n) ∈ "ABCDEFGHIJKLMNOPQRSTUVWXYZ".toList := by
    decide
  refine ⟨_, hall (c.toNat - 65) (by omega), ?_⟩
  rw [Nat.add_sub_cancel' (by omega), Char.ofNat_toNat]

/-- A capital letter is nothing else, and its lower case is a small one. -/
theorem upper_facts {c : Char} (h : c.isUpper = true) :
    isHostChar c = false ∧ c.toLower.isLower = true ∧ c ≠ kelvin ∧ c ≠ longS ∧ c.toNat < 128 := by
  obtain ⟨c', hc', rfl⟩ := upper_ascii h
  have hall : ∀ c ∈ "ABCDEFGHIJKLMNOPQRSTUVWXYZ".toList, isHostChar c = false ∧
      c.toLower.isLower = true ∧ c ≠ kelvin ∧ c ≠ longS ∧ c.toNat < 128 :=
    Words.forall_of_all (by decide)
  exact hall c hc'

theorem blank_facts : ∀ c ∈ jsWhitespace, isHostChar c = false ∧ isLetter c = false :=
  Words.forall_of_all (by decide)

theorem end_facts : ∀ c ∈ ['/', '?', '#'], isHostChar c = false ∧ isSchemeChar c = false ∧
    c ∉ jsWhitespace :=
  Words.forall_of_all (by decide)

theorem longS_facts : isHostChar longS = false ∧ longS.isLower = false ∧ kelvin ≠ longS := by
  decide

theorem kelvin_facts : isHostChar kelvin = false ∧ 128 ≤ kelvin.toNat ∧ kelvin ∉ jsWhitespace := by
  decide

/-- A character is its own lower case, or its lower case is a small letter. -/
theorem lowerChar_cases (c : Char) : lowerChar c = c ∧ c.isUpper = false ∧ c ≠ kelvin ∨
    (c.isUpper = true ∨ c = kelvin) ∧ (lowerChar c).isLower = true := by
  by_cases hkelvin : c = kelvin
  · right
    rw [lowerChar, if_pos hkelvin]
    exact ⟨.inr hkelvin, rfl⟩
  · rw [lowerChar, if_neg hkelvin]
    cases hupper : c.isUpper with
    | false => exact .inl ⟨toLower_of_not_upper hupper, rfl, hkelvin⟩
    | true => exact .inr ⟨.inl rfl, (upper_facts hupper).2.1⟩

theorem isHostChar_not_blank {c : Char} (h : isHostChar c = true) : c ∉ jsWhitespace := by
  intro hblank
  rw [(blank_facts c hblank).1] at h
  cases h

theorem isHostChar_ne_longS {c : Char} (h : isHostChar c = true) : c ≠ longS := by
  rintro rfl
  rw [longS_facts.1] at h
  cases h

theorem isHostChar_not_upper {c : Char} (h : isHostChar c = true) :
    c.isUpper = false ∧ c ≠ kelvin := by
  constructor
  · cases hupper : c.isUpper with
    | false => rfl
    | true =>
      rw [(upper_facts hupper).1] at h
      cases h
  · rintro rfl
    rw [kelvin_facts.1] at h
    cases h

theorem isHostChar_lower {c : Char} (h : isHostChar c = true) : lowerChar c = c := by
  obtain ⟨hupper, hkelvin⟩ := isHostChar_not_upper h
  rcases lowerChar_cases c with hlower | hlower
  · exact hlower.1
  · simp [hupper, hkelvin] at hlower

theorem letterOrDigit_ascii {c : Char} (h : isLetterOrDigit c = true) (hlongS : c ≠ longS)
    (hkelvin : c ≠ kelvin) : c.toNat < 128 := by
  simp only [isLetterOrDigit, isLetter, hlongS, hkelvin, decide_false, Bool.or_false, isAlpha_eq,
    Bool.or_eq_true, isUpper_iff, isLower_iff, isDigit_iff] at h
  omega

theorem isHostChar_ascii {c : Char} (h : isHostChar c = true) : c.toNat < 128 := by
  have hhost := h
  rw [isHostChar, Bool.or_eq_true] at h
  rcases h with h | h
  · apply letterOrDigit_ascii _ (isHostChar_ne_longS hhost) (isHostChar_not_upper hhost).2
    rcases Bool.or_eq_true_iff.mp h with h | h
    · simp [isLetterOrDigit, isLetter, isAlpha_eq, h]
    · simp [isLetterOrDigit, h]
  · have hall : ∀ c ∈ ['-', '.', ':'], c.toNat < 128 := Words.forall_of_all (by decide)
    exact hall c (of_decide_eq_true h)

/-- Neither a dash nor a dot nor a colon is a letter. -/
theorem isHostChar_letterOrDigit {c : Char} (h : isHostChar c = true)
    (hc : isLetterOrDigit c = true) : c.isLower = true ∨ c.isDigit = true := by
  obtain ⟨hupper, hkelvin⟩ := isHostChar_not_upper h
  simpa [isLetterOrDigit, isLetter, isAlpha_eq, hupper, hkelvin, isHostChar_ne_longS h] using hc

theorem isHostChar_of_isLower {c : Char} (h : c.isLower = true) : isHostChar c = true := by
  simp [isHostChar, h]

/-- Lower case neither makes whitespace or `ſ` nor takes it away. -/
theorem lowerChar_keeps (c : Char) :
    (lowerChar c ∈ jsWhitespace ↔ c ∈ jsWhitespace) ∧ (lowerChar c = longS ↔ c = longS) := by
  rcases lowerChar_cases c with ⟨heq, -⟩ | ⟨hc, hlower⟩
  · rw [heq]
    exact ⟨Iff.rfl, Iff.rfl⟩
  · have hhost := isHostChar_of_isLower hlower
    have hcapital : c ∉ jsWhitespace ∧ c ≠ longS := by
      rcases hc with hc | rfl
      · constructor
        · intro hblank
          have hlet := (blank_facts c hblank).2
          simp [isLetter, isAlpha_eq, hc] at hlet
        · exact (upper_facts hc).2.2.2.1
      · exact ⟨kelvin_facts.2.2, longS_facts.2.2⟩
    constructor
    · exact iff_of_false (isHostChar_not_blank hhost) hcapital.1
    · exact iff_of_false (isHostChar_ne_longS hhost) hcapital.2

/-- What is accepted in lower case is a character of an address, but for `ſ`. -/
theorem isHostChar_lowerChar {c : Char}
    (h : isLetterOrDigit (lowerChar c) = true ∨ lowerChar c ∈ ['-', '.', ':']) (hc : c ≠ longS) :
    isHostChar (lowerChar c) = true := by
  rcases lowerChar_cases c with ⟨heq, hupper, hkelvin⟩ | ⟨-, hlower⟩
  · rw [heq] at h ⊢
    rcases h with h | h
    · simp only [isLetterOrDigit, isLetter, isAlpha_eq, hupper, hc, hkelvin, Bool.false_or,
        Bool.or_false, decide_false] at h
      rw [isHostChar, h, Bool.true_or]
    · simp [isHostChar, h]
  · exact isHostChar_of_isLower hlower

/-! ## Lower case -/

variable {l : LowerCase}

theorem lowered_eq {c : Char} {piece : List Char} (h : Lowered c piece)
    (hplain : ¬ Foreign c ∨ ∀ d ∈ piece, ¬ Foreign d) : piece = [lowerChar c] := by
  cases h with
  | ascii hc =>
    have hne : c ≠ kelvin := by
      intro heq
      have hkelvin := kelvin_facts.2.1
      rw [heq] at hc
      omega
    rw [lowerChar, if_neg hne]
  | same hc =>
    have hall : ∀ c ∈ longS :: jsWhitespace, lowerChar c = c := Words.forall_of_all (by decide)
    rw [hall c (List.mem_cons.mpr hc.symm)]
  | kelvinSign => rfl
  | foreign hc hd hforeign =>
    rcases hplain with hplain | hplain
    · exact absurd hc hplain
    · exact absurd hforeign (hplain _ hd)

/-- Without a foreign character before or after it, lower case goes character by character. -/
theorem LowerCase.eq_map {text : List Char}
    (hplain : (∀ c ∈ text, ¬ Foreign c) ∨ ∀ d ∈ l.lower text, ¬ Foreign d) :
    l.lower text = text.map lowerChar := by
  obtain ⟨parts, hlower, hparts⟩ := l.pieces text
  rw [hlower] at hplain ⊢
  clear hlower
  induction hparts with
  | nil => rfl
  | @cons c piece text parts hpiece _ ih =>
    have hhead : ¬ Foreign c ∨ ∀ d ∈ piece, ¬ Foreign d := by
      rcases hplain with hplain | hplain
      · exact .inl (hplain c List.mem_cons_self)
      · right
        intro d hd
        apply hplain d
        rw [List.flatten_cons]
        exact List.mem_append_left _ hd
    have htail : (∀ c ∈ text, ¬ Foreign c) ∨ ∀ d ∈ parts.flatten, ¬ Foreign d := by
      rcases hplain with hplain | hplain
      · exact .inl fun c hc => hplain c (List.mem_cons_of_mem _ hc)
      · right
        intro d hd
        apply hplain d
        rw [List.flatten_cons]
        exact List.mem_append_right _ hd
    rw [List.flatten_cons, lowered_eq hpiece hhead, ih htail]
    rfl

end PassVault
