import PassVault.Signaling.ServerHost

/-!
# Canonical server addresses

What `isValidServerHost` accepts, and which of the texts that people paste `normalizeServerHost` reads
as a canonical address.
-/

namespace PassVault

variable {l : LowerCase}

/-! ## What is accepted -/

theorem isLabel_iff {label : List Char} : CanonicalLabel label ↔
    isLabel label = true ∧ ∀ c ∈ label, isHostChar c = true := by
  constructor
  · intro h
    have hhost : ∀ c ∈ label, isHostChar c = true := by
      intro c hc
      rcases h.chars c hc with hc | hc | hc
      · simp [isHostChar, hc]
      · simp [isHostChar, hc]
      · simp [isHostChar, hc]
    have halnum : ∀ c ∈ label, c ≠ '-' → isLetterOrDigit c = true := by
      intro c hc hdash
      rcases h.chars c hc with hc | hc | hc
      · simp [isLetterOrDigit, isLetter, isAlpha_eq, hc]
      · simp [isLetterOrDigit, hc]
      · exact absurd hc hdash
    apply And.intro _ hhost
    have hfirst := halnum _ (List.head_mem h.nonempty) fun heq =>
      h.first (by rw [List.head?_eq_some_head h.nonempty, heq])
    have hlast := halnum _ (List.getLast_mem h.nonempty) fun heq =>
      h.last (by rw [List.getLast?_eq_some_getLast h.nonempty, heq])
    rw [isLabel, List.head?_eq_some_head h.nonempty, List.getLast?_eq_some_getLast h.nonempty]
    simp only [Option.any_some, hfirst, hlast, Bool.and_self, Bool.true_and, List.all_eq_true,
      Bool.or_eq_true, decide_eq_true_eq]
    intro c hc
    by_cases hdash : c = '-'
    · exact .inr hdash
    · exact .inl (halnum c hc hdash)
  · intro h
    obtain ⟨hlabel, hhost⟩ := h
    rw [isLabel, Bool.and_eq_true, Bool.and_eq_true, List.all_eq_true] at hlabel
    obtain ⟨⟨hfirst, hlast⟩, hall⟩ := hlabel
    have hdash : isLetterOrDigit '-' = false := by decide
    constructor
    · intro c hc
      have hchar := hall c hc
      rw [Bool.or_eq_true, decide_eq_true_eq] at hchar
      rcases hchar with hchar | hchar
      · rcases isHostChar_letterOrDigit (hhost c hc) hchar with h | h
        · exact .inl h
        · exact .inr (.inl h)
      · exact .inr (.inr hchar)
    · intro hnil
      rw [hnil] at hfirst
      cases hfirst
    · intro heq
      rw [heq, Option.any_some, hdash] at hfirst
      cases hfirst
    · intro heq
      rw [heq, Option.any_some, hdash] at hlast
      cases hlast

/-- A host is a name, or a name and a port. -/
theorem matchesHost_cases {text : List Char} (h : matchesHost text = true) :
    isName text = true ∧ text.splitOn ':' = [text] ∨ ∃ name port, text = name ++ ':' :: port ∧
      text.splitOn ':' = [name, port] ∧ isName name = true ∧ isPort port = true := by
  have hjoin : [':'].intercalate (text.splitOn ':') = text := List.intercalate_splitOn ':'
  rw [matchesHost] at h
  split at h
  · rename_i name hsplit
    rw [hsplit, List.intercalate_singleton] at hjoin
    rw [hjoin] at h hsplit
    exact .inl ⟨h, hsplit⟩
  · rename_i name port hsplit
    rw [Bool.and_eq_true] at h
    rw [hsplit, List.intercalate_cons_cons, List.intercalate_singleton, List.append_assoc] at hjoin
    exact .inr ⟨name, port, hjoin.symm, hsplit, h⟩
  · cases h

theorem isName_chars {name : List Char} (h : isName name = true) {c : Char} (hc : c ∈ name) :
    isLetterOrDigit c = true ∨ c ∈ ['-', '.', ':'] := by
  have hjoin : ['.'].intercalate (name.splitOn '.') = name := List.intercalate_splitOn '.'
  rw [← hjoin] at hc
  rcases Words.mem_intercalate hc with rfl | ⟨label, hlabel, hc⟩
  · exact .inr (by decide)
  · have hall := List.all_eq_true.mp h label hlabel
    rw [isLabel, Bool.and_eq_true] at hall
    have hchar := List.all_eq_true.mp hall.2 c hc
    rw [Bool.or_eq_true, decide_eq_true_eq] at hchar
    rcases hchar with hchar | rfl
    · exact .inl hchar
    · exact .inr (by decide)

theorem isPort_digits {port : List Char} (h : isPort port = true) {c : Char} (hc : c ∈ port) :
    c.isDigit = true := by
  rw [isPort, Bool.and_eq_true] at h
  exact List.all_eq_true.mp h.2 c hc

theorem matchesHost_chars {text : List Char} (h : matchesHost text = true) {c : Char}
    (hc : c ∈ text) : isLetterOrDigit c = true ∨ c ∈ ['-', '.', ':'] := by
  rcases matchesHost_cases h with ⟨hname, -⟩ | ⟨name, port, rfl, -, hname, hport⟩
  · exact isName_chars hname hc
  · rcases List.mem_append.mp hc with hc | hc
    · exact isName_chars hname hc
    · rcases List.mem_cons.mp hc with rfl | hc
      · exact .inr (by decide)
      · left
        rw [isLetterOrDigit, isPort_digits hport hc, Bool.or_true]

theorem trim_eq_self {text : List Char} (h : ∀ c ∈ text, c ∉ jsWhitespace) : trim text = text :=
  Words.strip_eq_self fun c hc => decide_eq_false (h c hc)

/-- What is accepted holds no foreign character. -/
theorem isValidServerHost_chars {host : List Char} (h : isValidServerHost host = true) {c : Char}
    (hc : c ∈ host) : c ∈ jsWhitespace ∨ isLetterOrDigit c = true ∨ c ∈ ['-', '.', ':'] := by
  rw [isValidServerHost, Bool.and_eq_true] at h
  rcases Words.mem_strip_or (p := fun c => decide (c ∈ jsWhitespace)) hc with hc | hc
  · exact .inr (matchesHost_chars h.1 hc)
  · exact .inl (of_decide_eq_true hc)

theorem isHostChar_label {labels : List (List Char)}
    (hlabels : ∀ label ∈ labels, CanonicalLabel label) {c : Char}
    (hc : c ∈ ['.'].intercalate labels) : isHostChar c = true ∧ c ≠ ':' := by
  rcases Words.mem_intercalate hc with rfl | ⟨label, hlabel, hc⟩
  · decide
  · rcases (hlabels label hlabel).chars c hc with h | h | rfl
    · constructor
      · simp [isHostChar, h]
      · rintro rfl
        cases h
    · constructor
      · simp [isHostChar, h]
      · rintro rfl
        cases h
    · decide

theorem isName_intercalate {labels : List (List Char)} (hne : labels ≠ [])
    (hlabels : ∀ label ∈ labels, CanonicalLabel label) :
    isName (['.'].intercalate labels) = true := by
  have hdot : ∀ label ∈ labels, '.' ∉ label := by
    intro label hlabel hmem
    rcases (hlabels label hlabel).chars '.' hmem with h | h | h
    · cases h
    · cases h
    · cases h
  rw [isName, List.splitOn_intercalate '.' hdot hne, List.all_eq_true]
  intro label hlabel
  exact (isLabel_iff.mp (hlabels label hlabel)).1

theorem canonicalLabels {name : List Char} (hname : isName name = true)
    (hchars : ∀ c ∈ name, isHostChar c = true) :
    ∀ label ∈ name.splitOn '.', CanonicalLabel label := by
  intro label hlabel
  apply isLabel_iff.mpr
  constructor
  · exact List.all_eq_true.mp hname label hlabel
  · intro c hc
    apply hchars
    have hjoin : ['.'].intercalate (name.splitOn '.') = name := List.intercalate_splitOn '.'
    rw [← hjoin]
    exact Words.mem_intercalate_of_mem hlabel hc

/-- An address is canonical when it is accepted and has no other characters. -/
theorem canonical_iff {host : List Char} : Canonical host ↔
    isValidServerHost host = true ∧ ∀ c ∈ host, isHostChar c = true := by
  constructor
  · intro h
    cases h with
    | @name labels hne hlabels =>
      have hchars : ∀ c ∈ ['.'].intercalate labels, isHostChar c = true :=
        fun c hc => (isHostChar_label hlabels hc).1
      have hsplit : (['.'].intercalate labels).splitOn ':' = [['.'].intercalate labels] :=
        List.splitOn_eq_singleton fun hc => (isHostChar_label hlabels hc).2 rfl
      apply And.intro _ hchars
      rw [isValidServerHost, trim_eq_self fun c hc => isHostChar_not_blank (hchars c hc), matchesHost,
        hsplit]
      simp [isName_intercalate hne hlabels]
    | @port labels digits hne hlabels hdigits hport =>
      have hdigit : ∀ c ∈ digits, isHostChar c = true := by
        intro c hc
        simp [isHostChar, isPort_digits hdigits hc]
      have hchars : ∀ c ∈ ['.'].intercalate labels ++ ':' :: digits, isHostChar c = true := by
        intro c hc
        rcases List.mem_append.mp hc with hc | hc
        · exact (isHostChar_label hlabels hc).1
        · rcases List.mem_cons.mp hc with rfl | hc
          · decide
          · exact hdigit c hc
      have hcolon : ':' ∉ digits := fun hc => by cases isPort_digits hdigits hc
      have hsplit : (['.'].intercalate labels ++ ':' :: digits).splitOn ':' =
          [['.'].intercalate labels, digits] := by
        rw [List.splitOn_append_cons_self_of_not_mem
          fun hc => (isHostChar_label hlabels hc).2 rfl, List.splitOn_eq_singleton hcolon]
      apply And.intro _ hchars
      rw [isValidServerHost, trim_eq_self fun c hc => isHostChar_not_blank (hchars c hc), matchesHost,
        hsplit]
      simp only [isName_intercalate hne hlabels, hdigits, Bool.and_self, Bool.true_and,
        List.getElem?_cons_succ, List.getElem?_cons_zero, portNumber,
        trim_eq_self fun c hc => isHostChar_not_blank (hdigit c hc)]
      simp [hport.2, Nat.lt_of_lt_of_le Nat.zero_lt_one hport.1]
  · intro h
    obtain ⟨hvalid, hchars⟩ := h
    rw [isValidServerHost, trim_eq_self fun c hc => isHostChar_not_blank (hchars c hc),
      Bool.and_eq_true] at hvalid
    obtain ⟨hmatches, hport⟩ := hvalid
    rcases matchesHost_cases hmatches with ⟨hname, -⟩ | ⟨name, port, rfl, hsplit, hname, hdigits⟩
    · have hjoin : ['.'].intercalate (host.splitOn '.') = host := List.intercalate_splitOn '.'
      rw [← hjoin]
      exact .name (List.splitOn_ne_nil '.' host) (canonicalLabels hname hchars)
    · have hdigit : ∀ c ∈ port, c ∉ jsWhitespace := fun c hc =>
        isHostChar_not_blank (hchars c (List.mem_append_right _ (List.mem_cons_of_mem _ hc)))
      rw [hsplit] at hport
      simp only [List.getElem?_cons_succ, List.getElem?_cons_zero, portNumber,
        trim_eq_self hdigit, Bool.and_eq_true, decide_eq_true_eq] at hport
      have hjoin : ['.'].intercalate (name.splitOn '.') = name := List.intercalate_splitOn '.'
      rw [← hjoin]
      exact .port (List.splitOn_ne_nil '.' name)
        (canonicalLabels hname fun c hc => hchars c (List.mem_append_left _ hc)) hdigits hport

theorem not_foreign {c : Char}
    (h : c ∈ jsWhitespace ∨ isLetterOrDigit c = true ∨ c ∈ ['-', '.', ':']) : ¬ Foreign c := by
  intro hforeign
  obtain ⟨hascii, hblank, hlongS, hkelvin⟩ := hforeign
  rcases h with h | h | h
  · exact hblank h
  · exact Nat.not_lt_of_le hascii (letterOrDigit_ascii h hlongS hkelvin)
  · have hall : ∀ c ∈ ['-', '.', ':'], c.toNat < 128 := Words.forall_of_all (by decide)
    exact Nat.not_lt_of_le hascii (hall c h)

theorem normalizeServerHost_eq_some {raw host : List Char} :
    normalizeServerHost l raw = some host ↔
      l.lower (hostPart raw) = host ∧ isValidServerHost host = true := by
  rw [normalizeServerHost]
  split
  · rename_i hvalid
    constructor
    · intro h
      obtain rfl := Option.some.inj h
      exact ⟨rfl, hvalid⟩
    · intro h
      rw [h.1]
  · rename_i hvalid
    constructor
    · nofun
    · rintro ⟨rfl, hhost⟩
      exact absurd hhost hvalid

theorem normalizeServerHost_valid {raw host : List Char}
    (h : normalizeServerHost l raw = some host) : isValidServerHost host = true :=
  (normalizeServerHost_eq_some.mp h).2

/-- Without whitespace and `ſ` in it, what is left of an address is stored in canonical form. -/
theorem canonical_of_clean {text : List Char} (hvalid : isValidServerHost (l.lower text) = true)
    (hclean : ∀ c ∈ text, c ∉ jsWhitespace ∧ c ≠ longS) : Canonical (l.lower text) := by
  apply canonical_iff.mpr ⟨hvalid, _⟩
  have hmap : l.lower text = text.map lowerChar :=
    LowerCase.eq_map (.inr fun d hd => not_foreign (isValidServerHost_chars hvalid hd))
  intro d hd
  have hchar := isValidServerHost_chars hvalid hd
  rw [hmap] at hd
  obtain ⟨c, hc, rfl⟩ := List.mem_map.mp hd
  obtain ⟨hblank, hlongS⟩ := hclean c hc
  rcases hchar with hchar | hchar
  · exact absurd ((lowerChar_keeps c).1.mp hchar) hblank
  · exact isHostChar_lowerChar hchar hlongS

/-- A spelling of a canonical address goes to it character by character. -/
theorem eq_map_of_canonical {text : List Char} (h : Canonical (l.lower text)) :
    l.lower text = text.map lowerChar ∧ ∀ c ∈ text, isHostChar (lowerChar c) = true := by
  have hchars := (canonical_iff.mp h).2
  have hmap : l.lower text = text.map lowerChar := by
    apply LowerCase.eq_map (.inr _)
    intro d hd hforeign
    exact Nat.not_lt_of_le hforeign.1 (isHostChar_ascii (hchars d hd))
  apply And.intro hmap
  intro c hc
  apply hchars
  rw [hmap]
  exact List.mem_map_of_mem hc

theorem notMem_of_canonical {text : List Char} (h : Canonical (l.lower text)) {c : Char}
    (hc : isHostChar (lowerChar c) = false) : c ∉ text := by
  intro hmem
  rw [(eq_map_of_canonical h).2 c hmem] at hc
  cases hc

theorem clean_of_canonical {text : List Char} (h : Canonical (l.lower text)) {c : Char}
    (hc : c ∈ text) : c ∉ jsWhitespace ∧ c ≠ longS := by
  have hchar := (eq_map_of_canonical h).2 c hc
  constructor
  · intro hblank
    exact isHostChar_not_blank hchar ((lowerChar_keeps c).1.mpr hblank)
  · intro hlongS
    exact isHostChar_ne_longS hchar ((lowerChar_keeps c).2.mpr hlongS)

/-- `host` or `host:port` in lower-case ASCII, without whitespace. -/
structure PlainHost (host : List Char) : Prop where
  accepted : isValidServerHost host = true
  ascii : ∀ c ∈ host, c.toNat < 128
  blank : ∀ c ∈ host, c ∉ jsWhitespace
  lower : ∀ c ∈ host, c.isUpper = false

theorem PlainHost.canonical {host : List Char} (h : PlainHost host) : Canonical host := by
  apply canonical_iff.mpr ⟨h.accepted, _⟩
  intro c hc
  rcases isValidServerHost_chars h.accepted hc with hchar | hchar | hchar
  · exact absurd hchar (h.blank c hc)
  · have hfold : c ≠ longS ∧ c ≠ kelvin := by
      have hall : 128 ≤ longS.toNat ∧ 128 ≤ kelvin.toNat := by decide
      constructor
      · rintro rfl
        exact Nat.not_lt_of_le hall.1 (h.ascii _ hc)
      · rintro rfl
        exact Nat.not_lt_of_le hall.2 (h.ascii _ hc)
    simp only [isLetterOrDigit, isLetter, isAlpha_eq, h.lower c hc, hfold.1, hfold.2,
      Bool.false_or, Bool.or_false, decide_false] at hchar
    rw [isHostChar, hchar, Bool.true_or]
  · simp [isHostChar, hchar]

/-! ## What people paste -/

theorem canonical_last {host : List Char} (h : Canonical host) :
    ∃ front last, host = front ++ [last] ∧ last ≠ ':' := by
  cases h with
  | @name labels hne hlabels =>
    obtain ⟨label, rest, rfl⟩ := List.exists_cons_of_ne_nil hne
    have hmem : label.head (hlabels label List.mem_cons_self).nonempty ∈
        ['.'].intercalate (label :: rest) :=
      Words.mem_intercalate_of_mem List.mem_cons_self (List.head_mem _)
    have hhost : ['.'].intercalate (label :: rest) ≠ [] := List.ne_nil_of_mem hmem
    refine ⟨_, _, (List.dropLast_append_getLast hhost).symm, ?_⟩
    exact (isHostChar_label hlabels (List.getLast_mem hhost)).2
  | @port labels digits hne hlabels hdigits hport =>
    have hpos : digits ≠ [] := by
      rintro rfl
      simp [isPort] at hdigits
    have hlast : digits = digits.dropLast ++ [digits.getLast hpos] :=
      (List.dropLast_append_getLast hpos).symm
    refine ⟨['.'].intercalate labels ++ ':' :: digits.dropLast, digits.getLast hpos, ?_, ?_⟩
    · rw [List.append_assoc, List.cons_append, ← hlast]
    · intro heq
      have hdigit := isPort_digits hdigits (List.getLast_mem hpos)
      rw [heq] at hdigit
      cases hdigit

theorem EndsHost.rdropWhile {tail after : List Char} (htail : EndsHost tail)
    (hafter : ∀ c ∈ after, c ∈ jsWhitespace) :
    EndsHost ((tail ++ after).rdropWhile fun c => decide (c ∈ jsWhitespace)) := by
  rw [Words.rdropWhile_append_of_all fun c hc => decide_eq_true (hafter c hc)]
  rcases htail with rfl | ⟨first, rest, rfl, hfirst⟩
  · exact .inl rfl
  · right
    have hblank : decide (first ∈ jsWhitespace) = false :=
      decide_eq_false (end_facts first hfirst).2.2
    have hne : [first] ≠ [] := List.cons_ne_nil _ _
    have hdrop : ([first] ++ rest).rdropWhile (fun c => decide (c ∈ jsWhitespace)) =
        [first] ++ rest.rdropWhile fun c => decide (c ∈ jsWhitespace) :=
      Words.rdropWhile_append_of_last hne hblank
    exact ⟨first, _, hdrop, hfirst⟩

theorem beforePath_append {body tail : List Char} (hbody : ∀ c ∈ body, c ∉ ['/', '?', '#'])
    (htail : EndsHost tail) : beforePath (body ++ tail) = body := by
  rw [beforePath, List.takeWhile_append_of_pos fun c hc => decide_eq_true (hbody c hc)]
  rcases htail with rfl | ⟨first, rest, rfl, hfirst⟩
  · rw [List.takeWhile_nil, List.append_nil]
  · rw [List.takeWhile_cons_of_neg (by simp [hfirst]), List.append_nil]

/-- A scheme goes. -/
theorem withoutScheme_scheme {first : Char} {rest text : List Char} (hfirst : isLetter first = true)
    (hrest : ∀ c ∈ rest, isSchemeChar c = true) :
    withoutScheme (first :: rest ++ [':', '/', '/'] ++ text) = text := by
  have hhead : isSchemeChar first = true := by simp [isSchemeChar, isLetterOrDigit, hfirst]
  have hall : ∀ c ∈ first :: rest, isSchemeChar c = true := List.forall_mem_cons.mpr ⟨hhead, hrest⟩
  have hcolon : isSchemeChar ':' = false := by decide
  have hdrop : (first :: rest ++ [':', '/', '/'] ++ text).dropWhile isSchemeChar =
      ':' :: '/' :: '/' :: text := by
    rw [List.append_assoc, List.dropWhile_append_of_pos hall]
    rw [List.cons_append, List.dropWhile_cons_of_neg (by simp [hcolon])]
    rfl
  rw [withoutScheme, hdrop]
  simp [hfirst]

/-- Neither a name nor a port looks like a scheme. -/
theorem withoutScheme_body {body tail : List Char} (hbody : ∀ c ∈ body, c ∉ ['/', '?', '#'])
    (hlast : ∀ front, body ≠ front ++ [':']) (htail : EndsHost tail) :
    withoutScheme (body ++ tail) = body ++ tail := by
  rw [withoutScheme, if_neg]
  intro h
  rw [Bool.and_eq_true, List.isPrefixOf_iff_prefix] at h
  obtain ⟨rest, hrest⟩ := h.2
  rw [List.dropWhile_append] at hrest
  split at hrest
  · rcases htail with rfl | ⟨first, after, rfl, hfirst⟩
    · simp at hrest
    · have hstop : ¬ isSchemeChar first = true := by
        rw [(end_facts first hfirst).2.1]
        exact Bool.false_ne_true
      rw [List.dropWhile_cons_of_neg hstop] at hrest
      have hcolon : ':' = first := (List.cons.inj hrest).1
      rw [← hcolon] at hfirst
      revert hfirst
      decide
  · obtain ⟨front, hfront⟩ := List.dropWhile_suffix (l := body) isSchemeChar
    cases hdrop : body.dropWhile isSchemeChar with
    | nil => simp_all
    | cons first after =>
      rw [hdrop] at hrest hfront
      obtain ⟨hcolon, hslashes⟩ := List.cons.inj hrest
      cases after with
      | nil =>
        apply hlast front
        rw [← hfront, ← hcolon]
      | cons second after =>
        have hslash : '/' = second := (List.cons.inj hslashes).1
        apply hbody '/' _ (by decide)
        rw [← hfront, ← hslash]
        simp

/-- An address in any letter case, with a scheme, a path and whitespace around it or not, is read
as its canonical form. -/
theorem normalizeServerHost_pasted {host raw : List Char} (h : Canonical host)
    (pasted : Pasted l host raw) : normalizeServerHost l raw = some host := by
  obtain ⟨before, scheme, body, tail, after, rfl, hbefore, hafter, hscheme, rfl, htail⟩ := pasted
  have hmap := (eq_map_of_canonical h).1
  have hslash : ∀ c ∈ body, c ∉ ['/', '?', '#'] := by
    intro c hc hmem
    have hall : ∀ c ∈ ['/', '?', '#'], isHostChar (lowerChar c) = false :=
      Words.forall_of_all (by decide)
    exact notMem_of_canonical h (hall c hmem) hc
  obtain ⟨front, last, hhost, hlast⟩ := canonical_last h
  have hne : body ≠ [] := by
    rintro rfl
    rw [hmap] at hhost
    simp at hhost
  have hcolon : ∀ front', body ≠ front' ++ [':'] := by
    rintro front' rfl
    rw [hmap, List.map_append] at hhost
    have hlow : lowerChar ':' = ':' := by decide
    rw [List.map_singleton, hlow] at hhost
    exact hlast (List.cons.inj (List.append_inj_right' hhost rfl)).1.symm
  have hblank : ∀ c ∈ body, decide (c ∈ jsWhitespace) = false :=
    fun c hc => decide_eq_false (clean_of_canonical h hc).1
  have hmiddle : scheme ++ body ≠ [] := by simp [hne]
  have hfirst : decide ((scheme ++ body).head hmiddle ∈ jsWhitespace) = false := by
    rcases hscheme with rfl | ⟨first, rest, rfl, hletter, -⟩
    · exact hblank _ (List.head_mem hne)
    · apply decide_eq_false
      intro hmem
      have hletter' := (blank_facts _ hmem).2
      simp only [List.cons_append, List.head_cons] at hletter'
      rw [hletter] at hletter'
      cases hletter'
  have hend : decide ((scheme ++ body).getLast hmiddle ∈ jsWhitespace) = false := by
    rw [List.getLast_append_of_ne_nil hmiddle hne]
    exact hblank _ (List.getLast_mem hne)
  have htail' := EndsHost.rdropWhile htail hafter
  have htrim : trim (before ++ scheme ++ body ++ tail ++ after) = scheme ++ body ++
      (tail ++ after).rdropWhile fun c => decide (c ∈ jsWhitespace) := by
    have haround : trim (before ++ (scheme ++ body ++ (tail ++ after))) = scheme ++ body ++
        (tail ++ after).rdropWhile fun c => decide (c ∈ jsWhitespace) :=
      Words.strip_around (fun c hc => decide_eq_true (hbefore c hc)) hmiddle hfirst hend
    simp only [List.append_assoc] at haround ⊢
    exact haround
  have hpart : hostPart (before ++ scheme ++ body ++ tail ++ after) = body := by
    rw [hostPart, htrim]
    rcases hscheme with rfl | ⟨first, rest, rfl, hletter, hrest⟩
    · rw [List.nil_append, withoutScheme_body hslash hcolon htail', beforePath_append hslash htail']
    · rw [List.append_assoc, withoutScheme_scheme hletter hrest, beforePath_append hslash htail']
  apply normalizeServerHost_eq_some.mpr
  rw [hpart]
  exact ⟨rfl, (canonical_iff.mp h).1⟩

theorem lower_canonical {host : List Char} (h : Canonical host) : l.lower host = host := by
  have hchars := (canonical_iff.mp h).2
  have hmap : l.lower host = host.map lowerChar := by
    apply LowerCase.eq_map (.inl _)
    intro c hc hforeign
    exact Nat.not_lt_of_le hforeign.1 (isHostChar_ascii (hchars c hc))
  rw [hmap, List.map_congr_left fun c hc => isHostChar_lower (hchars c hc), List.map_id']

/-! ## Accepted in any letter case -/

theorem lowerChar_eq_iff {c d : Char} (hd : d ∈ ['-', '.', ':']) : lowerChar c = d ↔ c = d := by
  have hall : ∀ d ∈ ['-', '.', ':'], lowerChar d = d ∧ d.isLower = false :=
    Words.forall_of_all (by decide)
  constructor
  · intro h
    rcases lowerChar_cases c with ⟨hlower, -⟩ | ⟨-, hlower⟩
    · rw [← hlower, h]
    · rw [h, (hall d hd).2] at hlower
      cases hlower
  · rintro rfl
    exact (hall c hd).1

theorem isLetterOrDigit_lowerChar (c : Char) : isLetterOrDigit (lowerChar c) = isLetterOrDigit c := by
  rcases lowerChar_cases c with ⟨hlower, -⟩ | ⟨hupper | rfl, hlower⟩
  · rw [hlower]
  · simp [isLetterOrDigit, isLetter, isAlpha_eq, hupper, hlower]
  · decide

theorem isLabel_map (label : List Char) : isLabel (label.map lowerChar) = isLabel label := by
  have hinner : ((fun c => isLetterOrDigit c || decide (c = '-')) ∘ lowerChar) =
      fun c => isLetterOrDigit c || decide (c = '-') := by
    funext c
    have hdash : lowerChar c = '-' ↔ c = '-' := lowerChar_eq_iff (by decide)
    rw [Function.comp_apply, isLetterOrDigit_lowerChar, decide_eq_decide.mpr hdash]
  rw [isLabel, isLabel, List.head?_map, List.getLast?_map, Option.any_map, Option.any_map,
    List.all_map, hinner]
  simp only [isLetterOrDigit_lowerChar]

theorem isName_map (name : List Char) : isName (name.map lowerChar) = isName name := by
  have hlabel : isLabel ∘ List.map lowerChar = isLabel := funext isLabel_map
  rw [isName, isName, Words.splitOn_map fun c => lowerChar_eq_iff (by decide), List.all_map, hlabel]

theorem isDigit_not_lower {c : Char} (h : c.isDigit = true) : c.isLower = false := by
  rw [← Bool.not_eq_true, isLower_iff]
  have hdigit := isDigit_iff.mp h
  omega

/-- Digits have no case. -/
theorem port_map {port : List Char} (h : isPort (port.map lowerChar) = true) :
    port.map lowerChar = port := by
  have hsame : ∀ c ∈ port, lowerChar c = c := by
    intro c hc
    have hdigit := isPort_digits h (List.mem_map_of_mem hc)
    rcases lowerChar_cases c with ⟨hlower, -⟩ | ⟨-, hlower⟩
    · exact hlower
    · rw [isDigit_not_lower hdigit] at hlower
      cases hlower
  rw [List.map_congr_left hsame, List.map_id']

/-- What is canonical in lower case is accepted as it stands. -/
theorem isValidServerHost_of_lower {text : List Char} (h : Canonical (l.lower text)) :
    isValidServerHost text = true := by
  have hvalid := (canonical_iff.mp h).1
  have htrim := trim_eq_self fun c hc => isHostChar_not_blank ((canonical_iff.mp h).2 c hc)
  have hself := trim_eq_self fun c hc => (clean_of_canonical h hc).1
  rw [isValidServerHost, htrim, (eq_map_of_canonical h).1, matchesHost,
    Words.splitOn_map fun c => lowerChar_eq_iff (by decide)] at hvalid
  rw [isValidServerHost, hself, matchesHost]
  generalize text.splitOn ':' = words at hvalid ⊢
  cases words with
  | nil => simp at hvalid
  | cons name rest =>
    cases rest with
    | nil =>
      simp [isName_map] at hvalid
      simp [hvalid]
    | cons port rest =>
      cases rest with
      | nil =>
        simp only [List.map_cons, List.map_nil, isName_map, Bool.and_eq_true] at hvalid
        have hport := port_map hvalid.1.2
        rw [hport] at hvalid
        simpa [Bool.and_eq_true] using hvalid
      | cons next rest => simp at hvalid

/-- A canonical address is read as it stands. -/
theorem normalizeServerHost_self {host : List Char} (h : Canonical host) :
    normalizeServerHost l host = some host :=
  normalizeServerHost_pasted h ⟨[], [], host, [], [], by simp, nofun, nofun, .inl rfl,
    lower_canonical h, .inl rfl⟩

theorem lowered_lowerChar (c : Char) : Lowered c [lowerChar c] := by
  by_cases hascii : c.toNat < 128
  · have hne : c ≠ kelvin := by
      intro heq
      have hkelvin := kelvin_facts.2.1
      rw [heq] at hascii
      omega
    rw [lowerChar, if_neg hne]
    exact .ascii hascii
  · rcases lowerChar_cases c with ⟨hlower, -, hkelvin⟩ | ⟨hupper | rfl, -⟩
    · rw [hlower]
      by_cases hsame : c ∈ jsWhitespace ∨ c = longS
      · exact .same hsame
      · have hforeign : Foreign c := ⟨Nat.le_of_not_lt hascii, fun h => hsame (.inl h),
          fun h => hsame (.inr h), hkelvin⟩
        exact .foreign hforeign List.mem_cons_self hforeign
    · exact absurd (upper_facts hupper).2.2.2.2 hascii
    · exact .kelvinSign

/-- Lower case that goes character by character. -/
def plainLower : LowerCase where
  lower text := text.map lowerChar
  pieces text := by
    refine ⟨text.map fun c => [lowerChar c], ?_, ?_⟩
    · rw [← List.flatMap_def]
      exact (List.flatMap_singleton' (text.map lowerChar)).symm.trans (List.flatMap_map _ _ _)
    · rw [List.forall₂_map_right_iff, List.forall₂_same]
      exact fun c _ => lowered_lowerChar c

end PassVault
