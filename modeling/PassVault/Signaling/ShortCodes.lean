import Mathlib.Algebra.GroupWithZero.Nat
import PassVault.Core.Model
import PassVault.Lib.Machine
import PassVault.Lib.Table

/-!
# Short pairing codes

`packages/core/src/shortCode.ts` and `ShortCodeRegistry` of `apps/signaling/src/shortCodes.ts`. The
random draws and the readings of the clock are arguments of the calls that take them.
-/

namespace PassVault

open Machine

/-! ## Spelling -/

def shortCodeAlphabet : List Char := "0123456789ABCDEFGHJKMNPQRSTVWXYZ".toList

def shortCodeLength : Nat := 8

/-- What `\s` matches and `trim` takes off. -/
def jsWhitespace : List Char :=
  [0x09, 0x0a, 0x0b, 0x0c, 0x0d, 0x20, 0xa0, 0x1680, 0x2000, 0x2001, 0x2002, 0x2003, 0x2004, 0x2005,
    0x2006, 0x2007, 0x2008, 0x2009, 0x200a, 0x2028, 0x2029, 0x202f, 0x205f, 0x3000, 0xfeff].map
    Char.ofNat

/-- `toUpperCase`, character by character. -/
structure UpperCase where
  upper : Char → List Char
  ascii : ∀ c, c.toNat < 128 → upper c = [c.toUpper]
  whitespace : ∀ c ∈ jsWhitespace, upper c = [c]

def trim (text : List Char) : List Char :=
  ((text.dropWhile (· ∈ jsWhitespace)).reverse.dropWhile (· ∈ jsWhitespace)).reverse

/-- `4F7K-2QX9` reads back to a person more reliably than `4F7K2QX9`. -/
def formatShortCode (code : String) : String :=
  String.ofList (code.toList.take 4 ++ '-' :: code.toList.drop 4)

/-- Accept what people actually type. -/
def normalizeShortCode (u : UpperCase) (raw : String) : String :=
  String.ofList ((((trim raw.toList).flatMap u.upper).filter fun c =>
      ¬ (c ∈ jsWhitespace ∨ c = '-')).map fun c =>
    if c = 'O' then '0' else if c = 'I' ∨ c = 'L' then '1' else c)

/-- How people write a character of a code. -/
def variants (c : Char) : List Char :=
  [c, c.toLower] ++ (if c = '0' then ['O', 'o'] else []) ++
    if c = '1' then ['I', 'i', 'L', 'l'] else []

/-- `raw` is the code in some spelling: variants of its characters, with spaces and dashes. -/
inductive Spells : List Char → List Char → Prop where
  | nil : Spells [] []
  | separator {c : Char} {raw code : List Char} (hc : c ∈ jsWhitespace ∨ c = '-')
      (h : Spells raw code) : Spells (c :: raw) code
  | char {c c' : Char} {raw code : List Char} (hc : c ∈ shortCodeAlphabet) (hc' : c' ∈ variants c)
      (h : Spells raw code) : Spells (c' :: raw) (c :: code)

/-- What normalization makes of one character. -/
def normalizeChar (u : UpperCase) (c : Char) : List Char :=
  ((u.upper c).filter fun c => ¬ (c ∈ jsWhitespace ∨ c = '-')).map fun c =>
    if c = 'O' then '0' else if c = 'I' ∨ c = 'L' then '1' else c

variable {u : UpperCase}

theorem normalizeChar_separator {c : Char} (hc : c ∈ jsWhitespace ∨ c = '-') :
    normalizeChar u c = [] := by
  have hupper : u.upper c = [c] := by
    rcases hc with hc | rfl
    · exact u.whitespace c hc
    · exact u.ascii '-' (by decide)
  rw [normalizeChar, hupper]
  simp only [List.filter_cons, hc, not_true_eq_false, decide_false, Bool.false_eq_true, if_false,
    List.filter_nil, List.map_nil]

theorem variants_normalize {c c' : Char} (hc : c ∈ shortCodeAlphabet) (hc' : c' ∈ variants c) :
    c'.toNat < 128 ∧ ¬ (c'.toUpper ∈ jsWhitespace ∨ c'.toUpper = '-') ∧
      (if c'.toUpper = 'O' then '0' else if c'.toUpper = 'I' ∨ c'.toUpper = 'L' then '1'
        else c'.toUpper) = c := by
  have hall : (shortCodeAlphabet.all fun c => (variants c).all fun c' => decide
      (c'.toNat < 128 ∧ ¬ (c'.toUpper ∈ jsWhitespace ∨ c'.toUpper = '-') ∧
        (if c'.toUpper = 'O' then '0' else if c'.toUpper = 'I' ∨ c'.toUpper = 'L' then '1'
          else c'.toUpper) = c)) = true := by
    decide +kernel
  exact of_decide_eq_true (List.all_eq_true.mp (List.all_eq_true.mp hall c hc) c' hc')

theorem normalizeChar_variant {c c' : Char} (hc : c ∈ shortCodeAlphabet) (hc' : c' ∈ variants c) :
    normalizeChar u c' = [c] := by
  obtain ⟨hascii, hkeep, hchar⟩ := variants_normalize hc hc'
  rw [normalizeChar, u.ascii c' hascii]
  simp only [List.filter_cons, hkeep, not_false_eq_true, decide_true, if_true, List.filter_nil,
    List.map_cons, List.map_nil, hchar]

/-- Whitespace at an end counts for nothing. -/
theorem flatMap_dropWhile {α β : Type} {f : α → List β} {p : α → Bool}
    (h : ∀ a, p a = true → f a = []) (l : List α) : (l.dropWhile p).flatMap f = l.flatMap f := by
  induction l with
  | nil => rfl
  | cons a l ih =>
    rw [List.dropWhile_cons]
    split
    · rename_i ha
      rw [ih, List.flatMap_cons, h a ha, List.nil_append]
    · rfl

theorem flatMap_trim (text : List Char) :
    (trim text).flatMap (normalizeChar u) = text.flatMap (normalizeChar u) := by
  have hspace : ∀ c, decide (c ∈ jsWhitespace) = true → normalizeChar u c = [] :=
    fun c hc => normalizeChar_separator (.inl (of_decide_eq_true hc))
  have hspace' : ∀ c, decide (c ∈ jsWhitespace) = true → (List.reverse ∘ normalizeChar u) c = [] :=
    fun c hc => by rw [Function.comp_apply, hspace c hc, List.reverse_nil]
  rw [trim, List.flatMap_reverse, flatMap_dropWhile hspace', ← List.flatMap_reverse,
    List.reverse_reverse, flatMap_dropWhile hspace]

theorem normalizeShortCode_eq (raw : String) :
    normalizeShortCode u raw = String.ofList (raw.toList.flatMap (normalizeChar u)) := by
  rw [normalizeShortCode, List.filter_flatMap, List.map_flatMap]
  exact congrArg String.ofList (flatMap_trim raw.toList)

/-- Any spelling of a code is normalized to it. -/
theorem normalizeShortCode_spells {raw code : String} (h : Spells raw.toList code.toList) :
    normalizeShortCode u raw = code := by
  rw [normalizeShortCode_eq]
  have hchars : ∀ raw code, Spells raw code → raw.flatMap (normalizeChar u) = code := by
    intro raw code h
    induction h with
    | nil => rfl
    | separator hc _ ih => rw [List.flatMap_cons, normalizeChar_separator hc, List.nil_append, ih]
    | char hc hc' _ ih =>
      rw [List.flatMap_cons, normalizeChar_variant hc hc', List.singleton_append, ih]
  rw [hchars _ _ h, String.ofList_toList]

theorem Spells.append {raw raw' code code' : List Char} (h : Spells raw code)
    (h' : Spells raw' code') : Spells (raw ++ raw') (code ++ code') := by
  induction h with
  | nil => exact h'
  | separator hc _ ih => exact .separator hc ih
  | char hc hc' _ ih => exact .char hc hc' ih

theorem Spells.self {code : List Char} (h : ∀ c ∈ code, c ∈ shortCodeAlphabet) :
    Spells code code := by
  induction code with
  | nil => exact .nil
  | cons c code ih =>
    obtain ⟨hc, hcode⟩ := List.forall_mem_cons.mp h
    exact .char hc (by simp [variants]) (ih hcode)

theorem spells_format {code : String} (h : ∀ c ∈ code.toList, c ∈ shortCodeAlphabet) :
    Spells (formatShortCode code).toList code.toList := by
  rw [formatShortCode, String.toList_ofList]
  have hsplit : Spells (code.toList.take 4 ++ '-' :: code.toList.drop 4)
      (code.toList.take 4 ++ code.toList.drop 4) := by
    apply Spells.append (.self fun c hc => h c (List.mem_of_mem_take hc))
    exact .separator (.inr rfl) (.self fun c hc => h c (List.mem_of_mem_drop hc))
  rwa [List.take_append_drop] at hsplit

/-! ## The registry -/

def codeTtlMs : Nat := 10 * 60 * 1000

def maxEntries : Nat := 10000

def maxOfferBytes : Nat := 2048

structure PairingCode where
  code : String
  offer : String
  expiresAt : Nat
deriving DecidableEq, Repr

structure IssuedShortCode where
  code : String
  expiresAt : Nat
deriving DecidableEq, Repr

/-- What the calls of `randomInt` in `generate` return. -/
structure Draw where
  indices : List (Fin shortCodeAlphabet.length)
  full : indices.length = shortCodeLength

def Draw.code (draw : Draw) : String := String.ofList (draw.indices.map shortCodeAlphabet.get)

/-- `text.length`, in UTF-16 units. -/
def jsLength (text : String) : Nat :=
  (text.toList.map fun c => if c.toNat < 0x10000 then 1 else 2).sum

structure ShortCodeRegistry where
  entries : Table PairingCode.code

namespace ShortCodeRegistry

def empty : ShortCodeRegistry := ⟨.empty _⟩

def sweep (now : Nat) (registry : ShortCodeRegistry) : ShortCodeRegistry :=
  ⟨registry.entries.filter fun entry => now < entry.expiresAt⟩

/-- The loop that draws until a code is free. -/
def pick (registry : ShortCodeRegistry) : List Draw → Option String
  | [] => none
  | draw :: rest => if registry.entries.has draw.code then registry.pick rest else some draw.code

/-- The clock reads `now` in `sweep` and `later` afterwards. With `draws` alone it may not end. -/
def issue (offer : String) (now later : Nat) (draws : List Draw) (registry : ShortCodeRegistry) :
    Option (ShortCodeRegistry × Except Failure IssuedShortCode) :=
  if jsLength offer = 0 ∨ maxOfferBytes < jsLength offer then
    some (registry, .error (.error "pairing offer is missing or too large"))
  else
    let registry := registry.sweep now
    if maxEntries ≤ registry.entries.rows.length then
      some (registry, .error (.error "too many pairing codes are outstanding"))
    else
      (registry.pick draws).map fun code =>
        let expiresAt := later + codeTtlMs
        (⟨registry.entries.set ⟨code, offer, expiresAt⟩⟩, .ok ⟨formatShortCode code, expiresAt⟩)

/-- Redeem a code. Single use, so a code that leaks afterwards buys nothing. -/
def redeem (u : UpperCase) (raw : String) (now : Nat) (registry : ShortCodeRegistry) :
    ShortCodeRegistry × Option String :=
  let registry := registry.sweep now
  match registry.entries.find (normalizeShortCode u raw) with
  | none => (registry, none)
  | some entry => (⟨registry.entries.delete (normalizeShortCode u raw)⟩, some entry.offer)

end ShortCodeRegistry

/-! ## Runs -/

/-- What a caller of the registry sees. -/
inductive CodeEvent where
  | issued (result : IssuedShortCode) (offer : String) (now : Nat)
  | redeemed (raw : String) (offer : String) (now : Nat)
deriving DecidableEq, Repr

/-- The code that was shown, or typed. -/
def CodeEvent.code (u : UpperCase) : CodeEvent → String
  | issued result _ _ => normalizeShortCode u result.code
  | redeemed raw _ _ => normalizeShortCode u raw

inductive CodeCall where
  | issue (offer : String) (now later : Nat) (draws : List Draw)
  | redeem (raw : String) (now : Nat)

/-- The registry, the last reading of the clock, and what has happened. -/
structure CodeHistory where
  registry : ShortCodeRegistry
  clock : Nat
  log : List CodeEvent

/-- The codes that were issued and not redeemed since. -/
def outstanding (u : UpperCase) (log : List CodeEvent) : List PairingCode :=
  log.foldl (fun codes event =>
    match event with
    | .issued result offer _ =>
      codes ++ [⟨normalizeShortCode u result.code, offer, result.expiresAt⟩]
    | .redeemed raw _ _ => codes.filter (·.code ≠ normalizeShortCode u raw)) []

namespace CodeHistory

def start : CodeHistory := ⟨.empty, 0, []⟩

/-- The clock does not go back. -/
def step (u : UpperCase) (s : CodeHistory) : CodeCall → Option CodeHistory
  | .issue offer now later draws =>
    if s.clock ≤ now ∧ now ≤ later then
      (s.registry.issue offer now later draws).map fun (registry, result) =>
        match result with
        | .error _ => ⟨registry, later, s.log⟩
        | .ok issued => ⟨registry, later, s.log ++ [.issued issued offer now]⟩
    else none
  | .redeem raw now =>
    if s.clock ≤ now then
      match s.registry.redeem u raw now with
      | (registry, none) => some ⟨registry, now, s.log⟩
      | (registry, some offer) => some ⟨registry, now, s.log ++ [.redeemed raw offer now]⟩
    else none

/-- The codes that can still be redeemed. -/
def unexpired (u : UpperCase) (s : CodeHistory) : List PairingCode :=
  (outstanding u s.log).filter fun entry => s.clock < entry.expiresAt

/-- A code works once, in time, for its own offer. -/
structure OnceInTime (u : UpperCase) (s : CodeHistory) : Prop where
  /-- A redemption follows an issue of the code with its offer, and nothing of the code between. -/
  once : ∀ before raw offer now after, s.log = before ++ .redeemed raw offer now :: after →
    ∃ earlier result issuedAt later, before = earlier ++ .issued result offer issuedAt :: later ∧
      normalizeShortCode u result.code = normalizeShortCode u raw ∧ now < result.expiresAt ∧
      ∀ event ∈ later, event.code u ≠ normalizeShortCode u raw
  /-- A code is issued again only when it has been redeemed or has expired. -/
  fresh : ∀ before result offer now after, s.log = before ++ .issued result offer now :: after →
    ∀ entry ∈ outstanding u before, entry.code = normalizeShortCode u result.code →
      entry.expiresAt ≤ now
  distinct : ((s.unexpired u).map (·.code)).Nodup
  bounded : (s.unexpired u).length ≤ maxEntries
  works : ∀ entry ∈ outstanding u s.log, ∀ raw now, normalizeShortCode u raw = entry.code →
    s.clock ≤ now → now < entry.expiresAt → ∃ t, step u s (.redeem raw now) = some t ∧
      t.log = s.log ++ [.redeemed raw entry.offer now]
  spelt : ∀ entry ∈ outstanding u s.log, ∀ raw, Spells raw.toList entry.code.toList →
    normalizeShortCode u raw = entry.code

variable {s t : CodeHistory}

theorem outstanding_issued (log : List CodeEvent) (result : IssuedShortCode) (offer : String)
    (now : Nat) : outstanding u (log ++ [.issued result offer now]) =
      outstanding u log ++ [⟨normalizeShortCode u result.code, offer, result.expiresAt⟩] := by
  simp [outstanding]

theorem outstanding_redeemed (log : List CodeEvent) (raw offer : String) (now : Nat) :
    outstanding u (log ++ [.redeemed raw offer now]) =
      (outstanding u log).filter (·.code ≠ normalizeShortCode u raw) := by
  simp [outstanding]

/-- What is due later is not due yet. -/
theorem filter_later {clock now : Nat} (hnow : clock ≤ now) (codes : List PairingCode) :
    (codes.filter fun entry => clock < entry.expiresAt).filter (fun entry => now < entry.expiresAt) =
      codes.filter fun entry => now < entry.expiresAt := by
  rw [List.filter_filter]
  apply List.filter_congr
  intro entry _
  by_cases hentry : now < entry.expiresAt
  · simp [hentry, Nat.lt_of_le_of_lt hnow hentry]
  · simp [hentry]

/-- A row of the registry is the last that has happened with its code. -/
def Rooted (u : UpperCase) (log : List CodeEvent) (row : PairingCode) : Prop :=
  ∃ earlier result issuedAt later, log = earlier ++ .issued result row.offer issuedAt :: later ∧
    normalizeShortCode u result.code = row.code ∧ result.expiresAt = row.expiresAt ∧
    ∀ event ∈ later, event.code u ≠ row.code

theorem Rooted.concat {log : List CodeEvent} {row : PairingCode} (h : Rooted u log row)
    {event : CodeEvent} (hevent : event.code u ≠ row.code) : Rooted u (log ++ [event]) row := by
  obtain ⟨earlier, result, issuedAt, later, rfl, hcode, hexpires, hlater⟩ := h
  refine ⟨earlier, result, issuedAt, later ++ [event], by simp, hcode, hexpires, ?_⟩
  intro event' hmem
  rcases List.mem_append.mp hmem with hmem | hmem
  · exact hlater event' hmem
  · rw [List.mem_singleton.mp hmem]
    exact hevent

/-- What has happened, and what the registry holds of it. -/
structure Linked (u : UpperCase) (s : CodeHistory) : Prop where
  same : (s.registry.entries.rows.filter fun entry => s.clock < entry.expiresAt) = s.unexpired u
  bounded : s.registry.entries.rows.length ≤ maxEntries
  rooted : ∀ row ∈ s.registry.entries.rows, Rooted u s.log row
  once : ∀ before raw offer now after, s.log = before ++ .redeemed raw offer now :: after →
    ∃ earlier result issuedAt later, before = earlier ++ .issued result offer issuedAt :: later ∧
      normalizeShortCode u result.code = normalizeShortCode u raw ∧ now < result.expiresAt ∧
      ∀ event ∈ later, event.code u ≠ normalizeShortCode u raw
  fresh : ∀ before result offer now after, s.log = before ++ .issued result offer now :: after →
    ∀ entry ∈ outstanding u before, entry.code = normalizeShortCode u result.code →
      entry.expiresAt ≤ now

theorem linked_start : Linked u start where
  same := rfl
  bounded := Nat.zero_le _
  rooted := nofun
  once before _ _ _ after h := by simp [start] at h
  fresh before _ _ _ after h := by simp [start] at h

/-- After a sweep the registry holds what can still be redeemed. -/
theorem Linked.rows_sweep (hs : Linked u s) {now : Nat} (hnow : s.clock ≤ now) :
    (s.registry.sweep now).entries.rows =
      (outstanding u s.log).filter fun entry => now < entry.expiresAt := by
  have hsame := congrArg (List.filter fun entry => decide (now < entry.expiresAt)) hs.same
  rw [unexpired, filter_later hnow, filter_later hnow] at hsame
  exact hsame

theorem linked_sweep (hs : Linked u s) {now later : Nat} (hnow : s.clock ≤ now)
    (hlater : now ≤ later) : Linked u ⟨s.registry.sweep now, later, s.log⟩ where
  same := by
    rw [hs.rows_sweep hnow, filter_later hlater]
    rfl
  bounded := Nat.le_trans (List.length_filter_le _ _) hs.bounded
  rooted row hrow := hs.rooted row (List.mem_of_mem_filter hrow)
  once := hs.once
  fresh := hs.fresh

/-- The clock goes on while nothing happens. -/
theorem linked_later (hs : Linked u s) {later : Nat} (hlater : s.clock ≤ later) :
    Linked u ⟨s.registry, later, s.log⟩ where
  same := by
    have hsame := congrArg (List.filter fun entry => decide (later < entry.expiresAt)) hs.same
    rw [unexpired, filter_later hlater, filter_later hlater] at hsame
    exact hsame
  bounded := hs.bounded
  rooted := hs.rooted
  once := hs.once
  fresh := hs.fresh

theorem pick_eq_some {registry : ShortCodeRegistry} {draws : List Draw} {code : String}
    (h : registry.pick draws = some code) :
    registry.entries.has code = false ∧ ∃ draw : Draw, code = draw.code := by
  induction draws with
  | nil => cases h
  | cons draw rest ih =>
    rw [ShortCodeRegistry.pick] at h
    split at h
    · exact ih h
    · rename_i hfree
      cases h
      exact ⟨by simpa using hfree, draw, rfl⟩

/-- What is shown of a code that was drawn is a spelling of it. -/
theorem normalize_format (draw : Draw) :
    normalizeShortCode u (formatShortCode draw.code) = draw.code := by
  apply normalizeShortCode_spells
  apply spells_format
  rw [Draw.code, String.toList_ofList]
  intro c hc
  obtain ⟨i, -, rfl⟩ := List.mem_map.mp hc
  exact List.get_mem _ _

theorem linked_issue (hs : Linked u s) {offer : String} {now later : Nat} {code : String}
    (hnow : s.clock ≤ now) (hlater : now ≤ later)
    (hroom : (s.registry.sweep now).entries.rows.length < maxEntries)
    (hfree : (s.registry.sweep now).entries.has code = false)
    (hcode : normalizeShortCode u (formatShortCode code) = code) :
    Linked u ⟨⟨(s.registry.sweep now).entries.set ⟨code, offer, later + codeTtlMs⟩⟩, later,
      s.log ++ [.issued ⟨formatShortCode code, later + codeTtlMs⟩ offer now]⟩ := by
  have hswept := linked_sweep hs hnow hlater
  have hrows : ((s.registry.sweep now).entries.set ⟨code, offer, later + codeTtlMs⟩).rows =
      (s.registry.sweep now).entries.rows ++ [⟨code, offer, later + codeTtlMs⟩] :=
    Table.rows_set_of_find_none (by simpa [Table.has] using hfree)
  have hother : ∀ row ∈ (s.registry.sweep now).entries.rows, row.code ≠ code := by
    intro row hrow heq
    have hhas : (s.registry.sweep now).entries.has row.code = true :=
      Table.has_iff.mpr ⟨row, Table.find_of_mem hrow⟩
    rw [heq, hfree] at hhas
    cases hhas
  refine ⟨?_, ?_, fun row hrow => ?_, ?_, ?_⟩
  · rw [unexpired, outstanding_issued, hcode, hrows, List.filter_append, List.filter_append]
    exact congrArg (· ++ _) hswept.same
  · rw [hrows, List.length_append]
    exact hroom
  · rw [hrows] at hrow
    rcases List.mem_append.mp hrow with hrow | hrow
    · refine (hswept.rooted row hrow).concat ?_
      rw [CodeEvent.code, hcode]
      exact (hother row hrow).symm
    · cases List.mem_singleton.mp hrow
      exact ⟨s.log, _, now, [], rfl, hcode, rfl, by simp⟩
  · intro before raw offer' now' after hlog
    rcases split_concat hlog with ⟨-, -, heq⟩ | ⟨after, -, hlog⟩
    · cases heq
    · exact hs.once before raw offer' now' after hlog
  · intro before result offer' now' after hlog entry hentry hsame
    rcases split_concat hlog with ⟨-, rfl, heq⟩ | ⟨after, -, hlog⟩
    · cases heq
      rw [hcode] at hsame
      by_contra hlive
      have hmem : entry ∈ (s.registry.sweep now).entries.rows := by
        rw [hs.rows_sweep hnow]
        exact List.mem_filter.mpr ⟨hentry, by simpa using hlive⟩
      exact hother entry hmem hsame
    · exact hs.fresh before result offer' now' after hlog entry hentry hsame

theorem linked_redeem (hs : Linked u s) {raw : String} {now : Nat} {entry : PairingCode}
    (hnow : s.clock ≤ now)
    (hentry : (s.registry.sweep now).entries.find (normalizeShortCode u raw) = some entry) :
    Linked u ⟨⟨(s.registry.sweep now).entries.delete (normalizeShortCode u raw)⟩, now,
      s.log ++ [.redeemed raw entry.offer now]⟩ := by
  have hcode : entry.code = normalizeShortCode u raw := Table.key_of_find hentry
  have hmem := Table.mem_of_find hentry
  have hswept := linked_sweep hs hnow (Nat.le_refl now)
  have hrows : ((s.registry.sweep now).entries.delete (normalizeShortCode u raw)).rows =
      (s.registry.sweep now).entries.rows.filter (·.code ≠ normalizeShortCode u raw) := rfl
  refine ⟨?_, ?_, fun row hrow => ?_, ?_, ?_⟩
  · have hsame := congrArg
      (List.filter fun row : PairingCode => decide (row.code ≠ normalizeShortCode u raw))
      hswept.same
    rw [unexpired, outstanding_redeemed, List.filter_comm, hrows, List.filter_comm]
    exact hsame
  · exact Nat.le_trans (List.length_filter_le _ _) hswept.bounded
  · obtain ⟨hrow, hne⟩ := List.mem_filter.mp hrow
    exact (hswept.rooted row hrow).concat (Ne.symm (of_decide_eq_true hne))
  · intro before raw' offer now' after hlog
    rcases split_concat hlog with ⟨-, rfl, heq⟩ | ⟨after, -, hlog⟩
    · cases heq
      obtain ⟨earlier, result, issuedAt, later, hlog, hresult, hexpires, hlater⟩ :=
        hswept.rooted entry hmem
      have hlive : now < entry.expiresAt := of_decide_eq_true (List.mem_filter.mp hmem).2
      refine ⟨earlier, result, issuedAt, later, hlog, hresult.trans hcode, hexpires ▸ hlive, ?_⟩
      exact hcode ▸ hlater
    · exact hs.once before raw' offer now' after hlog
  · intro before result offer now' after hlog
    rcases split_concat hlog with ⟨-, -, heq⟩ | ⟨after, -, hlog⟩
    · cases heq
    · exact hs.fresh before result offer now' after hlog

theorem linked_step (hs : Linked u s) {call : CodeCall} (h : step u s call = some t) :
    Linked u t := by
  cases call with
  | issue offer now later draws =>
    rw [step] at h
    split at h
    · rename_i hclock
      obtain ⟨hnow, hlater⟩ := hclock
      obtain ⟨⟨registry, result⟩, hissue, rfl⟩ := Option.map_eq_some_iff.mp h
      rw [ShortCodeRegistry.issue] at hissue
      split at hissue
      · cases hissue
        exact linked_later hs (Nat.le_trans hnow hlater)
      · dsimp only at hissue
        split at hissue
        · cases hissue
          exact linked_sweep hs hnow hlater
        · rename_i hroom
          obtain ⟨code, hpick, heq⟩ := Option.map_eq_some_iff.mp hissue
          cases heq
          obtain ⟨hfree, draw, rfl⟩ := pick_eq_some hpick
          exact linked_issue hs hnow hlater (Nat.lt_of_not_le hroom) hfree (normalize_format draw)
    · cases h
  | redeem raw now =>
    rw [step] at h
    split at h
    · rename_i hnow
      rw [ShortCodeRegistry.redeem] at h
      cases hfind : (s.registry.sweep now).entries.find (normalizeShortCode u raw) with
      | none =>
        rw [hfind] at h
        cases h
        exact linked_sweep hs hnow (Nat.le_refl now)
      | some entry =>
        rw [hfind] at h
        cases h
        exact linked_redeem hs hnow hfind
    · cases h

theorem Linked.onceInTime (hs : Linked u s) : s.OnceInTime u where
  once := hs.once
  fresh := hs.fresh
  distinct := by
    rw [← hs.same]
    exact s.registry.entries.distinct.sublist (List.filter_sublist.map _)
  bounded := by
    rw [← hs.same]
    exact Nat.le_trans (List.length_filter_le _ _) hs.bounded
  works := by
    intro entry hentry raw now hraw hnow hlive
    have hmem : entry ∈ (s.registry.sweep now).entries.rows := by
      rw [hs.rows_sweep hnow]
      exact List.mem_filter.mpr ⟨hentry, by simpa using hlive⟩
    have hfind : (s.registry.sweep now).entries.find (normalizeShortCode u raw) = some entry :=
      hraw ▸ Table.find_of_mem hmem
    rw [step, if_pos hnow, ShortCodeRegistry.redeem, hfind]
    exact ⟨_, rfl, rfl⟩
  spelt _ _ _ := normalizeShortCode_spells

/-- A short code works once, in time, for its own offer. -/
theorem once_in_time (u : UpperCase) {calls : List CodeCall} {s : CodeHistory}
    (h : play (step u) start calls = some s) : s.OnceInTime u :=
  (play_keeps (fun _ _ _ _ hs h => linked_step hs h) h linked_start).onceInTime

theorem toUpper_whitespace {c : Char} (hc : c ∈ jsWhitespace) : c.toUpper = c := by
  have hall : (jsWhitespace.all fun c => decide (c.toUpper = c)) = true := by decide +kernel
  exact of_decide_eq_true (List.all_eq_true.mp hall c hc)

def asciiCase : UpperCase :=
  ⟨fun c => [c.toUpper], fun _ _ => rfl, fun _ hc => congrArg (fun c => [c]) (toUpper_whitespace hc)⟩

/-- A code is issued and redeemed in another spelling, and is drawn again later. -/
def reissued : List CodeCall :=
  let draw : Draw := ⟨List.replicate 8 ⟨1, by decide⟩, rfl⟩
  [.issue "passvault://pair?k=a" 0 1 [draw], .redeem " llll-iIo1 " 5, .redeem " llll-iI1i " 600000,
    .issue "passvault://pair?k=b" 600000 600002 [draw]]

theorem reissued_once : ∃ s, play (step asciiCase) start reissued = some s ∧
    s.OnceInTime asciiCase :=
  have hrun : (play (step asciiCase) start reissued).isSome := by decide +kernel
  ⟨_, (Option.some_get hrun).symm, once_in_time asciiCase (Option.some_get hrun).symm⟩

end CodeHistory

end PassVault
