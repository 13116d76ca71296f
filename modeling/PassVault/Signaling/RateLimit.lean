import Mathlib.Algebra.Order.Field.Rat
import Mathlib.Tactic.Linarith
import Mathlib.Tactic.Ring
import PassVault.Lib.Machine
import PassVault.Lib.Table

/-!
# The rate limiter

`RateLimiter.take` of `apps/signaling/src/rateLimit.ts`, in exact arithmetic. The table is emptied
when it has grown too large, so that the traffic on other keys can fill a bucket again.
-/

namespace PassVault

open Machine

structure RateLimits where
  capacity : ℚ
  refillPerSecond : ℚ
  capacity_nonneg : 0 ≤ capacity
  refill_nonneg : 0 ≤ refillPerSecond

structure Bucket (κ : Type) where
  key : κ
  tokens : ℚ
  /-- In milliseconds. -/
  updatedAt : ℚ

/-- A call of `take`. -/
structure TakeCall (κ : Type) where
  key : κ
  now : ℚ

structure RateLimiter (κ : Type) where
  buckets : Table (Bucket.key : Bucket κ → κ)

/-- A call, its answer, and whether it emptied the table. -/
structure Taken (κ : Type) where
  key : κ
  now : ℚ
  admitted : Bool
  cleared : Bool

namespace RateLimiter

variable {κ : Type} [DecidableEq κ]

def maxBuckets : Nat := 100000

def empty : RateLimiter κ := ⟨.empty _⟩

/-- Is the table too large? -/
def full (limiter : RateLimiter κ) : Bool := maxBuckets < limiter.buckets.rows.length

/-- Bounded so the limiter cannot itself become the leak it exists to stop. -/
def trimmed (limiter : RateLimiter κ) : RateLimiter κ := if limiter.full then empty else limiter

def refilled (limits : RateLimits) (key : κ) (now : ℚ) (limiter : RateLimiter κ) : ℚ :=
  let bucket := (limiter.buckets.find key).getD ⟨key, limits.capacity, now⟩
  min limits.capacity
    (bucket.tokens + (now - bucket.updatedAt) / 1000 * limits.refillPerSecond)

def take (limits : RateLimits) (key : κ) (now : ℚ) (limiter : RateLimiter κ) :
    RateLimiter κ × Bool :=
  let limiter := limiter.trimmed
  let refilled := limiter.refilled limits key now
  if refilled < 1 then (⟨limiter.buckets.set ⟨key, refilled, now⟩⟩, false)
  else (⟨limiter.buckets.set ⟨key, refilled - 1, now⟩⟩, true)

variable {limits : RateLimits} {limiter : RateLimiter κ} {key : κ} {now : ℚ}

/-- No bucket is overdrawn, or was filled in the future. -/
def Valid (limiter : RateLimiter κ) (clock : ℚ) : Prop :=
  ∀ key bucket, limiter.buckets.find key = some bucket →
    0 ≤ bucket.tokens ∧ bucket.updatedAt ≤ clock

theorem refilled_le : limiter.refilled limits key now ≤ limits.capacity := min_le_left _ _

theorem refilled_new (h : limiter.buckets.find key = none) :
    limiter.refilled limits key now = limits.capacity := by
  rw [refilled, h]
  simp

theorem refilled_nonneg {clock : ℚ} (hvalid : limiter.Valid clock) (hclock : clock ≤ now) :
    0 ≤ limiter.refilled limits key now := by
  cases hfind : limiter.buckets.find key with
  | none =>
    rw [refilled_new hfind]
    exact limits.capacity_nonneg
  | some bucket =>
    obtain ⟨htokens, hupdated⟩ := hvalid key bucket hfind
    rw [refilled, hfind, Option.getD_some]
    refine le_min limits.capacity_nonneg (add_nonneg htokens ?_)
    exact mul_nonneg (div_nonneg (by linarith) (by norm_num)) limits.refill_nonneg

/-- Time brings no more tokens than it may. -/
theorem refilled_later {later : ℚ} (hlater : now ≤ later) :
    limiter.refilled limits key later ≤
      limiter.refilled limits key now + (later - now) / 1000 * limits.refillPerSecond := by
  have hgain : 0 ≤ (later - now) / 1000 * limits.refillPerSecond :=
    mul_nonneg (div_nonneg (by linarith) (by norm_num)) limits.refill_nonneg
  cases hfind : limiter.buckets.find key with
  | none =>
    rw [refilled_new hfind, refilled_new hfind]
    linarith
  | some bucket =>
    rw [refilled, refilled, hfind, Option.getD_some, ← min_add_add_right]
    refine min_le_min (by linarith) ?_
    rw [add_assoc, ← add_mul]
    refine add_le_add_right ?_ _
    rw [← add_div]
    simp

theorem valid_empty (clock : ℚ) : (empty : RateLimiter κ).Valid clock := nofun

theorem valid_trimmed {clock : ℚ} (hvalid : limiter.Valid clock) :
    limiter.trimmed.Valid clock := by
  rw [trimmed]
  split
  · exact valid_empty clock
  · exact hvalid

/-- A full bucket is one that was emptied with the table, at most. -/
theorem refilled_trimmed {clock : ℚ} (hvalid : limiter.Valid clock) (hclock : clock ≤ now) :
    limiter.trimmed.refilled limits key now ≤
      limiter.refilled limits key now + if limiter.full then limits.capacity else 0 := by
  rw [trimmed]
  split
  · have hnonneg : 0 ≤ limiter.refilled limits key now := refilled_nonneg hvalid hclock
    have hle : (empty : RateLimiter κ).refilled limits key now ≤ limits.capacity := refilled_le
    linarith
  · rw [add_zero]

/-- What a bucket holds that was filled just now. -/
theorem refilled_set {buckets : Table (Bucket.key : Bucket κ → κ)} {key' : κ} {tokens : ℚ}
    (htokens : tokens ≤ limits.capacity) :
    (⟨buckets.set ⟨key', tokens, now⟩⟩ : RateLimiter κ).refilled limits key now =
      if key' = key then tokens else (⟨buckets⟩ : RateLimiter κ).refilled limits key now := by
  rw [refilled, refilled, Table.find_set]
  split
  · simp [htokens]
  · rfl

theorem valid_set {buckets : Table (Bucket.key : Bucket κ → κ)} {key : κ} {tokens clock : ℚ}
    (hvalid : (⟨buckets⟩ : RateLimiter κ).Valid clock) (hclock : clock ≤ now)
    (htokens : 0 ≤ tokens) :
    (⟨buckets.set ⟨key, tokens, now⟩⟩ : RateLimiter κ).Valid now := by
  intro key' bucket hfind
  rw [Table.find_set] at hfind
  split at hfind
  · cases hfind
    exact ⟨htokens, le_refl now⟩
  · obtain ⟨htokens, hupdated⟩ := hvalid key' bucket hfind
    exact ⟨htokens, hupdated.trans hclock⟩

/-- What a call takes out of the bucket of a key. -/
theorem take_spec (limits : RateLimits) {clock : ℚ} (hvalid : limiter.Valid clock)
    (hclock : clock ≤ now) (key key' : κ) :
    (limiter.take limits key' now).1.Valid now ∧
      (limiter.take limits key' now).1.refilled limits key now +
          (if key' = key ∧ (limiter.take limits key' now).2 then 1 else 0) ≤
        limiter.refilled limits key now + if limiter.full then limits.capacity else 0 := by
  have htrimmed := valid_trimmed hvalid
  have hnonneg : 0 ≤ limiter.trimmed.refilled limits key' now := refilled_nonneg htrimmed hclock
  have hle : limiter.trimmed.refilled limits key' now ≤ limits.capacity := refilled_le
  have hbound : limiter.trimmed.refilled limits key now ≤
      limiter.refilled limits key now + if limiter.full then limits.capacity else 0 :=
    refilled_trimmed hvalid hclock
  rw [take]
  split
  · refine ⟨valid_set htrimmed hclock hnonneg, ?_⟩
    rw [refilled_set hle]
    simp only [Bool.false_eq_true, and_false, if_false, add_zero]
    split
    · rename_i hkey
      rw [hkey]
      exact hbound
    · exact hbound
  · rename_i hone
    rw [not_lt] at hone
    refine ⟨valid_set htrimmed hclock (by linarith), ?_⟩
    rw [refilled_set (by linarith)]
    simp only [and_true]
    split
    · rename_i hkey
      rw [hkey, sub_add_cancel]
      exact hbound
    · rw [add_zero]
      exact hbound

end RateLimiter

/-- The limiter, the last reading of the clock, and the calls so far. -/
structure RateHistory (κ : Type) where
  limiter : RateLimiter κ
  clock : ℚ
  log : List (Taken κ)

namespace RateHistory

variable {κ : Type} [DecidableEq κ]

def start (clock : ℚ) : RateHistory κ := ⟨.empty, clock, []⟩

/-- The clock does not go back. -/
def step (limits : RateLimits) (s : RateHistory κ) (call : TakeCall κ) :
    Option (RateHistory κ) :=
  if s.clock ≤ call.now then
    let (limiter, admitted) := s.limiter.take limits call.key call.now
    some ⟨limiter, call.now, s.log ++ [⟨call.key, call.now, admitted, s.limiter.full⟩]⟩
  else none

/-- The calls from a time on, for a number of seconds. -/
def window (since seconds : ℚ) (log : List (Taken κ)) : List (Taken κ) :=
  log.filter fun call => since ≤ call.now ∧ call.now ≤ since + 1000 * seconds

def admitted (key : κ) (log : List (Taken κ)) : Nat :=
  (log.filter fun call => call.key = key ∧ call.admitted).length

def cleared (log : List (Taken κ)) : Nat := (log.filter (·.cleared)).length

variable {limits : RateLimits} {s t : RateHistory κ} {key : κ} {since seconds : ℚ}

theorem admitted_concat (log : List (Taken κ)) (call : Taken κ) :
    admitted key (window since seconds (log ++ [call])) =
      admitted key (window since seconds log) +
        if (since ≤ call.now ∧ call.now ≤ since + 1000 * seconds) ∧ call.key = key ∧ call.admitted
        then 1 else 0 := by
  rw [admitted, admitted, window, window, List.filter_append, List.filter_append,
    List.length_append]
  congr 1
  by_cases hwindow : since ≤ call.now ∧ call.now ≤ since + 1000 * seconds
  · by_cases hcall : call.key = key ∧ call.admitted = true <;> simp [hwindow, hcall]
  · simp [hwindow]

omit [DecidableEq κ] in
theorem cleared_concat (log : List (Taken κ)) (call : Taken κ) :
    cleared (window since seconds (log ++ [call])) = cleared (window since seconds log) +
      if (since ≤ call.now ∧ call.now ≤ since + 1000 * seconds) ∧ call.cleared then 1 else 0 := by
  rw [cleared, cleared, window, window, List.filter_append, List.filter_append, List.length_append]
  congr 1
  by_cases hwindow : since ≤ call.now ∧ call.now ≤ since + 1000 * seconds
  · by_cases hcall : call.cleared = true <;> simp [hwindow, hcall]
  · simp [hwindow]

/-- What was admitted in the window and what is left in the bucket is paid for. -/
structure Charged (limits : RateLimits) (key : κ) (since seconds : ℚ) (s : RateHistory κ) :
    Prop where
  valid : s.limiter.Valid s.clock
  before : s.clock < since → admitted key (window since seconds s.log) = 0
  inside : since ≤ s.clock → s.clock ≤ since + 1000 * seconds →
    (admitted key (window since seconds s.log) : ℚ) + s.limiter.refilled limits key s.clock ≤
      limits.capacity * (1 + cleared (window since seconds s.log)) +
        (s.clock - since) / 1000 * limits.refillPerSecond
  total : (admitted key (window since seconds s.log) : ℚ) ≤
    limits.capacity * (1 + cleared (window since seconds s.log)) +
      limits.refillPerSecond * seconds

theorem charged_start (hseconds : 0 ≤ seconds) (clock : ℚ) :
    Charged limits key since seconds (start clock) := by
  have hcapacity := limits.capacity_nonneg
  have hrefill := mul_nonneg limits.refill_nonneg hseconds
  refine ⟨RateLimiter.valid_empty clock, fun _ => rfl, fun hsince _ => ?_, ?_⟩
  · have hfull : (start clock : RateHistory κ).limiter.refilled limits key clock ≤
        limits.capacity := RateLimiter.refilled_le
    have hgain : 0 ≤ (clock - since) / 1000 * limits.refillPerSecond :=
      mul_nonneg (div_nonneg (sub_nonneg.mpr hsince) (by norm_num)) limits.refill_nonneg
    simp only [start, window, admitted, cleared, List.filter_nil, List.length_nil] at hfull ⊢
    push_cast
    linarith
  · simp only [start, window, admitted, cleared, List.filter_nil, List.length_nil]
    push_cast
    linarith

/-- Up to a call, the bucket has been refilled. -/
theorem Charged.refilled (hs : Charged limits key since seconds s) {now : ℚ}
    (hnow : s.clock ≤ now) (hsince : since ≤ now) (hend : now ≤ since + 1000 * seconds) :
    (admitted key (window since seconds s.log) : ℚ) + s.limiter.refilled limits key now ≤
      limits.capacity * (1 + cleared (window since seconds s.log)) +
        (now - since) / 1000 * limits.refillPerSecond := by
  by_cases hclock : s.clock < since
  · rw [hs.before hclock]
    have hfull : s.limiter.refilled limits key now ≤ limits.capacity := RateLimiter.refilled_le
    have hgain : 0 ≤ (now - since) / 1000 * limits.refillPerSecond :=
      mul_nonneg (div_nonneg (sub_nonneg.mpr hsince) (by norm_num)) limits.refill_nonneg
    have hmore : 0 ≤ limits.capacity * (cleared (window since seconds s.log) : ℚ) :=
      mul_nonneg limits.capacity_nonneg (Nat.cast_nonneg _)
    push_cast
    linarith
  · rw [not_lt] at hclock
    have hinside := hs.inside hclock (hnow.trans hend)
    have hlater : s.limiter.refilled limits key now ≤ s.limiter.refilled limits key s.clock +
        (now - s.clock) / 1000 * limits.refillPerSecond := RateLimiter.refilled_later hnow
    have hsplit : (now - since) / 1000 * limits.refillPerSecond =
        (s.clock - since) / 1000 * limits.refillPerSecond +
          (now - s.clock) / 1000 * limits.refillPerSecond := by ring
    linarith

/-- A call that takes out of the bucket no more than it holds. -/
theorem Charged.concat (hs : Charged limits key since seconds s) (limiter : RateLimiter κ)
    (call : Taken κ) (hnow : s.clock ≤ call.now) (hvalid : limiter.Valid call.now)
    (hspec : limiter.refilled limits key call.now +
        (if call.key = key ∧ call.admitted then 1 else 0) ≤
      s.limiter.refilled limits key call.now + if call.cleared then limits.capacity else 0) :
    Charged limits key since seconds ⟨limiter, call.now, s.log ++ [call]⟩ := by
  by_cases hwindow : since ≤ call.now ∧ call.now ≤ since + 1000 * seconds
  · have hpaid := hs.refilled hnow hwindow.1 hwindow.2
    have hinside : (admitted key (window since seconds (s.log ++ [call])) : ℚ) +
        limiter.refilled limits key call.now ≤
          limits.capacity * (1 + cleared (window since seconds (s.log ++ [call]))) +
            (call.now - since) / 1000 * limits.refillPerSecond := by
      rw [admitted_concat, cleared_concat]
      simp only [hwindow, and_self, true_and]
      push_cast
      have hextra : limits.capacity * (if call.cleared = true then (1 : ℚ) else 0) =
          if call.cleared = true then limits.capacity else 0 := by
        split <;> simp
      linarith
    refine ⟨hvalid, fun hbefore => absurd hwindow.1 (not_le.mpr hbefore), fun _ _ => hinside, ?_⟩
    have hleft : 0 ≤ limiter.refilled limits key call.now :=
      RateLimiter.refilled_nonneg hvalid (le_refl call.now)
    have hgain : (call.now - since) / 1000 * limits.refillPerSecond ≤
        limits.refillPerSecond * seconds := by
      rw [mul_comm]
      refine mul_le_mul_of_nonneg_left ?_ limits.refill_nonneg
      linarith [hwindow.2]
    exact (le_add_of_nonneg_right hleft).trans (hinside.trans (add_le_add_right hgain _))
  · have hadmitted : admitted key (window since seconds (s.log ++ [call])) =
        admitted key (window since seconds s.log) := by
      rw [admitted_concat, if_neg fun h => hwindow h.1, Nat.add_zero]
    have hcleared : cleared (window since seconds (s.log ++ [call])) =
        cleared (window since seconds s.log) := by
      rw [cleared_concat, if_neg fun h => hwindow h.1, Nat.add_zero]
    refine ⟨hvalid, fun hbefore => ?_, fun h h' => absurd ⟨h, h'⟩ hwindow, ?_⟩
    · exact hadmitted.trans (hs.before (lt_of_le_of_lt hnow hbefore))
    · rw [hadmitted, hcleared]
      exact hs.total

theorem step_eq {call : TakeCall κ} (hnow : s.clock ≤ call.now) :
    step limits s call = some ⟨(s.limiter.take limits call.key call.now).1, call.now,
      s.log ++ [⟨call.key, call.now, (s.limiter.take limits call.key call.now).2,
        s.limiter.full⟩]⟩ := by
  rw [step, if_pos hnow]

theorem charged_step (hs : Charged limits key since seconds s) {call : TakeCall κ}
    (h : step limits s call = some t) : Charged limits key since seconds t := by
  rw [step] at h
  split at h
  · rename_i hnow
    cases h
    obtain ⟨hvalid, hspec⟩ := RateLimiter.take_spec limits hs.valid hnow key call.key
    exact hs.concat _ ⟨call.key, call.now, _, s.limiter.full⟩ hnow hvalid hspec
  · cases h

/-- In any window of `seconds`, a key is admitted as often as its bucket and the refill allow, and
once more the capacity for each time that the table is emptied. -/
theorem admitted_le (limits : RateLimits) (clock : ℚ) {calls : List (TakeCall κ)}
    {s : RateHistory κ} (h : play (step limits) (start clock) calls = some s) (key : κ)
    (since : ℚ) {seconds : ℚ} (hseconds : 0 ≤ seconds) :
    (admitted key (window since seconds s.log) : ℚ) ≤
      limits.capacity * (1 + cleared (window since seconds s.log)) +
        limits.refillPerSecond * seconds :=
  have hstart : Charged limits key since seconds (start clock) := charged_start hseconds clock
  (play_keeps (fun _ _ _ _ hs h => charged_step hs h) h hstart).total

/-! ## The traffic on other keys -/

/-- The limits of `POST /rooms`. -/
def roomLimits : RateLimits := ⟨20, 1 / 2, by norm_num, by norm_num⟩

theorem take_of_not_full (limits : RateLimits) {limiter : RateLimiter κ} (hfull : limiter.full = false) (key' : κ)
    (now : ℚ) : ∃ tokens, (limiter.take limits key' now).1 =
      ⟨limiter.buckets.set ⟨key', tokens, now⟩⟩ := by
  have htrimmed : limiter.trimmed = limiter := by rw [RateLimiter.trimmed, hfull]; rfl
  rw [RateLimiter.take, htrimmed]
  split
  · exact ⟨_, rfl⟩
  · exact ⟨_, rfl⟩

/-- A table has a bucket for each key that was seen, until it is too large. -/
theorem flood (limits : RateLimits) (since seconds : ℚ) {keys : List κ} (hnodup : keys.Nodup)
    (hnew : ∀ k ∈ keys, s.limiter.buckets.find k = none) (hkey : key ∉ keys)
    (hroom : s.limiter.buckets.rows.length + keys.length ≤ RateLimiter.maxBuckets + 1) :
    ∃ t, play (step limits) s (keys.map fun k => ⟨k, s.clock⟩) = some t ∧ t.clock = s.clock ∧
      t.limiter.buckets.rows.length = s.limiter.buckets.rows.length + keys.length ∧
      admitted key (window since seconds t.log) = admitted key (window since seconds s.log) := by
  induction keys generalizing s with
  | nil => exact ⟨s, rfl, rfl, rfl, rfl⟩
  | cons k keys ih =>
    obtain ⟨hk, hnodup⟩ := List.nodup_cons.mp hnodup
    obtain ⟨hfind, hnew⟩ := List.forall_mem_cons.mp hnew
    obtain ⟨hne, hkey⟩ := not_or.mp (mt List.mem_cons.mpr hkey)
    rw [List.length_cons] at hroom
    have hfull : s.limiter.full = false := by
      simp only [RateLimiter.full, decide_eq_false_iff_not]
      omega
    obtain ⟨tokens, htake⟩ := take_of_not_full limits hfull k s.clock
    have hstep : step limits s ⟨k, s.clock⟩ = some ⟨⟨s.limiter.buckets.set ⟨k, tokens, s.clock⟩⟩,
        s.clock, s.log ++ [⟨k, s.clock, (s.limiter.take limits k s.clock).2, s.limiter.full⟩]⟩ := by
      rw [step_eq (le_refl s.clock), ← htake]
    generalize (s.limiter.take limits k s.clock).2 = answer at hstep
    have hrows : (s.limiter.buckets.set ⟨k, tokens, s.clock⟩).rows =
        s.limiter.buckets.rows ++ [⟨k, tokens, s.clock⟩] := Table.rows_set_of_find_none hfind
    have hothers : ∀ k' ∈ keys,
        (s.limiter.buckets.set ⟨k, tokens, s.clock⟩).find k' = none := by
      intro k' hk'
      have hkk' : k ≠ k' := fun heq => hk (heq ▸ hk')
      rw [Table.find_set, if_neg hkk']
      exact hnew k' hk'
    obtain ⟨t, hplay, hclock, hlength, hadmitted⟩ := ih (s := ⟨⟨s.limiter.buckets.set
      ⟨k, tokens, s.clock⟩⟩, s.clock, s.log ++ [⟨k, s.clock, answer, s.limiter.full⟩]⟩)
      hnodup hothers hkey (by rw [hrows, List.length_append, List.length_singleton]; omega)
    refine ⟨t, ?_, hclock, ?_, ?_⟩
    · rw [List.map_cons, play, hstep]
      exact hplay
    · rw [hlength, hrows, List.length_append, List.length_singleton, List.length_cons]
      omega
    · rw [hadmitted, admitted_concat, if_neg fun h => hne h.2.1.symm, Nat.add_zero]

/-- Any number of other keys. -/
def otherKey (i : Nat) : String := String.ofList (List.replicate i 'x')

theorem otherKey_injective : Function.Injective otherKey := by
  intro i j h
  have hlists := congrArg (fun text : String => text.toList.length) h
  simpa [otherKey] using hlists

theorem otherKey_ne (i : Nat) : otherKey i ≠ "k" := by
  intro h
  have hlists := congrArg String.toList h
  rw [otherKey, String.toList_ofList] at hlists
  have hmem : 'k' ∈ List.replicate i 'x' := by rw [hlists]; decide
  exact absurd (List.eq_of_mem_replicate hmem) (by decide)

def burst : List (TakeCall String) := List.replicate 20 ⟨"k", 0⟩

theorem burst_runs : (play (step roomLimits) (start 0) burst).isSome := by decide +kernel

theorem burst_admitted : ∃ s, play (step roomLimits) (start 0) burst = some s ∧ s.clock = 0 ∧
    s.limiter.buckets.rows.map (·.key) = ["k"] ∧ admitted "k" (window 0 0 s.log) = 20 := by
  refine ⟨_, (Option.some_get burst_runs).symm, ?_, ?_, ?_⟩
  · decide +kernel
  · decide +kernel
  · decide +kernel

/-- An emptied table admits any key. -/
theorem take_of_full {limiter : RateLimiter κ} (hfull : limiter.full = true)
    (hcapacity : 1 ≤ limits.capacity) (key : κ) (now : ℚ) :
    (limiter.take limits key now).2 = true := by
  have htrimmed : limiter.trimmed = .empty := by rw [RateLimiter.trimmed, hfull]; rfl
  have hnew : (RateLimiter.empty : RateLimiter κ).refilled limits key now = limits.capacity :=
    RateLimiter.refilled_new rfl
  rw [RateLimiter.take, htrimmed, hnew, if_neg (not_lt.mpr hcapacity)]

theorem otherKeys (n : Nat) : ∃ keys : List String, keys.Nodup ∧ "k" ∉ keys ∧ keys.length = n := by
  refine ⟨(List.range n).map otherKey, List.nodup_range.map otherKey_injective, ?_, ?_⟩
  · intro hmem
    obtain ⟨i, -, hi⟩ := List.mem_map.mp hmem
    exact otherKey_ne i hi
  · rw [List.length_map, List.length_range]

/-- Another hundred thousand keys buy one more call at once. -/
theorem emptied_for_others : ¬ ∀ (calls : List (TakeCall String)) (s : RateHistory String),
    play (step roomLimits) (start 0) calls = some s →
      ∀ (key : String) (since seconds : ℚ), 0 ≤ seconds →
        (admitted key (window since seconds s.log) : ℚ) ≤
          roomLimits.capacity + roomLimits.refillPerSecond * seconds := by
  intro hall
  obtain ⟨s, hburst, hclock, hkeys, hadmitted⟩ := burst_admitted
  obtain ⟨others, hnodup, hkey, hothers⟩ := otherKeys RateLimiter.maxBuckets
  have hnew : ∀ k ∈ others, s.limiter.buckets.find k = none := by
    intro k hk
    rw [Table.find_eq_none, hkeys, List.mem_singleton]
    rintro rfl
    exact hkey hk
  have hlength : s.limiter.buckets.rows.length = 1 := by
    rw [← List.length_map (f := (·.key)), hkeys]
    rfl
  obtain ⟨t, hflood, htclock, htlength, htadmitted⟩ := flood roomLimits 0 0 hnodup hnew hkey
    (by rw [hlength, hothers, Nat.add_comm])
  have hfull : t.limiter.full = true := by
    rw [RateLimiter.full, htlength, hlength, hothers]
    exact decide_eq_true (Nat.lt_add_of_pos_left Nat.one_pos)
  have hlast : step roomLimits t ⟨"k", 0⟩ = _ := step_eq (htclock.trans hclock).le
  rw [take_of_full hfull (by decide) "k" 0, hfull] at hlast
  have hrun : play (step roomLimits) (start 0) (burst ++ others.map fun k => ⟨k, s.clock⟩) =
      some t := by
    rw [play_append, hburst]
    exact hflood
  have hbound := hall _ _ (play_concat hrun hlast) "k" 0 0 (le_refl 0)
  rw [admitted_concat, htadmitted, hadmitted, if_pos (by simp)] at hbound
  norm_num [roomLimits] at hbound

/-- What the server admits of one key at once. -/
theorem burst_le : ∃ s, play (step roomLimits) (start 0) burst = some s ∧
    (admitted "k" (window 0 0 s.log) : ℚ) ≤
      roomLimits.capacity * (1 + cleared (window 0 0 s.log)) + roomLimits.refillPerSecond * 0 :=
  ⟨_, (Option.some_get burst_runs).symm,
    admitted_le roomLimits 0 (Option.some_get burst_runs).symm "k" 0 (le_refl 0)⟩

end RateHistory

end PassVault
