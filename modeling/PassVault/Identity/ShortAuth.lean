import Mathlib.Algebra.GroupWithZero.Nat
import PassVault.Identity.Identity

/-!
# The number both screens show

`shortAuthenticationString` and `compareBytes` of `packages/identity/src/identity.ts`. The two keys
are hashed in the order that `compareBytes` gives them, so both devices hash the same bytes.
-/

namespace PassVault

/-- `left - right` at the first index, within both, where the bytes differ. -/
def firstDifference (a b : Bytes) : Option Int :=
  (a.zip b).findSome? fun (left, right) =>
    if left ≠ right then some ((left.toNat : Int) - right.toNat) else none

def compareBytes (a b : Bytes) : Int :=
  (firstDifference a b).getD ((a.length : Int) - b.length)

/-- The bytes that are hashed. -/
def sasInput (a b : Bytes) : Bytes :=
  let (first, second) := if compareBytes a b ≤ 0 then (a, b) else (b, a)
  utf8 "passvault/sas/v1" ++ first ++ second

/-- `text.padStart(width, "0")`. -/
def padZeros (width : Nat) (text : String) : String :=
  String.ofList (List.replicate (width - text.toList.length) '0' ++ text.toList)

/-- The leading three bytes of a digest as a number; a missing byte counts as zero. -/
def leadingValue (digest : Bytes) : Nat :=
  ((digest.getD 0 0).toNat <<< 16) ||| ((digest.getD 1 0).toNat <<< 8) ||| (digest.getD 2 0).toNat

/-- A six-digit code both devices display after connecting. -/
def shortAuthenticationString (crypto : Crypto) (a b : Bytes) : String :=
  padZeros 6 (toString (leadingValue (crypto.sha256 (sasInput a b)) % 1000000))

/-! ## The order of byte strings -/

@[simp] theorem compareBytes_nil_left (b : Bytes) : compareBytes [] b = -(b.length : Int) := by
  simp [compareBytes, firstDifference]

@[simp] theorem compareBytes_nil_right (a : Bytes) : compareBytes a [] = (a.length : Int) := by
  simp [compareBytes, firstDifference]

theorem compareBytes_cons (x y : UInt8) (a b : Bytes) :
    compareBytes (x :: a) (y :: b) =
      if x = y then compareBytes a b else (x.toNat : Int) - y.toNat := by
  by_cases h : x = y
  · have hlength : ((x :: a).length : Int) - (y :: b).length = (a.length : Int) - b.length := by
      simp only [List.length_cons]
      omega
    rw [compareBytes, hlength]
    simp [compareBytes, firstDifference, h]
  · simp [compareBytes, firstDifference, h]

/-- Swapping the arguments swaps the sign. -/
theorem compareBytes_swap (a b : Bytes) : compareBytes b a = -compareBytes a b := by
  induction a generalizing b with
  | nil => simp
  | cons x a ih =>
    cases b with
    | nil => simp
    | cons y b =>
      rw [compareBytes_cons, compareBytes_cons]
      by_cases h : x = y
      · rw [if_pos h.symm, if_pos h, ih]
      · have h' : ¬ y = x := fun e => h e.symm
        rw [if_neg h', if_neg h]
        omega

theorem compareBytes_eq_zero {a b : Bytes} : compareBytes a b = 0 ↔ a = b := by
  induction a generalizing b with
  | nil =>
    cases b with
    | nil => simp
    | cons y b =>
      simp
      omega
  | cons x a ih =>
    cases b with
    | nil =>
      simp
      omega
    | cons y b =>
      rw [compareBytes_cons]
      by_cases h : x = y
      · simp [h, ih]
      · have hne : x.toNat ≠ y.toNat := fun e => h (UInt8.toNat_inj.mp e)
        rw [if_neg h]
        simp [h]
        omega

theorem compareBytes_trans {a b c : Bytes} (hab : compareBytes a b ≤ 0)
    (hbc : compareBytes b c ≤ 0) : compareBytes a c ≤ 0 := by
  induction a generalizing b c with
  | nil => simp
  | cons x a ih =>
    cases b with
    | nil =>
      simp only [compareBytes_nil_right, List.length_cons] at hab
      omega
    | cons y b =>
      cases c with
      | nil =>
        simp only [compareBytes_nil_right, List.length_cons] at hbc
        omega
      | cons z c =>
        rw [compareBytes_cons] at hab hbc ⊢
        by_cases hxy : x = y
        · rw [if_pos hxy] at hab
          by_cases hyz : y = z
          · rw [if_pos hyz] at hbc
            rw [if_pos (hxy.trans hyz)]
            exact ih hab hbc
          · rw [if_neg hyz] at hbc
            rw [hxy, if_neg hyz]
            exact hbc
        · have hne : x.toNat ≠ y.toNat := fun e => hxy (UInt8.toNat_inj.mp e)
          rw [if_neg hxy] at hab
          by_cases hyz : y = z
          · rw [← hyz, if_neg hxy]
            exact hab
          · rw [if_neg hyz] at hbc
            have hxz : ¬ x = z := by
              intro e
              rw [e] at hab hne
              omega
            rw [if_neg hxz]
            omega

/-! ## The number -/

/-- The same bytes are hashed whichever device asks. -/
theorem sasInput_comm (a b : Bytes) : sasInput a b = sasInput b a := by
  have hswap := compareBytes_swap a b
  by_cases hab : compareBytes a b ≤ 0
  · by_cases hba : compareBytes b a ≤ 0
    · have heq : a = b := compareBytes_eq_zero.mp (by omega)
      rw [heq]
    · simp [sasInput, hab, hba]
  · have hba : compareBytes b a ≤ 0 := by omega
    simp [sasInput, hab, hba]

theorem padZeros_toString {n : Nat} (width : Nat) (hwidth : 0 < width) (hn : n < 10 ^ width) :
    (padZeros width (toString n)).toList.length = width ∧
      ∀ c ∈ (padZeros width (toString n)).toList, c.isDigit = true := by
  have hlength : (Nat.toDigits 10 n).length ≤ width :=
    (Nat.length_toDigits_le_iff (by decide) hwidth).mpr hn
  rw [padZeros, Nat.toString_eq_ofList_toDigits]
  simp only [String.toList_ofList]
  constructor
  · simp only [List.length_append, List.length_replicate]
    omega
  · intro c hc
    rcases List.mem_append.mp hc with hc | hc
    · rw [List.eq_of_mem_replicate hc]
      decide
    · exact Nat.isDigit_of_mem_toDigits (by decide) (by decide) hc

/-- Whatever the hash function, both argument orders give the same six decimal digits; and
`compareBytes` is a total order on the contents. -/
theorem shortAuthenticationString_agrees (crypto : Crypto) :
    (∀ a b : Bytes, sasInput a b = sasInput b a ∧
      shortAuthenticationString crypto a b = shortAuthenticationString crypto b a ∧
      (shortAuthenticationString crypto a b).toList.length = 6 ∧
      ∀ c ∈ (shortAuthenticationString crypto a b).toList, c.isDigit = true) ∧
    (∀ a b : Bytes, compareBytes a b ≤ 0 ∨ compareBytes b a ≤ 0) ∧
    (∀ a b : Bytes, compareBytes a b ≤ 0 → compareBytes b a ≤ 0 → a = b) ∧
    (∀ a b c : Bytes, compareBytes a b ≤ 0 → compareBytes b c ≤ 0 → compareBytes a c ≤ 0) ∧
    ∀ a b : Bytes, (compareBytes a b = 0 ↔ a = b) ∧ compareBytes b a = -compareBytes a b := by
  constructor
  · intro a b
    have hinput := sasInput_comm a b
    have hdigits := padZeros_toString 6 (by decide)
      (Nat.mod_lt (leadingValue (crypto.sha256 (sasInput a b))) (by decide : 0 < 1000000))
    refine ⟨hinput, ?_, hdigits⟩
    rw [shortAuthenticationString, shortAuthenticationString, hinput]
  · constructor
    · intro a b
      have hswap := compareBytes_swap a b
      omega
    · constructor
      · intro a b hab hba
        have hswap := compareBytes_swap a b
        exact compareBytes_eq_zero.mp (by omega)
      · constructor
        · intro a b c hab hbc
          exact compareBytes_trans hab hbc
        · intro a b
          exact ⟨compareBytes_eq_zero, compareBytes_swap a b⟩

end PassVault
