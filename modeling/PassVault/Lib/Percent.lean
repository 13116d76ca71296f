import Mathlib.Data.Option.Basic

/-!
# Percent-encoding

`decodeURIComponent` of ECMAScript, on text of whole characters.
-/

namespace Percent

def hexDigit (c : Char) : Option Nat :=
  if '0' ≤ c ∧ c ≤ '9' then some (c.toNat - '0'.toNat)
  else if 'A' ≤ c ∧ c ≤ 'F' then some (c.toNat - 'A'.toNat + 10)
  else if 'a' ≤ c ∧ c ≤ 'f' then some (c.toNat - 'a'.toNat + 10)
  else none

/-- The bytes of a character so far: how many are missing, their value, and the least value that
takes so many. -/
structure Pending where
  missing : Nat
  value : Nat
  least : Nat
deriving DecidableEq, Repr

/-- What the first byte of a character says of it. -/
def Pending.ofLead (byte : Nat) : Option Pending :=
  if byte < 0x80 then some ⟨0, byte, 0⟩
  else if byte < 0xc0 then none
  else if byte < 0xe0 then some ⟨1, byte - 0xc0, 0x80⟩
  else if byte < 0xf0 then some ⟨2, byte - 0xe0, 0x800⟩
  else if byte < 0xf8 then some ⟨3, byte - 0xf0, 0x10000⟩
  else none

def Pending.push (pending : Pending) (byte : Nat) : Option Pending :=
  if 0x80 ≤ byte ∧ byte < 0xc0 then
    some ⟨pending.missing - 1, pending.value * 64 + (byte - 0x80), pending.least⟩
  else none

/-- Neither a longer form than it needs nor half of a surrogate pair. -/
def Pending.char (pending : Pending) : Option Char :=
  if pending.least ≤ pending.value ∧
      (pending.value < 0xd800 ∨ 0xdfff < pending.value ∧ pending.value < 0x110000) then
    some (Char.ofNat pending.value)
  else none

/-- The rest of the text, where `pending` is the character that its bytes have begun. -/
def decodeFrom : Option Pending → List Char → Option (List Char)
  | none, [] => some []
  | some _, [] => none
  | pending, '%' :: high :: low :: rest => do
    let byte := (← hexDigit high) * 16 + (← hexDigit low)
    let next ← pending.elim (Pending.ofLead byte) fun pending => pending.push byte
    if next.missing = 0 then
      let c ← next.char
      return c :: (← decodeFrom none rest)
    else decodeFrom (some next) rest
  | none, c :: rest => if c = '%' then none else (decodeFrom none rest).map (c :: ·)
  | some _, _ :: _ => none

/-- `undefined` where it throws a `URIError`. -/
def decodeURIComponent (text : List Char) : Option (List Char) := decodeFrom none text

example : decodeURIComponent "a%20%E2%82%AC%f0%9f%98%80".toList = some "a €😀".toList := by
  decide +kernel

example : (["%", "%4", "%zz", "%80", "%C0%80", "%E2%82", "%ED%A0%80", "%F4%90%80%80"].map
    fun text => decodeURIComponent text.toList) = List.replicate 8 none := by
  decide +kernel

end Percent
