import Mathlib.Data.List.GetD
import Mathlib.Data.List.Nodup

/-!
# Digits

An alphabet without repetitions, and the digit that a number modulo its length stands for.
-/

namespace Digits

variable {α : Type} {alphabet : List α}

/-- The digit is one of the alphabet. -/
theorem getD_mod_mem (hne : 0 < alphabet.length) (n : Nat) (default : α) :
    alphabet.getD (n % alphabet.length) default ∈ alphabet := by
  have hlt := Nat.mod_lt n hne
  rw [List.getD_eq_getElem _ _ hlt]
  exact List.getElem_mem hlt

/-- A digit determines the number it stands for. -/
theorem getD_mod_inj (hne : 0 < alphabet.length) (hdistinct : alphabet.Nodup) {m n : Nat}
    {default : α}
    (h : alphabet.getD (m % alphabet.length) default =
      alphabet.getD (n % alphabet.length) default) :
    m % alphabet.length = n % alphabet.length := by
  have hm := Nat.mod_lt m hne
  have hn := Nat.mod_lt n hne
  rw [List.getD_eq_getElem _ _ hm, List.getD_eq_getElem _ _ hn] at h
  exact (List.Nodup.getElem_inj_iff hdistinct).mp h

end Digits
