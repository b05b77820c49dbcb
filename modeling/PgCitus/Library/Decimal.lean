import Mathlib.Algebra.Group.Nat.Defs
import Mathlib.Data.Nat.Notation
import Mathlib.Tactic.Common

/-!
# Decimal numbers, padded

Numbers as they are printed with zeros in front, at least so many digits wide; a number
that needs more digits gets them. They are read back (`padded_inj`). Texts that come after
a mark, and do not contain it, are read back too, whatever is before the mark
(`eq_of_append_mark`).
-/

namespace Decimal

/-- **A number in decimal**, `w` digits wide or wider. -/
def padded (w n : ℕ) : List Char := (Nat.toDigits 10 n).leftpad w '0'

theorem ofDigitChars_padded (w n : ℕ) : Nat.ofDigitChars 10 (padded w n) 0 = n := by
  unfold padded List.leftpad
  rw [Nat.ofDigitChars_append, Nat.ofDigitChars_replicate_zero, Nat.mul_zero,
    Nat.ofDigitChars_ten_toDigits]

/-- **Padded numbers are read back.** -/
theorem padded_inj {w m n : ℕ} : padded w m = padded w n ↔ m = n := by
  refine ⟨fun h => ?_, fun h => h ▸ rfl⟩
  rw [← ofDigitChars_padded w m, h, ofDigitChars_padded]

theorem isDigit_of_mem_padded {w n : ℕ} {c : Char} (h : c ∈ padded w n) : c.isDigit := by
  rcases List.mem_append.mp h with hzero | hdigit
  · rw [List.eq_of_mem_replicate hzero]
    rfl
  · exact Nat.isDigit_of_mem_toDigits (by decide) (by decide) hdigit

/-- **What comes after a mark** is read back if it does not contain the mark. -/
theorem eq_of_append_mark {α : Type*} {c : α} {x y s t : List α} (hs : c ∉ s) (ht : c ∉ t)
    (h : x ++ [c] ++ s = y ++ [c] ++ t) : s = t := by
  -- one of the two is the other one, with something before it that ends in the mark
  have hmark : ∀ {x y z s t : List α}, c ∉ s → y ++ [c] = x ++ [c] ++ z → s = z ++ t → s = t := by
    intro x y z s t hs hy hz
    cases hlast : z.getLast? with
    | none => rw [hz, List.getLast?_eq_none_iff.mp hlast, List.nil_append]
    | some b =>
      have hb := congrArg List.getLast? hy
      rw [List.getLast?_concat, List.getLast?_append, hlast] at hb
      have hbc : c = b := Option.some.inj hb
      have hmem : b ∈ s := hz ▸ List.mem_append_left t (List.mem_of_getLast? hlast)
      exact absurd (hbc ▸ hmem) hs
  rcases List.append_eq_append_iff.mp h with ⟨z, hy, hz⟩ | ⟨z, hx, hz⟩
  · exact hmark hs hy hz
  · exact (hmark ht hx hz).symm

end Decimal
