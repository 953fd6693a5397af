import LocalGraphRag.Python.Text
import Mathlib.Data.Nat.Digits.Lemmas

/-!
# Numerals

The text of a number in decimal has no leading zero, and another number has another text.
-/

namespace LocalGraphRag.Python

/-- The code point of a decimal digit. -/
def digitPoint (digit : ℕ) : CodePoint := Fin.ofNat 0x110000 (0x30 + digit)

/-- `str(n)`. -/
def natText (n : ℕ) : Text :=
  if n = 0 then [digitPoint 0] else (Nat.digits 10 n).reverse.map digitPoint

/-- `str(n)`, for an integer. -/
def intText (n : ℤ) : Text := (if n < 0 then text "-" else []) ++ natText n.natAbs

theorem digitPoint_val {digit : ℕ} (h : digit < 10) : (digitPoint digit).val = 0x30 + digit :=
  Nat.mod_eq_of_lt (by omega)

theorem natText_ne_nil (n : ℕ) : natText n ≠ [] := by
  rw [natText]
  split_ifs with h
  · exact List.cons_ne_nil _ _
  · simpa using Nat.digits_ne_nil_iff_ne_zero.mpr h

theorem mem_natText {n : ℕ} {c : CodePoint} (h : c ∈ natText n) : 0x30 ≤ c.val ∧ c.val ≤ 0x39 := by
  have hdigit : ∃ digit < 10, digitPoint digit = c := by
    rw [natText] at h
    split_ifs at h
    · exact ⟨0, by omega, (List.mem_singleton.mp h).symm⟩
    · obtain ⟨digit, hdigit, hc⟩ := List.mem_map.mp h
      exact ⟨digit, Nat.digits_lt_base (by decide) (List.mem_reverse.mp hdigit), hc⟩
  obtain ⟨digit, hlt, rfl⟩ := hdigit
  rw [digitPoint_val hlt]
  omega

/-- Only 0 begins with a zero. -/
theorem head_natText {n : ℕ} (h : (natText n).head? = some (digitPoint 0)) :
    natText n = [digitPoint 0] := by
  rw [natText] at h ⊢
  split_ifs at h ⊢ with hn
  · rfl
  · have hne : Nat.digits 10 n ≠ [] := Nat.digits_ne_nil_iff_ne_zero.mpr hn
    have hlast := Nat.getLast_digit_ne_zero 10 hn
    rw [List.head?_map, List.head?_reverse, List.getLast?_eq_getLast_of_ne_nil hne] at h
    have hzero := Option.some.inj h
    have hlt := Nat.digits_lt_base (by decide) (List.getLast_mem hne)
    have hval := congrArg Fin.val hzero
    rw [digitPoint_val hlt, digitPoint_val (by decide)] at hval
    omega

end LocalGraphRag.Python
