import Mathlib.Algebra.Order.Archimedean.Basic
import Mathlib.Data.Int.Log
import Mathlib.Data.Rat.Floor
import Mathlib.Tactic.Linarith
import Mathlib.Tactic.NormNum

/-!
# Rounding to a binary format

The numbers of a binary format are the integers of so many bits, scaled by powers of two that
are not too small. A rational rounds to the nearest of them, and of two to the even one. A decimal
literal stands for a rational.

## Implementation notes

No number is too large for a format. The mantissa may be the power of two that is one bit too
long, since this is the same number as a shorter mantissa with a larger exponent.
-/

namespace LocalGraphRag.Numbers

section Integers
variable {x y : ℚ} {n : ℤ}

/-- The nearest integer, and of two the even one. -/
def roundEven (x : ℚ) : ℤ :=
  if x - ⌊x⌋ < 1 / 2 then ⌊x⌋
  else if 1 / 2 < x - ⌊x⌋ then ⌊x⌋ + 1
  else if ⌊x⌋ % 2 = 0 then ⌊x⌋
  else ⌊x⌋ + 1

theorem floor_le_roundEven (x : ℚ) : ⌊x⌋ ≤ roundEven x := by
  rw [roundEven]
  split_ifs <;> omega

theorem roundEven_le_floor_add_one (x : ℚ) : roundEven x ≤ ⌊x⌋ + 1 := by
  rw [roundEven]
  split_ifs <;> omega

theorem le_roundEven (h : (n : ℚ) ≤ x) : n ≤ roundEven x :=
  (Int.le_floor.mpr h).trans (floor_le_roundEven x)

@[simp] theorem roundEven_intCast (n : ℤ) : roundEven (n : ℚ) = n := by
  rw [roundEven, Int.floor_intCast, sub_self, if_pos (by norm_num)]

theorem roundEven_le (h : x ≤ n) : roundEven x ≤ n := by
  obtain hlt | rfl := h.lt_or_eq
  · exact (roundEven_le_floor_add_one x).trans (Int.floor_lt.mpr hlt)
  · exact (roundEven_intCast n).le

theorem roundEven_mono (h : x ≤ y) : roundEven x ≤ roundEven y := by
  obtain hlt | heq := (Int.floor_le_floor h).lt_or_eq
  · calc roundEven x
      _ ≤ ⌊x⌋ + 1 := roundEven_le_floor_add_one x
      _ ≤ ⌊y⌋ := Int.add_one_le_iff.mpr hlt
      _ ≤ roundEven y := floor_le_roundEven y
  · rw [roundEven, roundEven, heq]
    have hle : x - ⌊y⌋ ≤ y - ⌊y⌋ := sub_le_sub_right h _
    split_ifs <;> first | omega | (exfalso; linarith)

end Integers

/-- A binary format. -/
structure BinaryFormat where
  precision : ℕ
  minExponent : ℤ
  precision_pos : 0 < precision

namespace BinaryFormat
variable (F : BinaryFormat)

/-- The exponent of a number that is not zero. -/
def exponent (x : ℚ) : ℤ := max (Int.log 2 x + 1 - F.precision) F.minExponent

/-- The rounding of a number that is not negative. -/
def roundNonneg (x : ℚ) : ℚ := roundEven (x / 2 ^ F.exponent x) * 2 ^ F.exponent x

def round (x : ℚ) : ℚ := if 0 ≤ x then F.roundNonneg x else -F.roundNonneg (-x)

/-- The numbers of the format. -/
def Representable (x : ℚ) : Prop :=
  ∃ m e : ℤ, F.minExponent ≤ e ∧ |m| ≤ 2 ^ F.precision ∧ x = m * 2 ^ e

section Exponents
variable {F} {x y : ℚ}

theorem two_zpow_pos (e : ℤ) : (0 : ℚ) < 2 ^ e := zpow_pos two_pos e

theorem two_zpow_eq_intCast {e : ℤ} (he : 0 ≤ e) : ∃ n : ℤ, (2 : ℚ) ^ e = n := by
  obtain ⟨k, rfl⟩ := Int.eq_ofNat_of_zero_le he
  exact ⟨2 ^ k, by simp⟩

/-- Where the exponent is not the smallest, it is that of the leading bit. -/
theorem exponent_eq (h : F.minExponent < F.exponent x) :
    F.exponent x = Int.log 2 x + 1 - F.precision := by
  rw [exponent] at h ⊢
  omega

/-- The leading bit of a number whose exponent is not the smallest. -/
theorem leading_le (hx : 0 < x) (h : F.minExponent < F.exponent x) :
    (2 : ℚ) ^ (F.exponent x + F.precision - 1) ≤ x := by
  have hlog : F.exponent x + F.precision - 1 = Int.log 2 x := by
    rw [exponent_eq h]
    omega
  rw [hlog]
  exact_mod_cast Int.zpow_log_le_self one_lt_two hx

theorem lt_two_zpow (x : ℚ) : x < (2 : ℚ) ^ (F.exponent x + F.precision) := by
  have hlog : Int.log 2 x + 1 ≤ F.exponent x + F.precision := by
    rw [exponent]
    omega
  refine lt_of_lt_of_le ?_ (zpow_le_zpow_right₀ one_le_two hlog)
  exact_mod_cast Int.lt_zpow_succ_log_self one_lt_two x

/-- A number of the format with a smaller exponent than this one has less than its leading
bit. -/
theorem le_leading {m e : ℤ} (hm : |m| ≤ 2 ^ F.precision) (he : e < F.exponent x) :
    (m : ℚ) * 2 ^ e ≤ 2 ^ (F.exponent x + F.precision - 1) := by
  have hle : (m : ℚ) ≤ 2 ^ F.precision := by exact_mod_cast (le_abs_self m).trans hm
  calc (m : ℚ) * 2 ^ e
      ≤ 2 ^ F.precision * 2 ^ e := mul_le_mul_of_nonneg_right hle (two_zpow_pos e).le
    _ = 2 ^ (F.precision + e) := by rw [zpow_add₀ two_ne_zero, zpow_natCast]
    _ ≤ 2 ^ (F.exponent x + F.precision - 1) := zpow_le_zpow_right₀ one_le_two (by omega)

/-- A number of the format is a multiple of its larger powers of two. -/
theorem div_eq_intCast {m e k : ℤ} (h : k ≤ e) : ∃ n : ℤ, (m : ℚ) * 2 ^ e / 2 ^ k = n := by
  obtain ⟨n, hn⟩ := two_zpow_eq_intCast (sub_nonneg.mpr h)
  refine ⟨m * n, ?_⟩
  rw [mul_div_assoc, ← zpow_sub₀ two_ne_zero, hn, Int.cast_mul]

theorem leading_div_eq_intCast (x : ℚ) :
    ∃ n : ℤ, (2 : ℚ) ^ (F.exponent x + F.precision - 1) / 2 ^ F.exponent x = n := by
  have hpos := F.precision_pos
  obtain ⟨n, hn⟩ := div_eq_intCast (m := 1) (e := F.exponent x + F.precision - 1)
    (k := F.exponent x) (by omega)
  exact ⟨n, by rwa [Int.cast_one, one_mul] at hn⟩

end Exponents

section Nonneg
variable {F} {x y : ℚ}

theorem roundNonneg_zero : F.roundNonneg 0 = 0 := by
  have hzero : roundEven 0 = 0 := by exact_mod_cast roundEven_intCast 0
  rw [roundNonneg, zero_div, hzero, Int.cast_zero, zero_mul]

theorem roundNonneg_nonneg (hx : 0 ≤ x) : 0 ≤ F.roundNonneg x := by
  have hscaled : ((0 : ℤ) : ℚ) ≤ x / 2 ^ F.exponent x := by
    rw [Int.cast_zero]
    exact div_nonneg hx (two_zpow_pos _).le
  exact mul_nonneg (by exact_mod_cast le_roundEven hscaled) (two_zpow_pos _).le

/-- A multiple of the power of two that a number is rounded to bounds its rounding. -/
theorem roundNonneg_le_of_div {n : ℤ} (hn : y / 2 ^ F.exponent x = n) (h : x ≤ y) :
    F.roundNonneg x ≤ y := by
  have hscaled : x / 2 ^ F.exponent x ≤ n := by
    rw [← hn]
    exact div_le_div_of_nonneg_right h (two_zpow_pos _).le
  have hround : (roundEven (x / 2 ^ F.exponent x) : ℚ) ≤ y / 2 ^ F.exponent x := by
    rw [hn]
    exact_mod_cast roundEven_le hscaled
  exact (le_div_iff₀ (two_zpow_pos _)).mp hround

theorem le_roundNonneg_of_div {n : ℤ} (hn : y / 2 ^ F.exponent x = n) (h : y ≤ x) :
    y ≤ F.roundNonneg x := by
  have hscaled : (n : ℚ) ≤ x / 2 ^ F.exponent x := by
    rw [← hn]
    exact div_le_div_of_nonneg_right h (two_zpow_pos _).le
  have hround : y / 2 ^ F.exponent x ≤ (roundEven (x / 2 ^ F.exponent x) : ℚ) := by
    rw [hn]
    exact_mod_cast le_roundEven hscaled
  exact (div_le_iff₀ (two_zpow_pos _)).mp hround

/-- A number of the format that is not smaller than another number is not smaller than its
rounding. -/
theorem roundNonneg_le (hx : 0 ≤ x) (hy : F.Representable y) (h : x ≤ y) : F.roundNonneg x ≤ y := by
  obtain ⟨m, e, hmin, hm, rfl⟩ := hy
  obtain rfl | hpos := hx.eq_or_lt
  · rw [roundNonneg_zero]
    exact h
  by_cases he : F.exponent x ≤ e
  · obtain ⟨n, hn⟩ := div_eq_intCast (m := m) he
    exact roundNonneg_le_of_div hn h
  · -- then it is the leading bit of the other
    have hlead := leading_le hpos (hmin.trans_lt (not_le.mp he))
    have hsmall := le_leading hm (not_le.mp he)
    obtain ⟨n, hn⟩ := leading_div_eq_intCast (F := F) x
    rw [← le_antisymm hsmall (hlead.trans h)] at hn
    exact roundNonneg_le_of_div hn h

theorem le_roundNonneg (hx : 0 ≤ x) (hy : F.Representable y) (h : y ≤ x) :
    y ≤ F.roundNonneg x := by
  obtain ⟨m, e, hmin, hm, rfl⟩ := hy
  obtain rfl | hpos := hx.eq_or_lt
  · rw [roundNonneg_zero]
    exact h
  by_cases he : F.exponent x ≤ e
  · obtain ⟨n, hn⟩ := div_eq_intCast (m := m) he
    exact le_roundNonneg_of_div hn h
  · have hlead := leading_le hpos (hmin.trans_lt (not_le.mp he))
    obtain ⟨n, hn⟩ := leading_div_eq_intCast (F := F) x
    calc (m : ℚ) * 2 ^ e
      _ ≤ 2 ^ (F.exponent x + F.precision - 1) := le_leading hm (not_le.mp he)
      _ ≤ F.roundNonneg x := le_roundNonneg_of_div hn hlead

theorem representable_roundNonneg (hx : 0 ≤ x) : F.Representable (F.roundNonneg x) := by
  refine ⟨_, F.exponent x, le_max_right _ _, ?_, rfl⟩
  have hlow : 0 ≤ roundEven (x / 2 ^ F.exponent x) := by
    apply le_roundEven
    rw [Int.cast_zero]
    exact div_nonneg hx (two_zpow_pos _).le
  rw [abs_of_nonneg hlow]
  apply roundEven_le
  rw [div_le_iff₀ (two_zpow_pos _)]
  have hlt := (lt_two_zpow (F := F) x).le
  rw [zpow_add₀ two_ne_zero, zpow_natCast, mul_comm] at hlt
  exact_mod_cast hlt

theorem representable_two_zpow {e : ℤ} (h : F.minExponent ≤ e) : F.Representable (2 ^ e) := by
  refine ⟨1, e, h, ?_, by rw [Int.cast_one, one_mul]⟩
  rw [abs_one]
  exact one_le_pow₀ one_le_two

theorem roundNonneg_mono (hx : 0 ≤ x) (h : x ≤ y) : F.roundNonneg x ≤ F.roundNonneg y := by
  obtain rfl | hpos := hx.eq_or_lt
  · rw [roundNonneg_zero]
    exact roundNonneg_nonneg h
  have hlog := Int.log_mono_right (b := 2) hpos h
  have hexponent : F.exponent x ≤ F.exponent y := by
    rw [exponent, exponent]
    omega
  obtain hlt | heq := hexponent.lt_or_eq
  · -- a power of two lies between them
    have hy : F.exponent y = Int.log 2 y + 1 - F.precision :=
      exponent_eq ((le_max_right _ _).trans_lt hlt)
    have hprecision := F.precision_pos
    have hmin : F.minExponent ≤ F.exponent x := le_max_right _ _
    have hless : Int.log 2 x + 1 ≤ Int.log 2 y := by
      rw [exponent, hy] at hlt
      omega
    have hbetween : F.Representable (2 ^ Int.log 2 y) := representable_two_zpow (by omega)
    have hleading : x < (2 : ℚ) ^ (Int.log 2 x + 1) := by
      exact_mod_cast Int.lt_zpow_succ_log_self one_lt_two x
    have habove : x ≤ 2 ^ Int.log 2 y :=
      calc x
        _ ≤ 2 ^ (Int.log 2 x + 1) := hleading.le
        _ ≤ 2 ^ Int.log 2 y := zpow_le_zpow_right₀ one_le_two hless
    have hbelow : (2 : ℚ) ^ Int.log 2 y ≤ y := by
      exact_mod_cast Int.zpow_log_le_self one_lt_two (hpos.trans_le h)
    calc F.roundNonneg x
      _ ≤ 2 ^ Int.log 2 y := roundNonneg_le hx hbetween habove
      _ ≤ F.roundNonneg y := le_roundNonneg (hx.trans h) hbetween hbelow
  · rw [roundNonneg, roundNonneg, heq]
    apply mul_le_mul_of_nonneg_right _ (two_zpow_pos _).le
    exact_mod_cast roundEven_mono (div_le_div_of_nonneg_right h (two_zpow_pos _).le)

theorem roundNonneg_of_representable (hx : 0 ≤ x) (h : F.Representable x) :
    F.roundNonneg x = x :=
  le_antisymm (roundNonneg_le hx h le_rfl) (le_roundNonneg hx h le_rfl)

end Nonneg

section Round
variable {F} {x y : ℚ}

theorem Representable.neg (h : F.Representable x) : F.Representable (-x) := by
  obtain ⟨m, e, hmin, hm, rfl⟩ := h
  refine ⟨-m, e, hmin, by rwa [abs_neg], ?_⟩
  rw [Int.cast_neg, neg_mul]

theorem round_of_nonneg (hx : 0 ≤ x) : F.round x = F.roundNonneg x := if_pos hx

theorem round_of_nonpos (hx : x ≤ 0) : F.round x = -F.roundNonneg (-x) := by
  obtain rfl | hneg := hx.eq_or_lt
  · rw [round_of_nonneg le_rfl, neg_zero, roundNonneg_zero, neg_zero]
  · exact if_neg (not_le.mpr hneg)

theorem representable_round (x : ℚ) : F.Representable (F.round x) := by
  obtain hx | hx := le_total 0 x
  · rw [round_of_nonneg hx]
    exact representable_roundNonneg hx
  · rw [round_of_nonpos hx]
    exact (representable_roundNonneg (neg_nonneg.mpr hx)).neg

/-- A number of the format rounds to itself. -/
theorem round_of_representable (h : F.Representable x) : F.round x = x := by
  obtain hx | hx := le_total 0 x
  · rw [round_of_nonneg hx, roundNonneg_of_representable hx h]
  · rw [round_of_nonpos hx, roundNonneg_of_representable (neg_nonneg.mpr hx) h.neg, neg_neg]

/-- Rounding keeps the order of numbers. -/
theorem round_mono (h : x ≤ y) : F.round x ≤ F.round y := by
  obtain hx | hx := le_total 0 x
  · rw [round_of_nonneg hx, round_of_nonneg (hx.trans h)]
    exact roundNonneg_mono hx h
  obtain hy | hy := le_total 0 y
  · rw [round_of_nonpos hx, round_of_nonneg hy]
    calc -F.roundNonneg (-x)
      _ ≤ 0 := neg_nonpos.mpr (roundNonneg_nonneg (neg_nonneg.mpr hx))
      _ ≤ F.roundNonneg y := roundNonneg_nonneg hy
  · rw [round_of_nonpos hx, round_of_nonpos hy]
    exact neg_le_neg (roundNonneg_mono (neg_nonneg.mpr hy) (neg_le_neg h))

theorem round_le (hy : F.Representable y) (h : x ≤ y) : F.round x ≤ y :=
  (round_mono h).trans_eq (round_of_representable hy)

theorem le_round (hx : F.Representable x) (h : x ≤ y) : x ≤ F.round y :=
  (round_of_representable hx).symm.trans_le (round_mono h)

/-- Where a number is below one of the format, it is so before it rounds. -/
theorem lt_of_round_lt (hy : F.Representable y) (h : F.round x < y) : x < y :=
  lt_of_not_ge fun hle => absurd h (not_lt.mpr (le_round hy hle))

end Round

end BinaryFormat

section Literals

/-- The value of digits. -/
def digitsValue (digits : List ℕ) : ℕ := digits.foldl (fun n c => 10 * n + (c - 0x30)) 0

/-- The value of digits, which may have a sign before them. -/
def intValue : List ℕ → ℤ
  | [] => 0
  | c :: digits =>
      if c = 0x2d then -digitsValue digits
      else if c = 0x2b then digitsValue digits
      else digitsValue (c :: digits)

/-- An `e` or `E`. -/
def IsExponentMark (c : ℕ) : Prop := c = 0x65 ∨ c = 0x45

instance (c : ℕ) : Decidable (IsExponentMark c) := inferInstanceAs (Decidable (_ ∨ _))

/-- A literal with neither fraction nor exponent. -/
def IsIntLiteral (literal : List ℕ) : Prop := ∀ c ∈ literal, c ≠ 0x2e ∧ ¬ IsExponentMark c

instance (literal : List ℕ) : Decidable (IsIntLiteral literal) :=
  List.decidableBAll (fun c => c ≠ 0x2e ∧ ¬ IsExponentMark c) literal

/-- The value of a literal in decimal, before it is rounded. -/
def literalValue (literal : List ℕ) : ℚ :=
  let mantissa := literal.takeWhile fun c => ¬ IsExponentMark c
  let exponent := (literal.dropWhile fun c => ¬ IsExponentMark c).tail
  let whole := mantissa.takeWhile fun c => c ≠ 0x2e
  let fraction := (mantissa.dropWhile fun c => c ≠ 0x2e).tail
  intValue (whole ++ fraction) * 10 ^ (intValue exponent - fraction.length)

end Literals

/-- The format of double precision. -/
def binary64 : BinaryFormat := ⟨53, -1074, by decide⟩

/-- A number in double precision. -/
def Double : Type := { x : ℚ // binary64.Representable x }

namespace Double

instance : LinearOrder Double := inferInstanceAs (LinearOrder { x : ℚ // binary64.Representable x })

/-- The number nearest to a rational. -/
def ofRat (x : ℚ) : Double := ⟨binary64.round x, BinaryFormat.representable_round x⟩

instance (n : ℕ) : OfNat Double n := ⟨ofRat n⟩

instance : Sub Double := ⟨fun a b => ofRat (a.val - b.val)⟩

theorem sub_le_sub {a b c d : Double} (hab : a ≤ b) (hcd : c ≤ d) : a - d ≤ b - c := by
  have hab' : a.val ≤ b.val := hab
  have hcd' : c.val ≤ d.val := hcd
  have hle : a.val - d.val ≤ b.val - c.val := by linarith
  exact BinaryFormat.round_mono hle

end Double

end LocalGraphRag.Numbers
