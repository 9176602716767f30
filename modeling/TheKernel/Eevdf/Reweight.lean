import Mathlib.Data.Rat.Cast.Order
import Mathlib.Tactic.FieldSimp
import Mathlib.Tactic.Linarith
import TheKernel.Eevdf.Entity

namespace TheKernel.Eevdf

open Outcome

variable {n d q : Nat}

/-- The quotient rounded to the nearest number, a tie to the even one. -/
def roundNearestEven (n d : Nat) : Nat :=
  if d < 2 * (n % d) ∨ 2 * (n % d) = d ∧ n / d % 2 = 1 then n / d + 1 else n / d

theorem roundNearestEven_near (hd : 0 < d) :
    2 * (d * roundNearestEven n d) ≤ 2 * n + d ∧ 2 * n ≤ 2 * (d * roundNearestEven n d) + d := by
  have hn := Nat.mod_add_div n d
  have hr := Nat.mod_lt n hd
  rw [roundNearestEven]
  split
  · rw [Nat.mul_succ]
    omega
  · omega

/-- A number less than half a unit away is the rounded quotient. -/
theorem roundNearestEven_eq (hd : 0 < d) (hlow : 2 * n < 2 * (d * q) + d) (hhigh : 2 * (d * q) < 2 * n + d) :
    roundNearestEven n d = q := by
  obtain ⟨hle, hge⟩ := roundNearestEven_near (n := n) hd
  apply Nat.le_antisymm
  · apply Nat.le_of_lt_succ
    apply Nat.lt_of_mul_lt_mul_left (a := d)
    rw [Nat.mul_succ]
    omega
  · apply Nat.le_of_lt_succ
    apply Nat.lt_of_mul_lt_mul_left (a := d)
    rw [Nat.mul_succ]
    omega

theorem checkedMulDivRoundNearestEven_eq {a b : Nat} (ha : a < u128Size) (hb : b < u128Size) (hd : 0 < d)
    (hd' : d < u128Size) : checkedMulDivRoundNearestEven a b d = u128 (roundNearestEven (a * b) d) := by
  rw [checkedMulDivRoundNearestEven, checkedMulDivRem_eq ha hb hd hd', quotRem, roundNearestEven]
  by_cases hfit : a * b / d < u128Size
  · rw [if_pos hfit, ok_bind]
    simp only
    rcases Nat.lt_trichotomy (a * b % d) (d / 2) with hlt | heq | hgt
    · rw [Nat.compare_eq_lt.mpr hlt, if_neg (by simp), if_neg (by omega), u128_of_lt hfit]
    · rw [Nat.compare_eq_eq.mpr heq]
      by_cases htie : d % 2 = 0 ∧ a * b / d % 2 ≠ 0
      · rw [if_pos (by simpa using htie), if_pos (by omega)]
      · rw [if_neg (by simpa using htie), if_neg (by omega), u128_of_lt hfit]
    · rw [Nat.compare_eq_gt.mpr hgt, if_pos rfl, if_pos (by omega)]
  · rw [if_neg hfit, err_bind]
    split
    · rw [u128_of_ge (by omega)]
    · rw [u128_of_ge (by omega)]

namespace Clock

variable {c c' : Clock} {w total : Nat}

structure Fits (c : Clock) : Prop where
  v : i128Min ≤ c.v ∧ c.v ≤ i128Max
  remainder : c.remainder < u128Size
  totalWeight : c.totalWeight < u128Size

def time (c : Clock) : ℚ := c.v + c.remainder / c.totalWeight

def residue (c : Clock) (total : Nat) : Nat := roundNearestEven (c.remainder * total) c.totalWeight

theorem residue_near (c : Clock) (total : Nat) (hw : 0 < c.totalWeight) :
    2 * (c.totalWeight * c.residue total) ≤ 2 * (c.remainder * total) + c.totalWeight ∧
      2 * (c.remainder * total) ≤ 2 * (c.totalWeight * c.residue total) + c.totalWeight :=
  roundNearestEven_near hw

theorem residue_le (hr : c.remainder < c.totalWeight) : c.residue total ≤ total := by
  have hnear := (residue_near c total (by omega)).1
  have hprod : (c.remainder + 1) * total ≤ c.totalWeight * total := Nat.mul_le_mul_right total hr
  have hbound : 2 * (c.totalWeight * c.residue total) < 2 * (c.totalWeight * (total + 1)) := by
    rw [Nat.mul_succ]
    rw [Nat.succ_mul] at hprod
    omega
  apply Nat.le_of_lt_succ
  exact Nat.lt_of_mul_lt_mul_left (Nat.lt_of_mul_lt_mul_left hbound)

theorem rescale_eq (h : c.Fits) (htotal : total < u128Size) (hr : c.remainder < c.totalWeight) :
    c.rescale total = if c.residue total = total then
        (i128 (c.v + 1)).bind fun v => .ok { c with v := v, remainder := 0, totalWeight := total }
      else .ok { c with remainder := c.residue total, totalWeight := total } := by
  have hle : c.residue total ≤ total := residue_le hr
  rw [rescale, if_neg (Nat.not_le.mpr hr), checkedMulDivRoundNearestEven_eq h.remainder htotal (by omega) h.totalWeight,
    ← residue, u128_of_lt (by omega), ok_bind]
  rcases Nat.lt_or_eq_of_le hle with hlt | heq
  · rw [Nat.compare_eq_lt.mpr hlt, if_neg (Nat.ne_of_lt hlt)]
  · rw [Nat.compare_eq_eq.mpr heq, if_pos heq]
    rfl

/-- A rescaled clock is the old one, with the residue rounded and its carry in `v`. -/
theorem rescale_eq_ok (h : c.Fits) (htotal : total < u128Size) (hpos : 0 < total) (hok : c.rescale total = .ok c') :
    c.remainder < c.totalWeight ∧ c'.totalWeight = total ∧ c'.remainder < total ∧
      (c'.v - c.v) * total + c'.remainder = c.residue total := by
  have hr : c.remainder < c.totalWeight := by
    rw [rescale, guard_eq_ok] at hok
    exact Nat.lt_of_not_le hok.1
  have hle : c.residue total ≤ total := residue_le hr
  rw [rescale_eq h htotal hr] at hok
  refine ⟨hr, ?_⟩
  split at hok
  · rename_i hcarry
    obtain ⟨v, hv, hok⟩ := bind_eq_ok.mp hok
    rw [i128_eq_ok] at hv
    cases hok
    refine ⟨rfl, hpos, ?_⟩
    rw [hcarry, ← hv.1]
    simp
  · rename_i hne
    cases hok
    exact ⟨rfl, Nat.lt_of_le_of_ne hle hne, by simp⟩

theorem setTotalWeight_apply (hw : 0 < c.totalWeight) (hpos : 0 < total) (hne : total ≠ c.totalWeight) :
    setTotalWeight total c = match c.rescale total with
      | .ok next => (.ok (), next)
      | .err error => (.err error, c)
      | .panic => (.panic, c) := by
  rw [setTotalWeight, Act.get_bind, if_neg hne.symm, if_neg (by omega)]
  cases c.rescale total with
  | ok next => rfl
  | err error => rfl
  | panic => rfl

theorem setTotalWeight_eq_ok (hw : 0 < c.totalWeight) (hpos : 0 < total) (hne : total ≠ c.totalWeight) :
    setTotalWeight total c = (.ok (), c') ↔ c.rescale total = .ok c' := by
  rw [setTotalWeight_apply hw hpos hne]
  cases c.rescale total with
  | ok next => simp
  | err error => simp
  | panic => simp

/-- The time moves by at most half a unit of the new weight. -/
theorem time_rescale (h : c.Fits) (hw : 0 < c.totalWeight) (htotal : total < u128Size) (hpos : 0 < total)
    (hok : c.rescale total = .ok c') : |c'.time - c.time| ≤ 1 / (2 * total) := by
  obtain ⟨-, htw, -, hsum⟩ := rescale_eq_ok h htotal hpos hok
  obtain ⟨hhigh, hlow⟩ := residue_near c total hw
  have hw' : (0 : ℚ) < c.totalWeight := by exact_mod_cast hw
  have hpos' : (0 : ℚ) < total := by exact_mod_cast hpos
  have hsum' : (c'.v - c.v : ℚ) * total + c'.remainder = c.residue total := by exact_mod_cast hsum
  have hhigh' : 2 * ((c.totalWeight : ℚ) * c.residue total) ≤ 2 * (c.remainder * total) + c.totalWeight := by
    exact_mod_cast hhigh
  have hlow' : 2 * ((c.remainder : ℚ) * total) ≤ 2 * (c.totalWeight * c.residue total) + c.totalWeight := by
    exact_mod_cast hlow
  have hdiff : c'.time - c.time = (c.totalWeight * c.residue total - c.remainder * total) /
      (c.totalWeight * total) := by
    rw [time, time, htw, ← hsum']
    field_simp
    ring
  have hunit : (1 : ℚ) / (2 * total) = c.totalWeight / 2 / (c.totalWeight * total) := by
    field_simp
  rw [hdiff, hunit, abs_div, abs_of_pos (mul_pos hw' hpos')]
  apply div_le_div_of_nonneg_right _ (mul_pos hw' hpos').le
  rw [abs_le]
  constructor
  · linarith
  · linarith

theorem residue_lt (hr : c.remainder < c.totalWeight) : c.residue (c.totalWeight + w) < c.totalWeight + w := by
  have hnear := (residue_near c (c.totalWeight + w) (by omega)).1
  have hprod : (c.remainder + 1) * (c.totalWeight + w) ≤ c.totalWeight * (c.totalWeight + w) :=
    Nat.mul_le_mul_right _ hr
  rw [Nat.succ_mul] at hprod
  apply Nat.lt_of_mul_lt_mul_left (a := c.totalWeight)
  omega

theorem residue_back (hr : c.remainder < c.totalWeight) (hw : 0 < w) :
    roundNearestEven (c.residue (c.totalWeight + w) * c.totalWeight) (c.totalWeight + w) = c.remainder := by
  obtain ⟨hhigh, hlow⟩ := residue_near c (c.totalWeight + w) (by omega)
  rw [Nat.mul_comm c.totalWeight] at hhigh hlow
  apply roundNearestEven_eq (by omega)
  · rw [Nat.mul_comm (c.totalWeight + w)]
    omega
  · rw [Nat.mul_comm (c.totalWeight + w)]
    omega

theorem checkedAddWeight_eq_ok (h : c.Fits) (hpos : 0 < c.totalWeight) (hw : 0 < w) :
    checkedAddWeight w c = (.ok (), c') ↔ c.totalWeight + w < u128Size ∧ c.remainder < c.totalWeight ∧
      c' = { c with remainder := c.residue (c.totalWeight + w), totalWeight := c.totalWeight + w } := by
  rw [checkedAddWeight, Act.get_bind]
  by_cases hfit : c.totalWeight + w < u128Size
  · rw [u128_of_lt hfit, Act.lift_ok_bind, setTotalWeight_eq_ok hpos (by omega) (by omega)]
    by_cases hr : c.remainder < c.totalWeight
    · rw [rescale_eq h hfit hr, if_neg (Nat.ne_of_lt (residue_lt hr)), Outcome.ok.injEq, eq_comm]
      simp [hfit, hr]
    · rw [rescale, guard_eq_ok]
      simp [hr, Nat.le_of_not_lt hr]
  · rw [u128_of_ge (Nat.le_of_not_lt hfit), Act.lift_err_bind]
    simp [hfit]

/-- A clock with a residue below its weight is reweighted unless the carry overflows. -/
theorem rescale_isOk (h : c.Fits) (htotal : total < u128Size) (hr : c.remainder < c.totalWeight) (hv : c.v < i128Max) :
    ∃ next, c.rescale total = .ok next := by
  rw [rescale_eq h htotal hr]
  split
  · have hstep : i128 (c.v + 1) = .ok (c.v + 1) := i128_eq_ok.mpr ⟨rfl, by have := h.v; omega, by omega⟩
    rw [hstep]
    exact ⟨_, rfl⟩
  · exact ⟨_, rfl⟩

/-- A change of the total weight moves the rational virtual time by at most half
a unit of the new weight and leaves a residue below it; it goes through for
every valid residue unless `v` is the last `i128`. A weight that is added and
taken away again leaves the clock as it was. -/
theorem reweight_within_half (c : Clock) (h : c.Fits) (hpos : 0 < c.totalWeight) (w : Nat) (hw : 0 < w) :
    (w < u128Size → w ≠ c.totalWeight →
      (∀ c', setTotalWeight w c = (.ok (), c') →
        c'.totalWeight = w ∧ c'.remainder < w ∧ |c'.time - c.time| ≤ 1 / (2 * w)) ∧
      (c.remainder < c.totalWeight → c.v < i128Max → ∃ c', setTotalWeight w c = (.ok (), c'))) ∧
    (∀ c', checkedAddWeight w c = (.ok (), c') → checkedSubWeight w c' = (.ok (), c)) ∧
    (c.remainder < c.totalWeight → c.totalWeight + w < u128Size → ∃ c', checkedAddWeight w c = (.ok (), c')) := by
  refine ⟨fun hlt hne => ⟨fun c' hset => ?_, fun hr hv => ?_⟩, fun c' hadd => ?_, fun hr hfit => ?_⟩
  · rw [setTotalWeight_eq_ok hpos hw hne] at hset
    obtain ⟨-, htotal, hrem, -⟩ := rescale_eq_ok h hlt hw hset
    exact ⟨htotal, hrem, time_rescale h hpos hlt hw hset⟩
  · obtain ⟨next, hnext⟩ := rescale_isOk h hlt hr hv
    exact ⟨next, (setTotalWeight_eq_ok hpos hw hne).mpr hnext⟩
  · obtain ⟨hfit, hr, rfl⟩ := (checkedAddWeight_eq_ok h hpos hw).mp hadd
    have hlt := residue_lt (w := w) hr
    have hfits : Fits { c with remainder := c.residue (c.totalWeight + w), totalWeight := c.totalWeight + w } :=
      ⟨h.v, Nat.lt_trans hlt hfit, hfit⟩
    have hback : residue { c with remainder := c.residue (c.totalWeight + w), totalWeight := c.totalWeight + w }
        c.totalWeight = c.remainder := residue_back hr hw
    rw [checkedSubWeight, Act.get_bind]
    simp only [Nat.add_sub_cancel]
    rw [if_neg (by omega), setTotalWeight_eq_ok (by simp only; omega) hpos (by simp only; omega),
      rescale_eq hfits h.totalWeight hlt, hback, if_neg (Nat.ne_of_lt hr)]
  · exact ⟨_, (checkedAddWeight_eq_ok h hpos hw).mpr ⟨hfit, hr, rfl⟩⟩

theorem reweight_within_half_fiveSevenths :
    setTotalWeight 10 ⟨4, 5, 7, 0⟩ = (.ok (), ⟨4, 7, 10, 0⟩) ∧
      |time ⟨4, 7, 10, 0⟩ - time ⟨4, 5, 7, 0⟩| ≤ 1 / (2 * 10) ∧
      checkedSubWeight 3 ⟨4, 7, 10, 0⟩ = (.ok (), ⟨4, 5, 7, 0⟩) := by
  have hfits : Fits ⟨4, 5, 7, 0⟩ := ⟨by decide, by decide, by decide⟩
  have hset : setTotalWeight 10 ⟨4, 5, 7, 0⟩ = (.ok (), ⟨4, 7, 10, 0⟩) := by decide
  have hnear := ((reweight_within_half ⟨4, 5, 7, 0⟩ hfits (by decide) 10 (by decide)).1 (by decide)
      (by decide)).1 _ hset
  refine ⟨hset, by simpa using hnear.2.2, ?_⟩
  exact (reweight_within_half ⟨4, 5, 7, 0⟩ hfits (by decide) 3 (by decide)).2.1 _ (by decide)

end Clock

end TheKernel.Eevdf
