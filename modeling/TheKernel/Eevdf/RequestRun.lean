import Mathlib.Data.Rat.Floor
import Mathlib.Tactic.FieldSimp
import Mathlib.Tactic.Linarith
import Mathlib.Algebra.BigOperators.Group.List.Basic
import TheKernel.Eevdf.Request

namespace TheKernel.Eevdf

open Outcome

theorem WORK_pos : 0 < WORK := by decide

theorem WORK_lt : WORK < u128Size := by decide

section Ceil

variable {n d e k : Nat}

theorem ceilDiv_add_mul (hd : 0 < d) (k n : Nat) : ceilDiv (k * d + n) d = k + ceilDiv n d := by
  rw [ceilDiv, ceilDiv, Nat.add_comm (k * d), Nat.add_mul_mod_self_right, Nat.add_mul_div_right _ _ hd]
  split <;> omega

theorem ceilDiv_ceilDiv (hd : 0 < d) (he : 0 < e) (n : Nat) : ceilDiv (ceilDiv n d) e = ceilDiv n (d * e) := by
  have hiff (k : Nat) : ceilDiv (ceilDiv n d) e ≤ k ↔ ceilDiv n (d * e) ≤ k := by
    rw [ceilDiv_le_iff he, ceilDiv_le_iff hd, ceilDiv_le_iff (Nat.mul_pos hd he), Nat.mul_assoc, Nat.mul_comm e]
  exact Nat.le_antisymm ((hiff _).mpr (Nat.le_refl _)) ((hiff _).mp (Nat.le_refl _))

theorem ceilDiv_le_self_of_pos (hd : 0 < d) : ceilDiv n d ≤ n := by
  rw [ceilDiv_le_iff hd]
  exact Nat.le_mul_of_pos_right n hd

/-- Whole units and a rounded rest make the rounded product. -/
theorem div_mul_add_ceilDiv (hd : 0 < d) (n w : Nat) : n / d * w + ceilDiv (n % d * w) d = ceilDiv (n * w) d := by
  rw [← ceilDiv_add_mul hd]
  congr 1
  calc n / d * w * d + n % d * w = (n % d + d * (n / d)) * w := by ring
    _ = n * w := by rw [Nat.mod_add_div]

theorem ceilDiv_mul_ceilDiv {w : Nat} (hd : 0 < d) (hw : 0 < w) (n : Nat) :
    ceilDiv (ceilDiv (n * w) d) w = ceilDiv n d := by
  rw [ceilDiv_ceilDiv hd hw]
  apply ceilDiv_congr (Nat.mul_pos hd hw) hd
  ring

theorem ceilDiv_mod_mul_le (hd : 0 < d) (n w : Nat) : ceilDiv (n % d * w) d ≤ w := by
  rw [ceilDiv_le_iff hd, Nat.mul_comm]
  exact Nat.mul_le_mul_left w (Nat.le_of_lt (Nat.mod_lt n hd))

end Ceil

namespace Request

/-- The state that every operation on a fresh request keeps: a fraction of the
request in lowest terms, and its two projections. -/
structure Sound (r : Request) : Prop where
  q_pos : 0 < r.q
  q_lt : r.q < u128Size
  den_pos : 0 < r.remainingFractionDen
  den_lt : r.remainingFractionDen < u128Size
  num_le : r.remainingFractionNum ≤ r.remainingFractionDen
  coprime : Nat.Coprime r.remainingFractionNum r.remainingFractionDen
  work : r.remainingWork = ceilDiv (r.remainingFractionNum * r.q * WORK) r.remainingFractionDen
  work_lt : r.remainingWork < u128Size
  ticks : r.remainingTicks = ceilDiv (r.remainingFractionNum * r.q) r.remainingFractionDen

theorem projection_eq {q num den : Nat} (hq : 0 < q) (hq' : q < u128Size) (hden : 0 < den) (hden' : den < u128Size)
    (hle : num ≤ den) :
    projection q num den = (u128 (ceilDiv (num * q * WORK) den) >>= fun work => .ok (work, ceilDiv (num * q) den)) := by
  have hnum : num < u128Size := Nat.lt_of_le_of_lt hle hden'
  have hwhole : num * q / den ≤ q := Nat.div_le_of_le_mul (Nat.mul_le_mul_right q hle)
  have hlt : num * q % den < den := Nat.mod_lt _ hden
  have hpart := ceilDiv_mod_mul_le hden (num * q) WORK
  have hfrac : fractionalWork (num * q % den) den = .ok (ceilDiv (num * q % den * WORK) den) := by
    rw [fractionalWork]
    split
    · rename_i hzero
      rw [hzero, Nat.zero_mul, ceilDiv, Nat.zero_mod, if_pos rfl, Nat.zero_div]
    · rw [checkedMulDivCeil_eq (Nat.lt_trans hlt hden') WORK_lt hden hden', u128_of_lt]
      exact Nat.lt_of_le_of_lt hpart WORK_lt
  have hsum := div_mul_add_ceilDiv hden (num * q) WORK
  have hticks := ceilDiv_mul_ceilDiv hden WORK_pos (num * q)
  have hinvalid : ¬ (q = 0 ∨ den = 0 ∨ den < num) := by omega
  rw [projection, if_neg hinvalid, checkedMulDivRem_eq hnum hq' hden hden', quotRem, if_pos (by omega), ok_bind]
  show joinWork (num * q / den) (num * q % den) den = _
  rw [joinWork, hfrac, ok_bind]
  by_cases hfit : ceilDiv (num * q * WORK) den < u128Size
  · have hticks' := checkedCeilDiv_eq hfit WORK_pos
    have hbelow := Nat.lt_of_le_of_lt (ceilDiv_le_self_of_pos WORK_pos) hfit
    rw [hticks, u128_of_lt (by rw [← hticks]; exact hbelow)] at hticks'
    rw [u128_of_lt (by omega), ok_bind, hsum, u128_of_lt hfit, ok_bind, ok_bind, hticks', ok_bind]
  · rw [u128_of_ge (Nat.le_of_not_lt hfit), err_bind]
    by_cases hwork : num * q / den * WORK < u128Size
    · rw [u128_of_lt hwork, ok_bind, hsum, u128_of_ge (Nat.le_of_not_lt hfit), err_bind]
    · rw [u128_of_ge (Nat.le_of_not_lt hwork), err_bind]

theorem projection_eq_ok {q num den work ticks : Nat} (hq : q < u128Size) (hden' : den < u128Size)
    (h : projection q num den = .ok (work, ticks)) :
    0 < q ∧ 0 < den ∧ num ≤ den ∧ work = ceilDiv (num * q * WORK) den ∧ work < u128Size ∧
      ticks = ceilDiv (num * q) den := by
  by_cases hinvalid : q = 0 ∨ den = 0 ∨ den < num
  · rw [projection, if_pos hinvalid] at h
    cases h
  · have hq' : 0 < q := by omega
    have hden : 0 < den := by omega
    have hle : num ≤ den := by omega
    rw [projection_eq hq' hq hden hden' hle, bind_eq_ok] at h
    obtain ⟨w, hw, heq⟩ := h
    rw [u128_eq_ok] at hw
    cases heq
    exact ⟨hq', hden, hle, hw.1.symm, hw.1 ▸ hw.2, rfl⟩

theorem Sound.exactValid {r : Request} (h : Sound r) : r.exactValid = .ok () := by
  rw [Request.exactValid, projection_eq h.q_pos h.q_lt h.den_pos h.den_lt h.num_le, ← h.work, u128_of_lt h.work_lt,
    ok_bind, ok_bind, ← h.ticks]
  simp

theorem lowest_eq {num den : Nat} (hden : 0 < den) :
    lowest num den = (num / Nat.gcd num den, den / Nat.gcd num den) := by
  have hpos := Nat.gcd_pos_of_pos_right num hden
  rw [lowest, gcdU128_eq, if_neg (Nat.ne_of_gt hpos)]

/-- What `set_fraction` leaves: the fraction in lowest terms, and its projections. -/
theorem setFraction_eq_ok {r r' : Request} {num den : Nat} (hq : r.q < u128Size) (hden : 0 < den)
    (hden' : den < u128Size) (h : (setFraction num den).onCopy r = .ok r') :
    Sound r' ∧ r'.q = r.q ∧ r'.remainingFractionNum * den = num * r'.remainingFractionDen ∧
      r' = { r with
        remainingFractionNum := r'.remainingFractionNum
        remainingFractionDen := r'.remainingFractionDen
        remainingWork := r'.remainingWork
        remainingTicks := r'.remainingTicks } := by
  obtain ⟨u, hu⟩ := Act.onCopy_eq_ok.mp h
  rw [setFraction, Act.get_bind, lowest_eq hden] at hu
  simp only at hu
  have hpos := Nat.gcd_pos_of_pos_right num hden
  cases hproj : projection r.q (num / Nat.gcd num den) (den / Nat.gcd num den) with
  | err e => rw [hproj] at hu; cases hu
  | panic => rw [hproj] at hu; cases hu
  | ok p =>
      obtain ⟨work, ticks⟩ := p
      rw [hproj] at hu
      obtain ⟨hq', hd', hle, hwork, hlt, hticks⟩ := projection_eq_ok hq
        (Nat.lt_of_le_of_lt (Nat.div_le_self _ _) hden') hproj
      cases hu
      exact ⟨⟨hq', hq, hd', Nat.lt_of_le_of_lt (Nat.div_le_self _ _) hden', hle, Nat.coprime_div_gcd_div_gcd hpos,
        hwork, hlt, hticks⟩, rfl, div_gcd_mul, rfl⟩

theorem narrowDifference_eq_ok {left right g : Nat} {p : Nat × Nat} (h : narrowDifference left right g = .ok p) :
    right ≤ left ∧ p = ((left - right) / Nat.gcd (left - right) g, Nat.gcd (left - right) g) := by
  rw [narrowDifference] at h
  split at h
  · cases h
  · cases h
    rw [gcdU128_eq]
    exact ⟨by omega, rfl⟩

theorem wideReducedGcd_eq {numerator : Wide} {g : Nat} (hg : 0 < g) (hg' : g < u128Size) :
    wideReducedGcd numerator g = .ok (Nat.gcd numerator.val g) := by
  rw [wideReducedGcd]
  split
  · rename_i hone
    rw [hone, Nat.gcd_one_right]
  · rw [Wide.remU128_eq hg hg', ok_bind, gcdU128_eq, ← Nat.gcd_rec, Nat.gcd_comm]

theorem wideDifference_eq_ok {num rightDen serviceNum leftDen g : Nat} {p : Nat × Nat} (hnum : num < u128Size)
    (hright : rightDen < u128Size) (hservice : serviceNum < u128Size) (hleft : leftDen < u128Size) (hg : 0 < g)
    (hg' : g < u128Size) (h : wideDifference num rightDen serviceNum leftDen g = .ok p) :
    serviceNum * leftDen ≤ num * rightDen ∧
      p = ((num * rightDen - serviceNum * leftDen) / Nat.gcd (num * rightDen - serviceNum * leftDen) g,
        Nat.gcd (num * rightDen - serviceNum * leftDen) g) := by
  rw [wideDifference] at h
  cases hl : Wide.mulU128 num rightDen with
  | none => simp only [hl, reduceCtorEq] at h
  | some left =>
      cases hr : Wide.mulU128 serviceNum leftDen with
      | none => simp only [hl, hr, reduceCtorEq] at h
      | some right =>
          have hlval := Wide.mulU128_eq_some hnum hright hl
          have hrval := Wide.mulU128_eq_some hservice hleft hr
          simp only [hl, hr] at h
          split at h
          · cases h
          · rename_i hge
            have hle : right.val ≤ left.val := by
              have := Wide.ge_eq left right
              rw [Wide.ge, decide_eq_true hge] at this
              simpa using this.symm
            obtain ⟨borrow, hsub⟩ := Wide.val_wrappingSub left right
            have hlt := (left.wrappingSub right).val_lt
            have hnumerator : (left.wrappingSub right).val = left.val - right.val := by
              have := left.val_lt
              cases borrow with
              | false =>
                  rw [Bool.toNat_false] at hsub
                  omega
              | true =>
                  rw [Bool.toNat_true] at hsub
                  omega
            rw [wideReducedGcd_eq hg hg', ok_bind, hnumerator] at h
            have hgcd : 0 < Nat.gcd (left.val - right.val) g := Nat.gcd_pos_of_pos_right _ hg
            have hgcd' : Nat.gcd (left.val - right.val) g < u128Size := Nat.lt_of_le_of_lt (Nat.gcd_le_right _ hg) hg'
            obtain ⟨quotient, hquot, hval⟩ := Wide.divExactU128_eq_ok (x := left.wrappingSub right) hgcd hgcd'
              (by rw [hnumerator]; exact Nat.gcd_dvd_left _ _)
            rw [hquot, ok_bind, Wide.lowU128_eq, bind_eq_ok] at h
            obtain ⟨low, hlow, hp⟩ := h
            rw [u128_eq_ok] at hlow
            rw [hnumerator] at hval
            rw [← hlval, ← hrval]
            refine ⟨hle, ?_⟩
            cases hp
            rw [← hlow.1, hval]

theorem difference_eq_ok {num den s sd n' d' : Nat} (hden : 0 < den) (hden' : den < u128Size) (hnum : num < u128Size)
    (hsd : 0 < sd) (hsd' : sd < u128Size) (hs : s < u128Size) (h : difference num den s sd = .ok (n', d')) :
    0 < d' ∧ d' < u128Size ∧ s * den ≤ num * sd ∧ n' * (den * sd) = (num * sd - s * den) * d' := by
  rw [difference, gcdU128_eq] at h
  have hg : 0 < Nat.gcd den sd := Nat.gcd_pos_of_pos_left sd hden
  have hg' : Nat.gcd den sd < u128Size := Nat.lt_of_le_of_lt (Nat.gcd_le_left _ hden) hden'
  obtain ⟨l, hl⟩ := Nat.gcd_dvd_left den sd
  obtain ⟨r, hr⟩ := Nat.gcd_dvd_right den sd
  rw [Nat.div_eq_of_eq_mul_right hg hl, Nat.div_eq_of_eq_mul_right hg hr] at h
  generalize Nat.gcd den sd = g at hg hg' hl hr h
  subst hl hr
  have hlpos : 0 < l := Nat.pos_of_mul_pos_left hden
  have hrpos : 0 < r := Nat.pos_of_mul_pos_left hsd
  rw [bind_eq_ok] at h
  obtain ⟨p, hreduced, h⟩ := h
  have hp : s * l ≤ num * r ∧ p = ((num * r - s * l) / Nat.gcd (num * r - s * l) g, Nat.gcd (num * r - s * l) g) := by
    rw [reducedDifference] at hreduced
    split at hreduced
    · exact narrowDifference_eq_ok hreduced
    · exact wideDifference_eq_ok hnum (Nat.lt_of_le_of_lt (Nat.le_mul_of_pos_left r hg) hsd') hs
        (Nat.lt_of_le_of_lt (Nat.le_mul_of_pos_left l hg) hden') hg hg' hreduced
  obtain ⟨hle, rfl⟩ := hp
  simp only at h
  rw [bind_eq_ok] at h
  obtain ⟨f, hf, h⟩ := h
  rw [u128_eq_ok] at hf
  rw [bind_eq_ok] at h
  obtain ⟨d, hd, h⟩ := h
  rw [u128_eq_ok] at hd
  cases h
  obtain ⟨hf, -⟩ := hf
  obtain ⟨hd, hlt⟩ := hd
  have hgcd := div_gcd_mul (n := num * r - s * l) (d := g)
  have hquot : 0 < g / Nat.gcd (num * r - s * l) g := div_gcd_pos hg
  generalize hN : num * r - s * l = N at *
  have hdiff : num * (g * r) - s * (g * l) = g * N := by
    rw [← hN, Nat.mul_sub]
    congr 1 <;> ring
  refine ⟨?_, hd ▸ hlt, ?_, ?_⟩
  · rw [← hd, ← hf]
    exact Nat.mul_pos (Nat.mul_pos hlpos hquot) hrpos
  · calc s * (g * l) = g * (s * l) := by ring
      _ ≤ g * (num * r) := Nat.mul_le_mul_left g hle
      _ = num * (g * r) := by ring
  · rw [hdiff, ← hd, ← hf]
    calc N / Nat.gcd N g * (g * l * (g * r)) = N / Nat.gcd N g * g * (l * g * r) := by ring
      _ = N * (g / Nat.gcd N g) * (l * g * r) := by rw [hgcd]
      _ = g * N * (l * (g / Nat.gcd N g) * r) := by ring

end Request

theorem ceilDiv_eq_ceil {n d : Nat} (hd : 0 < d) : (ceilDiv n d : Int) = ⌈(n : ℚ) / d⌉ := by
  rw [ceilDiv_eq_natCeil hd, Int.natCast_ceil_eq_ceil (by positivity)]

namespace Request

def fraction (r : Request) : ℚ := r.remainingFractionNum / r.remainingFractionDen

theorem fraction_eq {r : Request} {a b : Nat} (hr : 0 < r.remainingFractionDen) (hb : 0 < b)
    (h : r.remainingFractionNum * b = a * r.remainingFractionDen) : r.fraction = a / b := by
  have hr' : (r.remainingFractionDen : ℚ) ≠ 0 := Nat.cast_ne_zero.mpr (Nat.ne_of_gt hr)
  have hb' : (b : ℚ) ≠ 0 := Nat.cast_ne_zero.mpr (Nat.ne_of_gt hb)
  rw [fraction, div_eq_div_iff hr' hb']
  exact_mod_cast h

theorem Sound.fraction_nonneg (r : Request) : 0 ≤ r.fraction := by
  rw [fraction]
  positivity

/-- The projections are the fraction of the current quantum, rounded up. -/
theorem Sound.projections {r : Request} (h : Sound r) :
    (r.remainingWork : Int) = ⌈r.fraction * r.q * WORK⌉ ∧ (r.remainingTicks : Int) = ⌈r.fraction * r.q⌉ := by
  rw [h.work, h.ticks, ceilDiv_eq_ceil h.den_pos, ceilDiv_eq_ceil h.den_pos, fraction]
  push_cast
  constructor
  · congr 1
    ring
  · congr 1
    ring

theorem Sound.of_eq {r r' : Request} (h : Sound r) (hq : r'.q = r.q)
    (hnum : r'.remainingFractionNum = r.remainingFractionNum)
    (hden : r'.remainingFractionDen = r.remainingFractionDen) (hwork : r'.remainingWork = r.remainingWork)
    (hticks : r'.remainingTicks = r.remainingTicks) : Sound r' := by
  obtain ⟨h₁, h₂, h₃, h₄, h₅, h₆, h₇, h₈, h₉⟩ := h
  constructor <;> simp only [hq, hnum, hden, hwork, hticks] <;> assumption

/-- The share of a request of quantum `q` that an amount of work is. -/
def share (work : ℚ) (q : Nat) : ℚ := work / (q * WORK)

theorem share_eq {work q : Nat} (hdvd : work % nice0 = 0) :
    share work q = ((work / nice0 : Nat) : ℚ) / ((q * one : Nat) : ℚ) := by
  have hwork : work = nice0 * (work / nice0) := (Nat.mul_div_cancel' (Nat.dvd_of_mod_eq_zero hdvd)).symm
  have hnice : (nice0 : ℚ) ≠ 0 := by norm_num [nice0]
  generalize work / nice0 = s at hwork ⊢
  rw [hwork, share, WORK]
  push_cast
  rw [show (q : ℚ) * (nice0 * one) = nice0 * (q * one) by ring, mul_div_mul_left _ _ hnice]

theorem setFraction_zero {r r' : Request} (h : Sound r) (hset : (setFraction 0 1).onCopy r = .ok r') :
    Sound r' ∧ r'.q = r.q ∧ r'.fraction = 0 := by
  obtain ⟨hs, hq, hmul, -⟩ := setFraction_eq_ok h.q_lt (by decide) (by decide) hset
  refine ⟨hs, hq, ?_⟩
  rw [fraction_eq hs.den_pos Nat.one_pos hmul]
  simp

theorem settle_eq_ok {r r' : Request} {s d : Nat} {saturating : Bool} (hs : Sound r) (hs' : s < u128Size) (hd : 0 < d)
    (hd' : d < u128Size)
    (h : r.settle s d (r.remainingFractionNum * d / r.remainingFractionDen)
      (r.remainingFractionNum * d % r.remainingFractionDen) saturating = .ok r') :
    Sound r' ∧ r'.q = r.q ∧ r'.fraction = max 0 (r.fraction - s / d) ∧ (saturating = false →
      (s : ℚ) / d ≤ r.fraction) := by
  have hden : (0 : ℚ) < r.remainingFractionDen := Nat.cast_pos.mpr hs.den_pos
  have hdq : (0 : ℚ) < d := Nat.cast_pos.mpr hd
  have hmod := Nat.mod_add_div (r.remainingFractionNum * d) r.remainingFractionDen
  rw [settle] at h
  split at h
  · rename_i hover
    rw [Nat.div_lt_iff_lt_mul hs.den_pos] at hover
    have hlt : r.fraction < s / d := by
      rw [fraction, div_lt_div_iff₀ hden hdq]
      exact_mod_cast hover
    split at h
    · rename_i hsat
      obtain ⟨hs'', hq, hzero⟩ := setFraction_zero hs h
      refine ⟨hs'', hq, ?_, fun hno => ?_⟩
      · rw [hzero, max_eq_left (by linarith)]
      · rw [hsat] at hno
        cases hno
    · cases h
  · rename_i hwithin
    have hle : (s : ℚ) / d ≤ r.fraction := by
      rw [fraction, div_le_div_iff₀ hdq hden]
      have := (Nat.le_div_iff_mul_le hs.den_pos).mp (Nat.le_of_not_lt hwithin)
      exact_mod_cast this
    split at h
    · rename_i hexact
      have heq : r.fraction = s / d := by
        rw [fraction, div_eq_div_iff hden.ne' hdq.ne']
        rw [hexact.2, Nat.zero_add, ← hexact.1, Nat.mul_comm] at hmod
        exact_mod_cast hmod.symm
      obtain ⟨hs'', hq, hzero⟩ := setFraction_zero hs h
      refine ⟨hs'', hq, ?_, fun _ => hle⟩
      rw [hzero, heq, sub_self, max_self]
    · split at h
      · rename_i hnone
        cases h
        refine ⟨hs, rfl, ?_, fun _ => hle⟩
        rw [hnone, Nat.cast_zero, zero_div, sub_zero, max_eq_right (Sound.fraction_nonneg r)]
      · rename_i hsome
        rw [bind_eq_ok] at h
        obtain ⟨⟨n', d'⟩, hdiff, hset⟩ := h
        simp only at hset
        rw [gcdU128_eq] at hdiff
        have hratio := div_gcd_mul (n := s) (d := d)
        have hg := div_gcd_pos (n := s) hd
        obtain ⟨hpos, hlt, hle', hmul⟩ := difference_eq_ok hs.den_pos hs.den_lt
          (Nat.lt_of_le_of_lt hs.num_le hs.den_lt) hg (Nat.lt_of_le_of_lt (Nat.div_le_self _ _) hd')
          (Nat.lt_of_le_of_lt (Nat.div_le_self _ _) hs') hdiff
        obtain ⟨hs'', hq, hmul', -⟩ := setFraction_eq_ok hs.q_lt hpos hlt hset
        refine ⟨hs'', hq, ?_, fun _ => hle⟩
        rw [max_eq_right (by linarith), fraction_eq hs''.den_pos hpos hmul', fraction]
        have hsd : (s : ℚ) / d = (s / Nat.gcd s d : Nat) / (d / Nat.gcd s d : Nat) := by
          have hg' : ((d / Nat.gcd s d : Nat) : ℚ) ≠ 0 := Nat.cast_ne_zero.mpr (Nat.ne_of_gt hg)
          rw [div_eq_div_iff hdq.ne' hg']
          exact_mod_cast hratio.symm
        rw [hsd]
        generalize s / Nat.gcd s d = s₀ at *
        generalize d / Nat.gcd s d = d₀ at *
        have hd₀ : (d₀ : ℚ) ≠ 0 := Nat.cast_ne_zero.mpr (Nat.ne_of_gt hg)
        have hd'q : (d' : ℚ) ≠ 0 := Nat.cast_ne_zero.mpr (Nat.ne_of_gt hpos)
        have hmulq : (n' : ℚ) * (r.remainingFractionDen * d₀) =
            (r.remainingFractionNum * d₀ - s₀ * r.remainingFractionDen) * d' := by
          have := congrArg (Nat.cast : Nat → ℚ) hmul
          rw [Nat.cast_mul, Nat.cast_mul, Nat.cast_mul, Nat.cast_sub hle'] at this
          push_cast at this
          exact this
        rw [div_sub_div _ _ hden.ne' hd₀, div_eq_div_iff hd'q (mul_ne_zero hden.ne' hd₀), hmulq]
        ring

/-- Service takes its share of the fraction, down to zero. -/
theorem nextAfterService_eq_ok {r r' : Request} {work : Nat} {saturating : Bool} (hs : Sound r)
    (hwork : work < u128Size) (h : r.nextAfterService work saturating = .ok r') :
    Sound r' ∧ r'.q = r.q ∧ r'.fraction = max 0 (r.fraction - share work r.q) ∧
      (saturating = false → share work r.q ≤ r.fraction) := by
  rw [nextAfterService, hs.exactValid, ok_bind] at h
  split at h
  · cases h
  · rename_i hdvd
    rw [bind_eq_ok] at h
    obtain ⟨d, hd, h⟩ := h
    rw [u128_eq_ok] at hd
    obtain ⟨rfl, hd⟩ := hd
    have hpos : 0 < r.q * one := Nat.mul_pos hs.q_pos (by decide)
    rw [share_eq (not_not.mp hdvd)]
    generalize r.q * one = d at hd hpos h ⊢
    rw [bind_eq_ok] at h
    obtain ⟨⟨a, b⟩, hrem, h⟩ := h
    rw [checkedMulDivRem_eq (Nat.lt_of_le_of_lt hs.num_le hs.den_lt) hd hs.den_pos hs.den_lt, quotRem_eq_ok] at hrem
    obtain ⟨-, hrem⟩ := hrem
    cases hrem
    exact settle_eq_ok hs (Nat.lt_of_le_of_lt (Nat.div_le_self _ _) hwork) hpos hd h

theorem targetTicks_lt (cls : RequestClass) : cls.targetTicks < u128Size := by
  cases cls <;> decide

theorem requestQuantum_eq_ok {cls : RequestClass} {weight totalWeight q : Nat}
    (h : requestQuantum cls weight totalWeight = .ok q) : 0 < q ∧ q ≤ cls.targetTicks := by
  have htarget : 0 < cls.targetTicks := by cases cls <;> decide
  rw [requestQuantum] at h
  split at h
  · cases h
  · split at h
    · cases h
      exact ⟨htarget, Nat.le_refl _⟩
    · rw [bind_eq_ok] at h
      obtain ⟨k, -, hk⟩ := h
      cases hk
      omega

theorem new_eq_ok {cls : RequestClass} {weight totalWeight : Nat} {v lag : Int} {r : Request}
    (h : new cls weight totalWeight v lag = .ok r) :
    Sound r ∧ r.fraction = 1 ∧ r.cls = cls ∧ r.q ≤ cls.targetTicks ∧ checkedVirtualLength r.q weight =
      .ok r.virtualLength := by
  rw [new, bind_eq_ok] at h
  obtain ⟨q, hq, h⟩ := h
  rw [bind_eq_ok] at h
  obtain ⟨length, hlength, h⟩ := h
  rw [bind_eq_ok] at h
  obtain ⟨start, -, h⟩ := h
  rw [bind_eq_ok] at h
  obtain ⟨deadline, -, h⟩ := h
  obtain ⟨hpos, hle⟩ := requestQuantum_eq_ok hq
  obtain ⟨hs, hq', hmul, hr⟩ := setFraction_eq_ok (r := ⟨cls, q, q, 0, 1, 1, length, start, deadline⟩)
    (Nat.lt_of_le_of_lt hle (targetTicks_lt cls)) (by decide) (by decide) h
  have hfraction : r.fraction = 1 := by
    rw [fraction_eq hs.den_pos Nat.one_pos hmul]
    simp
  simp only at hq'
  refine ⟨hs, hfraction, ?_, ?_, ?_⟩
  · rw [hr]
  · rw [hq']
    exact hle
  · rw [hq', hlength, hr]

theorem setQuantum_eq_ok {r r' : Request} {q : Nat} (hs : Sound r) (hq : q < u128Size)
    (h : (setQuantum q).onCopy r = .ok r') :
    Sound r' ∧ r'.q = q ∧ r'.fraction = r.fraction ∧
      r' = { r with q := q, remainingWork := r'.remainingWork, remainingTicks := r'.remainingTicks } := by
  obtain ⟨u, hu⟩ := Act.onCopy_eq_ok.mp h
  rw [setQuantum] at hu
  split at hu
  · cases hu
  · rw [Act.get_bind] at hu
    cases hproj : projection q r.remainingFractionNum r.remainingFractionDen with
    | err e => rw [hproj] at hu; cases hu
    | panic => rw [hproj] at hu; cases hu
    | ok p =>
        obtain ⟨work, ticks⟩ := p
        rw [hproj] at hu
        obtain ⟨hq', -, hle, hwork, hlt, hticks⟩ := projection_eq_ok hq hs.den_lt hproj
        cases hu
        exact ⟨⟨hq', hq, hs.den_pos, hs.den_lt, hle, hs.coprime, hwork, hlt, hticks⟩, rfl, rfl, rfl⟩

theorem reconfigured_eq_ok {r r' : Request} {cls : RequestClass} {q weight : Nat} {anchor lag : Int} (hs : Sound r)
    (hq : q < u128Size) (h : r.reconfigured cls q weight anchor lag = .ok r') :
    Sound r' ∧ r'.q = q ∧ r'.fraction = r.fraction ∧ r'.cls = cls ∧ checkedVirtualLength q weight =
      .ok r'.virtualLength := by
  rw [reconfigured, hs.exactValid, ok_bind, bind_eq_ok] at h
  obtain ⟨request, hset, h⟩ := h
  rw [bind_eq_ok] at h
  obtain ⟨length, hlength, h⟩ := h
  rw [bind_eq_ok] at h
  obtain ⟨remaining, -, h⟩ := h
  rw [bind_eq_ok] at h
  obtain ⟨start, -, h⟩ := h
  rw [bind_eq_ok] at h
  obtain ⟨deadline, -, h⟩ := h
  cases h
  obtain ⟨hs', hq', hfraction, hr⟩ :=
    setQuantum_eq_ok (r := { r with cls := cls }) (hs.of_eq rfl rfl rfl rfl rfl) hq hset
  refine ⟨hs'.of_eq rfl rfl rfl rfl rfl, hq', hfraction, ?_, hlength⟩
  show request.cls = cls
  rw [hr]

theorem yielded_eq_ok {r r' : Request} {weight totalWeight : Nat} {v lag : Int}
    (h : r.yielded weight totalWeight v lag = .ok r') :
    Sound r' ∧ r'.fraction = 1 ∧ r'.cls = r.cls ∧ r'.q ≤ r.cls.targetTicks ∧
      checkedVirtualLength r'.q weight = .ok r'.virtualLength := by
  rw [yielded, bind_eq_ok] at h
  obtain ⟨next, hnew, h⟩ := h
  rw [bind_eq_ok] at h
  obtain ⟨deadline, -, h⟩ := h
  cases h
  obtain ⟨hs, hfraction, hcls, hq, hlength⟩ := new_eq_ok hnew
  exact ⟨hs.of_eq rfl rfl rfl rfl rfl, hfraction, hcls, hq, hlength⟩

/-- What can happen to a request: the `&mut self` methods, and the values that
the entity's methods assign to it. -/
inductive Op where
  | consume (ticks : BitVec 128)
  | consumeWork (work : BitVec 128)
  | consumeWorkUpTo (work : BitVec 128)
  | setQuantum (q : BitVec 128)
  | reconfigure (cls : RequestClass) (q weight : BitVec 128) (anchor lag : Int)
  | renew (weight totalWeight : BitVec 128) (v lag : Int)
  | yield (weight totalWeight : BitVec 128) (v lag : Int)

def assign (f : Request → Outcome ModelError Request) : Act Request ModelError Unit := do
  let r ← Act.get
  let next ← Act.lift (f r)
  Act.set next

def perform : Op → Act Request ModelError Unit
  | .consume ticks => consume ticks.toNat
  | .consumeWork work => consumeWork work.toNat
  | .consumeWorkUpTo work => consumeWorkUpTo work.toNat
  | .setQuantum q => setQuantum q.toNat
  | .reconfigure cls q weight anchor lag => assign fun r => r.reconfigured cls q.toNat weight.toNat anchor lag
  | .renew weight totalWeight v lag => renew weight.toNat totalWeight.toNat v lag
  | .yield weight totalWeight v lag => assign fun r => r.yielded weight.toNat totalWeight.toNat v lag

/-- The work that a request takes of what it is offered: all of it, or what
is left of the request. -/
def taken (r : Request) (work : Nat) : ℚ := min work (r.fraction * r.q * WORK)

/-- A request with the pieces of work it has taken since it started, each with
the quantum in force. -/
structure History where
  request : Request
  pieces : List (ℚ × Nat)

namespace History

def served (h : History) : ℚ := (h.pieces.map fun piece => share piece.1 piece.2).sum

def record (h : History) (next : Request) : Op → History
  | .consume ticks => ⟨next, (h.request.taken (ticks.toNat * WORK), h.request.q) :: h.pieces⟩
  | .consumeWork work => ⟨next, ((work.toNat : ℚ), h.request.q) :: h.pieces⟩
  | .consumeWorkUpTo work => ⟨next, (h.request.taken work.toNat, h.request.q) :: h.pieces⟩
  | .setQuantum _ | .reconfigure .. => ⟨next, h.pieces⟩
  | .renew .. | .yield .. => ⟨next, []⟩

def step (h : History) (op : Op) : History :=
  match perform op h.request with
  | (.ok _, next) => h.record next op
  | (_, next) => ⟨next, h.pieces⟩

def run (h : History) (ops : List Op) : History := ops.foldl step h

end History

theorem atomic_assign (f : Request → Outcome ModelError Request) : Act.Atomic (assign f) :=
  .bind Act.readOnly_get fun _ => .bind (Act.readOnly_lift _) Act.atomic_set

theorem atomic_perform (op : Op) : Act.Atomic (perform op) := by
  cases op with
  | consume ticks =>
      refine .bind Act.readOnly_get fun _ => Act.atomic_ite (Act.atomic_fail _) ?_
      refine .bind (Act.readOnly_lift _) fun work => ?_
      exact atomic_assign fun r => r.nextAfterService work.toNat true
  | consumeWork work => exact atomic_assign fun r => r.nextAfterService work.toNat false
  | consumeWorkUpTo work => exact atomic_assign fun r => r.nextAfterService work.toNat true
  | setQuantum q =>
      refine Act.atomic_ite (Act.atomic_fail _) ?_
      exact .bind Act.readOnly_get fun _ => .bind (Act.readOnly_lift _) fun _ => Act.atomic_modify _
  | reconfigure cls q weight anchor lag => exact atomic_assign _
  | renew weight totalWeight v lag => exact atomic_assign fun r => new r.cls weight.toNat totalWeight.toNat v lag
  | yield weight totalWeight v lag => exact atomic_assign _

theorem assign_eq_ok {f : Request → Outcome ModelError Request} {r r' : Request} {u : Unit}
    (h : assign f r = (.ok u, r')) : f r = .ok r' := by
  obtain ⟨_, _, hget, h⟩ := Act.bind_eq_ok.mp h
  cases hget
  obtain ⟨next, _, hlift, hset⟩ := Act.bind_eq_ok.mp h
  rw [Act.lift_apply, Prod.mk.injEq] at hlift
  cases hset
  exact hlift.1

theorem checkedWork_eq_ok {ticks : Nat} {work : Int} (h : checkedWork ticks = .ok work) :
    work.toNat = ticks * WORK ∧ ticks * WORK < u128Size := by
  rw [checkedWork, bind_eq_ok] at h
  obtain ⟨w, hw, h⟩ := h
  rw [u128_eq_ok] at hw
  rw [checkedI128_eq, i128_eq_ok] at h
  obtain ⟨rfl, hlt⟩ := hw
  rw [← h.1]
  exact ⟨Int.toNat_natCast _, hlt⟩

theorem share_taken {r : Request} (hs : Sound r) (work : Nat) :
    share (r.taken work) r.q = min (share work r.q) r.fraction := by
  have hq : (0 : ℚ) < r.q * WORK := mul_pos (Nat.cast_pos.mpr hs.q_pos) (Nat.cast_pos.mpr WORK_pos)
  rw [taken, share, share, ← min_div_div_right hq.le, mul_assoc, mul_div_assoc, div_self hq.ne', mul_one]

theorem fraction_sub_share_taken {r : Request} (hs : Sound r) (work : Nat) :
    max 0 (r.fraction - share work r.q) = r.fraction - share (r.taken work) r.q := by
  rw [share_taken hs]
  rcases le_total (share (work : ℚ) r.q) r.fraction with hle | hle
  · rw [min_eq_left hle, max_eq_right (by linarith)]
  · rw [min_eq_right hle, max_eq_left (by linarith), sub_self]

/-- The invariant of a history: the fraction is what the pieces leave of one. -/
structure History.Exact (h : History) : Prop where
  sound : Sound h.request
  fraction : h.request.fraction = 1 - h.served

theorem History.Exact.cons {h : History} {next : Request} {piece : ℚ} (hh : h.Exact) (hs : Sound next)
    (hnext : next.fraction = h.request.fraction - share piece h.request.q) :
    History.Exact ⟨next, (piece, h.request.q) :: h.pieces⟩ := by
  refine ⟨hs, ?_⟩
  rw [History.served, List.map_cons, List.sum_cons, hnext, hh.fraction, History.served]
  ring

theorem exact_record {h : History} (hh : h.Exact) {op : Op} {u : Unit} {next : Request}
    (hop : perform op h.request = (.ok u, next)) : (h.record next op).Exact := by
  cases op with
  | consume ticks =>
      obtain ⟨_, _, hget, hop⟩ := Act.bind_eq_ok.mp hop
      cases hget
      split at hop
      · cases hop
      · obtain ⟨work, _, hlift, hop⟩ := Act.bind_eq_ok.mp hop
        rw [Act.lift_apply, Prod.mk.injEq] at hlift
        obtain ⟨hwork, rfl⟩ := hlift
        obtain ⟨hval, hlt⟩ := checkedWork_eq_ok hwork
        rw [hval] at hop
        obtain ⟨hs, -, hfraction, -⟩ := nextAfterService_eq_ok hh.sound hlt (assign_eq_ok hop)
        rw [fraction_sub_share_taken hh.sound] at hfraction
        exact hh.cons hs hfraction
  | consumeWork work =>
      obtain ⟨hs, -, hfraction, hle⟩ := nextAfterService_eq_ok hh.sound work.isLt (assign_eq_ok hop)
      rw [max_eq_right (sub_nonneg.mpr (hle rfl))] at hfraction
      exact hh.cons hs hfraction
  | consumeWorkUpTo work =>
      obtain ⟨hs, -, hfraction, -⟩ := nextAfterService_eq_ok hh.sound work.isLt (assign_eq_ok hop)
      rw [fraction_sub_share_taken hh.sound] at hfraction
      exact hh.cons hs hfraction
  | setQuantum q =>
      obtain ⟨hs, -, hfraction, -⟩ := setQuantum_eq_ok hh.sound q.isLt (Act.onCopy_eq_ok.mpr ⟨u, hop⟩)
      exact ⟨hs, hfraction.trans hh.fraction⟩
  | reconfigure cls q weight anchor lag =>
      obtain ⟨hs, -, hfraction, -, -⟩ := reconfigured_eq_ok hh.sound q.isLt (assign_eq_ok hop)
      exact ⟨hs, hfraction.trans hh.fraction⟩
  | renew weight totalWeight v lag =>
      obtain ⟨hs, hfraction, -⟩ := new_eq_ok (assign_eq_ok (f := fun r => new r.cls _ _ v lag) hop)
      exact ⟨hs, by simp [History.record, History.served, hfraction]⟩
  | yield weight totalWeight v lag =>
      obtain ⟨hs, hfraction, -⟩ := yielded_eq_ok (assign_eq_ok hop)
      exact ⟨hs, by simp [History.record, History.served, hfraction]⟩

theorem exact_step {h : History} (hh : h.Exact) (op : Op) : (h.step op).Exact := by
  rw [History.step]
  have hatomic := atomic_perform op h.request
  rcases hres : perform op h.request with ⟨o, next⟩
  rw [hres] at hatomic
  cases o with
  | ok u => exact exact_record hh hres
  | err e =>
      obtain rfl : next = h.request := hatomic rfl
      exact hh
  | panic =>
      obtain rfl : next = h.request := hatomic rfl
      exact hh

theorem exact_run {h : History} (hh : h.Exact) (ops : List Op) : (h.run ops).Exact := by
  induction ops generalizing h with
  | nil => exact hh
  | cons op ops ih => exact ih (exact_step hh op)

/-- From a fresh request on, after any operations: the fraction is exactly one
less the shares of the work it has taken since it last started, each of the
quantum in force then; both projections are exact ceilings; and an operation
that fails leaves the request as it is. -/
theorem request_exact (cls : RequestClass) (weight totalWeight : BitVec 128) (v lag : Int) (r : Request)
    (hnew : new cls weight.toNat totalWeight.toNat v lag = .ok r) (ops : List Op) :
    (History.run ⟨r, []⟩ ops).request.fraction = 1 - (History.run ⟨r, []⟩ ops).served ∧
    ((History.run ⟨r, []⟩ ops).request.remainingWork : Int) =
      ⌈(History.run ⟨r, []⟩ ops).request.fraction * (History.run ⟨r, []⟩ ops).request.q * WORK⌉ ∧
    ((History.run ⟨r, []⟩ ops).request.remainingTicks : Int) =
      ⌈(History.run ⟨r, []⟩ ops).request.fraction * (History.run ⟨r, []⟩ ops).request.q⌉ ∧
    ∀ op e, (perform op (History.run ⟨r, []⟩ ops).request).1 = .err e →
      (perform op (History.run ⟨r, []⟩ ops).request).2 = (History.run ⟨r, []⟩ ops).request := by
  obtain ⟨hs, hfraction, -⟩ := new_eq_ok hnew
  have hexact : History.Exact ⟨r, []⟩ := ⟨hs, by simp [History.served, hfraction]⟩
  have hrun := exact_run hexact ops
  refine ⟨hrun.fraction, hrun.sound.projections.1, hrun.sound.projections.2, fun op e he => ?_⟩
  apply atomic_perform op
  rw [he]
  rfl

def aloneRequest : Request := ⟨.normal, 8, 8, 8 * WORK, 1, 1, 8 * one, 0, 8 * one⟩

def threeTicksThenFour : List Op := [.consumeWork (BitVec.ofNat 128 (3 * WORK)), .setQuantum 4]

theorem new_aloneRequest : new .normal 1024 1024 0 0 = .ok aloneRequest := by decide +kernel

theorem request_exact_aloneRequest :
    new .normal 1024 1024 0 0 = .ok aloneRequest ∧
      (History.run ⟨aloneRequest, []⟩ threeTicksThenFour).request.fraction =
        1 - (History.run ⟨aloneRequest, []⟩ threeTicksThenFour).served ∧
      (History.run ⟨aloneRequest, []⟩ threeTicksThenFour).request.q = 4 :=
  ⟨new_aloneRequest, (request_exact .normal 1024 1024 0 0 aloneRequest new_aloneRequest threeTicksThenFour).1,
    by decide +kernel⟩

end Request

end TheKernel.Eevdf
