import Mathlib.Data.Rat.Floor
import Mathlib.Tactic.NormNum
import TheKernel.Lib.Limbs
import TheKernel.Eevdf.Arith

namespace TheKernel.Eevdf

open Outcome

structure Wide where
  limbs : List (BitVec 64)
  length : limbs.length = 4
  deriving DecidableEq

namespace Wide

def val (x : Wide) : Nat := Limbs.val x.limbs

def zero : Wide := ⟨List.replicate 4 0#64, rfl⟩

def ofLimbs (limbs : List (BitVec 64)) : Option Wide := if h : limbs.length = 4 then some ⟨limbs, h⟩ else none

def cmp (x y : Wide) : Ordering := Limbs.compareWords x.limbs y.limbs

def ge (x y : Wide) : Bool := x.cmp y ≠ .lt

def bit (x : Wide) (position : Nat) : Bool := ((x.limbs[position / 64]?).getD 0#64).getLsbD (position % 64)

/-- `shl1`, with the bit that the loops then put into the place it clears. -/
def shl1 (x : Wide) (low : Bool) : Bool × Wide :=
  ((Limbs.shl1 low x.limbs).1, ⟨(Limbs.shl1 low x.limbs).2, by rw [Limbs.length_shl1, x.length]⟩)

def wrappingSub (x y : Wide) : Wide :=
  ⟨(Limbs.sub false x.limbs y.limbs).2, by rw [Limbs.length_sub (x.length.trans y.length.symm), x.length]⟩

def checkedAddOne (x : Wide) : Option Wide := (Limbs.addOne x.limbs).bind ofLimbs

def words (x : Nat) : List (BitVec 64) := [BitVec.ofNat 64 x, BitVec.ofNat 64 (x / 2 ^ 64)]

def mulU128 (left right : Nat) : Option Wide := (Limbs.addMul (words right) (words left) zero.limbs).bind ofLimbs

def mul (x : Wide) (right : Nat) : Option Wide := (Limbs.addMul (words right) x.limbs zero.limbs).bind ofLimbs

def divStep (x : Wide) (divisor position remainder : Nat) : Outcome ModelError (Nat × Nat) :=
  checkedDiv129 (decide (2 ^ 127 ≤ remainder)) (remainder * 2 % u128Size + (x.bit position).toNat) divisor

def divExactLoop (x : Wide) (divisor : Nat) : Nat → Wide → Nat → Outcome ModelError (Wide × Nat)
  | 0, quotient, remainder => .ok (quotient, remainder)
  | position + 1, quotient, remainder => do
      let next ← x.divStep divisor position remainder
      if 1 < next.1 then .err .invalidState
      else x.divExactLoop divisor position (quotient.shl1 (decide (next.1 ≠ 0))).2 next.2

def divExactU128 (x : Wide) (divisor : Nat) : Outcome ModelError Wide :=
  if divisor = 0 then .err .invalidWeight else do
    let result ← x.divExactLoop divisor 256 zero 0
    if result.2 = 0 then .ok result.1 else .err .invalidState

def remLoop (x : Wide) (divisor : Nat) : Nat → Nat → Outcome ModelError Nat
  | 0, remainder => .ok remainder
  | position + 1, remainder => do
      let next ← x.divStep divisor position remainder
      x.remLoop divisor position next.2

def remU128 (x : Wide) (divisor : Nat) : Outcome ModelError Nat :=
  if divisor = 0 then .err .invalidWeight else x.remLoop divisor 256 0

def lowU128 (x : Wide) : Outcome ModelError Nat :=
  match x.limbs with
  | [a, b, c, d] => if c ≠ 0#64 ∨ d ≠ 0#64 then .err .arithmeticExhausted else .ok (b.toNat * 2 ^ 64 + a.toNat)
  | _ => .err .arithmeticExhausted

def ratioLoop (numerator denominator : Wide) : Nat → Wide → Wide → Wide × Wide
  | 0, quotient, remainder => (quotient, remainder)
  | position + 1, quotient, remainder =>
      let shifted := remainder.shl1 (numerator.bit position)
      let bit := shifted.1 || shifted.2.ge denominator
      ratioLoop numerator denominator position (quotient.shl1 bit).2
        (if bit then shifted.2.wrappingSub denominator else shifted.2)

variable {x y : Wide}

@[simp] theorem val_zero : zero.val = 0 := Limbs.val_replicate_zero 4

theorem val_lt (x : Wide) : x.val < 2 ^ 256 := by
  have := Limbs.val_lt x.limbs
  rwa [x.length] at this

theorem eq_zero_iff : x = zero ↔ x.val = 0 := by
  constructor
  · rintro rfl
    exact val_zero
  · intro h
    have hlimbs := Limbs.eq_replicate_of_val_eq_zero h
    rw [x.length] at hlimbs
    cases x
    simp only at hlimbs
    subst hlimbs
    rfl

theorem ge_eq (x y : Wide) : x.ge y = decide (y.val ≤ x.val) := by
  rw [ge, cmp, Limbs.compareWords_eq (x.length.trans y.length.symm)]
  apply decide_eq_decide.mpr
  rw [ne_eq, Nat.compare_eq_lt]
  exact Nat.not_lt

theorem bit_eq (x : Wide) (position : Nat) : x.bit position = x.val.testBit position := by
  rw [bit, val, Limbs.testBit_val (by decide)]

theorem val_shl1 (x : Wide) (low : Bool) : (x.shl1 low).2.val + 2 ^ 256 * (x.shl1 low).1.toNat = 2 * x.val +
    low.toNat := by
  have := Limbs.val_shl1 (by decide) low x.limbs
  rwa [x.length] at this

/-- As long as nothing falls out, shifting in a bit is appending it. -/
theorem val_shl1_of_lt {low : Bool} (h : 2 * x.val + low.toNat < 2 ^ 256) :
    (x.shl1 low).1 = false ∧ (x.shl1 low).2.val = 2 * x.val + low.toNat := by
  have hval := val_shl1 x low
  cases hcarry : (x.shl1 low).1 with
  | false => simpa [hcarry] using hval
  | true =>
      rw [hcarry, Bool.toNat_true] at hval
      omega

theorem val_wrappingSub (x y : Wide) :
    ∃ borrow : Bool, (x.wrappingSub y).val + y.val = x.val + 2 ^ 256 * borrow.toNat := by
  have := Limbs.val_sub (by decide) false (x.length.trans y.length.symm)
  rw [x.length, Bool.toNat_false, Nat.add_zero] at this
  exact ⟨_, this⟩

theorem ofLimbs_bind_eq_some {limbs : Option (List (BitVec 64))} :
    limbs.bind ofLimbs = some x ↔ limbs = some x.limbs := by
  cases limbs with
  | none => simp
  | some limbs =>
      rw [Option.bind_some, ofLimbs]
      by_cases hlen : limbs.length = 4
      · rw [dif_pos hlen]
        cases x
        simp
      · rw [dif_neg hlen]
        simp only [reduceCtorEq, Option.some.injEq, false_iff]
        rintro rfl
        exact hlen x.length

theorem val_words {n : Nat} (h : n < u128Size) : Limbs.val (words n) = n := by
  rw [u128Size] at h
  simp only [words, Limbs.val_cons, Limbs.val_nil, BitVec.toNat_ofNat]
  omega

theorem ofLimbs_of_fits {limbs : Option (List (BitVec 64))} {n : Nat} (h : Limbs.Fits 4 n limbs) :
    (n < 2 ^ 256 → ∃ x, limbs.bind ofLimbs = some x ∧ x.val = n) ∧ (2 ^ 256 ≤ n → limbs.bind ofLimbs = none) := by
  cases h with
  | some hlen hval =>
      refine ⟨fun _ => ⟨⟨_, hlen⟩, by rw [Option.bind_some, ofLimbs, dif_pos hlen], hval⟩, fun hlarge => ?_⟩
      have hlt := val_lt ⟨_, hlen⟩
      rw [val, hval] at hlt
      omega
  | none hlarge => exact ⟨fun hlt => absurd hlt (Nat.not_lt.mpr hlarge), fun _ => rfl⟩

theorem fits_mulU128 {left right : Nat} (hl : left < u128Size) (hr : right < u128Size) :
    Limbs.Fits 4 (left * right) (Limbs.addMul (words right) (words left) zero.limbs) := by
  have hfits := Limbs.fits_addMul (words right) (words left) zero.limbs
  rwa [val_words hl, val_words hr, show Limbs.val zero.limbs = 0 from val_zero, Nat.zero_add] at hfits

theorem mulU128_spec {left right : Nat} (hl : left < u128Size) (hr : right < u128Size) :
    ∃ x, mulU128 left right = some x ∧ x.val = left * right := by
  apply (ofLimbs_of_fits (fits_mulU128 hl hr)).1
  calc left * right < u128Size * u128Size := Nat.mul_lt_mul'' hl hr
    _ = 2 ^ 256 := by decide

theorem mulU128_eq_some {left right : Nat} (hl : left < u128Size) (hr : right < u128Size)
    (h : mulU128 left right = some x) : x.val = left * right := by
  obtain ⟨y, hy, hval⟩ := mulU128_spec hl hr
  rw [h, Option.some.injEq] at hy
  rw [hy, hval]

theorem mul_spec (x : Wide) {right : Nat} (hr : right < u128Size) :
    (x.val * right < 2 ^ 256 → ∃ y, x.mul right = some y ∧ y.val = x.val * right) ∧
      (2 ^ 256 ≤ x.val * right → x.mul right = none) := by
  have hfits := Limbs.fits_addMul (words right) x.limbs zero.limbs
  rw [val_words hr, show Limbs.val zero.limbs = 0 from val_zero, Nat.zero_add] at hfits
  exact ofLimbs_of_fits hfits

theorem checkedAddOne_eq_some (h : x.checkedAddOne = some y) : y.val = x.val + 1 :=
  (Limbs.addOne_eq_some (by decide) (ofLimbs_bind_eq_some.mp h)).2

theorem checkedAddOne_eq_none (h : x.checkedAddOne = none) : x.val + 1 = 2 ^ 256 := by
  rw [checkedAddOne, Option.bind_eq_none_iff] at h
  cases hadd : Limbs.addOne x.limbs with
  | none =>
      have hval := Limbs.addOne_eq_none hadd
      rwa [x.length] at hval
  | some limbs =>
      have hlen := (Limbs.addOne_eq_some (by decide) hadd).1.trans x.length
      simpa [ofLimbs, hlen] using h limbs hadd

theorem lowU128_eq (x : Wide) : x.lowU128 = u128 x.val := by
  obtain ⟨limbs, hlen⟩ := x
  match limbs, hlen with
  | [a, b, c, d], _ =>
      have ha := a.isLt
      have hb := b.isLt
      simp only [lowU128, val, Limbs.val_cons, Limbs.val_nil]
      split
      · rename_i hhigh
        rw [u128_of_ge]
        rw [u128Size]
        rcases hhigh with hc | hd
        · have : c.toNat ≠ 0 := fun hzero => hc (BitVec.eq_of_toNat_eq hzero)
          omega
        · have : d.toNat ≠ 0 := fun hzero => hd (BitVec.eq_of_toNat_eq hzero)
          omega
      · rename_i hhigh
        rw [not_or, not_not, not_not] at hhigh
        rw [hhigh.1, hhigh.2, BitVec.toNat_zero, u128_of_lt]
        · congr 1
          omega
        · rw [u128Size]
          omega

/-- A bit and a number below the divisor make a dividend below twice the divisor. -/
theorem divStep_eq {divisor position remainder : Nat} (hd : divisor < u128Size) (hr : remainder < divisor) :
    x.divStep divisor position remainder =
      .ok ((2 * remainder + (x.val.testBit position).toNat) / divisor,
        (2 * remainder + (x.val.testBit position).toNat) % divisor) := by
  have hbit : (x.val.testBit position).toNat < 2 := Bool.toNat_lt _
  rw [divStep, bit_eq, checkedDiv129_eq (by omega)]
  · have hsum : (decide (2 ^ 127 ≤ remainder)).toNat * u128Size +
        (remainder * 2 % u128Size + (x.val.testBit position).toNat) = 2 * remainder +
          (x.val.testBit position).toNat := by
      rw [u128Size] at *
      by_cases hge : 2 ^ 127 ≤ remainder
      · rw [decide_eq_true hge, Bool.toNat_true]
        omega
      · rw [decide_eq_false hge, Bool.toNat_false]
        omega
    rw [hsum, quotRem, if_pos]
    have : (2 * remainder + (x.val.testBit position).toNat) / divisor < 2 := Nat.div_lt_of_lt_mul (by omega)
    rw [u128Size]
    omega
  · rw [u128Size] at *
    omega

theorem remLoop_eq {divisor : Nat} (hd : 0 < divisor) (hd' : divisor < u128Size) (position : Nat) :
    x.remLoop divisor position (x.val / 2 ^ position % divisor) = .ok (x.val % divisor) := by
  induction position with
  | zero => simp [remLoop]
  | succ p ih =>
      rw [remLoop, divStep_eq hd' (Nat.mod_lt _ hd), ok_bind, ← LongDivision.mul_add_mod, ← LongDivision.div_two_pow]
      exact ih

theorem remU128_eq {divisor : Nat} (hd : 0 < divisor) (hd' : divisor < u128Size) :
    x.remU128 divisor = .ok (x.val % divisor) := by
  have hloop := remLoop_eq (x := x) hd hd' 256
  rw [Nat.div_eq_of_lt x.val_lt, Nat.zero_mod] at hloop
  rw [remU128, if_neg (Nat.ne_of_gt hd), hloop]

theorem divExactLoop_eq {divisor : Nat} (hd : 0 < divisor) (hd' : divisor < u128Size) (position : Nat) {quotient : Wide}
    (hq : quotient.val = x.val / 2 ^ position / divisor) :
    ∃ result : Wide, x.divExactLoop divisor position quotient (x.val / 2 ^ position % divisor) =
      .ok (result, x.val % divisor) ∧ result.val = x.val / divisor := by
  induction position generalizing quotient with
  | zero => exact ⟨quotient, by simp [divExactLoop], by simpa using hq⟩
  | succ p ih =>
      have hbits := LongDivision.div_two_pow x.val p
      have hdiv := LongDivision.mul_add_div hd 2 (x.val / 2 ^ (p + 1)) (x.val.testBit p).toNat
      rw [← hbits, ← hq] at hdiv
      have hlt := Nat.mod_lt (x.val / 2 ^ (p + 1)) hd
      have hbit : (x.val.testBit p).toNat < 2 := Bool.toNat_lt _
      have hsmall : (2 * (x.val / 2 ^ (p + 1) % divisor) + (x.val.testBit p).toNat) / divisor < 2 :=
        Nat.div_lt_of_lt_mul (by omega)
      have hfit : x.val / 2 ^ p / divisor < 2 ^ 256 :=
        Nat.lt_of_le_of_lt (Nat.le_trans (Nat.div_le_self _ _) (Nat.div_le_self _ _)) x.val_lt
      rw [divExactLoop, divStep_eq hd' hlt, ok_bind, ← LongDivision.mul_add_mod, ← hbits]
      generalize (2 * (x.val / 2 ^ (p + 1) % divisor) + (x.val.testBit p).toNat) / divisor = qbit at hdiv hsmall ⊢
      have hqbit : (decide (qbit ≠ 0)).toNat = qbit := by
        by_cases hzero : qbit = 0
        · simp [hzero]
        · rw [decide_eq_true hzero, Bool.toNat_true]
          omega
      simp only [if_neg (Nat.not_lt.mpr (Nat.le_of_lt_succ hsmall))]
      apply ih
      rw [(val_shl1_of_lt _).2, hqbit, hdiv]
      rw [hqbit, ← hdiv]
      exact hfit

theorem divExactU128_eq_ok {divisor : Nat} (hd : 0 < divisor) (hd' : divisor < u128Size) (hdvd : divisor ∣ x.val) :
    ∃ result : Wide, x.divExactU128 divisor = .ok result ∧ result.val = x.val / divisor := by
  have hzero : x.val / 2 ^ 256 = 0 := Nat.div_eq_of_lt x.val_lt
  obtain ⟨result, hloop, hval⟩ := divExactLoop_eq (x := x) hd hd' 256 (show zero.val = _ by rw [hzero]; simp)
  rw [hzero, Nat.zero_mod] at hloop
  refine ⟨result, ?_, hval⟩
  rw [divExactU128, if_neg (Nat.ne_of_gt hd), hloop, ok_bind, if_pos]
  exact Nat.mod_eq_zero_of_dvd hdvd

theorem ratioLoop_eq (position : Nat) (quotient remainder : Wide) (hy : 0 < y.val)
    (hq : quotient.val = x.val / 2 ^ position / y.val) (hr : remainder.val = x.val / 2 ^ position % y.val) :
    (ratioLoop x y position quotient remainder).1.val = x.val / y.val ∧
      (ratioLoop x y position quotient remainder).2.val = x.val % y.val := by
  induction position generalizing quotient remainder with
  | zero => simpa [ratioLoop] using And.intro hq hr
  | succ p ih =>
      have hbits := LongDivision.div_two_pow x.val p
      have hdiv := LongDivision.mul_add_div hy 2 (x.val / 2 ^ (p + 1)) (x.val.testBit p).toNat
      have hmod := LongDivision.mul_add_mod (d := y.val) 2 (x.val / 2 ^ (p + 1)) (x.val.testBit p).toNat
      rw [← hbits, ← hr] at hdiv hmod
      rw [← hq] at hdiv
      have hlt : remainder.val < y.val := hr ▸ Nat.mod_lt _ hy
      have hbit : (x.val.testBit p).toNat < 2 := Bool.toNat_lt _
      have hfit : x.val / 2 ^ p / y.val < 2 ^ 256 :=
        Nat.lt_of_le_of_lt (Nat.le_trans (Nat.div_le_self _ _) (Nat.div_le_self _ _)) x.val_lt
      have hshift := val_shl1 remainder (x.val.testBit p)
      have hy' := y.val_lt
      rw [ratioLoop, bit_eq]
      generalize remainder.shl1 (x.val.testBit p) = shifted at hshift ⊢
      have hshifted := shifted.2.val_lt
      have htop : (shifted.1 || shifted.2.ge y) = decide (y.val ≤ 2 * remainder.val + (x.val.testBit p).toNat) := by
        rw [ge_eq]
        cases hcarry : shifted.1 with
        | false =>
            rw [hcarry, Bool.toNat_false] at hshift
            rw [Bool.false_or, ← hshift]
            simp
        | true =>
            rw [hcarry, Bool.toNat_true] at hshift
            rw [Bool.true_or, decide_eq_true (by omega)]
      simp only [htop]
      obtain ⟨borrow, hsub⟩ := val_wrappingSub shifted.2 y
      have hborrow : borrow.toNat < 2 := borrow.toNat_lt
      have hcarry : shifted.1.toNat < 2 := shifted.1.toNat_lt
      have hres := (shifted.2.wrappingSub y).val_lt
      have hs : 2 * remainder.val + (x.val.testBit p).toNat < 2 * y.val := by omega
      generalize 2 * remainder.val + (x.val.testBit p).toNat = s at hdiv hmod hshift hs ⊢
      by_cases hge : y.val ≤ s
      · have hone : s / y.val = 1 := by
          rw [Nat.div_eq_iff hy]
          omega
        have hrem : s % y.val = s - y.val := by
          rw [Nat.mod_eq_sub_mod hge, Nat.mod_eq_of_lt]
          omega
        rw [hone] at hdiv
        rw [hrem] at hmod
        simp only [decide_eq_true hge, if_true]
        apply ih
        · rw [(val_shl1_of_lt _).2, hdiv, Bool.toNat_true]
          rw [Bool.toNat_true, ← hdiv]
          exact hfit
        · rw [hmod]
          omega
      · have hlow : s < y.val := Nat.lt_of_not_le hge
        rw [Nat.div_eq_of_lt hlow, Nat.add_zero] at hdiv
        rw [Nat.mod_eq_of_lt hlow] at hmod
        simp only [decide_eq_false hge, Bool.false_eq_true, if_false]
        apply ih
        · rw [(val_shl1_of_lt _).2, hdiv, Bool.toNat_false, Nat.add_zero]
          rw [Bool.toNat_false, Nat.add_zero, ← hdiv]
          exact hfit
        · rw [hmod]
          omega

end Wide

/-- One numerator against both denominators: common factors are divided out. -/
def cancel (n d₀ d₁ : Nat) : Nat × Nat × Nat :=
  let g₀ := gcdU128 n d₀
  let g₁ := gcdU128 (n / g₀) d₁
  (n / g₀ / g₁, d₀ / g₀, d₁ / g₁)

/-- The part of `checked_ratio_ceil` for products beyond `u128`. -/
def wideRatioCeil (n₀ n₁ n₂ d₀ d₁ : Nat) : Outcome ModelError Nat :=
  match (Wide.mulU128 n₀ n₁).bind (·.mul n₂), Wide.mulU128 d₀ d₁ with
  | some numerator, some denominator =>
      let result := Wide.ratioLoop numerator denominator 256 .zero .zero
      if result.2 = Wide.zero then result.1.lowU128
      else match result.1.checkedAddOne with
        | some quotient => quotient.lowU128
        | none => .err .arithmeticExhausted
  | _, _ => .err .arithmeticExhausted

def reducedRatioCeil (n₀ n₁ n₂ d₀ d₁ : Nat) : Outcome ModelError Nat :=
  if n₀ < u128Size ∧ n₀ * n₁ < u128Size ∧ n₀ * n₁ * n₂ < u128Size ∧ d₀ < u128Size ∧ d₀ * d₁ < u128Size then
    checkedCeilDiv (n₀ * n₁ * n₂) (d₀ * d₁)
  else wideRatioCeil n₀ n₁ n₂ d₀ d₁

def checkedRatioCeil (n₀ n₁ n₂ d₀ d₁ : Nat) : Outcome ModelError Nat :=
  let (n₀, d₀, d₁) := cancel n₀ d₀ d₁
  let (n₁, d₀, d₁) := cancel n₁ d₀ d₁
  let (n₂, d₀, d₁) := cancel n₂ d₀ d₁
  reducedRatioCeil n₀ n₁ n₂ d₀ d₁

theorem div_gcd_mul {n d : Nat} : n / Nat.gcd n d * d = n * (d / Nat.gcd n d) := by
  obtain ⟨n', hn⟩ := Nat.gcd_dvd_left n d
  obtain ⟨d', hd⟩ := Nat.gcd_dvd_right n d
  rcases Nat.eq_zero_or_pos (Nat.gcd n d) with hzero | hpos
  · rw [Nat.gcd_eq_zero_iff] at hzero
    simp [hzero.1, hzero.2]
  · rw [Nat.div_eq_of_eq_mul_right hpos hn, Nat.div_eq_of_eq_mul_right hpos hd]
    calc n' * d = n' * (Nat.gcd n d * d') := by rw [← hd]
      _ = Nat.gcd n d * n' * d' := by ring
      _ = n * d' := by rw [← hn]

theorem div_gcd_pos {n d : Nat} (hd : 0 < d) : 0 < d / Nat.gcd n d :=
  Nat.div_pos (Nat.gcd_le_right n hd) (Nat.gcd_pos_of_pos_right n hd)

theorem coprime_div_gcd {n d : Nat} (hd : 0 < d) : Nat.Coprime (n / Nat.gcd n d) (d / Nat.gcd n d) :=
  Nat.coprime_div_gcd_div_gcd (Nat.gcd_pos_of_pos_right n hd)

/-- What `cancel` leaves: the same ratio, the numerator coprime to both denominators. -/
structure Cancelled (n d₀ d₁ : Nat) (c : Nat × Nat × Nat) : Prop where
  le : c.1 ≤ n
  pos₀ : 0 < c.2.1
  pos₁ : 0 < c.2.2
  dvd₀ : c.2.1 ∣ d₀
  dvd₁ : c.2.2 ∣ d₁
  coprime₀ : Nat.Coprime c.1 c.2.1
  coprime₁ : Nat.Coprime c.1 c.2.2
  ratio : c.1 * (d₀ * d₁) = n * (c.2.1 * c.2.2)

theorem cancelled_cancel {n d₀ d₁ : Nat} (h₀ : 0 < d₀) (h₁ : 0 < d₁) : Cancelled n d₀ d₁ (cancel n d₀ d₁) := by
  simp only [cancel, gcdU128_eq]
  have hfirst := div_gcd_mul (n := n) (d := d₀)
  have hsecond := div_gcd_mul (n := n / Nat.gcd n d₀) (d := d₁)
  have hcoprime := coprime_div_gcd (n := n) h₀
  have hle : n / Nat.gcd n d₀ ≤ n := Nat.div_le_self _ _
  generalize n / Nat.gcd n d₀ = m at hfirst hsecond hcoprime hle ⊢
  constructor
  case le => exact Nat.le_trans (Nat.div_le_self _ _) hle
  case pos₀ => exact div_gcd_pos h₀
  case pos₁ => exact div_gcd_pos h₁
  case dvd₀ => exact Nat.div_dvd_of_dvd (Nat.gcd_dvd_right n d₀)
  case dvd₁ => exact Nat.div_dvd_of_dvd (Nat.gcd_dvd_right m d₁)
  case coprime₀ => exact Nat.Coprime.coprime_dvd_left (Nat.div_dvd_of_dvd (Nat.gcd_dvd_left m d₁)) hcoprime
  case coprime₁ => exact coprime_div_gcd h₁
  case ratio =>
      calc m / Nat.gcd m d₁ * (d₀ * d₁) = m / Nat.gcd m d₁ * d₁ * d₀ := by ring
        _ = m * d₀ * (d₁ / Nat.gcd m d₁) := by
            rw [hsecond]
            ring
        _ = n * (d₀ / Nat.gcd n d₀ * (d₁ / Nat.gcd m d₁)) := by
            rw [hfirst]
            ring

theorem div_gcd_of_coprime {n d m e : Nat} (hd : 0 < d) (he : 0 < e) (hcoprime : Nat.Coprime m e) (h : n * e = m * d) :
    n / Nat.gcd n d = m := by
  have hdvd : e ∣ d := hcoprime.symm.dvd_of_dvd_mul_left ⟨n, by rw [← h, Nat.mul_comm]⟩
  obtain ⟨g, rfl⟩ := hdvd
  have hg : 0 < g := Nat.pos_of_mul_pos_left hd
  have hn : n = m * g := by
    apply Nat.eq_of_mul_eq_mul_right he
    rw [h]
    ring
  rw [hn, Nat.gcd_mul_right, hcoprime.gcd_eq_one, Nat.one_mul, Nat.mul_div_cancel _ hg]

theorem wideRatioCeil_eq {n₀ n₁ n₂ d₀ d₁ : Nat} (hn₀ : n₀ < u128Size) (hn₁ : n₁ < u128Size) (hn₂ : n₂ < u128Size)
    (hd₀ : d₀ < u128Size) (hd₁ : d₁ < u128Size) (hpos : 0 < d₀ * d₁) :
    wideRatioCeil n₀ n₁ n₂ d₀ d₁ =
      if n₀ * n₁ * n₂ < 2 ^ 256 then u128 (ceilDiv (n₀ * n₁ * n₂) (d₀ * d₁)) else .err .arithmeticExhausted := by
  obtain ⟨product, hproduct, hpval⟩ := Wide.mulU128_spec hn₀ hn₁
  obtain ⟨denominator, hden, hdval⟩ := Wide.mulU128_spec hd₀ hd₁
  obtain ⟨hfits, hlarge⟩ := product.mul_spec hn₂
  rw [hpval] at hfits hlarge
  rw [wideRatioCeil, hproduct, Option.bind_some, hden]
  by_cases hlt : n₀ * n₁ * n₂ < 2 ^ 256
  · obtain ⟨numerator, hnum, hnval⟩ := hfits hlt
    have hzero : numerator.val / 2 ^ 256 = 0 := Nat.div_eq_of_lt numerator.val_lt
    rw [← hdval] at hpos
    obtain ⟨hquot, hrem⟩ := Wide.ratioLoop_eq (x := numerator) (y := denominator) 256 .zero .zero hpos
      (by rw [hzero]; simp) (by rw [hzero]; simp)
    simp only [hnum, if_pos hlt]
    rw [← hnval, ← hdval, ceilDiv, ← hrem, ← hquot]
    generalize Wide.ratioLoop numerator denominator 256 .zero .zero = result
    by_cases hexact : result.2 = Wide.zero
    · rw [if_pos hexact, if_pos (Wide.eq_zero_iff.mp hexact), Wide.lowU128_eq]
    · rw [if_neg hexact, if_neg (mt Wide.eq_zero_iff.mpr hexact)]
      cases hadd : result.1.checkedAddOne with
      | none =>
          rw [Wide.checkedAddOne_eq_none hadd]
          exact (u128_of_ge (by decide)).symm
      | some quotient =>
          simp only
          rw [Wide.lowU128_eq, Wide.checkedAddOne_eq_some hadd]
  · simp only [hlarge (Nat.le_of_not_lt hlt), if_neg hlt]

theorem checkedRatioCeil_eq {n₀ n₁ n₂ d₀ d₁ : Nat} (hn₀ : n₀ < u128Size) (hn₁ : n₁ < u128Size) (hn₂ : n₂ < u128Size)
    (hd₀ : d₀ < u128Size) (hd₁ : d₁ < u128Size) (h₀ : 0 < d₀) (h₁ : 0 < d₁) :
    checkedRatioCeil n₀ n₁ n₂ d₀ d₁ =
      if n₀ * n₁ * n₂ / Nat.gcd (n₀ * n₁ * n₂) (d₀ * d₁) < 2 ^ 256 then u128 (ceilDiv (n₀ * n₁ * n₂) (d₀ * d₁))
      else .err .arithmeticExhausted := by
  have h := cancelled_cancel (n := n₀) h₀ h₁
  rw [checkedRatioCeil]
  generalize cancel n₀ d₀ d₁ = c₀ at *
  obtain ⟨m₀, a₀, a₁⟩ := c₀
  have h' := cancelled_cancel (n := n₁) h.pos₀ h.pos₁
  generalize hc₁ : cancel n₁ a₀ a₁ = c₁ at *
  obtain ⟨m₁, b₀, b₁⟩ := c₁
  have h'' := cancelled_cancel (n := n₂) h'.pos₀ h'.pos₁
  generalize hc₂ : cancel n₂ b₀ b₁ = c₂ at *
  obtain ⟨m₂, e₀, e₁⟩ := c₂
  simp only [hc₁, hc₂]
  have hle := h.le
  have hle' := h'.le
  have hle'' := h''.le
  have hdvd₀ : e₀ ∣ a₀ := h''.dvd₀.trans h'.dvd₀
  have hdvd₁ : e₁ ∣ a₁ := h''.dvd₁.trans h'.dvd₁
  have hratio := h.ratio
  have hratio' := h'.ratio
  have hratio'' := h''.ratio
  have hpos : 0 < e₀ * e₁ := Nat.mul_pos h''.pos₀ h''.pos₁
  have he₀ : e₀ ≤ d₀ := Nat.le_of_dvd h₀ (hdvd₀.trans h.dvd₀)
  have he₁ : e₁ ≤ d₁ := Nat.le_of_dvd h₁ (hdvd₁.trans h.dvd₁)
  simp only at hle hle' hle'' hratio hratio' hratio''
  have hcross : n₀ * n₁ * n₂ * (e₀ * e₁) = m₀ * m₁ * m₂ * (d₀ * d₁) := by
    calc n₀ * n₁ * n₂ * (e₀ * e₁) = n₀ * n₁ * (m₂ * (b₀ * b₁)) := by
          rw [hratio'']
          ring
      _ = n₀ * (m₁ * (a₀ * a₁)) * m₂ := by
          rw [hratio']
          ring
      _ = m₀ * (d₀ * d₁) * m₁ * m₂ := by
          rw [hratio]
          ring
      _ = m₀ * m₁ * m₂ * (d₀ * d₁) := by ring
  have hcoprime : Nat.Coprime (m₀ * m₁ * m₂) (e₀ * e₁) := by
    apply Nat.Coprime.mul_left
    · apply Nat.Coprime.mul_left
      · exact Nat.Coprime.mul_right (h.coprime₀.coprime_dvd_right hdvd₀) (h.coprime₁.coprime_dvd_right hdvd₁)
      · exact Nat.Coprime.mul_right (h'.coprime₀.coprime_dvd_right h''.dvd₀) (h'.coprime₁.coprime_dvd_right h''.dvd₁)
    · exact Nat.Coprime.mul_right h''.coprime₀ h''.coprime₁
  rw [div_gcd_of_coprime (Nat.mul_pos h₀ h₁) hpos hcoprime hcross, ceilDiv_congr (Nat.mul_pos h₀ h₁) hpos hcross,
    reducedRatioCeil]
  split
  · rename_i hsmall
    rw [checkedCeilDiv_eq hsmall.2.2.1 hpos, if_pos]
    exact Nat.lt_of_lt_of_le hsmall.2.2.1 (by decide)
  · exact wideRatioCeil_eq (by omega) (by omega) (by omega) (by omega) (by omega) hpos

theorem ceilDiv_eq_natCeil {n d : Nat} (hd : 0 < d) : ceilDiv n d = ⌈(n : ℚ) / d⌉₊ := by
  apply Nat.le_antisymm
  · rw [ceilDiv_le_iff hd]
    have hle := Nat.le_ceil ((n : ℚ) / d)
    rw [div_le_iff₀ (by exact_mod_cast hd)] at hle
    exact_mod_cast hle
  · rw [Nat.ceil_le, div_le_iff₀ (by exact_mod_cast hd)]
    exact_mod_cast (ceilDiv_le_iff hd).mp (Nat.le_refl _)

/-- The checked divisions are exact: `checked_mul_div_rem` returns quotient and
remainder of the full product unless the quotient is too large, and
`checked_ratio_ceil` the ceiling of the ratio unless the ceiling is too large
or the numerator in lowest terms exceeds the 256 bits it is staged in. -/
theorem checked_quotients_exact (a b d n₀ n₁ n₂ d₀ d₁ : BitVec 128) (hd : d ≠ 0) (hd₀ : d₀ ≠ 0) (hd₁ : d₁ ≠ 0) :
    (checkedMulDivRem a.toNat b.toNat d.toNat =
      if a.toNat * b.toNat / d.toNat < 2 ^ 128 then .ok (a.toNat * b.toNat / d.toNat, a.toNat * b.toNat % d.toNat)
      else .err .arithmeticExhausted) ∧
    (checkedRatioCeil n₀.toNat n₁.toNat n₂.toNat d₀.toNat d₁.toNat =
      if n₀.toNat * n₁.toNat * n₂.toNat / Nat.gcd (n₀.toNat * n₁.toNat * n₂.toNat) (d₀.toNat * d₁.toNat) < 2 ^ 256 ∧
          ⌈(n₀.toNat * n₁.toNat * n₂.toNat : ℚ) / (d₀.toNat * d₁.toNat)⌉₊ < 2 ^ 128 then
        .ok ⌈(n₀.toNat * n₁.toNat * n₂.toNat : ℚ) / (d₀.toNat * d₁.toNat)⌉₊
      else .err .arithmeticExhausted) := by
  have hpos : ∀ x : BitVec 128, x ≠ 0 → 0 < x.toNat := fun x hx =>
    Nat.pos_of_ne_zero fun hzero => hx (BitVec.eq_of_toNat_eq hzero)
  constructor
  · exact checkedMulDivRem_eq a.isLt b.isLt (hpos d hd) d.isLt
  · have hceil := ceilDiv_eq_natCeil (n := n₀.toNat * n₁.toNat * n₂.toNat) (Nat.mul_pos (hpos d₀ hd₀) (hpos d₁ hd₁))
    push_cast at hceil
    rw [checkedRatioCeil_eq n₀.isLt n₁.isLt n₂.isLt d₀.isLt d₁.isLt (hpos d₀ hd₀) (hpos d₁ hd₁), ← hceil, ite_and]
    rfl

/-- Both at the largest operands, where the plain products overflow. -/
theorem checked_quotients_exact_allOnes :
    checkedMulDivRem (2 ^ 128 - 1) (2 ^ 128 - 1) (2 ^ 128 - 1) = .ok (2 ^ 128 - 1, 0) ∧
      checkedRatioCeil (2 ^ 128 - 1) (2 ^ 128 - 1) 3 (2 ^ 128 - 1) 4 = .ok (3 * 2 ^ 126) := by
  have h := checked_quotients_exact (BitVec.allOnes 128) (BitVec.allOnes 128) (BitVec.allOnes 128) (BitVec.allOnes 128)
    (BitVec.allOnes 128) 3 (BitVec.allOnes 128) 4 (by decide) (by decide) (by decide)
  have hceil : ⌈((BitVec.allOnes 128).toNat * (BitVec.allOnes 128).toNat * (3 : BitVec 128).toNat : ℚ) /
      ((BitVec.allOnes 128).toNat * (4 : BitVec 128).toNat)⌉₊ = 3 * 2 ^ 126 := by
    have hones : ((BitVec.allOnes 128).toNat : ℚ) = 340282366920938463463374607431768211455 := by
      norm_num [BitVec.toNat_allOnes]
    have hthree : (3 : BitVec 128).toNat = 3 := rfl
    have hfour : (4 : BitVec 128).toNat = 4 := rfl
    rw [Nat.ceil_eq_iff (by decide), hones, hthree, hfour]
    norm_num
  rw [hceil] at h
  refine ⟨h.1.trans ?_, h.2.trans ?_⟩
  · decide +kernel
  · decide +kernel

end TheKernel.Eevdf
