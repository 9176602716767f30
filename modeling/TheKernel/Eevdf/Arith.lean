import TheKernel.Lib.Limbs
import TheKernel.Lib.Outcome

namespace TheKernel.Eevdf

open Outcome

def u128Size : Nat := 2 ^ 128

def i128Max : Int := 2 ^ 127 - 1

def i128Min : Int := -2 ^ 127

inductive ModelError where
  | arithmeticExhausted | invalidWeight | invalidState
  deriving DecidableEq

/-- A checked `u128` operation whose failure is `ArithmeticExhausted`. -/
def u128 (value : Nat) : Outcome ModelError Nat := if value < u128Size then .ok value else .err .arithmeticExhausted

/-- A checked `i128` operation whose failure is `ArithmeticExhausted`. -/
def i128 (value : Int) : Outcome ModelError Int :=
  if i128Min ≤ value ∧ value ≤ i128Max then .ok value else .err .arithmeticExhausted

def checkedI128 (value : Nat) : Outcome ModelError Int :=
  if i128Max < value then .err .arithmeticExhausted else .ok value

def checkedMulI128U128 (value : Int) (factor : Nat) : Outcome ModelError Int :=
  if value = 0 then .ok 0 else do
    let product ← u128 (value.natAbs * factor)
    if value < 0 then
      if 2 ^ 127 < product then .err .arithmeticExhausted
      else if product = 2 ^ 127 then .ok i128Min else .ok (-product)
    else if i128Max < product then .err .arithmeticExhausted else .ok product

def checkedCeilDiv (numerator denominator : Nat) : Outcome ModelError Nat :=
  if denominator = 0 then .err .invalidWeight
  else if numerator % denominator = 0 then .ok (numerator / denominator)
  else u128 (numerator / denominator + 1)

/-- One bit of the division loop: `2 * remainder + bit`, divided. -/
def divBit (denominator remainder : Nat) (bit : Bool) : Bool × Nat :=
  let half := denominator / 2
  if denominator % 2 = 0 then
    if half ≤ remainder then (true, (remainder - half) * 2 + bit.toNat) else (false, remainder * 2 + bit.toNat)
  else if half < remainder then (true, (remainder - half) * 2 - 1 + bit.toNat)
  else if remainder = half ∧ bit = true then (true, 0)
  else (false, remainder * 2 + bit.toNat)

/-- The loop of `checked_div_129` over the positions below the given one. -/
def div129Loop (high : Bool) (low denominator : Nat) : Nat → Nat → Nat → Outcome ModelError (Nat × Nat)
  | 0, quotient, remainder => .ok (quotient, remainder)
  | position + 1, quotient, remainder =>
      let next := divBit denominator remainder (if position = 128 then high else low.testBit position)
      if position = 128 then
        if next.1 then .err .arithmeticExhausted else div129Loop high low denominator position quotient next.2
      else if (u128Size - 1) / 2 < quotient then .err .arithmeticExhausted
      else div129Loop high low denominator position (quotient * 2 + next.1.toNat) next.2

def checkedDiv129 (high : Bool) (low denominator : Nat) : Outcome ModelError (Nat × Nat) :=
  if denominator = 0 then .err .invalidWeight
  else if high = false then .ok (low / denominator, low % denominator)
  else div129Loop high low denominator 129 0 0

/-- The part of a turn of `checked_mul_div_rem` that adds `b` where the bit of `a` is set. -/
def addWhere (bit : Bool) (b denominator remainder : Nat) : Outcome ModelError (Nat × Nat) :=
  if bit then checkedDiv129 (decide (u128Size ≤ remainder + b)) ((remainder + b) % u128Size) denominator
  else .ok (0, remainder)

/-- The loop of `checked_mul_div_rem` over the bits of `a` below a position. -/
def mulDivLoop (a b denominator : Nat) : Nat → Nat → Nat → Outcome ModelError (Nat × Nat)
  | 0, quotient, remainder => .ok (quotient, remainder)
  | position + 1, quotient, remainder => do
      let double ← checkedDiv129 (decide (2 ^ 127 ≤ remainder)) (remainder * 2 % u128Size) denominator
      let add ← addWhere (a.testBit position) b denominator double.2
      let extra ← u128 (double.1 + add.1)
      let doubled ← u128 (quotient * 2)
      let quotient ← u128 (doubled + extra)
      mulDivLoop a b denominator position quotient add.2

def checkedMulDivRem (a b denominator : Nat) : Outcome ModelError (Nat × Nat) :=
  if denominator = 0 then .err .invalidWeight
  else if a * b < u128Size then .ok (a * b / denominator, a * b % denominator)
  else mulDivLoop a b denominator 128 0 0

def checkedMulDivCeil (a b denominator : Nat) : Outcome ModelError Nat := do
  let (quotient, remainder) ← checkedMulDivRem a b denominator
  if remainder = 0 then .ok quotient else u128 (quotient + 1)

def checkedMulDivRoundNearestEven (a b denominator : Nat) : Outcome ModelError Nat := do
  let (quotient, remainder) ← checkedMulDivRem a b denominator
  let roundUp := match compare remainder (denominator / 2) with
    | .gt => true
    | .lt => false
    | .eq => denominator % 2 = 0 ∧ quotient % 2 ≠ 0
  if roundUp then u128 (quotient + 1) else .ok quotient

/-- The loop of `gcd_u128`; the right number shrinks at every turn. -/
def gcdLoop : Nat → Nat → Nat → Nat
  | 0, left, _ => left
  | fuel + 1, left, right => if right = 0 then left else gcdLoop fuel right (left % right)

def gcdU128 (left right : Nat) : Nat := gcdLoop (right + 1) left right

section Spec

variable {a b d q r : Nat}

@[simp] theorem u128_eq_ok : u128 a = .ok b ↔ a = b ∧ a < u128Size := by
  rw [u128]
  split <;> simp [*]

theorem u128_of_lt (h : a < u128Size) : u128 a = .ok a := if_pos h

theorem u128_of_ge (h : u128Size ≤ a) : u128 a = .err .arithmeticExhausted := if_neg (Nat.not_lt.mpr h)

@[simp] theorem i128_eq_ok {x y : Int} : i128 x = .ok y ↔ x = y ∧ i128Min ≤ x ∧ x ≤ i128Max := by
  rw [i128]
  split <;> simp [*]

theorem checkedI128_eq (value : Nat) : checkedI128 value = i128 value := by
  rw [checkedI128, i128, i128Max, i128Min]
  split <;> split <;> first | rfl | omega

theorem checkedMulI128U128_eq (value : Int) (factor : Nat) :
    checkedMulI128U128 value factor = i128 (value * factor) := by
  rw [checkedMulI128U128]
  by_cases hzero : value = 0
  · subst hzero
    rw [if_pos rfl, i128, if_pos]
    · simp
    · simp [i128Min, i128Max]
  · rw [if_neg hzero]
    rcases Int.lt_or_gt_of_ne hzero with hneg | hpos
    · have hprod : value * factor = -((value.natAbs * factor : Nat) : Int) := by
        rw [Int.natCast_mul, Int.ofNat_natAbs_of_nonpos (Int.le_of_lt hneg)]
        ring
      generalize value.natAbs * factor = product at hprod ⊢
      rw [hprod, u128, i128, i128Min, i128Max, u128Size]
      rcases Nat.lt_trichotomy product (2 ^ 127) with hlt | heq | hgt
      · rw [if_pos (by omega), ok_bind, if_pos hneg, if_neg (by omega), if_neg (by omega), if_pos (by omega)]
      · subst heq
        rw [if_pos (by omega), ok_bind, if_pos hneg, if_neg (by omega), if_pos rfl, if_pos (by omega)]
        rfl
      · rw [if_neg (c := -2 ^ 127 ≤ -(product : Int) ∧ -(product : Int) ≤ 2 ^ 127 - 1) (by omega)]
        by_cases hfit : product < 2 ^ 128
        · rw [if_pos hfit, ok_bind, if_pos hneg, if_pos hgt]
        · rw [if_neg hfit, err_bind]
    · have hprod : value * factor = ((value.natAbs * factor : Nat) : Int) := by
        rw [Int.natCast_mul, Int.natAbs_of_nonneg (Int.le_of_lt hpos)]
      generalize value.natAbs * factor = product at hprod ⊢
      rw [hprod, u128, i128, i128Min, i128Max, u128Size]
      by_cases hfit : product < 2 ^ 128
      · rw [if_pos hfit, ok_bind, if_neg (by omega)]
        by_cases hlt : product < 2 ^ 127
        · rw [if_neg (by omega), if_pos (by omega)]
        · rw [if_pos (by omega), if_neg (by omega)]
      · rw [if_neg hfit, err_bind, if_neg (by omega)]

theorem divBit_eq (hr : r < d) (bit : Bool) :
    divBit d r bit = (decide (d ≤ 2 * r + bit.toNat), (2 * r + bit.toNat) % d) := by
  have hbit : bit.toNat < 2 := bit.toNat_lt
  have hmod : (2 * r + bit.toNat) % d = if d ≤ 2 * r + bit.toNat then 2 * r + bit.toNat - d else 2 * r + bit.toNat := by
    split
    · rw [Nat.mod_eq_sub_mod ‹_›, Nat.mod_eq_of_lt (by omega)]
    · exact Nat.mod_eq_of_lt (by omega)
  rw [hmod, divBit]
  split
  · split
    · rw [if_pos (by omega), decide_eq_true (by omega)]
      exact Prod.ext rfl (by simp only; omega)
    · rw [if_neg (by omega), decide_eq_false (by omega)]
      exact Prod.ext rfl (by simp only; omega)
  · split
    · rw [if_pos (by omega), decide_eq_true (by omega)]
      exact Prod.ext rfl (by simp only; omega)
    · split
      · rename_i hhalf
        rw [hhalf.2] at hbit ⊢
        simp only [Bool.toNat_true]
        rw [if_pos (by omega), decide_eq_true (by omega)]
        exact Prod.ext rfl (by simp only; omega)
      · rename_i hhalf
        have hlow : 2 * r + bit.toNat < d := by
          cases bit with
          | false =>
              simp only [Bool.toNat_false]
              omega
          | true =>
              simp only [and_true] at hhalf
              simp only [Bool.toNat_true]
              omega
        rw [if_neg (by omega), decide_eq_false (by omega)]
        exact Prod.ext rfl (by simp only; omega)

def quotRem (n d : Nat) : Outcome ModelError (Nat × Nat) :=
  if n / d < u128Size then .ok (n / d, n % d) else .err .arithmeticExhausted

theorem testBit_129 {high : Bool} {low : Nat} (hlow : low < u128Size) {position : Nat} (hpos : position ≤ 128) :
    (if position = 128 then high else low.testBit position) = (high.toNat * u128Size + low).testBit position := by
  rw [Nat.mul_comm, u128Size, Nat.testBit_two_pow_mul_add _ hlow]
  split
  · rename_i heq
    subst heq
    rw [if_neg (by omega), Nat.sub_self]
    cases high <;> rfl
  · rw [if_pos (by omega)]

theorem div129Loop_eq (high : Bool) {low : Nat} (hd : 0 < d) (hlow : low < u128Size) {position : Nat}
    (hpos : position ≤ 129) (hq : (high.toNat * u128Size + low) / 2 ^ position / d < u128Size) :
    div129Loop high low d position ((high.toNat * u128Size + low) / 2 ^ position / d)
      ((high.toNat * u128Size + low) / 2 ^ position % d) = quotRem (high.toNat * u128Size + low) d := by
  induction position with
  | zero => simpa [div129Loop, quotRem] using hq
  | succ p ih =>
      have hbits := LongDivision.div_two_pow (high.toNat * u128Size + low) p
      rw [div129Loop, testBit_129 hlow (by omega), divBit_eq (Nat.mod_lt _ hd)]
      generalize hN : high.toNat * u128Size + low = N at *
      have hdiv := LongDivision.mul_add_div hd 2 (N / 2 ^ (p + 1)) (N.testBit p).toNat
      have hmod := LongDivision.mul_add_mod (d := d) 2 (N / 2 ^ (p + 1)) (N.testBit p).toNat
      rw [← hbits] at hdiv hmod
      have hlt := Nat.mod_lt (N / 2 ^ (p + 1)) hd
      have hbit : (N.testBit p).toNat < 2 := Bool.toNat_lt _
      have hcarry : (2 * (N / 2 ^ (p + 1) % d) + (N.testBit p).toNat) / d =
          (decide (d ≤ 2 * (N / 2 ^ (p + 1) % d) + (N.testBit p).toNat)).toNat := by
        by_cases hge : d ≤ 2 * (N / 2 ^ (p + 1) % d) + (N.testBit p).toNat
        · rw [decide_eq_true hge, Bool.toNat_true, Nat.div_eq_iff hd]
          omega
        · rw [decide_eq_false hge, Bool.toNat_false, Nat.div_eq_of_lt (by omega)]
      have hle := LongDivision.div_two_pow_div_le (d := d) N p
      have hle' := LongDivision.div_two_pow_div_le (d := d) N (p + 1)
      simp only [← hmod]
      rw [hcarry] at hdiv
      by_cases htop : p = 128
      · subst htop
        rw [if_pos rfl]
        have hzero : N / 2 ^ (128 + 1) = 0 := by
          apply Nat.div_eq_of_lt
          have : high.toNat < 2 := high.toNat_lt
          rw [u128Size] at hN hlow
          omega
        rw [hzero, Nat.zero_div, Nat.zero_mod] at hdiv ⊢
        split
        · rename_i hset
          rw [hset] at hdiv
          rw [quotRem, if_neg]
          rw [hdiv, Bool.toNat_true] at hle
          rw [u128Size]
          omega
        · rename_i hset
          rw [Bool.not_eq_true] at hset
          rw [hset] at hdiv
          have hnext := ih (by omega)
          rw [hdiv] at hnext
          exact hnext (by simp [u128Size])
      · rw [if_neg htop]
        split
        · rename_i hlarge
          rw [quotRem, if_neg]
          have htwo : 2 ≤ 2 ^ (p + 1) := by
            rw [Nat.pow_succ]
            have := Nat.two_pow_pos p
            omega
          have := Nat.mul_le_mul_left (N / 2 ^ (p + 1) / d) htwo
          rw [u128Size] at hlarge ⊢
          omega
        · rename_i hsmall
          have hnext := ih (by omega)
          rw [hdiv, Nat.mul_comm 2] at hnext
          apply hnext
          have : (decide (d ≤ 2 * (N / 2 ^ (p + 1) % d) + (N.testBit p).toNat)).toNat < 2 := Bool.toNat_lt _
          rw [u128Size] at hsmall ⊢
          omega

theorem checkedDiv129_eq {high : Bool} {low : Nat} (hd : 0 < d) (hlow : low < u128Size) :
    checkedDiv129 high low d = quotRem (high.toNat * u128Size + low) d := by
  rw [checkedDiv129, if_neg (Nat.ne_of_gt hd)]
  split
  · rename_i hhigh
    subst hhigh
    rw [quotRem, if_pos]
    · simp
    · simp only [Bool.toNat_false, Nat.zero_mul, Nat.zero_add]
      exact Nat.lt_of_le_of_lt (Nat.div_le_self _ _) hlow
  · have hzero : (high.toNat * u128Size + low) / 2 ^ 129 = 0 := by
      apply Nat.div_eq_of_lt
      have : high.toNat < 2 := high.toNat_lt
      rw [u128Size] at hlow ⊢
      omega
    have hloop := div129Loop_eq high hd hlow (Nat.le_refl 129) (by rw [hzero]; simp [u128Size])
    rwa [hzero, Nat.zero_div, Nat.zero_mod] at hloop

theorem quotRem_eq_ok {n : Nat} {p : Nat × Nat} : quotRem n d = .ok p ↔ n / d < u128Size ∧ p = (n / d, n % d) := by
  rw [quotRem]
  split
  · simp [*, eq_comm]
  · simp [*]

theorem mulDivLoop_eq (hb : b < u128Size) (hd : 0 < d) (hd' : d < u128Size) {p : Nat}
    (hq : a / 2 ^ p * b / d < u128Size) :
    mulDivLoop a b d p (a / 2 ^ p * b / d) (a / 2 ^ p * b % d) = quotRem (a * b) d := by
  induction p with
  | zero =>
      rw [Nat.pow_zero, Nat.div_one] at hq ⊢
      rw [mulDivLoop, quotRem, if_pos hq]
  | succ p ih =>
      have hbits := LongDivision.div_two_pow a p
      generalize hn : a / 2 ^ (p + 1) * b = n at *
      have hnext : a / 2 ^ p * b = 2 * n + (a.testBit p).toNat * b := by
        rw [hbits, ← hn]
        ring
      have hlt := Nat.mod_lt n hd
      have hle : a / 2 ^ p * b / d ≤ a * b / d := Nat.div_le_div_right (Nat.mul_le_mul_right b (Nat.div_le_self _ _))
      have hdouble : checkedDiv129 (decide (2 ^ 127 ≤ n % d)) (n % d * 2 % u128Size) d = .ok
          (2 * (n % d) / d, 2 * (n % d) % d) := by
        rw [checkedDiv129_eq hd (Nat.mod_lt _ (by decide))]
        have hsum : (decide (2 ^ 127 ≤ n % d)).toNat * u128Size + n % d * 2 % u128Size = 2 * (n % d) := by
          rw [u128Size] at *
          by_cases hge : 2 ^ 127 ≤ n % d
          · rw [decide_eq_true hge, Bool.toNat_true]
            omega
          · rw [decide_eq_false hge, Bool.toNat_false]
            omega
        rw [hsum, quotRem, if_pos]
        have : 2 * (n % d) / d < 2 := Nat.div_lt_of_lt_mul (by omega)
        rw [u128Size]
        omega
      generalize hr : 2 * (n % d) % d = r
      have hr' : r < d := hr ▸ Nat.mod_lt _ hd
      have hadd : addWhere (a.testBit p) b d r =
          .ok ((r + (a.testBit p).toNat * b) / d, (r + (a.testBit p).toNat * b) % d) := by
        rw [addWhere]
        split
        · rename_i hbit
          rw [checkedDiv129_eq hd (Nat.mod_lt _ (by decide)), hbit, Bool.toNat_true, Nat.one_mul]
          have hsum : (decide (u128Size ≤ r + b)).toNat * u128Size + (r + b) % u128Size = r + b := by
            rw [u128Size] at *
            by_cases hge : 2 ^ 128 ≤ r + b
            · rw [decide_eq_true hge, Bool.toNat_true]
              omega
            · rw [decide_eq_false hge, Bool.toNat_false]
              omega
          rw [hsum, quotRem, if_pos]
          refine Nat.lt_of_le_of_lt ?_ hb
          apply Nat.le_of_lt_succ
          rw [Nat.div_lt_iff_lt_mul hd]
          calc r + b < d + b := by omega
            _ ≤ d + b * d := Nat.add_le_add_left (Nat.le_mul_of_pos_right b hd) d
            _ = (b + 1) * d := by ring
        · rename_i hbit
          rw [Bool.not_eq_true] at hbit
          rw [hbit, Bool.toNat_false, Nat.zero_mul, Nat.add_zero, Nat.div_eq_of_lt hr', Nat.mod_eq_of_lt hr']
      -- the quotient of the next prefix is the old one doubled, and two carries
      have hquot : a / 2 ^ p * b / d = n / d * 2 + (2 * (n % d) / d + (r + (a.testBit p).toNat * b) / d) := by
        have hfirst := LongDivision.mul_add_div hd 2 n ((a.testBit p).toNat * b)
        have hsecond := LongDivision.mul_add_div hd 1 (2 * (n % d)) ((a.testBit p).toNat * b)
        rw [Nat.one_mul, Nat.one_mul, Nat.one_mul, hr] at hsecond
        rw [hnext, hfirst, hsecond, Nat.mul_comm 2]
      have hrem : a / 2 ^ p * b % d = (r + (a.testBit p).toNat * b) % d := by
        rw [hnext, LongDivision.mul_add_mod, ← Nat.mod_add_mod, hr]
      rw [mulDivLoop, hdouble]
      simp only [ok_bind, hr, hadd]
      rw [hrem] at ih
      rw [hquot] at ih hle
      generalize 2 * (n % d) / d + (r + (a.testBit p).toNat * b) / d = extra at ih hle ⊢
      by_cases hfit : n / d * 2 + extra < u128Size
      · have hextra : extra < u128Size := by omega
        have hdoubled : n / d * 2 < u128Size := by omega
        rw [u128_of_lt hextra, ok_bind, u128_of_lt hdoubled, ok_bind, u128_of_lt hfit, ok_bind]
        exact ih hfit
      · have hlarge : ¬ a * b / d < u128Size := by omega
        rw [quotRem, if_neg hlarge]
        by_cases hextra : extra < u128Size
        · rw [u128_of_lt hextra, ok_bind]
          by_cases hdoubled : n / d * 2 < u128Size
          · rw [u128_of_lt hdoubled, ok_bind, u128_of_ge (Nat.le_of_not_lt hfit), err_bind]
          · rw [u128_of_ge (Nat.le_of_not_lt hdoubled), err_bind]
        · rw [u128_of_ge (Nat.le_of_not_lt hextra), err_bind]

theorem checkedMulDivRem_eq (ha : a < u128Size) (hb : b < u128Size) (hd : 0 < d) (hd' : d < u128Size) :
    checkedMulDivRem a b d = quotRem (a * b) d := by
  rw [checkedMulDivRem, if_neg (Nat.ne_of_gt hd)]
  split
  · rename_i hsmall
    rw [quotRem, if_pos (Nat.lt_of_le_of_lt (Nat.div_le_self _ _) hsmall)]
  · have hzero : a / 2 ^ 128 = 0 := Nat.div_eq_of_lt ha
    have hloop := mulDivLoop_eq (a := a) (p := 128) hb hd hd' (by rw [hzero]; simp [u128Size])
    rwa [hzero, Nat.zero_mul, Nat.zero_div, Nat.zero_mod] at hloop

def ceilDiv (n d : Nat) : Nat := if n % d = 0 then n / d else n / d + 1

theorem ceilDiv_le_iff (hd : 0 < d) {n k : Nat} : ceilDiv n d ≤ k ↔ n ≤ k * d := by
  have hn := Nat.mod_add_div n d
  rw [ceilDiv]
  split
  · rename_i hzero
    rw [hzero, Nat.zero_add] at hn
    constructor
    · intro hle
      rw [← hn, Nat.mul_comm]
      exact Nat.mul_le_mul_right d hle
    · intro hle
      exact Nat.div_le_of_le_mul (by rwa [Nat.mul_comm])
  · rename_i hne
    rw [Nat.succ_le_iff, Nat.div_lt_iff_lt_mul hd]
    constructor
    · exact Nat.le_of_lt
    · intro hle
      refine Nat.lt_of_le_of_ne hle ?_
      rintro rfl
      exact hne (Nat.mul_mod_left _ _)

theorem ceilDiv_congr {n n' d' : Nat} (hd : 0 < d) (hd' : 0 < d') (h : n * d' = n' * d) :
    ceilDiv n d = ceilDiv n' d' := by
  apply Nat.le_antisymm
  · rw [ceilDiv_le_iff hd]
    apply Nat.le_of_mul_le_mul_right _ hd'
    calc n * d' = n' * d := h
      _ ≤ ceilDiv n' d' * d' * d := Nat.mul_le_mul_right d ((ceilDiv_le_iff hd').mp (Nat.le_refl _))
      _ = ceilDiv n' d' * d * d' := by ring
  · rw [ceilDiv_le_iff hd']
    apply Nat.le_of_mul_le_mul_right _ hd
    calc n' * d = n * d' := h.symm
      _ ≤ ceilDiv n d * d * d' := Nat.mul_le_mul_right d' ((ceilDiv_le_iff hd).mp (Nat.le_refl _))
      _ = ceilDiv n d * d' * d := by ring

theorem checkedCeilDiv_eq (ha : a < u128Size) (hd : 0 < d) : checkedCeilDiv a d = u128 (ceilDiv a d) := by
  rw [checkedCeilDiv, ceilDiv, if_neg (Nat.ne_of_gt hd)]
  split
  · rw [u128, if_pos (Nat.lt_of_le_of_lt (Nat.div_le_self _ _) ha)]
  · rfl

theorem checkedMulDivCeil_eq (ha : a < u128Size) (hb : b < u128Size) (hd : 0 < d) (hd' : d < u128Size) :
    checkedMulDivCeil a b d = u128 (ceilDiv (a * b) d) := by
  rw [checkedMulDivCeil, checkedMulDivRem_eq ha hb hd hd', quotRem, ceilDiv]
  by_cases hfit : a * b / d < u128Size
  · rw [if_pos hfit, ok_bind]
    simp only
    split
    · rw [u128, if_pos hfit]
    · rfl
  · rw [if_neg hfit, err_bind]
    split
    · rw [u128, if_neg hfit]
    · rw [u128, if_neg (by omega)]

theorem gcdLoop_eq {fuel left right : Nat} (h : right < fuel) : gcdLoop fuel left right = Nat.gcd left right := by
  induction fuel generalizing left right with
  | zero => omega
  | succ fuel ih =>
      rw [gcdLoop]
      split
      · rename_i hzero
        rw [hzero, Nat.gcd_zero_right]
      · have hlt := Nat.mod_lt left (Nat.pos_of_ne_zero ‹_›)
        rw [ih (by omega), Nat.gcd_comm, ← Nat.gcd_rec, Nat.gcd_comm]

theorem gcdU128_eq (left right : Nat) : gcdU128 left right = Nat.gcd left right := gcdLoop_eq (Nat.lt_succ_self _)

end Spec

end TheKernel.Eevdf
