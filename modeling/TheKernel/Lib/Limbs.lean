import Mathlib.Tactic.Ring
import Mathlib.Data.Nat.Bitwise

namespace TheKernel.Limbs

variable {w : Nat}

/-- The number that a list of words denotes, least significant word first. -/
def val : List (BitVec w) → Nat
  | [] => 0
  | x :: xs => x.toNat + 2 ^ w * val xs

@[simp] theorem val_nil : val ([] : List (BitVec w)) = 0 := rfl

@[simp] theorem val_cons (x : BitVec w) (xs : List (BitVec w)) : val (x :: xs) = x.toNat + 2 ^ w * val xs := rfl

theorem val_replicate_zero (n : Nat) : val (List.replicate n 0#w) = 0 := by
  induction n with
  | zero => rfl
  | succ n ih => simp [List.replicate_succ, ih]

theorem eq_replicate_of_val_eq_zero {xs : List (BitVec w)} (h : val xs = 0) : xs = List.replicate xs.length 0#w := by
  induction xs with
  | nil => rfl
  | cons x xs ih =>
      rw [val_cons, Nat.add_eq_zero_iff, Nat.mul_eq_zero] at h
      have hx : x = 0#w := BitVec.eq_of_toNat_eq (by simpa using h.1)
      have hxs := ih (h.2.resolve_left (Nat.ne_of_gt (Nat.two_pow_pos w)))
      rw [List.length_cons, List.replicate_succ, hx, ← hxs]

/-- Two words of which the higher one is the same number of units are in the
order of their lower parts. -/
theorem add_mul_lt {x k a b : Nat} (hx : x < k) (hab : a < b) : x + k * a < k * b := by
  calc x + k * a < k + k * a := Nat.add_lt_add_right hx _
    _ = k * (a + 1) := by ring
    _ ≤ k * b := Nat.mul_le_mul_left k hab

theorem val_lt (xs : List (BitVec w)) : val xs < 2 ^ (w * xs.length) := by
  induction xs with
  | nil => simp
  | cons x xs ih =>
      rw [val_cons, List.length_cons, Nat.mul_succ, Nat.add_comm (w * _), Nat.pow_add]
      exact add_mul_lt x.isLt ih

theorem testBit_val (hw : 0 < w) (xs : List (BitVec w)) (i : Nat) :
    (val xs).testBit i = ((xs[i / w]?).getD 0#w).getLsbD (i % w) := by
  induction xs generalizing i with
  | nil => simp
  | cons x xs ih =>
      rw [val_cons, Nat.add_comm, Nat.testBit_two_pow_mul_add _ x.isLt]
      by_cases hi : i < w
      · simp [hi, Nat.div_eq_of_lt hi, Nat.mod_eq_of_lt hi, BitVec.getLsbD]
      · have hdiv : i / w = (i - w) / w + 1 := Nat.div_eq_sub_div hw (Nat.le_of_not_lt hi)
        have hmod : i % w = (i - w) % w := Nat.mod_eq_sub_mod (Nat.le_of_not_lt hi)
        rw [if_neg hi, ih (i - w), hdiv, hmod, List.getElem?_cons_succ]

def compareWords : List (BitVec w) → List (BitVec w) → Ordering
  | x :: xs, y :: ys => (compareWords xs ys).then (compare x.toNat y.toNat)
  | _, _ => .eq

theorem compareWords_eq {xs ys : List (BitVec w)} (hlen : xs.length = ys.length) :
    compareWords xs ys = compare (val xs) (val ys) := by
  induction xs generalizing ys with
  | nil =>
      cases ys with
      | nil => rfl
      | cons y ys => cases hlen
  | cons x xs ih =>
      cases ys with
      | nil => cases hlen
      | cons y ys =>
          rw [compareWords, ih (Nat.succ.inj hlen), val_cons, val_cons]
          rcases Nat.lt_trichotomy (val xs) (val ys) with hlt | heq | hgt
          · have hall : x.toNat + 2 ^ w * val xs < y.toNat + 2 ^ w * val ys :=
              Nat.lt_of_lt_of_le (add_mul_lt x.isLt hlt) (Nat.le_add_left _ _)
            rw [Nat.compare_eq_lt.mpr hlt, Nat.compare_eq_lt.mpr hall, Ordering.lt_then]
          · rw [heq, Nat.compare_eq_eq.mpr rfl, Ordering.eq_then]
            rcases Nat.lt_trichotomy x.toNat y.toNat with hx | hx | hx
            · rw [Nat.compare_eq_lt.mpr hx, Nat.compare_eq_lt.mpr (Nat.add_lt_add_right hx _)]
            · rw [Nat.compare_eq_eq.mpr hx, hx, Nat.compare_eq_eq.mpr rfl]
            · rw [Nat.compare_eq_gt.mpr hx, Nat.compare_eq_gt.mpr (Nat.add_lt_add_right hx _)]
          · have hall : y.toNat + 2 ^ w * val ys < x.toNat + 2 ^ w * val xs :=
              Nat.lt_of_lt_of_le (add_mul_lt y.isLt hgt) (Nat.le_add_left _ _)
            rw [Nat.compare_eq_gt.mpr hgt, Nat.compare_eq_gt.mpr hall, Ordering.gt_then]

/-- One place to the left, with the bit that comes in and the bit that falls out. -/
def shl1 (carry : Bool) : List (BitVec w) → Bool × List (BitVec w)
  | [] => (carry, [])
  | x :: xs => ((shl1 x.msb xs).1, (x <<< 1 ||| BitVec.ofNat w carry.toNat) :: (shl1 x.msb xs).2)

@[simp] theorem length_shl1 (carry : Bool) (xs : List (BitVec w)) : (shl1 carry xs).2.length = xs.length := by
  induction xs generalizing carry with
  | nil => rfl
  | cons x xs ih => simp [shl1, ih]

theorem shl1_word (hw : 0 < w) (x : BitVec w) (carry : Bool) :
    (x <<< 1 ||| BitVec.ofNat w carry.toNat).toNat + 2 ^ w * x.msb.toNat = 2 * x.toNat + carry.toNat := by
  obtain ⟨v, rfl⟩ : ∃ v, w = v + 1 := ⟨w - 1, by omega⟩
  have hx := x.isLt
  have hpow : 2 ^ (v + 1) = 2 * 2 ^ v := by ring
  have hmod : 2 * x.toNat % 2 ^ (v + 1) = 2 * (x.toNat % 2 ^ v) := by rw [hpow, Nat.mul_mod_mul_left]
  have hlow : (x <<< 1 ||| BitVec.ofNat (v + 1) carry.toNat).toNat = 2 * (x.toNat % 2 ^ v) + carry.toNat := by
    have hcarry : carry.toNat < 2 ^ 1 := carry.toNat_lt
    have hor := Nat.two_pow_add_eq_or_of_lt hcarry (x.toNat % 2 ^ v)
    have hcarry' : carry.toNat % 2 ^ (v + 1) = carry.toNat :=
      Nat.mod_eq_of_lt (Nat.lt_of_lt_of_le hcarry (Nat.pow_le_pow_right (by decide) (by omega)))
    rw [BitVec.toNat_or, BitVec.toNat_shiftLeft, BitVec.toNat_ofNat, Nat.shiftLeft_eq, pow_one, Nat.mul_comm,
      hmod, hcarry']
    rw [pow_one] at hor
    exact hor.symm
  have hmsb : x.toNat = 2 ^ v * x.msb.toNat + x.toNat % 2 ^ v := by
    rw [BitVec.msb_eq_decide, Nat.add_sub_cancel]
    by_cases hge : 2 ^ v ≤ x.toNat
    · rw [decide_eq_true hge, Nat.mod_eq_sub_mod hge, Nat.mod_eq_of_lt (by omega)]
      simp only [Bool.toNat_true]
      omega
    · rw [decide_eq_false hge, Nat.mod_eq_of_lt (by omega)]
      simp
  rw [hlow]
  calc _ = 2 * (2 ^ v * x.msb.toNat + x.toNat % 2 ^ v) + carry.toNat := by
        rw [hpow]
        ring
    _ = _ := by rw [← hmsb]

theorem val_shl1 (hw : 0 < w) (carry : Bool) (xs : List (BitVec w)) :
    val (shl1 carry xs).2 + 2 ^ (w * xs.length) * (shl1 carry xs).1.toNat = 2 * val xs + carry.toNat := by
  induction xs generalizing carry with
  | nil => simp [shl1]
  | cons x xs ih =>
      have hword := shl1_word hw x carry
      have hrest := ih x.msb
      rw [shl1, val_cons, val_cons, List.length_cons, Nat.mul_succ, Nat.add_comm (w * _), Nat.pow_add]
      calc _ = (x <<< 1 ||| BitVec.ofNat w carry.toNat).toNat +
            2 ^ w * (val (shl1 x.msb xs).2 + 2 ^ (w * xs.length) * (shl1 x.msb xs).1.toNat) := by ring
        _ = (x <<< 1 ||| BitVec.ofNat w carry.toNat).toNat + 2 ^ w * x.msb.toNat + 2 ^ w * (2 * val xs) := by
            rw [hrest]
            ring
        _ = _ := by
            rw [hword]
            ring

/-- Subtraction from the least significant word up, with the borrow that comes
in and the borrow that is left. -/
def sub (borrow : Bool) : List (BitVec w) → List (BitVec w) → Bool × List (BitVec w)
  | x :: xs, y :: ys =>
      let lower := decide (x.toNat < y.toNat) || decide ((x - y).toNat < borrow.toNat)
      ((sub lower xs ys).1, (x - y - BitVec.ofNat w borrow.toNat) :: (sub lower xs ys).2)
  | _, _ => (borrow, [])

theorem length_sub {borrow : Bool} {xs ys : List (BitVec w)} (hlen : xs.length = ys.length) :
    (sub borrow xs ys).2.length = xs.length := by
  induction xs generalizing borrow ys with
  | nil => cases ys <;> simp [sub] at hlen ⊢
  | cons x xs ih =>
      cases ys with
      | nil => cases hlen
      | cons y ys => simp [sub, ih (Nat.succ.inj hlen)]

theorem sub_word (hw : 0 < w) (x y : BitVec w) (borrow : Bool) :
    (x - y - BitVec.ofNat w borrow.toNat).toNat + y.toNat + borrow.toNat =
      x.toNat + 2 ^ w * (decide (x.toNat < y.toNat) || decide ((x - y).toNat < borrow.toNat)).toNat := by
  have hx := x.isLt
  have hy := y.isLt
  have hb : borrow.toNat < 2 := borrow.toNat_lt
  have hpow : 2 ≤ 2 ^ w := Nat.le_self_pow (Nat.ne_of_gt hw) 2
  have hsub : (x - y).toNat = if x.toNat < y.toNat then x.toNat + 2 ^ w - y.toNat else x.toNat - y.toNat := by
    rw [BitVec.toNat_sub]
    split
    · rw [Nat.mod_eq_of_lt] <;> omega
    · rw [show 2 ^ w - y.toNat + x.toNat = x.toNat - y.toNat + 2 ^ w by omega, Nat.add_mod_right, Nat.mod_eq_of_lt]
      omega
  generalize hd : x - y = d at hsub
  have hd' := d.isLt
  have hsub' : (d - BitVec.ofNat w borrow.toNat).toNat =
      if d.toNat < borrow.toNat then d.toNat + 2 ^ w - borrow.toNat else d.toNat - borrow.toNat := by
    rw [BitVec.toNat_sub, BitVec.toNat_ofNat, Nat.mod_eq_of_lt (show borrow.toNat < 2 ^ w by omega)]
    split
    · rw [Nat.mod_eq_of_lt] <;> omega
    · rw [show 2 ^ w - borrow.toNat + d.toNat = d.toNat - borrow.toNat + 2 ^ w by omega, Nat.add_mod_right,
        Nat.mod_eq_of_lt]
      omega
  rw [hsub']
  by_cases h₁ : x.toNat < y.toNat <;> by_cases h₂ : d.toNat < borrow.toNat <;>
    simp only [h₁, h₂, if_true, if_false, decide_true, decide_false, Bool.or_true, Bool.or_false,
      Bool.toNat_true, Bool.toNat_false] at hsub ⊢ <;> omega

theorem val_sub (hw : 0 < w) (borrow : Bool) {xs ys : List (BitVec w)} (hlen : xs.length = ys.length) :
    val (sub borrow xs ys).2 + val ys + borrow.toNat = val xs + 2 ^ (w * xs.length) * (sub borrow xs ys).1.toNat := by
  induction xs generalizing borrow ys with
  | nil =>
      cases ys with
      | nil => simp [sub]
      | cons y ys => cases hlen
  | cons x xs ih =>
      cases ys with
      | nil => cases hlen
      | cons y ys =>
          have hword := sub_word hw x y borrow
          have hrest := ih (decide (x.toNat < y.toNat) || decide ((x - y).toNat < borrow.toNat)) (Nat.succ.inj hlen)
          rw [sub, val_cons, val_cons, val_cons, List.length_cons, Nat.mul_succ, Nat.add_comm (w * _), Nat.pow_add]
          generalize (decide (x.toNat < y.toNat) || decide ((x - y).toNat < borrow.toNat)) = lower at hword hrest ⊢
          generalize (x - y - BitVec.ofNat w borrow.toNat).toNat = d at hword ⊢
          calc _ = (d + y.toNat + borrow.toNat) + 2 ^ w * (val (sub lower xs ys).2 + val ys) := by ring
            _ = x.toNat + 2 ^ w * (val (sub lower xs ys).2 + val ys + lower.toNat) := by
                rw [hword]
                ring
            _ = _ := by
                rw [hrest]
                ring

/-- One more, unless all words overflow. -/
def addOne : List (BitVec w) → Option (List (BitVec w))
  | [] => none
  | x :: xs => if x.toNat + 1 < 2 ^ w then some ((x + 1#w) :: xs) else (addOne xs).map (0#w :: ·)

theorem addOne_eq_some {xs ys : List (BitVec w)} (hw : 0 < w) (h : addOne xs = some ys) :
    ys.length = xs.length ∧ val ys = val xs + 1 := by
  induction xs generalizing ys with
  | nil => cases h
  | cons x xs ih =>
      rw [addOne] at h
      split at h
      · rename_i hlt
        cases h
        have hone : 1 < 2 ^ w := Nat.one_lt_two_pow (Nat.ne_of_gt hw)
        refine ⟨rfl, ?_⟩
        rw [val_cons, val_cons, BitVec.toNat_add, BitVec.toNat_ofNat, Nat.mod_eq_of_lt hone, Nat.mod_eq_of_lt hlt]
        ring
      · rename_i hge
        obtain ⟨zs, hzs, rfl⟩ := Option.map_eq_some_iff.mp h
        obtain ⟨hlen, hval⟩ := ih hzs
        have hx := x.isLt
        refine ⟨by simp [hlen], ?_⟩
        rw [val_cons, val_cons, hval, BitVec.toNat_zero, show x.toNat = 2 ^ w - 1 by omega, Nat.mul_add]
        omega

theorem addOne_eq_none {xs : List (BitVec w)} (h : addOne xs = none) : val xs + 1 = 2 ^ (w * xs.length) := by
  induction xs with
  | nil => simp
  | cons x xs ih =>
      rw [addOne] at h
      split at h
      · cases h
      · rename_i hge
        have hrest := ih (Option.map_eq_none_iff.mp h)
        have hx := x.isLt
        rw [val_cons, List.length_cons, Nat.mul_succ, Nat.add_comm (w * _), Nat.pow_add, ← hrest, Nat.mul_add]
        omega

/-- The words denote `n`, or `n` does not fit into `len` words. -/
inductive Fits (len n : Nat) : Option (List (BitVec w)) → Prop
  | some {ys : List (BitVec w)} (length : ys.length = len) (value : val ys = n) : Fits len n (some ys)
  | none (large : 2 ^ (w * len) ≤ n) : Fits len n none

theorem Fits.cons {len n m : Nat} {zs : Option (List (BitVec w))} (h : Fits len n zs) (x : BitVec w)
    (hm : m = x.toNat + 2 ^ w * n) : Fits (len + 1) m (zs.map (x :: ·)) := by
  cases h with
  | some hlen hval => exact .some (by simp [hlen]) (by simp [hval, hm])
  | none hlarge =>
      refine .none ?_
      rw [Nat.mul_succ, Nat.add_comm (w * _), Nat.pow_add, hm]
      exact Nat.le_trans (Nat.mul_le_mul_left _ hlarge) (Nat.le_add_left _ _)

def addCarry (carry : Nat) : List (BitVec w) → Option (List (BitVec w))
  | [] => if carry = 0 then some [] else none
  | x :: xs => if carry = 0 then some (x :: xs) else
      let low := x.toNat + carry % 2 ^ w
      (addCarry (carry / 2 ^ w + low / 2 ^ w) xs).map (BitVec.ofNat w low :: ·)

theorem fits_addCarry (carry : Nat) (xs : List (BitVec w)) : Fits xs.length (val xs + carry) (addCarry carry xs) := by
  induction xs generalizing carry with
  | nil =>
      rw [addCarry]
      split
      · exact .some rfl (by simp_all)
      · exact .none (by simp; omega)
  | cons x xs ih =>
      rw [addCarry]
      split
      · exact .some rfl (by simp_all)
      · refine Fits.cons (ih _) _ ?_
        rw [BitVec.toNat_ofNat, val_cons]
        have hlow := Nat.mod_add_div (x.toNat + carry % 2 ^ w) (2 ^ w)
        have hcarry := Nat.mod_add_div carry (2 ^ w)
        calc x.toNat + 2 ^ w * val xs + carry
            = (x.toNat + carry % 2 ^ w) + 2 ^ w * (carry / 2 ^ w) + 2 ^ w * val xs := by omega
          _ = ((x.toNat + carry % 2 ^ w) % 2 ^ w + 2 ^ w * ((x.toNat + carry % 2 ^ w) / 2 ^ w)) +
                2 ^ w * (carry / 2 ^ w) + 2 ^ w * val xs := by rw [hlow]
          _ = _ := by ring

/-- One row of a product: `factor` times the words on the left, added to the
words on the right and to the carry. Each sum has to fit into two words. -/
def addMulRow (factor : BitVec w) : List (BitVec w) → List (BitVec w) → Nat → Option (List (BitVec w))
  | [], acc, carry => addCarry carry acc
  | r :: rs, [], carry => if factor.toNat * r.toNat = 0 ∧ carry = 0 then addMulRow factor rs [] 0 else none
  | r :: rs, x :: acc, carry =>
      let value := factor.toNat * r.toNat + x.toNat + carry
      if value < 2 ^ w * 2 ^ w then (addMulRow factor rs acc (value / 2 ^ w)).map (BitVec.ofNat w value :: ·) else none

/-- A product of two words and two more words fit into two words. -/
theorem mul_add_add_lt {k a b x c : Nat} (ha : a < k) (hb : b < k) (hx : x < k) (hc : c < k) :
    a * b + x + c < k * k := by
  have hprod : a * b ≤ (k - 1) * (k - 1) := Nat.mul_le_mul (by omega) (by omega)
  obtain ⟨m, rfl⟩ : ∃ m, k = m + 1 := ⟨k - 1, by omega⟩
  rw [Nat.add_sub_cancel] at hprod
  calc a * b + x + c ≤ m * m + m + m := by omega
    _ < (m + 1) * (m + 1) := by
        rw [Nat.succ_mul, Nat.mul_succ]
        omega

theorem fits_addMulRow (factor : BitVec w) (rs acc : List (BitVec w)) {carry : Nat} (hcarry : carry < 2 ^ w) :
    Fits acc.length (val acc + factor.toNat * val rs + carry) (addMulRow factor rs acc carry) := by
  have hzero : 0 < 2 ^ w := Nat.two_pow_pos w
  induction rs generalizing acc carry with
  | nil =>
      rw [addMulRow]
      simpa using fits_addCarry carry acc
  | cons r rs ih =>
      cases acc with
      | nil =>
          rw [addMulRow]
          split
          · rename_i hnone
            have hsum : val ([] : List (BitVec w)) + factor.toNat * val (r :: rs) + carry = 2 ^ w *
                (factor.toNat * val rs) := by
              rw [val_nil, val_cons, Nat.mul_add, hnone.1, hnone.2]
              ring
            have hrest := ih [] hzero
            rw [hsum]
            cases hrow : addMulRow factor rs [] 0 with
            | some ys =>
                rw [hrow] at hrest
                cases hrest with
                | some hlen hval =>
                    refine .some hlen ?_
                    have : factor.toNat * val rs = 0 := by
                      rw [List.length_nil, List.length_eq_zero_iff] at hlen
                      simpa [hlen] using hval.symm
                    simp [hval, this]
            | none =>
                rw [hrow] at hrest
                cases hrest with
                | none hlarge =>
                    refine .none ?_
                    simp only [val_nil, Nat.zero_add, Nat.add_zero] at hlarge
                    exact Nat.le_trans hlarge (Nat.le_mul_of_pos_left _ (Nat.two_pow_pos w))
          · rename_i hzero
            refine .none ?_
            simp only [List.length_nil, Nat.mul_zero, Nat.pow_zero, val_nil, val_cons, Nat.mul_add]
            omega
      | cons x acc =>
          have hfit := mul_add_add_lt factor.isLt r.isLt x.isLt hcarry
          rw [addMulRow]
          simp only [if_pos hfit]
          refine Fits.cons (ih acc (Nat.div_lt_of_lt_mul hfit)) _ ?_
          rw [BitVec.toNat_ofNat, val_cons, val_cons]
          have hvalue := Nat.mod_add_div (factor.toNat * r.toNat + x.toNat + carry) (2 ^ w)
          calc x.toNat + 2 ^ w * val acc + factor.toNat * (r.toNat + 2 ^ w * val rs) + carry
              = (factor.toNat * r.toNat + x.toNat + carry) + 2 ^ w * (val acc + factor.toNat * val rs) := by ring
            _ = ((factor.toNat * r.toNat + x.toNat + carry) % 2 ^ w +
                  2 ^ w * ((factor.toNat * r.toNat + x.toNat + carry) / 2 ^ w)) +
                  2 ^ w * (val acc + factor.toNat * val rs) := by rw [hvalue]
            _ = _ := by ring

def addMul (rs : List (BitVec w)) : List (BitVec w) → List (BitVec w) → Option (List (BitVec w))
  | [], acc => some acc
  | l :: ls, acc => match addMulRow l rs acc 0 with
    | none => none
    | some [] => addMul rs ls []
    | some (x :: row) => (addMul rs ls row).map (x :: ·)

theorem fits_addMul (rs ls acc : List (BitVec w)) : Fits acc.length (val acc + val ls * val rs) (addMul rs ls acc) := by
  induction ls generalizing acc with
  | nil => exact .some rfl (by simp)
  | cons l ls ih =>
      have hrow := fits_addMulRow l rs acc (Nat.two_pow_pos w)
      have hsum : val acc + val (l :: ls) * val rs = val acc + l.toNat * val rs + 2 ^ w * (val ls * val rs) := by
        rw [val_cons]
        ring
      rw [addMul, hsum]
      cases hres : addMulRow l rs acc 0 with
      | none =>
          rw [hres] at hrow
          cases hrow with
          | none hlarge => exact .none (Nat.le_trans hlarge (by omega))
      | some row =>
          rw [hres] at hrow
          cases hrow with
          | some hlen hval =>
              rw [Nat.add_zero] at hval
              rw [← hlen, ← hval]
              cases row with
              | nil =>
                  have hrest := ih []
                  simp only [List.length_nil, val_nil, Nat.zero_add] at hrest ⊢
                  generalize addMul rs ls [] = res at hrest ⊢
                  cases hrest with
                  | some hlen' hval' =>
                      refine .some hlen' ?_
                      rw [List.length_eq_zero_iff] at hlen'
                      subst hlen'
                      simp [← hval']
                  | none hlarge => exact .none (Nat.le_trans hlarge (Nat.le_mul_of_pos_left _ (Nat.two_pow_pos w)))
              | cons x row =>
                  refine Fits.cons (ih row) x ?_
                  rw [val_cons]
                  ring

end TheKernel.Limbs

namespace TheKernel.LongDivision

variable {d : Nat}

/-- Appending a digit to the dividend appends its quotient to the quotient. -/
theorem mul_add_div (hd : 0 < d) (k n c : Nat) : (k * n + c) / d = k * (n / d) + (k * (n % d) + c) / d := by
  have hn := Nat.mod_add_div n d
  calc (k * n + c) / d = (k * (n % d) + c + d * (k * (n / d))) / d := by
        congr 1
        calc k * n + c = k * (n % d + d * (n / d)) + c := by rw [hn]
          _ = _ := by ring
    _ = _ := by rw [Nat.add_mul_div_left _ _ hd, Nat.add_comm]

theorem mul_add_mod (k n c : Nat) : (k * n + c) % d = (k * (n % d) + c) % d := by
  rw [Nat.add_mod, Nat.mul_mod, Nat.add_mod (k * (n % d)), Nat.mul_mod k (n % d), Nat.mod_mod]

/-- The bits of a number from position `p` on, one more at a time. -/
theorem div_two_pow (n p : Nat) : n / 2 ^ p = 2 * (n / 2 ^ (p + 1)) + (n.testBit p).toNat := by
  rw [Nat.toNat_testBit, Nat.pow_succ, ← Nat.div_div_eq_div_mul]
  omega

theorem div_two_pow_div_le (n p : Nat) : n / 2 ^ p / d * 2 ^ p ≤ n / d := by
  rw [Nat.div_div_eq_div_mul, Nat.mul_comm (2 ^ p), ← Nat.div_div_eq_div_mul]
  exact Nat.div_mul_le_self _ _

end TheKernel.LongDivision
