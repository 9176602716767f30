import Mathlib.Algebra.BigOperators.Group.Finset.Basic
import Mathlib.Algebra.BigOperators.Ring.Finset
import Mathlib.Order.Bounds.Basic
import TheKernel.Eevdf.Entity
import TheKernel.Eevdf.RequestRun

namespace TheKernel.Eevdf

open Outcome Finset

namespace Entity

def exactLag (e : Entity) (v : Int) : Int := e.lag + (v - e.lagStamp) * e.weight

theorem checkedLagAt_eq_ok {lag stamp v l : Int} {weight : Nat} (h : checkedLagAt lag stamp weight v = .ok l) :
    l = lag + (v - stamp) * weight := by
  rw [checkedLagAt] at h
  split at h
  · cases h
  · rw [bind_eq_ok] at h
    obtain ⟨delta, hdelta, h⟩ := h
    rw [bind_eq_ok] at h
    obtain ⟨change, hchange, h⟩ := h
    rw [checkedMulI128U128_eq] at hchange
    rw [i128_eq_ok] at hdelta hchange h
    rw [← h.1, ← hchange.1, ← hdelta.1]

theorem lagAt_eq_ok {e : Entity} {v l : Int} (hawake : e.sleeperV = none) (h : e.lagAt v = .ok l) :
    l = e.exactLag v := by
  rw [lagAt] at h
  split at h
  · cases h
  · rw [hawake, Option.isSome_none, if_neg Bool.false_ne_true] at h
    exact checkedLagAt_eq_ok h

def charge (ticks fractionQ : Nat) : Nat := ticks * WORK + fractionQ * nice0

theorem serviceWork_eq_ok {ticks fractionQ work : Nat} (h : serviceWork ticks fractionQ = .ok work) :
    work = charge ticks fractionQ ∧ work < u128Size := by
  rw [serviceWork, bind_eq_ok] at h
  obtain ⟨whole, hwhole, h⟩ := h
  rw [bind_eq_ok] at h
  obtain ⟨fractional, hfractional, h⟩ := h
  rw [u128_eq_ok] at hfractional h
  rw [charge, ← (Request.checkedWork_eq_ok hwhole).1, hfractional.1]
  exact ⟨h.1.symm, h.1 ▸ h.2⟩

theorem atomic_service (ticks fractionQ : Nat) : Act.Atomic (service ticks fractionQ) := by
  refine Act.atomic_ite (Act.atomic_fail _) (Act.atomic_ite (Act.readOnly_pure _).atomic ?_)
  refine .bind Act.readOnly_get fun s => ?_
  refine Act.atomic_ite (Act.atomic_fail _) (Act.atomic_ite (Act.atomic_fail _) ?_)
  refine .bind (Act.readOnly_lift _) fun work => .bind (Act.readOnly_lift _) fun next => ?_
  refine .bind (Act.readOnly_lift _) fun lag => .bind (Act.readOnly_lift _) fun charge => ?_
  refine .bind (Act.readOnly_lift _) fun nextLag => .bind (Act.readOnly_lift _) fun request => ?_
  exact fun _ h => by cases h

/-- What a successful service does to the entity's account and to the clock. -/
theorem service_eq_ok {e e' : Entity} {c c' : Clock} {ticks fractionQ : Nat} {delta : Int}
    (hw : c.totalWeight < u128Size) (h : service ticks fractionQ (e, c) = (.ok delta, (e', c'))) :
    e'.weight = e.weight ∧ e'.sleeperV = e.sleeperV ∧ c'.totalWeight = c.totalWeight ∧
      e'.exactLag c'.v = e.exactLag c'.v - charge ticks fractionQ ∧
      c'.balance = c.balance + charge ticks fractionQ ∧
      (c.remainder < c.totalWeight → c'.remainder < c'.totalWeight) := by
  rw [service] at h
  split at h
  · cases h
  · split at h
    · rename_i hnone
      cases h
      simp [hnone.1, hnone.2, charge]
    · obtain ⟨_, _, hget, h⟩ := Act.bind_eq_ok.mp h
      cases hget
      simp only at h
      split at h
      · cases h
      · split at h
        · cases h
        · obtain ⟨work, _, hwork, h⟩ := Act.bind_eq_ok.mp h
          rw [Act.lift_apply, Prod.mk.injEq] at hwork
          obtain ⟨hwork, rfl⟩ := hwork
          obtain ⟨next, _, hnext, h⟩ := Act.bind_eq_ok.mp h
          rw [Act.lift_apply, Prod.mk.injEq] at hnext
          obtain ⟨hnext, rfl⟩ := hnext
          obtain ⟨lag, _, hlag, h⟩ := Act.bind_eq_ok.mp h
          rw [Act.lift_apply, Prod.mk.injEq] at hlag
          obtain ⟨hlag, rfl⟩ := hlag
          obtain ⟨paid, _, hpaid, h⟩ := Act.bind_eq_ok.mp h
          rw [Act.lift_apply, Prod.mk.injEq, checkedI128_eq, i128_eq_ok] at hpaid
          obtain ⟨⟨rfl, -⟩, rfl⟩ := hpaid
          obtain ⟨nextLag, _, hnextLag, h⟩ := Act.bind_eq_ok.mp h
          rw [Act.lift_apply, Prod.mk.injEq, i128_eq_ok] at hnextLag
          obtain ⟨⟨rfl, -⟩, rfl⟩ := hnextLag
          obtain ⟨request, _, hrequest, h⟩ := Act.bind_eq_ok.mp h
          rw [Act.lift_apply, Prod.mk.injEq] at hrequest
          obtain ⟨-, rfl⟩ := hrequest
          cases h
          obtain ⟨rfl, hlt⟩ := serviceWork_eq_ok hwork
          obtain ⟨hv, -, hsum, hrem⟩ := Clock.previewWorkWithTicks_eq_ok hw hlt hnext
          have hlag := checkedLagAt_eq_ok hlag
          refine ⟨rfl, rfl, rfl, ?_, ?_, fun hold => ?_⟩
          · simp [exactLag, hlag]
          · simp only [Clock.balance, hv]
            linarith
          · rcases hrem with ⟨-, hsame⟩ | ⟨-, hnew⟩
            · simpa [hsame] using hold
            · exact hnew

end Entity

structure Group (ι : Type) where
  entities : ι → Entity
  clock : Clock

namespace Group

variable {ι : Type} [DecidableEq ι]

structure Call (ι : Type) where
  target : ι
  ticks : Nat
  fractionQ : Nat

def serve (g : Group ι) (call : Call ι) : Outcome ModelError Int × Group ι :=
  let result := Entity.service call.ticks call.fractionQ (g.entities call.target, g.clock)
  (result.1, ⟨Function.update g.entities call.target result.2.1, result.2.2⟩)

/-- A sequence of calls, with the work that the successful ones charge. -/
def serveAll (g : Group ι) : List (Call ι) → Group ι × Nat
  | [] => (g, 0)
  | call :: calls =>
      let rest := serveAll (g.serve call).2 calls
      (rest.1, (if (g.serve call).1.isOk then Entity.charge call.ticks call.fractionQ else 0) + rest.2)

theorem serve_of_error {g : Group ι} {call : Call ι} (h : (g.serve call).1.isOk = false) : (g.serve call).2 = g := by
  have hsame := Entity.atomic_service call.ticks call.fractionQ (g.entities call.target, g.clock) h
  simp only [serve]
  rw [hsame]
  simp

variable [Fintype ι]

/-- The lags at the clock's virtual time and the clock's remainder. -/
def total (g : Group ι) : Int := ∑ i, (g.entities i).exactLag g.clock.v + g.clock.remainder

structure Shared (g : Group ι) : Prop where
  totalWeight : g.clock.totalWeight = ∑ i, (g.entities i).weight
  size : g.clock.totalWeight < u128Size
  awake : ∀ i, (g.entities i).sleeperV = none

theorem exactLag_eq (e : Entity) (v v' : Int) : e.exactLag v' = e.exactLag v + (v' - v) * e.weight := by
  rw [Entity.exactLag, Entity.exactLag]
  ring

/-- One successful call moves work from the entities' lags to the clock. -/
theorem serve_of_ok {g : Group ι} (h : g.Shared) {call : Call ι} (hok : (g.serve call).1.isOk = true) :
    (g.serve call).2.Shared ∧ (g.serve call).2.total = g.total ∧
      (g.serve call).2.clock.totalWeight = g.clock.totalWeight ∧
      (g.serve call).2.clock.balance = g.clock.balance + Entity.charge call.ticks call.fractionQ ∧
      (g.clock.remainder < g.clock.totalWeight → (g.serve call).2.clock.remainder < g.clock.totalWeight) := by
  obtain ⟨delta, hdelta⟩ := Outcome.isOk_iff.mp hok
  simp only [serve] at hdelta ⊢
  generalize hres : Entity.service call.ticks call.fractionQ (g.entities call.target, g.clock) = result at hdelta ⊢
  obtain ⟨o, e', c'⟩ := result
  simp only at hdelta ⊢
  subst hdelta
  obtain ⟨hweight, hsleep, htotal, hlag, hbalance, hrem⟩ := Entity.service_eq_ok h.size hres
  have hpoint (i : ι) : (Function.update g.entities call.target e' i).weight = (g.entities i).weight := by
    by_cases hi : i = call.target
    · subst hi
      simpa using hweight
    · rw [Function.update_of_ne hi]
  have hlags (i : ι) : (Function.update g.entities call.target e' i).exactLag c'.v =
      (g.entities i).exactLag g.clock.v + (c'.v - g.clock.v) * (g.entities i).weight -
        (if i = call.target then (Entity.charge call.ticks call.fractionQ : Int) else 0) := by
    rw [← exactLag_eq]
    by_cases hi : i = call.target
    · subst hi
      simpa using hlag
    · rw [Function.update_of_ne hi, if_neg hi, sub_zero]
  have hsum : ∑ i, (Function.update g.entities call.target e' i).exactLag c'.v =
      ∑ i, (g.entities i).exactLag g.clock.v + (c'.v - g.clock.v) * g.clock.totalWeight -
        Entity.charge call.ticks call.fractionQ := by
    simp only [hlags, sum_sub_distrib, sum_add_distrib, ← mul_sum, sum_ite_eq', mem_univ, if_true]
    rw [h.totalWeight]
    push_cast
    rfl
  refine ⟨⟨?_, ?_, ?_⟩, ?_, htotal, hbalance, fun hold => ?_⟩
  · simp only [hpoint]
    rw [htotal, h.totalWeight]
  · rw [htotal]
    exact h.size
  · intro i
    show (Function.update g.entities call.target e' i).sleeperV = none
    by_cases hi : i = call.target
    · subst hi
      rw [Function.update_self, hsleep]
      exact h.awake _
    · rw [Function.update_of_ne hi]
      exact h.awake i
  · rw [total, total, hsum]
    rw [Clock.balance, Clock.balance, htotal] at hbalance
    linarith
  · rw [← htotal]
    exact hrem hold

/-- Over any sequence of service calls on awake entities that share a clock:
the lags at the clock's time and the clock's remainder keep their sum; the
clock takes up exactly the work charged, with its remainder below the total
weight; `lag_at` is that lag wherever it returns one; and a call that fails
changes nothing. -/
theorem service_conserves (g : Group ι) (h : g.Shared) (calls : List (Call ι)) :
    (g.serveAll calls).1.Shared ∧
    (g.serveAll calls).1.total = g.total ∧
    (g.serveAll calls).1.clock.balance = g.clock.balance + (g.serveAll calls).2 ∧
    (g.clock.remainder < g.clock.totalWeight → (g.serveAll calls).1.clock.remainder <
      (g.serveAll calls).1.clock.totalWeight) ∧
    (∀ i l, ((g.serveAll calls).1.entities i).lagAt (g.serveAll calls).1.clock.v = .ok l →
      l = ((g.serveAll calls).1.entities i).exactLag (g.serveAll calls).1.clock.v) ∧
    (∀ call e, ((g.serveAll calls).1.serve call).1 = .err e → ((g.serveAll calls).1.serve call).2 =
      (g.serveAll calls).1) := by
  induction calls generalizing g with
  | nil =>
      refine ⟨h, rfl, by simp [serveAll], id, fun i l hl => Entity.lagAt_eq_ok (h.awake i) hl, fun call e he => ?_⟩
      apply serve_of_error
      rw [he]
      rfl
  | cons call calls ih =>
      simp only [serveAll]
      cases hok : (g.serve call).1.isOk with
      | false =>
          rw [serve_of_error hok]
          simpa using ih g h
      | true =>
          obtain ⟨hshared, htotal, hweight, hbalance, hrem⟩ := serve_of_ok h hok
          obtain ⟨hs, ht, hb, hr, hl, he⟩ := ih _ hshared
          refine ⟨hs, ht.trans htotal, ?_, fun hold => hr ?_, hl, he⟩
          · rw [hb, hbalance, if_pos rfl]
            push_cast
            ring
          · rw [hweight]
            exact hrem hold

def pair : Group Bool where
  entities _ := ⟨.normal, 1024, 0, 0, ⟨.normal, 4, 4, 4 * WORK, 1, 1, 4 * one, 0, 4 * one⟩, none⟩
  clock := Clock.new 2048

theorem shared_pair : pair.Shared where
  totalWeight := by simp [pair, Clock.new]
  size := by decide
  awake _ := rfl

theorem service_conserves_pair :
    pair.Shared ∧ (pair.serve ⟨true, 1, 0⟩).1.isOk = true ∧
      (pair.serveAll [⟨true, 1, 0⟩, ⟨false, 0, 5⟩]).1.total = pair.total :=
  ⟨shared_pair, by decide +kernel, (service_conserves pair shared_pair [⟨true, 1, 0⟩, ⟨false, 0, 5⟩]).2.1⟩

end Group

namespace Entity

variable {e : Entity} {u v t l : Int}

structure Fits (e : Entity) : Prop where
  lag : i128Min ≤ e.lag ∧ e.lag ≤ i128Max
  lagStamp : i128Min ≤ e.lagStamp ∧ e.lagStamp ≤ i128Max
  weight : e.weight < u128Size

def threshold (e : Entity) : Int := if 0 ≤ e.lag then e.lagStamp else e.lagStamp + ceilDiv e.lag.natAbs e.weight

theorem lagStamp_le_threshold (e : Entity) : e.lagStamp ≤ e.threshold := by
  rw [threshold]
  split
  · exact Int.le_refl _
  · omega

theorem threshold_le_iff (hw : 0 < e.weight) (hu : e.lagStamp ≤ u) : e.threshold ≤ u ↔ 0 ≤ e.exactLag u := by
  obtain ⟨k, hk⟩ := Int.eq_ofNat_of_zero_le (Int.sub_nonneg.mpr hu)
  rw [threshold, exactLag, hk]
  have hprod : (0 : Int) ≤ (k : Int) * e.weight := Int.mul_nonneg (Int.natCast_nonneg k) (Int.natCast_nonneg _)
  split
  · constructor
    · intro _
      omega
    · intro _
      exact hu
  · rename_i hneg
    have hle := ceilDiv_le_iff hw (n := e.lag.natAbs) (k := k)
    have habs : (e.lag.natAbs : Int) = -e.lag := Int.ofNat_natAbs_of_nonpos (by omega)
    calc e.lagStamp + (ceilDiv e.lag.natAbs e.weight : Int) ≤ u ↔ ceilDiv e.lag.natAbs e.weight ≤ k := by omega
      _ ↔ e.lag.natAbs ≤ k * e.weight := hle
      _ ↔ (e.lag.natAbs : Int) ≤ (k : Int) * e.weight := by
          rw [← Int.natCast_mul]
          exact Int.ofNat_le.symm
      _ ↔ 0 ≤ e.lag + (k : Int) * e.weight := by omega

/-- No earlier time after the stamp has a lag of zero or more. -/
theorem isLeast_threshold (hw : 0 < e.weight) : IsLeast {u | e.lagStamp ≤ u ∧ 0 ≤ e.exactLag u} e.threshold := by
  have hstamp := e.lagStamp_le_threshold
  constructor
  · exact ⟨hstamp, (threshold_le_iff hw hstamp).mp (Int.le_refl _)⟩
  · intro u hu
    exact (threshold_le_iff hw hu.1).mpr hu.2

theorem natAbs_lag_lt (h : e.Fits) : e.lag.natAbs < u128Size := by
  have hlag := h.lag
  rw [i128Min, i128Max] at hlag
  rw [u128Size]
  omega

theorem eligibleAt_eq_ok (h : e.Fits) (ht : e.eligibleAt = .ok t) : 0 < e.weight ∧ t = e.threshold := by
  rw [eligibleAt] at ht
  split at ht
  · cases ht
  · have hw : 0 < e.weight := Nat.pos_of_ne_zero ‹_›
    refine ⟨hw, ?_⟩
    rw [threshold]
    split at ht
    · rw [if_pos ‹_›]
      exact (Outcome.ok.inj ht).symm
    · rw [checkedCeilDiv_eq (natAbs_lag_lt h) hw, bind_eq_ok] at ht
      obtain ⟨quotient, hquotient, ht⟩ := ht
      rw [bind_eq_ok] at ht
      obtain ⟨offset, hoffset, ht⟩ := ht
      rw [u128_eq_ok] at hquotient
      rw [checkedI128_eq, i128_eq_ok] at hoffset
      rw [i128_eq_ok] at ht
      rw [if_neg ‹_›, ← ht.1, ← hoffset.1, hquotient.1]

/-- A threshold that an `i128` can reach from the stamp is returned. -/
theorem eligibleAt_of_le (h : e.Fits) (hw : 0 < e.weight) (hle : e.threshold ≤ u) (hu : u ≤ i128Max)
    (hdelta : u - e.lagStamp ≤ i128Max) : e.eligibleAt = .ok e.threshold := by
  have hstamp := h.lagStamp
  rw [eligibleAt, if_neg (Nat.ne_of_gt hw)]
  rw [threshold] at hle ⊢
  split
  · rfl
  · rw [if_neg ‹_›] at hle
    have hquotient : ceilDiv e.lag.natAbs e.weight < u128Size := by
      rw [i128Max] at hdelta
      rw [u128Size]
      omega
    rw [checkedCeilDiv_eq (natAbs_lag_lt h) hw, u128_of_lt hquotient, ok_bind, checkedI128_eq]
    have hoffset : i128 (ceilDiv e.lag.natAbs e.weight) = .ok (ceilDiv e.lag.natAbs e.weight : Int) := by
      rw [i128_eq_ok]
      refine ⟨rfl, ?_, by omega⟩
      rw [i128Min]
      omega
    rw [hoffset, ok_bind, i128_eq_ok]
    exact ⟨rfl, by omega, by omega⟩

theorem lagAt_eq_ok_iff (hawake : e.sleeperV = none) :
    e.lagAt v = .ok l ↔ 0 < e.weight ∧ l = e.exactLag v ∧ (i128Min ≤ v - e.lagStamp ∧ v - e.lagStamp ≤ i128Max) ∧
      (i128Min ≤ (v - e.lagStamp) * e.weight ∧ (v - e.lagStamp) * e.weight ≤ i128Max) ∧ i128Min ≤ l ∧ l ≤ i128Max := by
  rw [lagAt, hawake]
  by_cases hzero : e.weight = 0
  · simp [hzero]
  · simp only [if_neg hzero, Option.isSome_none, Bool.false_eq_true, if_false, checkedLagAt, checkedMulI128U128_eq,
      bind_eq_ok, i128_eq_ok, exactLag, Nat.pos_of_ne_zero hzero, true_and]
    constructor
    · rintro ⟨_, ⟨rfl, hdelta⟩, _, ⟨rfl, hchange⟩, rfl, hlag⟩
      exact ⟨rfl, hdelta, hchange, hlag⟩
    · rintro ⟨rfl, hdelta, hchange, hlag⟩
      exact ⟨_, ⟨rfl, hdelta⟩, _, ⟨rfl, hchange⟩, rfl, hlag⟩

theorem i128_cases (x : Int) : i128 x = .ok x ∨ i128 x = .err .arithmeticExhausted := by
  rw [i128]
  split
  · exact .inl rfl
  · exact .inr rfl

theorem lagAt_of_ne_exhausted (hw : 0 < e.weight) (hawake : e.sleeperV = none)
    (h : e.lagAt v ≠ .err .arithmeticExhausted) : e.lagAt v = .ok (e.exactLag v) := by
  rw [lagAt, if_neg (Nat.ne_of_gt hw), hawake, Option.isSome_none, if_neg Bool.false_ne_true, checkedLagAt,
    if_neg (Nat.ne_of_gt hw)] at h ⊢
  rcases i128_cases (v - e.lagStamp) with hdelta | hdelta
  · rw [hdelta, ok_bind, checkedMulI128U128_eq] at h ⊢
    rcases i128_cases ((v - e.lagStamp) * e.weight) with hchange | hchange
    · rw [hchange, ok_bind] at h ⊢
      exact (i128_cases _).resolve_right h
    · rw [hchange, err_bind] at h
      exact absurd rfl h
  · rw [hdelta, err_bind] at h
    exact absurd rfl h

/-- Between the stamp and a time at which `lag_at` returns, it returns. -/
theorem lagAt_of_le (h : e.Fits) (hawake : e.sleeperV = none) (hl : e.lagAt v = .ok l) (hu : e.lagStamp ≤ u)
    (huv : u ≤ v) : e.lagAt u = .ok (e.exactLag u) := by
  rw [lagAt_eq_ok_iff hawake] at hl ⊢
  obtain ⟨hw, rfl, hdelta, hchange, hlag⟩ := hl
  have hlow : 0 ≤ (u - e.lagStamp) * (e.weight : Int) := Int.mul_nonneg (by omega) (Int.natCast_nonneg _)
  have hhigh : (u - e.lagStamp) * (e.weight : Int) ≤ (v - e.lagStamp) * e.weight :=
    Int.mul_le_mul_of_nonneg_right (by omega) (Int.natCast_nonneg _)
  have hmin : i128Min ≤ 0 := by decide
  have hstart := h.lag
  rw [exactLag] at hlag ⊢
  refine ⟨hw, rfl, ⟨?_, ?_⟩, ⟨?_, ?_⟩, ?_, ?_⟩ <;> omega

/-- `is_eligible` decides on the time that `eligible_at` returns, wherever
`lag_at` does not overflow; and `eligible_at` is the least time from the stamp
on with a lag of zero or more, of the exact lags and of those that `lag_at`
returns. -/
theorem eligible_at_threshold (e : Entity) (h : e.Fits) (hawake : e.isSleeping = false) (v : Int)
    (hv : i128Min ≤ v ∧ v ≤ i128Max) (hstamp : e.lagStamp ≤ v) (hlag : e.lagAt v ≠ .err .arithmeticExhausted) :
    (e.isEligible v = .ok true ↔ ∃ t, e.eligibleAt = .ok t ∧ t ≤ v) ∧
    (∀ t, e.eligibleAt = .ok t → IsLeast {u | e.lagStamp ≤ u ∧ 0 ≤ e.exactLag u} t) ∧
    ((∃ u ≤ i128Max, e.lagStamp ≤ u ∧ ∃ l, e.lagAt u = .ok l ∧ 0 ≤ l) →
      ∃ t, e.eligibleAt = .ok t ∧ IsLeast {u | e.lagStamp ≤ u ∧ ∃ l, e.lagAt u = .ok l ∧ 0 ≤ l} t) := by
  have hawake : e.sleeperV = none := Option.not_isSome_iff_eq_none.mp (by rw [← isSleeping, hawake]; decide)
  -- a time with such a lag is past the threshold, which is then returned
  have hreached : ∀ u l, u ≤ i128Max → e.lagStamp ≤ u → e.lagAt u = .ok l → 0 ≤ l →
      e.eligibleAt = .ok e.threshold ∧ e.threshold ≤ u := by
    intro u l hu hstamp hl hnonneg
    obtain ⟨hw, rfl, hdelta, -⟩ := (lagAt_eq_ok_iff hawake).mp hl
    have hle := (threshold_le_iff hw hstamp).mpr hnonneg
    exact ⟨eligibleAt_of_le h hw hle hu hdelta.2, hle⟩
  refine ⟨?_, ?_, ?_⟩
  · rw [isEligible, bind_eq_ok]
    constructor
    · rintro ⟨l, hl, hnonneg⟩
      obtain ⟨ht, hle⟩ := hreached v l hv.2 hstamp hl (by simpa using hnonneg)
      exact ⟨_, ht, hle⟩
    · rintro ⟨t, ht, hle⟩
      obtain ⟨hw, rfl⟩ := eligibleAt_eq_ok h ht
      exact ⟨_, lagAt_of_ne_exhausted hw hawake hlag, by simpa using (threshold_le_iff hw hstamp).mp hle⟩
  · intro t ht
    obtain ⟨hw, rfl⟩ := eligibleAt_eq_ok h ht
    exact isLeast_threshold hw
  · rintro ⟨v, hv, hstamp, l, hl, hnonneg⟩
    obtain ⟨ht, hle⟩ := hreached v l hv hstamp hl hnonneg
    have hw := ((lagAt_eq_ok_iff hawake).mp hl).1
    refine ⟨_, ht, ⟨e.lagStamp_le_threshold, _, lagAt_of_le h hawake hl e.lagStamp_le_threshold hle, ?_⟩, ?_⟩
    · exact (isLeast_threshold hw).1.2
    · rintro u ⟨hu, l', hl', hnonneg'⟩
      obtain ⟨-, rfl, -⟩ := (lagAt_eq_ok_iff hawake).mp hl'
      exact (threshold_le_iff hw hu).mpr hnonneg'

def debtor : Entity := ⟨.normal, 3, -10, 100, ⟨.normal, 8, 8, 8 * WORK, 1, 1, 8 * one, 0, 8 * one⟩, none⟩

theorem fits_debtor : debtor.Fits := ⟨by decide, by decide, by decide⟩

theorem eligible_at_threshold_debtor :
    debtor.eligibleAt = .ok 104 ∧ debtor.isEligible 103 = .ok false ∧ debtor.isEligible 104 = .ok true ∧
      IsLeast {u | debtor.lagStamp ≤ u ∧ 0 ≤ debtor.exactLag u} 104 := by
  have h := eligible_at_threshold debtor fits_debtor rfl 104 (by decide) (by decide) (by decide)
  have ht : debtor.eligibleAt = .ok 104 := by decide
  exact ⟨ht, by decide, h.1.mpr ⟨104, ht, by decide⟩, h.2.1 104 ht⟩

end Entity

end TheKernel.Eevdf
