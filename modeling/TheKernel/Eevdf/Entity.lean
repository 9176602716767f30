import TheKernel.Eevdf.Request

namespace TheKernel.Eevdf

open Outcome

structure Clock where
  v : Int
  remainder : Nat
  totalWeight : Nat
  accountedTicks : Nat
  deriving DecidableEq

structure ClockAdvance where
  v : Int
  remainder : Nat
  accountedTicks : Nat
  deltaV : Int

namespace Clock

def new (totalWeight : Nat) : Clock := ⟨0, 0, totalWeight, 0⟩

/-- The two quotients of an advance put together: `quotient` and `remainder`
are of the work alone. -/
def advanceBy (c : Clock) (quotient remainder tickDelta : Nat) : Outcome ModelError ClockAdvance := do
  let (carry, remainder) ← checkedDiv129 (decide (u128Size ≤ remainder + c.remainder))
    ((remainder + c.remainder) % u128Size) c.totalWeight
  let delta ← u128 (quotient + carry)
  let deltaV ← checkedI128 delta
  let v ← i128 (c.v + deltaV)
  let accountedTicks ← u128 (c.accountedTicks + tickDelta)
  .ok ⟨v, remainder, accountedTicks, deltaV⟩

def previewWorkWithTicks (c : Clock) (work accountedTickDelta : Nat) : Outcome ModelError ClockAdvance :=
  if work = 0 then do
    let accountedTicks ← u128 (c.accountedTicks + accountedTickDelta)
    .ok ⟨c.v, c.remainder, accountedTicks, 0⟩
  else if c.totalWeight = 0 then .err .invalidWeight
  else if c.totalWeight ≤ c.remainder then .err .invalidState
  else do
    let (quotient, remainder) ← checkedMulDivRem work 1 c.totalWeight
    c.advanceBy quotient remainder accountedTickDelta

/-- The clock after `set_total_weight` between two nonempty queues. -/
def rescale (c : Clock) (totalWeight : Nat) : Outcome ModelError Clock :=
  if c.totalWeight ≤ c.remainder then .err .invalidState else do
    let rounded ← checkedMulDivRoundNearestEven c.remainder totalWeight c.totalWeight
    match compare rounded totalWeight with
    | .eq => do
        let v ← i128 (c.v + 1)
        .ok { c with v := v, remainder := 0, totalWeight := totalWeight }
    | .lt => .ok { c with remainder := rounded, totalWeight := totalWeight }
    | .gt => .err .invalidState

def setTotalWeight (totalWeight : Nat) : Act Clock ModelError Unit := do
  let c ← Act.get
  if c.totalWeight = totalWeight then
    if totalWeight = 0 then Act.set { c with remainder := 0 } else pure ()
  else if c.totalWeight = 0 ∨ totalWeight = 0 then Act.set { c with totalWeight := totalWeight, remainder := 0 }
  else do
    let next ← Act.lift (c.rescale totalWeight)
    Act.set next

def checkedAddWeight (weight : Nat) : Act Clock ModelError Unit := do
  let c ← Act.get
  let totalWeight ← Act.lift (u128 (c.totalWeight + weight))
  setTotalWeight totalWeight

def checkedSubWeight (weight : Nat) : Act Clock ModelError Unit := do
  let c ← Act.get
  if c.totalWeight < weight then Act.fail .invalidWeight else setTotalWeight (c.totalWeight - weight)

def balance (c : Clock) : Int := c.v * c.totalWeight + c.remainder

theorem advanceBy_eq_ok {c : Clock} {quotient remainder ticks : Nat} {next : ClockAdvance} (hw : 0 < c.totalWeight)
    (hsum : remainder + c.remainder < 2 * u128Size) (h : c.advanceBy quotient remainder ticks = .ok next) :
    next.v = c.v + next.deltaV ∧ next.accountedTicks = c.accountedTicks + ticks ∧ next.remainder < c.totalWeight ∧
      next.deltaV * c.totalWeight + next.remainder = quotient * c.totalWeight + remainder + c.remainder := by
  rw [advanceBy, checkedDiv129_eq hw (Nat.mod_lt _ (by decide)), bind_eq_ok] at h
  obtain ⟨⟨carry, rest⟩, hdiv, h⟩ := h
  rw [bind_eq_ok] at h
  obtain ⟨delta, hdelta, h⟩ := h
  rw [bind_eq_ok] at h
  obtain ⟨deltaV, hdeltaV, h⟩ := h
  rw [bind_eq_ok] at h
  obtain ⟨v, hv, h⟩ := h
  rw [bind_eq_ok] at h
  obtain ⟨accounted, haccounted, h⟩ := h
  cases h
  have hcarry : (decide (u128Size ≤ remainder + c.remainder)).toNat * u128Size + (remainder + c.remainder) % u128Size =
      remainder + c.remainder := by
    by_cases hge : u128Size ≤ remainder + c.remainder
    · rw [decide_eq_true hge, Bool.toNat_true, Nat.mod_eq_sub_mod hge, Nat.mod_eq_of_lt (by omega)]
      omega
    · rw [decide_eq_false hge, Bool.toNat_false, Nat.mod_eq_of_lt (by omega)]
      omega
  rw [hcarry, quotRem_eq_ok, Prod.mk.injEq] at hdiv
  rw [u128_eq_ok] at hdelta haccounted
  rw [checkedI128_eq, i128_eq_ok] at hdeltaV
  rw [i128_eq_ok] at hv
  obtain ⟨-, hq, hr⟩ := hdiv
  refine ⟨hv.1.symm, haccounted.1.symm, ?_, ?_⟩
  · rw [hr]
    exact Nat.mod_lt _ hw
  · have hsplit := Nat.mod_add_div (remainder + c.remainder) c.totalWeight
    rw [← hq, ← hr] at hsplit
    rw [← hdeltaV.1, ← hdelta.1]
    have : ((quotient + carry : Nat) : Int) * c.totalWeight + rest =
        quotient * c.totalWeight + ((rest + c.totalWeight * carry : Nat) : Int) := by
      push_cast
      ring
    rw [this, hsplit]
    push_cast
    ring

/-- An advance splits the work, with what was left over, between the clock and
the new remainder. -/
theorem previewWorkWithTicks_eq_ok {c : Clock} {work ticks : Nat} {next : ClockAdvance} (hw : c.totalWeight < u128Size)
    (hwork : work < u128Size) (h : c.previewWorkWithTicks work ticks = .ok next) :
    next.v = c.v + next.deltaV ∧ next.accountedTicks = c.accountedTicks + ticks ∧
      next.deltaV * c.totalWeight + next.remainder = work + c.remainder ∧
      (work = 0 ∧ next.remainder = c.remainder ∨ c.remainder < c.totalWeight ∧ next.remainder < c.totalWeight) := by
  rw [previewWorkWithTicks] at h
  split at h
  · rename_i hzero
    rw [bind_eq_ok] at h
    obtain ⟨accounted, haccounted, h⟩ := h
    rw [u128_eq_ok] at haccounted
    cases h
    refine ⟨by simp, haccounted.1.symm, ?_, .inl ⟨hzero, rfl⟩⟩
    simp [hzero]
  · split at h
    · cases h
    · rename_i hne
      split at h
      · cases h
      · rename_i hlt
        have hpos : 0 < c.totalWeight := Nat.pos_of_ne_zero hne
        have hlt : c.remainder < c.totalWeight := Nat.lt_of_not_le hlt
        rw [checkedMulDivRem_eq hwork (by decide) hpos hw, bind_eq_ok] at h
        obtain ⟨⟨q, r⟩, hdiv, h⟩ := h
        rw [quotRem_eq_ok, Nat.mul_one, Prod.mk.injEq] at hdiv
        obtain ⟨-, rfl, rfl⟩ := hdiv
        have hmod := Nat.mod_lt work hpos
        obtain ⟨hv, haccounted, hrem, hsum⟩ := advanceBy_eq_ok hpos (by omega) h
        refine ⟨hv, haccounted, ?_, .inr ⟨hlt, hrem⟩⟩
        rw [hsum]
        have hsplit := Nat.div_add_mod' work c.totalWeight
        exact_mod_cast congrArg (fun n : Nat => (n : Int) + c.remainder) hsplit

end Clock

structure Entity where
  cls : RequestClass
  weight : Nat
  lag : Int
  lagStamp : Int
  request : Request
  sleeperV : Option Int

namespace Entity

def isSleeping (e : Entity) : Bool := e.sleeperV.isSome

def lagAt (e : Entity) (v : Int) : Outcome ModelError Int :=
  if e.weight = 0 then .err .invalidWeight
  else if e.sleeperV.isSome then .ok e.lag
  else checkedLagAt e.lag e.lagStamp e.weight v

def eligibleAt (e : Entity) : Outcome ModelError Int :=
  if e.weight = 0 then .err .invalidWeight
  else if 0 ≤ e.lag then .ok e.lagStamp
  else do
    let quotient ← checkedCeilDiv e.lag.natAbs e.weight
    let offset ← checkedI128 quotient
    i128 (e.lagStamp + offset)

def isEligible (e : Entity) (v : Int) : Outcome ModelError Bool := do
  let lag ← e.lagAt v
  .ok (0 ≤ lag)

def serviceWork (ticks fractionQ : Nat) : Outcome ModelError Nat := do
  let wholeWork ← checkedWork ticks
  let fractionalWork ← u128 (fractionQ * nice0)
  u128 (wholeWork.toNat + fractionalWork)

def service (ticks fractionQ : Nat) : Act (Entity × Clock) ModelError Int :=
  if one ≤ fractionQ then Act.fail .invalidState
  else if ticks = 0 ∧ fractionQ = 0 then pure 0
  else do
    let (e, clock) ← Act.get
    if e.weight = 0 then Act.fail .invalidWeight
    else if e.sleeperV.isSome then Act.fail .invalidState
    else do
      let serviceWork ← Act.lift (serviceWork ticks fractionQ)
      let nextClock ← Act.lift (clock.previewWorkWithTicks serviceWork ticks)
      let lag ← Act.lift (checkedLagAt e.lag e.lagStamp e.weight nextClock.v)
      let charge ← Act.lift (checkedI128 serviceWork)
      let nextLag ← Act.lift (i128 (lag - charge))
      let nextRequest ← Act.lift ((Request.consumeWorkUpTo serviceWork).onCopy e.request)
      Act.modify fun s => (s.1, { s.2 with
        v := nextClock.v
        remainder := nextClock.remainder
        accountedTicks := nextClock.accountedTicks })
      Act.modify fun s => ({ s.1 with lag := nextLag, lagStamp := nextClock.v, request := nextRequest }, s.2)
      pure nextClock.deltaV

end Entity

end TheKernel.Eevdf
