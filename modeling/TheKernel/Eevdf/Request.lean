import TheKernel.Lib.Action
import TheKernel.Eevdf.Wide

namespace TheKernel.Eevdf

open Outcome

def one : Nat := 2 ^ 32

def nice0 : Nat := 1024

def WORK : Nat := nice0 * one

inductive RequestClass where
  | normal | batch | idle
  deriving DecidableEq

def RequestClass.targetTicks : RequestClass → Nat
  | .normal => 8
  | .batch => 32
  | .idle => 8

def checkedWork (ticks : Nat) : Outcome ModelError Int := do
  let work ← u128 (ticks * WORK)
  checkedI128 work

def checkedVirtualLength (q weight : Nat) : Outcome ModelError Int :=
  if weight = 0 then .err .invalidWeight else do
    let length ← checkedMulDivCeil q WORK weight
    checkedI128 length

def checkedLagAt (lag stamp : Int) (weight : Nat) (v : Int) : Outcome ModelError Int :=
  if weight = 0 then .err .invalidWeight else do
    let delta ← i128 (v - stamp)
    let change ← checkedMulI128U128 delta weight
    i128 (lag + change)

def checkedDeadline (start length : Int) : Outcome ModelError Int := i128 (start + length)

def requestQuantum (cls : RequestClass) (weight totalWeight : Nat) : Outcome ModelError Nat :=
  if weight = 0 ∨ totalWeight = 0 then .err .invalidWeight
  else if totalWeight ≤ weight then .ok cls.targetTicks
  else do
    let q ← checkedMulDivCeil cls.targetTicks weight totalWeight
    .ok (min (max q 1) cls.targetTicks)

def signedCeilNegDiv (value : Int) (denominator : Nat) : Outcome ModelError Int :=
  if denominator = 0 then .err .invalidWeight
  else if 0 ≤ value then .ok (-((value.natAbs / denominator : Nat) : Int))
  else do
    let quotient ← checkedCeilDiv value.natAbs denominator
    checkedI128 quotient

def requestStart (v materializedLag : Int) (weight : Nat) : Outcome ModelError Int := do
  let offset ← signedCeilNegDiv materializedLag weight
  i128 (v + offset)

structure Request where
  cls : RequestClass
  q : Nat
  remainingTicks : Nat
  remainingWork : Nat
  remainingFractionNum : Nat
  remainingFractionDen : Nat
  virtualLength : Int
  start : Int
  deadline : Int
  deriving DecidableEq

namespace Request

def fractionalWork (fractionalTicks fractionDen : Nat) : Outcome ModelError Nat :=
  if fractionalTicks = 0 then .ok 0 else checkedMulDivCeil fractionalTicks WORK fractionDen

def joinWork (wholeTicks fractionalTicks fractionDen : Nat) : Outcome ModelError (Nat × Nat) := do
  let fractionalWork ← fractionalWork fractionalTicks fractionDen
  let wholeWork ← u128 (wholeTicks * WORK)
  let remainingWork ← u128 (wholeWork + fractionalWork)
  let remainingTicks ← checkedCeilDiv remainingWork WORK
  .ok (remainingWork, remainingTicks)

def projection (q fractionNum fractionDen : Nat) : Outcome ModelError (Nat × Nat) :=
  if q = 0 ∨ fractionDen = 0 ∨ fractionDen < fractionNum then .err .invalidState else do
    let (wholeTicks, fractionalTicks) ← checkedMulDivRem fractionNum q fractionDen
    joinWork wholeTicks fractionalTicks fractionDen

def exactValid (r : Request) : Outcome ModelError Unit := do
  let (remainingWork, remainingTicks) ← projection r.q r.remainingFractionNum r.remainingFractionDen
  if remainingWork ≠ r.remainingWork ∨ remainingTicks ≠ r.remainingTicks then .err .invalidState else .ok ()

def remainingVirtualLength (r : Request) (weight : Nat) : Outcome ModelError Int :=
  if weight = 0 then .err .invalidWeight else do
    r.exactValid
    let length ← checkedRatioCeil r.remainingFractionNum r.q WORK r.remainingFractionDen weight
    checkedI128 length

/-- The fraction in lowest terms, with `gcd` zero only for `0 / 0`. -/
def lowest (num den : Nat) : Nat × Nat :=
  if gcdU128 num den = 0 then (0, 1) else (num / gcdU128 num den, den / gcdU128 num den)

def setFraction (num den : Nat) : Act Request ModelError Unit := do
  let r ← Act.get
  let (num, den) := lowest num den
  let (remainingWork, remainingTicks) ← Act.lift (projection r.q num den)
  Act.modify fun r => { r with
    remainingFractionNum := num
    remainingFractionDen := den
    remainingWork := remainingWork
    remainingTicks := remainingTicks }

/-- `numerator` and `reduced_gcd` of `next_after_service`, where the products fit. -/
def narrowDifference (left right denominatorGcd : Nat) : Outcome ModelError (Nat × Nat) :=
  if left < right then .err .invalidState
  else
    let reducedGcd := gcdU128 (left - right) denominatorGcd
    .ok ((left - right) / reducedGcd, reducedGcd)

def wideReducedGcd (numerator : Wide) (denominatorGcd : Nat) : Outcome ModelError Nat :=
  if denominatorGcd = 1 then .ok 1 else do
    let leftMod ← numerator.remU128 denominatorGcd
    .ok (gcdU128 leftMod denominatorGcd)

/-- `numerator` and `reduced_gcd` of `next_after_service`, through wide products. -/
def wideDifference (num rightDen serviceNum leftDen denominatorGcd : Nat) : Outcome ModelError (Nat × Nat) :=
  match Wide.mulU128 num rightDen, Wide.mulU128 serviceNum leftDen with
  | some left, some right =>
      if left.cmp right = .lt then .err .invalidState
      else do
        let numerator := left.wrappingSub right
        let reducedGcd ← wideReducedGcd numerator denominatorGcd
        let quotient ← numerator.divExactU128 reducedGcd
        let low ← quotient.lowU128
        .ok (low, reducedGcd)
  | _, _ => .err .arithmeticExhausted

def reducedDifference (num rightDen serviceNum leftDen denominatorGcd : Nat) : Outcome ModelError (Nat × Nat) :=
  if num * rightDen < u128Size ∧ serviceNum * leftDen < u128Size then
    narrowDifference (num * rightDen) (serviceNum * leftDen) denominatorGcd
  else wideDifference num rightDen serviceNum leftDen denominatorGcd

/-- The fraction `num / den - serviceNum / serviceDen` of `next_after_service`. -/
def difference (num den serviceNum serviceDen : Nat) : Outcome ModelError (Nat × Nat) := do
  let denominatorGcd := gcdU128 den serviceDen
  let leftDen := den / denominatorGcd
  let rightDen := serviceDen / denominatorGcd
  let reduced ← reducedDifference num rightDen serviceNum leftDen denominatorGcd
  let factor ← u128 (leftDen * (denominatorGcd / reduced.2))
  let denominator ← u128 (factor * rightDen)
  .ok (reduced.1, denominator)

/-- `next_after_service` once the service is compared with what remains. -/
def settle (r : Request) (serviceTicks serviceDen remainingService remainingRemainder : Nat) (saturating : Bool) :
    Outcome ModelError Request :=
  if remainingService < serviceTicks then
    if saturating then (setFraction 0 1).onCopy r else .err .invalidState
  else if serviceTicks = remainingService ∧ remainingRemainder = 0 then (setFraction 0 1).onCopy r
  else if serviceTicks = 0 then .ok r
  else do
    let serviceGcd := gcdU128 serviceTicks serviceDen
    let (numerator, denominator) ← difference r.remainingFractionNum r.remainingFractionDen
      (serviceTicks / serviceGcd) (serviceDen / serviceGcd)
    (setFraction numerator denominator).onCopy r

def nextAfterService (r : Request) (work : Nat) (saturating : Bool) : Outcome ModelError Request := do
  r.exactValid
  if work % nice0 ≠ 0 then .err .invalidState else do
  let serviceDen ← u128 (r.q * one)
  let (remainingService, remainingRemainder) ← checkedMulDivRem r.remainingFractionNum serviceDen r.remainingFractionDen
  r.settle (work / nice0) serviceDen remainingService remainingRemainder saturating

def new (cls : RequestClass) (weight totalWeight : Nat) (v materializedLag : Int) : Outcome ModelError Request := do
  let q ← requestQuantum cls weight totalWeight
  let virtualLength ← checkedVirtualLength q weight
  let start ← requestStart v materializedLag weight
  let deadline ← checkedDeadline start virtualLength
  (setFraction 1 1).onCopy ⟨cls, q, q, 0, 1, 1, virtualLength, start, deadline⟩

def consumeWork (work : Nat) : Act Request ModelError Unit := do
  let r ← Act.get
  let next ← Act.lift (r.nextAfterService work false)
  Act.set next

def consumeWorkUpTo (work : Nat) : Act Request ModelError Unit := do
  let r ← Act.get
  let next ← Act.lift (r.nextAfterService work true)
  Act.set next

def consume (ticks : Nat) : Act Request ModelError Unit := do
  let r ← Act.get
  if r.remainingTicks < ticks then Act.fail .invalidState else do
  let work ← Act.lift (checkedWork ticks)
  consumeWorkUpTo work.toNat

def setQuantum (q : Nat) : Act Request ModelError Unit :=
  if q = 0 then Act.fail .invalidState else do
    let r ← Act.get
    let (remainingWork, remainingTicks) ← Act.lift (projection q r.remainingFractionNum r.remainingFractionDen)
    Act.modify fun r => { r with q := q, remainingWork := remainingWork, remainingTicks := remainingTicks }

def renew (weight totalWeight : Nat) (v materializedLag : Int) : Act Request ModelError Unit := do
  let r ← Act.get
  let next ← Act.lift (new r.cls weight totalWeight v materializedLag)
  Act.set next

def yielded (r : Request) (weight totalWeight : Nat) (v materializedLag : Int) : Outcome ModelError Request := do
  let next ← new r.cls weight totalWeight v materializedLag
  let start := max next.start r.deadline
  let deadline ← checkedDeadline start next.virtualLength
  .ok { next with start := start, deadline := deadline }

/-- `Entity::reconfigured_request`, which reads nothing else of the entity. -/
def reconfigured (r : Request) (newClass : RequestClass) (newQ newWeight : Nat) (anchor lag : Int) :
    Outcome ModelError Request := do
  r.exactValid
  let request ← (setQuantum newQ).onCopy { r with cls := newClass }
  let fullLength ← checkedVirtualLength newQ newWeight
  let remainingLength ← request.remainingVirtualLength newWeight
  let start ← requestStart anchor lag newWeight
  let deadline ← checkedDeadline start remainingLength
  .ok { request with virtualLength := fullLength, start := start, deadline := deadline }

end Request

end TheKernel.Eevdf
