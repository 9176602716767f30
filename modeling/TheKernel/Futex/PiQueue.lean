import Mathlib.Data.List.Nodup
import Mathlib.Data.List.TakeDrop
import TheKernel.Futex.PiBoost

namespace TheKernel.Futex

open Function

structure Waiter where
  id : Nat
  pi : Option PiWaiter
  cancelled : Bool
  requeuedPi : Bool
  deriving DecidableEq

inductive PiUnlockOutcome where
  | handedOff (tid : Nat)
  | cleared
  | aborted

inductive PiRequeueTarget where
  | promoted
  | contended

inductive PiRequeueOutcome where
  | noWaiters
  | invalid
  | retry
  | done (woke moved : Nat)

def piTopFrom : Option (Waiter × PiWaiter) → List Waiter → Option (Waiter × PiWaiter)
  | best, [] => best
  | best, waiter :: queue =>
      match waiter.pi with
      | some pi =>
          if !waiter.cancelled && best.all fun current => pi.priority < current.2.priority then piTopFrom
            (some (waiter, pi)) queue
          else piTopFrom best queue
      | none => piTopFrom best queue

def piTopLocked (queue : List Waiter) : Option (Waiter × PiWaiter) := piTopFrom none queue

def cancel (ids : List Nat) (queue : List Waiter) : List Waiter :=
  queue.map fun waiter => if waiter.id ∈ ids then { waiter with cancelled := true } else waiter

/-- The loop that selects a waiter and locks its entry. `raced` has the waiters
that cancel between the two, round by round. -/
def claimTop : List (List Nat) → List Waiter → List Waiter × Option (Waiter × PiWaiter)
  | [], queue => (queue, piTopLocked queue)
  | ids :: raced, queue =>
      match piTopLocked queue with
      | none => (queue, none)
      | some (top, pi) =>
          if top.id ∈ ids then claimTop raced (cancel ids queue) else (cancel ids queue, some (top, pi))

/-- The loop that takes the selected waiter off the front and pushes the others to
the back. -/
def rotateOut (target : Nat) : Nat → List Waiter → List Waiter × Option Waiter
  | 0, queue => (queue, none)
  | _ + 1, [] => ([], none)
  | n + 1, waiter :: queue =>
      if waiter.id = target then (queue, some waiter)
      else rotateOut target n (queue ++ [waiter])

/-- `pi_unlock`: the queue it leaves, the waiters it wakes and its result. -/
def piUnlock (raced : List (List Nat)) (publish : Option Nat → Bool) (queue : List Waiter) :
    List Waiter × List Waiter × PiUnlockOutcome :=
  match claimTop raced queue with
  | (queue, none) => (queue, [], if publish none then .cleared else .aborted)
  | (queue, some (top, pi)) =>
      if !publish (some pi.tid) then (queue, [], .aborted)
      else match rotateOut top.id queue.length queue with
        | (queue, some waiter) => (queue, [waiter], .handedOff pi.tid)
        | (queue, none) => (queue, [], .aborted)

def frontIsPlain : List Waiter → Bool
  | [] => false
  | waiter :: queue => if !waiter.cancelled then waiter.pi.isNone else frontIsPlain queue

def requeued (waiter : Waiter) : Waiter := { waiter with requeuedPi := true }

/-- The scan of `pi_requeue` over the waiters that follow the top one: both
queues, the number of waiters moved, and whether no plain waiter stopped it. -/
def moveRest (budget : Nat) : Nat → List Waiter → List Waiter → Nat → List Waiter × List Waiter × Nat × Bool
  | 0, src, dst, moved => (src, dst, moved, true)
  | _ + 1, [], dst, moved => ([], dst, moved, true)
  | n + 1, waiter :: src, dst, moved =>
      if waiter.cancelled then moveRest budget n (src ++ [waiter]) dst moved
      else if budget ≤ moved then (src ++ [waiter], dst, moved, true)
      else if waiter.pi.isNone then (src ++ [waiter], dst, moved, false)
      else moveRest budget n src (dst ++ [requeued waiter]) (moved + 1)

structure PiRequeue where
  src : List Waiter
  dst : List Waiter
  woken : List Waiter
  outcome : PiRequeueOutcome

def piRequeue (raced : List (List Nat)) (publish : Nat → Option PiRequeueTarget) (nrWake nrRequeue : Nat)
    (src dst : List Waiter) : PiRequeue :=
  if frontIsPlain src then ⟨src, dst, [], .invalid⟩
  else match claimTop raced src with
    | (src, none) => ⟨src, dst, [], .noWaiters⟩
    | (src, some (top, pi)) =>
        match publish pi.tid with
        | none => ⟨src, dst, [], .retry⟩
        | some mode =>
            let limit := min (nrWake + nrRequeue) (2 ^ 64 - 1)
            let (src, waiter) := rotateOut top.id src.length src
            match mode with
            | .contended =>
                let (src, dst, moved, valid) :=
                  moveRest limit src.length src (dst ++ waiter.toList.map requeued) waiter.toList.length
                ⟨src, dst, [], if valid then .done 0 moved else .invalid⟩
            | .promoted =>
                let (src, dst, moved, valid) := moveRest (limit - 1) src.length src dst 0
                ⟨src, dst, waiter.toList, if valid then .done waiter.toList.length moved else .invalid⟩

def Ties (a b : Waiter) : Prop :=
  a.cancelled = false ∧ b.cancelled = false ∧ ∃ p p', a.pi = some p ∧ b.pi = some p' ∧ p.priority = p'.priority

/-- Where the top waiter of a queue stands. -/
structure Selected (queue before : List Waiter) (top : Waiter) (pi : PiWaiter) (after : List Waiter) : Prop where
  split : queue = before ++ top :: after
  payload : top.pi = some pi
  live : top.cancelled = false
  stronger : ∀ w ∈ before, w.cancelled = false → ∀ p, w.pi = some p → pi.priority < p.priority
  strongest : ∀ w ∈ after, w.cancelled = false → ∀ p, w.pi = some p → pi.priority ≤ p.priority

/-- The live waiters that a requeue leaves on the source, in the order in which it
comes to them: those after the top waiter, then those before it. -/
def stay (nrWake nrRequeue : Nat) (before after : List Waiter) : List Waiter :=
  let others := (after ++ before).filter (!·.cancelled)
  others.drop (min (min (nrWake + nrRequeue) (2 ^ 64 - 1) - 1) (others.takeWhile (·.pi.isSome)).length)

def CalmUnlock (queue : List Waiter) : Prop :=
  ∀ before top pi after, Selected queue before top pi after → ∀ a ∈ before, ∀ b ∈ after, ¬ Ties a b

/-- Of the waiters that stay, none before the top one ties with one after it, and
the first does not tie with a later one. -/
def CalmRequeue (nrWake nrRequeue : Nat) (queue : List Waiter) : Prop :=
  ∀ before top pi after, Selected queue before top pi after →
    (∀ a ∈ before, ∀ b ∈ after, a ∈ stay nrWake nrRequeue before after → b ∈ stay nrWake nrRequeue before after →
      ¬ Ties b a) ∧
    ∀ w rest, stay nrWake nrRequeue before after = w :: rest → ∀ b ∈ rest, ¬ Ties b w

/-- The wait queues. `stamp` numbers the waiters in the order in which they were
put on the queue they are on, by a registration or by a requeue. -/
structure PiSystem where
  queues : Nat → List Waiter
  clock : Nat
  stamp : Nat → Nat

def restamp (clock : Nat) (ids : List Nat) (stamp : Nat → Nat) : Nat → Nat :=
  fun id => if id ∈ ids then clock + ids.idxOf id else stamp id

/-- The calls on the wait queues. With `calm` no call moves a live PI waiter behind
a later one of the same priority. -/
inductive PiStep (calm : Bool) : PiSystem → PiSystem → Prop where
  | register {s : PiSystem} {q : Nat} {w : Waiter} (hfresh : ∀ q', ∀ w' ∈ s.queues q', w'.id ≠ w.id) :
      PiStep calm s ⟨update s.queues q (s.queues q ++ [w]), s.clock + 1, restamp s.clock [w.id] s.stamp⟩
  | cancel {s : PiSystem} {q : Nat} {ids : List Nat} :
      PiStep calm s { s with queues := update s.queues q (cancel ids (s.queues q)) }
  | remove {s : PiSystem} {q : Nat} {id : Nat} (hcancelled : ∀ w ∈ s.queues q, w.id = id → w.cancelled = true) :
      PiStep calm s { s with queues := update s.queues q ((s.queues q).eraseP (·.id = id)) }
  | unlock {s : PiSystem} {q : Nat} {raced : List (List Nat)} {publish : Option Nat → Bool}
      (hcalm : calm = true → CalmUnlock (claimTop raced (s.queues q)).1) :
      PiStep calm s { s with queues := update s.queues q (piUnlock raced publish (s.queues q)).1 }
  | requeue {s : PiSystem} {src dst nrWake nrRequeue : Nat} {raced : List (List Nat)}
      {publish : Nat → Option PiRequeueTarget}
      {r : PiRequeue} (hne : src ≠ dst) (hcall : piRequeue raced publish nrWake nrRequeue (s.queues src)
        (s.queues dst) = r)
      (hcalm : calm = true → CalmRequeue nrWake nrRequeue (claimTop raced (s.queues src)).1) :
      PiStep calm s ⟨update (update s.queues src r.src) dst r.dst, s.clock + (r.dst.length - (s.queues dst).length),
        restamp s.clock ((r.dst.drop (s.queues dst).length).map Waiter.id) s.stamp⟩

inductive PiRun (calm : Bool) : PiSystem → Prop where
  | start : PiRun calm ⟨fun _ => [], 0, fun _ => 0⟩
  | step {s s' : PiSystem} (h : PiRun calm s) (hstep : PiStep calm s s') : PiRun calm s'

/-- The live PI waiter of the strongest priority, and of those the one put on the
queue first. -/
def Deserves (stamp : Nat → Nat) (queue : List Waiter) (top : Waiter) : Prop :=
  top ∈ queue ∧ top.cancelled = false ∧ ∃ pi, top.pi = some pi ∧
    ∀ w ∈ queue, w.cancelled = false → ∀ p, w.pi = some p →
      pi.priority ≤ p.priority ∧ (p.priority = pi.priority → w ≠ top → stamp top.id < stamp w.id)

def Ordered (stamp : Nat → Nat) (queue : List Waiter) : Prop :=
  queue.Pairwise fun a b => Ties a b → stamp a.id < stamp b.id

section Selection

variable {stamp : Nat → Nat} {queue before after : List Waiter} {top : Waiter} {pi : PiWaiter} {ids : List Nat}

theorem piTopFrom_eq_some {best : Option (Waiter × PiWaiter)} (h : piTopFrom best queue = some (top, pi)) :
    (best = some (top, pi) ∧ ∀ w ∈ queue, w.cancelled = false → ∀ p, w.pi = some p → pi.priority ≤ p.priority) ∨
      (∃ before after, Selected queue before top pi after) ∧ ∀ b, best = some b → pi.priority < b.2.priority := by
  induction queue generalizing best with
  | nil => exact .inl ⟨h, fun w hw => absurd hw List.not_mem_nil⟩
  | cons w queue ih =>
      have hskip (hpass : piTopFrom best queue = some (top, pi))
          (hw : w.cancelled = false → ∀ p, w.pi = some p → ∃ b, best = some b ∧ b.2.priority ≤ p.priority) :
          (best = some (top, pi) ∧ ∀ w' ∈ w :: queue, w'.cancelled = false → ∀ p, w'.pi = some p →
            pi.priority ≤ p.priority) ∨
            (∃ before after, Selected (w :: queue) before top pi after) ∧ ∀ b, best = some b →
              pi.priority < b.2.priority := by
        rcases ih hpass with ⟨hbest, hqueue⟩ | ⟨⟨before, after, hsel⟩, hbest⟩
        · refine .inl ⟨hbest, fun w' hw' hlive p hp => ?_⟩
          rcases List.mem_cons.mp hw' with rfl | hw'
          · obtain ⟨b, hb, hle⟩ := hw hlive p hp
            obtain rfl := Option.some.inj (hbest.symm.trans hb)
            exact hle
          · exact hqueue w' hw' hlive p hp
        · refine .inr ⟨⟨w :: before, after, by rw [hsel.split]; rfl, hsel.payload, hsel.live,
            fun w' hw' hlive p hp => ?_, hsel.strongest⟩, hbest⟩
          rcases List.mem_cons.mp hw' with rfl | hw'
          · obtain ⟨b, hb, hle⟩ := hw hlive p hp
            exact lt_of_lt_of_le (hbest b hb) hle
          · exact hsel.stronger w' hw' hlive p hp
      rw [piTopFrom] at h
      split at h
      case h_2 hpi => exact hskip h fun _ p hp => by rw [hpi] at hp; cases hp
      case h_1 p hpi =>
          split at h
          case isFalse hweak =>
              refine hskip h fun hlive p' hp' => ?_
              obtain rfl := Option.some.inj (hpi.symm.trans hp')
              cases best with
              | none => simp [hlive] at hweak
              | some b => exact ⟨b, rfl, by simpa [hlive] using hweak⟩
          case isTrue hstrong =>
              simp only [Bool.and_eq_true, Bool.not_eq_true'] at hstrong
              have hbest (b : Waiter × PiWaiter) (hb : best = some b) : p.priority < b.2.priority := by
                simpa [hb] using hstrong.2
              rcases ih h with ⟨heq, hqueue⟩ | ⟨⟨before, after, hsel⟩, hlt⟩
              · obtain ⟨rfl, rfl⟩ := Prod.mk.inj (Option.some.inj heq)
                exact .inr ⟨⟨[], queue, rfl, hpi, hstrong.1, fun w' hw' => absurd hw' List.not_mem_nil, hqueue⟩, hbest⟩
              · have hlt' := hlt _ rfl
                refine .inr ⟨⟨w :: before, after, by rw [hsel.split]; rfl, hsel.payload, hsel.live,
                  fun w' hw' hlive p' hp' => ?_, hsel.strongest⟩, fun b hb => lt_trans hlt' (hbest b hb)⟩
                rcases List.mem_cons.mp hw' with rfl | hw'
                · obtain rfl := Option.some.inj (hpi.symm.trans hp')
                  exact hlt'
                · exact hsel.stronger w' hw' hlive p' hp'

theorem piTopLocked_eq_some (h : piTopLocked queue = some (top, pi)) :
    ∃ before after, Selected queue before top pi after := by
  rcases piTopFrom_eq_some h with ⟨hnone, -⟩ | ⟨hsel, -⟩
  · cases hnone
  · exact hsel

theorem mem_cancel {w : Waiter} (h : w ∈ cancel ids queue) :
    ∃ w' ∈ queue, w'.id = w.id ∧ w'.pi = w.pi ∧ (w.cancelled = false → w'.cancelled = false ∧ w.id ∉ ids) := by
  obtain ⟨w', hw', rfl⟩ := List.mem_map.mp h
  refine ⟨w', hw', ?_⟩
  by_cases hid : w'.id ∈ ids <;> simp [hid]

theorem Selected.cancel (h : Selected queue before top pi after) (htop : top.id ∉ ids) :
    Selected (cancel ids queue) (cancel ids before) top pi (cancel ids after) := by
  refine ⟨?_, h.payload, h.live, fun w hw hlive p hp => ?_, fun w hw hlive p hp => ?_⟩
  · rw [h.split]
    simp [Futex.cancel, htop]
  · obtain ⟨w', hw', -, hpi, hcancelled⟩ := mem_cancel hw
    exact h.stronger w' hw' (hcancelled hlive).1 p (hpi.trans hp)
  · obtain ⟨w', hw', -, hpi, hcancelled⟩ := mem_cancel hw
    exact h.strongest w' hw' (hcancelled hlive).1 p (hpi.trans hp)

/-- The claimed waiter is the top one when its entry is locked. -/
theorem claimTop_eq {raced : List (List Nat)} {queue' : List Waiter} {claimed : Option (Waiter × PiWaiter)}
    (h : claimTop raced queue = (queue', claimed)) :
    (∃ idss : List (List Nat), queue' = idss.foldl (fun queue ids => Futex.cancel ids queue) queue) ∧
      ∀ top pi, claimed = some (top, pi) → ∃ before after, Selected queue' before top pi after := by
  induction raced generalizing queue with
  | nil =>
      obtain ⟨rfl, rfl⟩ := Prod.mk.inj h
      exact ⟨⟨[], rfl⟩, fun top pi htop => piTopLocked_eq_some htop⟩
  | cons ids raced ih =>
      rw [claimTop] at h
      split at h
      case h_1 =>
          obtain ⟨rfl, rfl⟩ := Prod.mk.inj h
          exact ⟨⟨[], rfl⟩, fun _ _ hnone => by cases hnone⟩
      case h_2 top pi htop =>
          split at h
          case isTrue =>
              obtain ⟨⟨idss, hqueue⟩, hsel⟩ := ih h
              exact ⟨⟨ids :: idss, hqueue⟩, hsel⟩
          case isFalse hnot =>
              obtain ⟨rfl, rfl⟩ := Prod.mk.inj h
              refine ⟨⟨[ids], rfl⟩, ?_⟩
              rintro _ _ ⟨⟩
              obtain ⟨before, after, hsel⟩ := piTopLocked_eq_some htop
              exact ⟨_, _, hsel.cancel hnot⟩

/-- With the ties in order the top waiter is the one a hand-off is due to. -/
theorem Selected.deserves (h : Selected queue before top pi after) (hordered : Ordered stamp queue) :
    Deserves stamp queue top := by
  have hsplit := h.split
  refine ⟨by rw [hsplit]; simp, h.live, pi, h.payload, fun w hw hlive p hp => ?_⟩
  rw [hsplit] at hw
  rcases List.mem_append.mp hw with hw | hw
  · have hlt := h.stronger w hw hlive p hp
    exact ⟨hlt.le, fun heq => absurd heq hlt.ne'⟩
  · rcases List.mem_cons.mp hw with rfl | hw
    · obtain rfl := Option.some.inj (h.payload.symm.trans hp)
      exact ⟨le_rfl, fun _ hne => absurd rfl hne⟩
    · refine ⟨h.strongest w hw hlive p hp, fun heq _ => ?_⟩
      rw [hsplit] at hordered
      have hafter := (List.pairwise_cons.mp (List.pairwise_append.mp hordered).2.1).1 w hw
      exact hafter ⟨h.live, hlive, pi, p, h.payload, hp, heq.symm⟩

end Selection

end TheKernel.Futex
