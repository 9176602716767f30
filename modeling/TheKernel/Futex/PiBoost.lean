import Mathlib.Algebra.GroupWithZero.Nat
import Mathlib.Data.Option.Basic
import TheKernel.Lib.Outcome

namespace TheKernel.Futex

open Function

inductive SchedClass where
  | normal
  | batch
  | idle
  | roundRobin
  | fifo
  | deadline
  deriving DecidableEq

structure SchedState where
  cls : SchedClass
  nice : Int
  rtPriority : Nat
  deriving DecidableEq

namespace SchedState

/-- `EevdfTaskParams::validated`: what `set_sched_state` installs for a state
that it accepts. -/
def validated (s : SchedState) : Option SchedState :=
  let s := match s.cls with
    | .idle => { s with nice := 19, rtPriority := 0 }
    | .normal | .batch => { s with rtPriority := 0 }
    | .roundRobin | .fifo | .deadline => { s with nice := 0 }
  let valid : Bool := match s.cls with
    | .roundRobin | .fifo => 1 ≤ s.rtPriority && s.rtPriority ≤ 255
    | .deadline => s.rtPriority = 0
    | .normal | .batch | .idle => -20 ≤ s.nice && s.nice ≤ 19
  bif valid then some s else none

end SchedState

def piKernelPriority (state : SchedState) : Int :=
  match state.cls with
  | .deadline => -1
  | .fifo | .roundRobin => 99 - min state.rtPriority 99
  | .normal | .batch | .idle => 120 + state.nice

def piBoost (owner waiter : SchedState) : Option SchedState :=
  if waiter.cls = .deadline then none
  else if piKernelPriority owner ≤ piKernelPriority waiter then none
  else match waiter.cls with
    | .fifo | .roundRobin => some ⟨.fifo, 0, if waiter.rtPriority = 0 then 1 else waiter.rtPriority⟩
    | .normal | .batch | .idle =>
        some ⟨owner.cls, if waiter.nice < owner.nice then waiter.nice else owner.nice, owner.rtPriority⟩
    | .deadline => none

structure PiWaiter where
  tid : Nat
  priority : Int
  sched : SchedState
  deriving DecidableEq

def PiWaiter.new (tid : Nat) (sched : SchedState) : PiWaiter := ⟨tid, piKernelPriority sched, sched⟩

structure PiState where
  base : Option SchedState
  boosted : Option SchedState

namespace PiState

def new : PiState := ⟨none, none⟩

def rememberBase (p : PiState) (current : SchedState) : PiState := { p with base := p.base.or (some current) }

def setBoosted (p : PiState) (state : Option SchedState) : PiState := { p with boosted := state }

def deboostTarget (p : PiState) (current : SchedState) : Option SchedState × PiState :=
  match p.boosted with
  | none => (none, p)
  | some boosted =>
      if boosted = current then (p.base, ⟨none, none⟩) else (none, ⟨none, none⟩)

end PiState

structure Owner where
  current : SchedState
  states : Nat → PiState

namespace Owner

/-- `pi_boost_owner` through the futex `i`. -/
def piBoostOwner (s : Owner) (i : Nat) (waiter : PiWaiter) : Owner :=
  match piBoost s.current waiter.sched with
  | none => s
  | some target =>
      let p := (s.states i).rememberBase s.current
      match target.validated with
      | none => { s with states := update s.states i p }
      | some installed => ⟨installed, update s.states i (p.setBoosted (some target))⟩

def piDeboostOwner (s : Owner) (i : Nat) : Owner :=
  let (target, p) := (s.states i).deboostTarget s.current
  match target.bind SchedState.validated with
  | none => { s with states := update s.states i p }
  | some installed => ⟨installed, update s.states i p⟩

/-- No other futex that still boosts the task has saved the state that `i`
installed, unless it is the task's own or yet another futex has installed it. -/
def Unshared (own : SchedState) (s : Owner) (i : Nat) : Prop :=
  ∀ b k, (s.states i).boosted = some b → k ≠ i → (s.states k).base = some b →
    b = own ∨ ∃ j, j ≠ i ∧ j ≠ k ∧ (s.states j).boosted = some b

/-- The calls on the futexes of a task, all accepted by the scheduler. With
`calm` each call meets `Unshared`. -/
inductive Run (calm : Bool) (own : SchedState) : Owner → Prop where
  | start (hown : own.validated = some own) : Run calm own ⟨own, fun _ => .new⟩
  | boost {s : Owner} (h : Run calm own s) (i : Nat) (waiter : PiWaiter)
      (hwaiter : waiter.sched.validated = some waiter.sched)
      (haccepted : ∀ target, piBoost s.current waiter.sched = some target → target.validated ≠ none)
      (hcalm : calm = true → s.Unshared own i) : Run calm own (s.piBoostOwner i waiter)
  | deboost {s : Owner} (h : Run calm own s) (i : Nat) (hcalm : calm = true → s.Unshared own i) :
      Run calm own (s.piDeboostOwner i)

/-- The task runs in its own state or in one that a futex has installed, and so
does it with every state that a futex has saved. -/
structure Traced (own : SchedState) (s : Owner) : Prop where
  canonical : s.current.validated = some s.current
  current : s.current = own ∨ ∃ j, (s.states j).boosted = some s.current
  saved : ∀ k b, (s.states k).base = some b → b.validated = some b ∧
    (b = own ∨ ∃ j, j ≠ k ∧ (s.states j).boosted = some b)
  both : ∀ k, (s.states k).boosted ≠ none → (s.states k).base ≠ none
  idle : ∀ k b, (s.states k).boosted = some b → b.validated = some b → b.cls ≠ .idle

end Owner

theorem SchedState.of_validated {s : SchedState} (h : s.validated = some s) :
    match s.cls with
    | .idle => s.nice = 19 ∧ s.rtPriority = 0
    | .normal | .batch => s.rtPriority = 0 ∧ -20 ≤ s.nice
    | .roundRobin | .fifo | .deadline => s.nice = 0 := by
  obtain ⟨cls, nice, rt⟩ := s
  simp only [validated, Bool.cond_eq_ite, Option.ite_none_right_eq_some, Option.some.injEq] at h
  obtain ⟨hvalid, h⟩ := h
  cases cls <;> simp_all

/-- A boost installs its target, except that a task of the idle class stays as it
was. -/
theorem validated_piBoost {owner waiter target installed : SchedState} (howner : owner.validated = some owner)
    (hwaiter : waiter.validated = some waiter) (hboost : piBoost owner waiter = some target)
    (hset : target.validated = some installed) :
    installed = target ∧ target.cls ≠ .idle ∨ installed = owner ∧ owner.cls = .idle ∧ target ≠ owner := by
  obtain ⟨cls, nice, rt⟩ := owner
  obtain ⟨cls', nice', rt'⟩ := waiter
  have hown := SchedState.of_validated howner
  have hwait := SchedState.of_validated hwaiter
  rw [piBoost, Option.ite_none_left_eq_some, Option.ite_none_left_eq_some] at hboost
  obtain ⟨-, hweak, hboost⟩ := hboost
  by_cases hrt : cls' = .fifo ∨ cls' = .roundRobin
  · -- the owner joins the waiter's class
    have htarget : target = ⟨.fifo, 0, if rt' = 0 then 1 else rt'⟩ := by
      rcases hrt with rfl | rfl <;> exact (Option.some.inj hboost).symm
    subst htarget
    simp only [SchedState.validated, Bool.cond_eq_ite, Option.ite_none_right_eq_some, Option.some.injEq] at hset
    exact .inl ⟨hset.2.symm, by simp⟩
  · -- the owner's nice value falls
    have htarget : target = ⟨cls, if nice' < nice then nice' else nice, rt⟩ ∧ -20 ≤ nice' := by
      cases cls' <;> simp_all
    obtain ⟨rfl, hnice⟩ := htarget
    have hfair : piKernelPriority ⟨cls', nice', rt'⟩ = 120 + nice' := by
      cases cls' <;> simp_all [piKernelPriority]
    rw [hfair] at hweak
    simp only [SchedState.validated, Bool.cond_eq_ite, Option.ite_none_right_eq_some, Option.some.injEq] at hset
    cases cls with
    | normal | batch =>
        simp only at hown hset
        exact .inl ⟨by rw [← hset.2, hown.1], by simp⟩
    | idle =>
        simp only [piKernelPriority] at hown hset hweak
        refine .inr ⟨by rw [← hset.2, hown.1, hown.2], rfl, fun heq => ?_⟩
        simp only [SchedState.mk.injEq] at heq
        split_ifs at heq <;> omega
    | roundRobin | fifo | deadline =>
        simp only [piKernelPriority] at hweak
        omega

namespace Owner.Traced

variable {own : SchedState} {s s' : Owner} {i : Nat}

/-- A saved state stays traced when only the futex `i` records something else. -/
theorem saved_of_unshared (h : Traced own s) (hcalm : s.Unshared own i)
    (hother : ∀ j, j ≠ i → s'.states j = s.states j) {k : Nat}
    (hk : k ≠ i) {b : SchedState} (hb : (s'.states k).base = some b) : b.validated = some b ∧
      (b = own ∨ ∃ j, j ≠ k ∧ (s'.states j).boosted = some b) := by
  rw [hother k hk] at hb
  obtain ⟨hcanonical, hown⟩ := h.saved k b hb
  refine ⟨hcanonical, ?_⟩
  rcases hown with hown | ⟨j, hjk, hj⟩
  · exact .inl hown
  · by_cases hji : j = i
    · subst hji
      rcases hcalm b k hj hk hb with hown | ⟨l, hlj, hlk, hl⟩
      · exact .inl hown
      · exact .inr ⟨l, hlk, by rw [hother l hlj]; exact hl⟩
    · exact .inr ⟨j, hjk, by rw [hother j hji]; exact hj⟩

/-- One futex has recorded something else, and the task may run in another state. -/
theorem change (h : Traced own s) (hcalm : s.Unshared own i) (hother : ∀ j, j ≠ i → s'.states j = s.states j)
    (hvalid : s'.current.validated = some s'.current)
    (hcurrent : s'.current = own ∨ ∃ j, (s'.states j).boosted = some s'.current)
    (hsaved : ∀ b, (s'.states i).base = some b → b.validated = some b ∧ (b = own ∨ ∃ j, j ≠ i ∧
    (s.states j).boosted = some b)) (hboth : (s'.states i).boosted ≠ none → (s'.states i).base ≠ none)
    (hidle : ∀ b, (s'.states i).boosted = some b → b.validated = some b → b.cls ≠ .idle) : Traced own s' := by
  refine ⟨hvalid, hcurrent, fun k b hb => ?_, fun k hk => ?_, fun k b hb hv => ?_⟩
  · by_cases hki : k = i
    · subst hki
      obtain ⟨hv, hown⟩ := hsaved b hb
      exact ⟨hv, hown.imp_right fun ⟨j, hjk, hj⟩ => ⟨j, hjk, by rw [hother j hjk]; exact hj⟩⟩
    · exact h.saved_of_unshared hcalm hother hki hb
  · by_cases hki : k = i
    · subst hki
      exact hboth hk
    · rw [hother k hki] at hk ⊢
      exact h.both k hk
  · by_cases hki : k = i
    · subst hki
      exact hidle b hb hv
    · rw [hother k hki] at hb
      exact h.idle k b hb hv

theorem boost {waiter : PiWaiter} (h : Traced own s) (hcalm : s.Unshared own i)
    (hwaiter : waiter.sched.validated = some waiter.sched)
    (haccepted : ∀ target, piBoost s.current waiter.sched = some target → target.validated ≠ none) :
    Traced own (s.piBoostOwner i waiter) := by
  cases hboost : piBoost s.current waiter.sched with
  | none =>
      rw [piBoostOwner, hboost]
      exact h
  | some target =>
      obtain ⟨installed, hset⟩ := Option.ne_none_iff_exists'.mp (haccepted target hboost)
      obtain ⟨s', hs'⟩ : ∃ s', s' = s.piBoostOwner i waiter := ⟨_, rfl⟩
      have hcases := validated_piBoost h.canonical hwaiter hboost hset
      simp only [piBoostOwner, hboost, hset] at hs'
      have hcurrent : s'.current = installed := by rw [hs']
      have hself : s'.states i = ((s.states i).rememberBase s.current).setBoosted (some target) := by
        rw [hs']
        exact update_self ..
      have hother : ∀ j, j ≠ i → s'.states j = s.states j := fun j hj => by
        rw [hs']
        exact update_of_ne hj ..
      have hstep : s.piBoostOwner i waiter = s' := by simp only [piBoostOwner, hboost, hset, hs']
      rw [hstep]
      refine h.change hcalm hother ?_ ?_ (fun b hb => ?_) (fun _ => ?_) fun b hb hv => ?_
      · rcases hcases with ⟨rfl, -⟩ | ⟨rfl, -⟩
        · rw [hcurrent]
          exact hset
        · rw [hcurrent]
          exact h.canonical
      · rcases hcases with ⟨rfl, -⟩ | ⟨rfl, hcls, -⟩
        · exact .inr ⟨i, by rw [hself, hcurrent]; rfl⟩
        · -- the state is the one of before, which `i` cannot have installed
          rw [hcurrent]
          refine h.current.imp_right fun ⟨j, hj⟩ => ⟨j, ?_⟩
          have hji : j ≠ i := by
            rintro rfl
            exact h.idle j _ hj h.canonical hcls
          rw [hother j hji]
          exact hj
      · rw [hself] at hb
        simp only [PiState.setBoosted, PiState.rememberBase] at hb
        cases hbase : (s.states i).base with
        | some b' =>
            rw [hbase, Option.some_or] at hb
            exact h.saved i b (hbase.trans hb)
        | none =>
            -- the futex saves the state of the task at its first boost
            rw [hbase, Option.none_or] at hb
            obtain rfl := Option.some.inj hb
            refine ⟨h.canonical, h.current.imp_right fun ⟨j, hj⟩ => ⟨j, ?_, hj⟩⟩
            rintro rfl
            exact h.both j (by rw [hj]; simp) hbase
      · rw [hself]
        simp only [PiState.setBoosted, PiState.rememberBase]
        cases (s.states i).base <;> simp
      · rw [hself] at hb
        obtain rfl := Option.some.inj hb
        obtain rfl := Option.some.inj (hset.symm.trans hv)
        rcases hcases with ⟨-, hne⟩ | ⟨heq, -, hne⟩
        · exact hne
        · exact absurd heq hne

theorem deboost (h : Traced own s) (hcalm : s.Unshared own i) : Traced own (s.piDeboostOwner i) := by
  cases hboosted : (s.states i).boosted with
  | none =>
      have hstep : s.piDeboostOwner i = s := by
        simp only [piDeboostOwner, PiState.deboostTarget, hboosted, Option.bind_none, update_eq_self]
      rw [hstep]
      exact h
  | some b =>
      obtain ⟨base, hbase⟩ := Option.ne_none_iff_exists'.mp (h.both i (by rw [hboosted]; simp))
      obtain ⟨hbaseValid, hbaseOwn⟩ := h.saved i base hbase
      -- whatever the task runs in next, this futex has not installed it
      obtain ⟨next, hstep, hvalid, hnext⟩ : ∃ next, s.piDeboostOwner i = ⟨next, update s.states i .new⟩ ∧
          next.validated = some next ∧ (next = own ∨ ∃ j, j ≠ i ∧ (s.states j).boosted = some next) := by
        by_cases hb : b = s.current
        · refine ⟨base, ?_, hbaseValid, hbaseOwn⟩
          simp only [piDeboostOwner, PiState.deboostTarget, hboosted, if_pos hb, hbase, Option.bind_some,
            hbaseValid, PiState.new]
        · refine ⟨s.current, ?_, h.canonical, h.current.imp_right fun ⟨j, hj⟩ => ⟨j, ?_, hj⟩⟩
          · simp only [piDeboostOwner, PiState.deboostTarget, hboosted, if_neg hb, Option.bind_none, PiState.new]
          · rintro rfl
            exact hb (Option.some.inj (hboosted.symm.trans hj))
      have hself : (s.piDeboostOwner i).states i = .new := by
        rw [hstep]
        exact update_self ..
      have hother : ∀ j, j ≠ i → (s.piDeboostOwner i).states j = s.states j := fun j hj => by
        rw [hstep]
        exact update_of_ne hj ..
      have hcurrent : (s.piDeboostOwner i).current = next := by rw [hstep]
      refine h.change hcalm hother (by rw [hcurrent]; exact hvalid) ?_ (fun b hb => ?_) (fun hk => ?_) fun b hb _ => ?_
      · rw [hcurrent]
        exact hnext.imp_right fun ⟨j, hji, hj⟩ => ⟨j, by rw [hother j hji]; exact hj⟩
      · rw [hself] at hb
        cases hb
      · rw [hself] at hk
        exact absurd rfl hk
      · rw [hself] at hb
        cases hb

end Owner.Traced

namespace Owner

theorem Run.traced {own : SchedState} {s : Owner} (h : Run true own s) : Traced own s := by
  induction h with
  | start hown =>
      exact ⟨hown, .inl rfl, fun _ _ hb => (by cases hb), fun _ hk => absurd rfl hk,
        fun _ _ hb => (by cases hb)⟩
  | boost _ i waiter hwaiter haccepted hcalm ih => exact ih.boost (hcalm rfl) hwaiter haccepted
  | deboost _ i hcalm ih => exact ih.deboost (hcalm rfl)

/-- When every futex has been deboosted, the task is back in its own state, in
every run in which no futex stops or renews a boost that another one has saved. -/
theorem released_owner_restored {own : SchedState} {s : Owner} (h : Run true own s)
    (hreleased : ∀ i, (s.states i).boosted = none) : s.current = own := by
  rcases h.traced.current with hown | ⟨j, hj⟩
  · exact hown
  · rw [hreleased j] at hj
    cases hj

def nice10 : SchedState := ⟨.normal, 10, 0⟩

def waiterAt (nice : Int) : PiWaiter := .new 7 ⟨.normal, nice, 0⟩

/-- Two futexes that are released in the reverse order of their boosts. -/
theorem released_owner_restored_nested : ∃ s, Run true nice10 s ∧ (∀ i, (s.states i).boosted = none) ∧
    s.current = nice10 := by
  have hstart : Run true nice10 ⟨nice10, fun _ => .new⟩ := .start rfl
  have hfirst := hstart.boost 0 (waiterAt 5) rfl (by rintro _ ⟨⟩; decide) fun _ _ _ hb => nomatch hb
  have hsecond := hfirst.boost 1 (waiterAt 0) rfl (by rintro _ ⟨⟩; decide) fun _ _ _ hb => nomatch hb
  have hthird := hsecond.deboost 1 fun _ => by
    rintro b (_ | _ | k) hb hk hbase
    · exact .inl (Option.some.inj hbase).symm
    · exact absurd rfl hk
    · cases hbase
  have hfourth := hthird.deboost 0 fun _ => by
    rintro b (_ | _ | k) hb hk hbase
    · exact absurd rfl hk
    · cases hbase
    · cases hbase
  have hreleased : ∀ i, ((piDeboostOwner (piDeboostOwner (piBoostOwner (piBoostOwner ⟨nice10, fun _ => .new⟩ 0
      (waiterAt 5)) 1 (waiterAt 0)) 1) 0).states i).boosted = none := by
    rintro (_ | _ | i) <;> rfl
  exact ⟨_, hfourth, hreleased, released_owner_restored hfourth hreleased⟩

/-- The first futex is released before the second, and its boost is left behind. -/
theorem boost_left_behind : ∃ s, Run false nice10 s ∧ (∀ i, (s.states i).boosted = none) ∧ s.current = ⟨.normal, 5, 0⟩ ∧
    s.current ≠ nice10 := by
  have hstart : Run false nice10 ⟨nice10, fun _ => .new⟩ := .start rfl
  have hfirst := hstart.boost 0 (waiterAt 5) rfl (by rintro _ ⟨⟩; decide) fun h => nomatch h
  have hsecond := hfirst.boost 1 (waiterAt 0) rfl (by rintro _ ⟨⟩; decide) fun h => nomatch h
  have hrun := (hsecond.deboost 0 fun h => nomatch h).deboost 1 fun h => nomatch h
  refine ⟨_, hrun, ?_, rfl, by decide⟩
  rintro (_ | _ | i) <;> rfl

end Owner

end TheKernel.Futex
