import Mathlib.Algebra.BigOperators.Group.Finset.Basic
import Mathlib.Algebra.Order.BigOperators.Group.Multiset
import Mathlib.Data.Fintype.Basic
import Mathlib.Tactic.Abel
import TheKernel.Signal.PendingOrder

namespace TheKernel.Signal

inductive SignalQueueError where
  | limitExceeded | noMemory
  deriving DecidableEq

structure SignalQueueAccount where
  queued : Nat
  hardLimit : Nat
  deriving DecidableEq

/-- `usize::MAX`, which is `u64::MAX` too. -/
def usizeMax : Nat := 2 ^ 64 - 1

namespace SignalQueueAccount

def tryCharge (account : SignalQueueAccount) (limit : Nat) : Except SignalQueueError SignalQueueAccount :=
  let limit := min account.hardLimit limit
  if account.queued + 1 ≤ usizeMax ∧ account.queued + 1 ≤ limit then .ok { account with queued := account.queued + 1 }
  else .error .limitExceeded

/-- One `fetch_sub`, which wraps. -/
def release (account : SignalQueueAccount) : SignalQueueAccount :=
  { account with queued := (account.queued + usizeMax) % (usizeMax + 1) }

end SignalQueueAccount

abbrev Accounts := Nat → SignalQueueAccount

def SignalQueueCharge.tryNew (accounts : Accounts) (perUser rlimit global : Nat) :
    Except SignalQueueError SignalQueueCharge × Accounts :=
  match (accounts perUser).tryCharge rlimit with
  | .error e => (.error e, accounts)
  | .ok account =>
      let accounts := Function.update accounts perUser account
      match (accounts global).tryCharge usizeMax with
      | .ok account => (.ok ⟨perUser, global⟩, Function.update accounts global account)
      | .error e => (.error e, Function.update accounts perUser (accounts perUser).release)

theorem Signo.pos_of_fin (i : Fin 64) : 1 ≤ i.1 + 1 := by omega

theorem Signo.le_of_fin (i : Fin 64) : i.1 + 1 ≤ 64 := by omega

def Signo.ofFin (i : Fin 64) : Signo := ⟨i.1 + 1, Signo.pos_of_fin i, Signo.le_of_fin i⟩

theorem Signo.pred_lt_of (signo : Signo) : signo.number - 1 < 64 := SignalSet.pred_lt

def Signo.toFin (signo : Signo) : Fin 64 := ⟨signo.number - 1, Signo.pred_lt_of signo⟩

theorem Signo.toFin_ofFin (i : Fin 64) : Signo.toFin (Signo.ofFin i) = i := by simp [Signo.toFin, Signo.ofFin]

theorem Signo.ofFin_toFin (signo : Signo) : Signo.ofFin (Signo.toFin signo) = signo := by
  obtain ⟨number, pos, le⟩ := signo
  simp only [Signo.toFin, Signo.ofFin, Signo.mk.injEq]
  omega

instance : Fintype Signo :=
  Fintype.ofEquiv (Fin 64) ⟨Signo.ofFin, Signo.toFin, Signo.toFin_ofFin, Signo.ofFin_toFin⟩

def PreparedSignal.charges (prepared : PreparedSignal) : Multiset SignalQueueCharge :=
  match prepared.kind with
  | .realtime node => {node.charge}
  | _ => 0

def DequeuedSignal.charges : DequeuedSignal → Multiset SignalQueueCharge
  | .realtime node => {node.charge}
  | _ => 0

def chargesOf (nodes : List RealtimeSignalNode) : Multiset SignalQueueCharge := nodes.map (·.charge)

def PendingSignals.charges (p : PendingSignals) : Multiset SignalQueueCharge := ∑ signo, chargesOf (p.realtime signo)

structure System where
  accounts : Accounts
  /-- Calls of `try_new` with the charge of the first account. -/
  charging : Multiset SignalQueueCharge
  /-- Calls that the second account refused. -/
  refused : Multiset SignalQueueCharge
  /-- Both charges, for a node that is still to be allocated. -/
  charged : Multiset SignalQueueCharge
  prepared : Multiset PreparedSignal
  queues : Multiset PendingSignals
  dequeued : Multiset DequeuedSignal
  /-- Queue nodes that were taken out to be destroyed. -/
  detached : Multiset SignalQueueCharge
  /-- Nodes whose destruction began. -/
  dropping : Multiset SignalQueueCharge
  /-- Nodes that have given back the charge of the first account. -/
  releasing : Multiset SignalQueueCharge

def System.live (s : System) : Multiset SignalQueueCharge :=
  s.prepared.bind (·.charges) + s.queues.bind (·.charges) + s.dequeued.bind (·.charges) + s.detached

/-- One atomic step of someone. -/
inductive Step : System → System → Prop
  | charge {s : System} {perUser global rlimit : Nat} {account : SignalQueueAccount}
      (h : (s.accounts perUser).tryCharge rlimit = .ok account) :
      Step s { s with accounts := Function.update s.accounts perUser account, charging := ⟨perUser,
        global⟩ ::ₘ s.charging }
  | chargeGlobal {s : System} {c : SignalQueueCharge} {rest : Multiset SignalQueueCharge} {account : SignalQueueAccount}
      (hc : s.charging = c ::ₘ rest) (h : (s.accounts c.global).tryCharge usizeMax = .ok account) :
      Step s { s with
        accounts := Function.update s.accounts c.global account
        charging := rest
        charged := c ::ₘ s.charged }
  | refuse {s : System} {c : SignalQueueCharge} {rest : Multiset SignalQueueCharge} {e : SignalQueueError}
      (hc : s.charging = c ::ₘ rest) (h : (s.accounts c.global).tryCharge usizeMax = .error e) :
      Step s { s with charging := rest, refused := c ::ₘ s.refused }
  | giveBack {s : System} {c : SignalQueueCharge} {rest : Multiset SignalQueueCharge} (hc : s.refused = c ::ₘ rest) :
      Step s { s with accounts := Function.update s.accounts c.perUser (s.accounts c.perUser).release, refused := rest }
  | allocate {s : System} {c : SignalQueueCharge} {rest : Multiset SignalQueueCharge} (hc : s.charged = c ::ₘ rest)
      (info : SignalInfo) (hrt : info.signo.isRealtime = true) :
      Step s { s with charged := rest, prepared := ⟨.realtime ⟨0, info, none, c, hrt⟩, none⟩ ::ₘ s.prepared }
  | allocateFails {s : System} {c : SignalQueueCharge} {rest : Multiset SignalQueueCharge}
      (hc : s.charged = c ::ₘ rest) : Step s { s with charged := rest, dropping := c ::ₘ s.dropping }
  | prepare {s : System} (prepared : PreparedSignal) (h : prepared.charges = 0) :
      Step s { s with prepared := prepared ::ₘ s.prepared }
  | newQueue {s : System} : Step s { s with queues := .default ::ₘ s.queues }
  | publish {s : System} {prepared : PreparedSignal} {rest : Multiset PreparedSignal} {p : PendingSignals}
      {others : Multiset PendingSignals}
      (hprepared : s.prepared = prepared ::ₘ rest) (hqueue : s.queues = p ::ₘ others) :
      Step s { s with
        prepared := ((p.publish prepared).1.unused.toList : Multiset PreparedSignal) + rest
        queues := (p.publish prepared).2 ::ₘ others }
  | dequeue {s : System} {p : PendingSignals} {others : Multiset PendingSignals} {mask : SignalSet}
      {result : Option DequeuedSignal}
      (hqueue : s.queues = p ::ₘ others) (hresult : (p.dequeueSignal mask).1 = .ok result) :
      Step s { s with
        queues := (p.dequeueSignal mask).2 ::ₘ others
        dequeued := (result.toList : Multiset DequeuedSignal) + s.dequeued }
  | requeue {s : System} {signal : DequeuedSignal} {rest : Multiset DequeuedSignal} {p : PendingSignals}
      {others : Multiset PendingSignals}
      (hsignal : s.dequeued = signal ::ₘ rest) (hqueue : s.queues = p ::ₘ others) :
      Step s { s with queues := signal.requeueFront p ::ₘ others, dequeued := rest }
  | detach {s : System} {p : PendingSignals} {others : Multiset PendingSignals} (signo : Signo)
      (hqueue : s.queues = p ::ₘ others) : Step s { s with
        queues := (p.detachSignalInto signo ⟨[]⟩).2 ::ₘ others
        detached := chargesOf (p.detachSignalInto signo ⟨[]⟩).1.realtime + s.detached }
  | takeAll {s : System} {p : PendingSignals} {others : Multiset PendingSignals} (hqueue : s.queues = p ::ₘ others) :
      Step s { s with queues := p.takeAll.2 ::ₘ others, detached := p.takeAll.1.charges + s.detached }
  | discardPrepared {s : System} {prepared : PreparedSignal} {rest : Multiset PreparedSignal}
      (h : s.prepared = prepared ::ₘ rest) :
      Step s { s with prepared := rest, dropping := prepared.charges + s.dropping }
  | intoInfo {s : System} {signal : DequeuedSignal} {rest : Multiset DequeuedSignal}
      (h : s.dequeued = signal ::ₘ rest) :
      Step s { s with dequeued := rest, dropping := signal.charges + s.dropping }
  | discardDetached {s : System} {c : SignalQueueCharge} {rest : Multiset SignalQueueCharge}
      (h : s.detached = c ::ₘ rest) : Step s { s with detached := rest, dropping := c ::ₘ s.dropping }
  | dropPerUser {s : System} {c : SignalQueueCharge} {rest : Multiset SignalQueueCharge} (h : s.dropping = c ::ₘ rest) :
      Step s { s with
        accounts := Function.update s.accounts c.perUser (s.accounts c.perUser).release
        dropping := rest
        releasing := c ::ₘ s.releasing }
  | dropGlobal {s : System} {c : SignalQueueCharge} {rest : Multiset SignalQueueCharge} (h : s.releasing = c ::ₘ rest) :
      Step s { s with accounts := Function.update s.accounts c.global (s.accounts c.global).release, releasing := rest }

def System.start (hardLimit : Nat → Nat) : System := ⟨fun a => ⟨0, hardLimit a⟩, 0, 0, 0, 0, 0, 0, 0, 0, 0⟩

def System.Reachable (s : System) : Prop := ∃ hardLimit, Relation.ReflTransGen Step (System.start hardLimit) s

/-- The charges on an account as the first of the two, and as the second. -/
def perUserOn (a : Nat) (charges : Multiset SignalQueueCharge) : Nat := charges.countP (·.perUser = a)

def globalOn (a : Nat) (charges : Multiset SignalQueueCharge) : Nat := charges.countP (·.global = a)

def System.underWay (s : System) (a : Nat) : Nat :=
  perUserOn a s.charging + perUserOn a s.refused + perUserOn a s.charged + globalOn a s.charged +
    perUserOn a s.dropping + globalOn a s.dropping + globalOn a s.releasing

section Count

variable {a : Nat} {c : SignalQueueCharge} {m m' : Multiset SignalQueueCharge}

@[simp] theorem perUserOn_zero : perUserOn a 0 = 0 := rfl

@[simp] theorem globalOn_zero : globalOn a 0 = 0 := rfl

@[simp] theorem perUserOn_add : perUserOn a (m + m') = perUserOn a m + perUserOn a m' := Multiset.countP_add ..

@[simp] theorem globalOn_add : globalOn a (m + m') = globalOn a m + globalOn a m' := Multiset.countP_add ..

@[simp] theorem perUserOn_cons : perUserOn a (c ::ₘ m) = perUserOn a m + if c.perUser = a then 1 else 0 :=
  Multiset.countP_cons ..

@[simp] theorem globalOn_cons : globalOn a (c ::ₘ m) = globalOn a m + if c.global = a then 1 else 0 :=
  Multiset.countP_cons ..

theorem tryCharge_ok {account account' : SignalQueueAccount} {limit : Nat}
    (h : account.tryCharge limit = .ok account') :
    account' = { account with queued := account.queued + 1 } ∧ account.queued + 1 ≤ usizeMax ∧
      account.queued + 1 ≤ account.hardLimit ∧ account.queued + 1 ≤ limit := by
  rw [SignalQueueAccount.tryCharge] at h
  split at h
  next hfits =>
    cases h
    exact ⟨rfl, hfits.1, hfits.2.trans (min_le_left ..), hfits.2.trans (min_le_right ..)⟩
  · cases h

theorem release_hardLimit (account : SignalQueueAccount) : account.release.hardLimit = account.hardLimit := by
  rw [SignalQueueAccount.release]

theorem release_queued {account : SignalQueueAccount} (hpos : 0 < account.queued) (hle : account.queued ≤ usizeMax) :
    account.release.queued + 1 = account.queued := by
  have hmod : (account.queued + usizeMax) % (usizeMax + 1) = account.queued - 1 := by
    rw [show account.queued + usizeMax = account.queued - 1 + (usizeMax + 1) by omega, Nat.add_mod_right,
      Nat.mod_eq_of_lt (by omega)]
  rw [SignalQueueAccount.release, hmod]
  simp only
  omega

end Count

section Moves

variable {p p' : PendingSignals} {signo : Signo}

theorem charges_update {queue : List RealtimeSignalNode} {more : Multiset SignalQueueCharge}
    (h : p'.realtime = Function.update p.realtime signo queue)
    (hmore : chargesOf queue = more + chargesOf (p.realtime signo)) : p'.charges = p.charges + more := by
  have hsplit : ∀ q : PendingSignals, q.charges = chargesOf (q.realtime signo) + ∑ other ∈ Finset.univ.erase signo,
      chargesOf (q.realtime other) :=
    fun q => (Finset.add_sum_erase Finset.univ (fun other => chargesOf (q.realtime other)) (Finset.mem_univ signo)).symm
  have hothers : ∑ other ∈ Finset.univ.erase signo, chargesOf (p'.realtime other) =
      ∑ other ∈ Finset.univ.erase signo, chargesOf (p.realtime other) := by
    refine Finset.sum_congr rfl ?_
    intro other hother
    rw [h, Function.update_of_ne (Finset.ne_of_mem_erase hother)]
  rw [hsplit p', hsplit p, hothers, h, Function.update_self, hmore]
  abel

theorem charges_congr (h : p'.realtime = p.realtime) : p'.charges = p.charges := by
  rw [PendingSignals.charges, h, PendingSignals.charges]

theorem charges_default : PendingSignals.default.charges = 0 := Finset.sum_const_zero

theorem publish_charges (p : PendingSignals) (prepared : PreparedSignal) :
    (p.publish prepared).2.charges + (((p.publish prepared).1.unused.toList : Multiset PreparedSignal)).bind
      (·.charges) = p.charges + prepared.charges := by
  obtain ⟨kind, generation⟩ := prepared
  cases kind with
  | standard signal =>
      simp only [PendingSignals.publish]
      split
      · simp [PreparedSignal.charges]
      · split
        · simp [PreparedSignal.charges]
        · simp [PreparedSignal.charges, PendingSignals.charges]
  | realtime node =>
      simp only [PendingSignals.publish]
      split
      · simp [PreparedSignal.charges]
      · simp only [Option.toList_none, Multiset.coe_nil, Multiset.zero_bind, add_zero, PreparedSignal.charges,
          PreparedSignal.signo]
        refine charges_update rfl ?_
        simp only [chargesOf, List.map_append, List.map_cons, List.map_nil, ← Multiset.coe_add]
        exact add_comm _ _
  | realtimeFallback info hrt => simp [PendingSignals.publish, PreparedSignal.charges, PendingSignals.charges]

theorem dequeue_charges {mask : SignalSet} {result : Option DequeuedSignal}
    (h : (p.dequeueSignal mask).1 = .ok result) :
    p.charges = (p.dequeueSignal mask).2.charges + (result.toList : Multiset DequeuedSignal).bind (·.charges) := by
  cases result with
  | none =>
      obtain ⟨_, _, hqueue⟩ := PendingSignals.dequeue_none (Prod.ext h rfl)
      simp [charges_congr hqueue]
  | some signal =>
      obtain ⟨_, _, hqueue⟩ := PendingSignals.dequeue_some (Prod.ext h rfl)
      cases signal with
      | standard signal => simp [charges_congr hqueue, DequeuedSignal.charges]
      | realtimeFallback signo epoch hrt => simp [charges_congr hqueue.1, DequeuedSignal.charges]
      | realtime node =>
          obtain ⟨signo, queue, hold, hnew⟩ := hqueue
          have hback : p.realtime = Function.update (p.dequeueSignal mask).2.realtime signo (node :: queue) := by
            rw [hnew, Function.update_idem, ← hold, Function.update_eq_self]
          simp only [Option.toList_some, Multiset.coe_singleton, Multiset.singleton_bind, DequeuedSignal.charges]
          refine charges_update hback ?_
          rw [hnew, Function.update_self]
          rfl

theorem requeue_charges (signal : DequeuedSignal) (p : PendingSignals) :
    (signal.requeueFront p).charges = p.charges + signal.charges := by
  cases signal with
  | standard signal => exact (add_zero _).symm
  | realtimeFallback signo epoch hrt =>
      rw [DequeuedSignal.requeueFront]
      split
      · exact (add_zero _).symm
      · exact (add_zero _).symm
  | realtime node => exact charges_update rfl rfl

theorem detach_charges (p : PendingSignals) (signo : Signo) :
    p.charges = (p.detachSignalInto signo ⟨[]⟩).2.charges + chargesOf (p.detachSignalInto signo ⟨[]⟩).1.realtime := by
  rw [PendingSignals.detachSignalInto]
  rcases p.set.remove signo with ⟨_ | _, set⟩
  · exact (add_zero _).symm
  · by_cases hrt : signo.isRealtime = true
    · simp only [hrt, if_true, List.nil_append]
      have hback : p.realtime = Function.update (Function.update p.realtime signo []) signo (p.realtime signo) := by
        rw [Function.update_idem, Function.update_eq_self]
      refine charges_update hback ?_
      simp only [Function.update_self]
      exact (add_zero _).symm
    · simp only [if_neg hrt]
      exact (add_zero _).symm

end Moves

section Balance

variable {s s' : System} {a : Nat}

def System.total (s : System) (a : Nat) : Nat := perUserOn a s.live + globalOn a s.live + s.underWay a

inductive Balanced (s s' : System) : Prop
  | moved (haccounts : s'.accounts = s.accounts) (htotal : ∀ a, s'.total a = s.total a)
  | charged {x limit : Nat} {account : SignalQueueAccount} (h : (s.accounts x).tryCharge limit = .ok account)
      (haccounts : s'.accounts = Function.update s.accounts x account) (htotal : ∀ a, s'.total a = s.total a +
        if x = a then 1 else 0)
  | released {x : Nat} (haccounts : s'.accounts = Function.update s.accounts x (s.accounts x).release)
      (htotal : ∀ a, s.total a = s'.total a + if x = a then 1 else 0)

theorem Step.balanced (h : Step s s') : Balanced s s' := by
  cases h with
  | charge h =>
      refine .charged h rfl fun a => ?_
      simp only [System.total, System.live, System.underWay, perUserOn_cons]
      omega
  | chargeGlobal hc h =>
      refine .charged h rfl fun a => ?_
      simp only [System.total, System.live, System.underWay, hc, perUserOn_cons, globalOn_cons]
      omega
  | refuse hc h =>
      refine .moved rfl fun a => ?_
      simp only [System.total, System.live, System.underWay, hc, perUserOn_cons]
      omega
  | giveBack hc =>
      refine .released rfl fun a => ?_
      simp only [System.total, System.live, System.underWay, hc, perUserOn_cons]
      omega
  | allocate hc info hrt =>
      refine .moved rfl fun a => ?_
      simp only [System.total, System.live, System.underWay, hc, Multiset.cons_bind, PreparedSignal.charges,
        perUserOn_add, globalOn_add,
        ← Multiset.cons_zero, perUserOn_cons, globalOn_cons, perUserOn_zero, globalOn_zero]
      omega
  | allocateFails hc =>
      refine .moved rfl fun a => ?_
      simp only [System.total, System.live, System.underWay, hc, perUserOn_cons, globalOn_cons]
      omega
  | prepare prepared h =>
      refine .moved rfl fun a => ?_
      simp only [System.total, System.live, System.underWay, Multiset.cons_bind, h, zero_add]
  | newQueue =>
      refine .moved rfl fun a => ?_
      simp only [System.total, System.live, System.underWay, Multiset.cons_bind, charges_default, zero_add]
  | @publish prepared rest p others hprepared hqueue =>
      refine .moved rfl fun a => ?_
      have h := publish_charges p prepared
      have h₁ := congrArg (perUserOn a) h
      have h₂ := congrArg (globalOn a) h
      simp only [perUserOn_add, globalOn_add] at h₁ h₂
      simp only [System.total, System.live, System.underWay, hprepared, hqueue, Multiset.cons_bind,
        Multiset.add_bind, perUserOn_add, globalOn_add]
      omega
  | @dequeue p others mask result hqueue hresult =>
      refine .moved rfl fun a => ?_
      have h := dequeue_charges hresult
      have h₁ := congrArg (perUserOn a) h
      have h₂ := congrArg (globalOn a) h
      simp only [perUserOn_add, globalOn_add] at h₁ h₂
      simp only [System.total, System.live, System.underWay, hqueue, Multiset.cons_bind, Multiset.add_bind,
        perUserOn_add, globalOn_add]
      omega
  | @requeue signal rest p others hsignal hqueue =>
      refine .moved rfl fun a => ?_
      simp only [System.total, System.live, System.underWay, hsignal, hqueue, Multiset.cons_bind, requeue_charges,
        perUserOn_add, globalOn_add]
      omega
  | @detach p others signo hqueue =>
      refine .moved rfl fun a => ?_
      have h := detach_charges p signo
      have h₁ := congrArg (perUserOn a) h
      have h₂ := congrArg (globalOn a) h
      simp only [perUserOn_add, globalOn_add] at h₁ h₂
      simp only [System.total, System.live, System.underWay, hqueue, Multiset.cons_bind, perUserOn_add, globalOn_add]
      omega
  | @takeAll p others hqueue =>
      refine .moved rfl fun a => ?_
      have h : p.takeAll.2.charges = 0 := charges_default
      have h' : p.takeAll.1.charges = p.charges := rfl
      simp only [System.total, System.live, System.underWay, hqueue, Multiset.cons_bind, h, h', perUserOn_add,
        globalOn_add, zero_add]
      omega
  | discardPrepared h =>
      refine .moved rfl fun a => ?_
      simp only [System.total, System.live, System.underWay, h, Multiset.cons_bind, perUserOn_add, globalOn_add]
      omega
  | intoInfo h =>
      refine .moved rfl fun a => ?_
      simp only [System.total, System.live, System.underWay, h, Multiset.cons_bind, perUserOn_add, globalOn_add]
      omega
  | discardDetached h =>
      refine .moved rfl fun a => ?_
      simp only [System.total, System.live, System.underWay, h, perUserOn_add, globalOn_add, perUserOn_cons,
        globalOn_cons]
      omega
  | dropPerUser h =>
      refine .released rfl fun a => ?_
      simp only [System.total, System.live, System.underWay, h, perUserOn_cons, globalOn_cons]
      omega
  | dropGlobal h =>
      refine .released rfl fun a => ?_
      simp only [System.total, System.live, System.underWay, h, globalOn_cons]
      omega

structure System.Sound (s : System) : Prop where
  counts : ∀ a, (s.accounts a).queued = s.total a
  limits : ∀ a, (s.accounts a).queued ≤ (s.accounts a).hardLimit
  small : ∀ a, (s.accounts a).queued ≤ usizeMax

theorem System.sound_start (hardLimit : Nat → Nat) : (System.start hardLimit).Sound where
  counts a := by simp [System.start, System.total, System.live, System.underWay]
  limits _ := Nat.zero_le _
  small _ := Nat.zero_le _

theorem System.Sound.step (hs : s.Sound) (h : Step s s') : s'.Sound := by
  cases h.balanced with
  | moved haccounts htotal =>
      rw [← funext_iff] at htotal
      constructor
      case counts => rw [haccounts, htotal]; exact hs.counts
      case limits => rw [haccounts]; exact hs.limits
      case small => rw [haccounts]; exact hs.small
  | @charged x limit account hcharge haccounts htotal =>
      obtain ⟨rfl, hmax, hhard, _⟩ := tryCharge_ok hcharge
      have hat : ∀ a, x ≠ a → s'.accounts a = s.accounts a := by
        intro a hne
        rw [haccounts, Function.update_of_ne hne.symm]
      have hself : s'.accounts x = { s.accounts x with queued := (s.accounts x).queued + 1 } := by
        rw [haccounts, Function.update_self]
      constructor
      case counts =>
        intro a
        rw [htotal, ← hs.counts]
        by_cases hx : x = a
        · subst hx
          rw [hself, if_pos rfl]
        · rw [hat a hx, if_neg hx, Nat.add_zero]
      case limits =>
        intro a
        by_cases hx : x = a
        · subst hx
          rw [hself]
          exact hhard
        · rw [hat a hx]
          exact hs.limits a
      case small =>
        intro a
        by_cases hx : x = a
        · subst hx
          rw [hself]
          exact hmax
        · rw [hat a hx]
          exact hs.small a
  | @released x haccounts htotal =>
      have hat : ∀ a, x ≠ a → s'.accounts a = s.accounts a := by
        intro a hne
        rw [haccounts, Function.update_of_ne hne.symm]
      have hself : s'.accounts x = (s.accounts x).release := by rw [haccounts, Function.update_self]
      have hx := htotal x
      rw [if_pos rfl, ← hs.counts] at hx
      have hqueued : (s'.accounts x).queued + 1 = (s.accounts x).queued := by
        rw [hself]
        exact release_queued (by omega) (hs.small x)
      have hhard : (s'.accounts x).hardLimit = (s.accounts x).hardLimit := by rw [hself, release_hardLimit]
      constructor
      case counts =>
        intro a
        by_cases hxa : x = a
        · subst hxa
          omega
        · have := htotal a
          rw [if_neg hxa, Nat.add_zero, ← hs.counts] at this
          rw [hat a hxa, this]
      case limits =>
        intro a
        by_cases hxa : x = a
        · subst hxa
          have := hs.limits x
          omega
        · rw [hat a hxa]
          exact hs.limits a
      case small =>
        intro a
        by_cases hxa : x = a
        · subst hxa
          have := hs.small x
          omega
        · rw [hat a hxa]
          exact hs.small a

theorem System.Reachable.sound (h : s.Reachable) : s.Sound := by
  obtain ⟨hardLimit, hrun⟩ := h
  induction hrun with
  | refl => exact System.sound_start hardLimit
  | tail _ hstep ih => exact ih.step hstep

structure System.Quiet (s : System) : Prop where
  charging : s.charging = 0
  refused : s.refused = 0
  charged : s.charged = 0
  dropping : s.dropping = 0
  releasing : s.releasing = 0

theorem tryNew_error {accounts accounts' : Accounts} {perUser rlimit global : Nat} {e : SignalQueueError}
    (h : SignalQueueCharge.tryNew accounts perUser rlimit global = (.error e, accounts')) : accounts' = accounts := by
  rw [SignalQueueCharge.tryNew] at h
  split at h
  · cases h
    rfl
  next account hcharge =>
    obtain ⟨rfl, hmax, _, _⟩ := tryCharge_ok hcharge
    dsimp only at h
    split at h
    · cases h
    · cases h
      rw [Function.update_idem, Function.update_self]
      refine Function.update_eq_self_iff.mpr ?_
      have hqueued : (SignalQueueAccount.release ⟨(accounts perUser).queued + 1,
          (accounts perUser).hardLimit⟩).queued + 1 =
          (accounts perUser).queued + 1 := release_queued (Nat.succ_pos _) hmax
      exact SignalQueueAccount.mk.injEq .. ▸ ⟨Nat.succ.inj hqueued, rfl⟩

/-- Each account counts the records that are charged to it. -/
theorem accounts_exact (h : s.Reachable) :
    (∀ a, (s.accounts a).queued = perUserOn a s.live + globalOn a s.live + s.underWay a) ∧
    (s.Quiet → ∀ a, (s.accounts a).queued = perUserOn a s.live + globalOn a s.live) ∧
    (∀ a, (s.accounts a).queued ≤ (s.accounts a).hardLimit) ∧
    (∀ a rlimit account, (s.accounts a).tryCharge rlimit = .ok account → account.queued ≤ rlimit) ∧
    (∀ c ∈ s.refused, (s.accounts c.perUser).release.queued + 1 = (s.accounts c.perUser).queued) ∧
    ∀ perUser rlimit global e accounts,
      SignalQueueCharge.tryNew s.accounts perUser rlimit global = (.error e, accounts) → accounts = s.accounts := by
  have hsound := h.sound
  refine ⟨hsound.counts, ?_, hsound.limits, ?_, ?_, fun _ _ _ _ _ => tryNew_error⟩
  · intro hquiet a
    rw [hsound.counts, System.total, System.underWay, hquiet.charging, hquiet.refused, hquiet.charged,
      hquiet.dropping, hquiet.releasing]
    rfl
  · intro a rlimit account hcharge
    obtain ⟨rfl, _, _, hle⟩ := tryCharge_ok hcharge
    exact hle
  · intro c hc
    obtain ⟨rest, hrest⟩ := Multiset.exists_cons_of_mem hc
    refine release_queued ?_ (hsound.small c.perUser)
    rw [hsound.counts, System.total, System.underWay, hrest, perUserOn_cons, if_pos rfl]
    omega

def recordOf (c : SignalQueueCharge) : PreparedSignal :=
  ⟨.realtime ⟨0, ⟨PendingSignals.signal40, []⟩, none, c, rfl⟩, none⟩

theorem System.Reachable.record (h : s.Reachable) (c : SignalQueueCharge) (rlimit : Nat)
    (first second : SignalQueueAccount) (h₁ : (s.accounts c.perUser).tryCharge rlimit = .ok first)
    (h₂ : (Function.update s.accounts c.perUser first c.global).tryCharge usizeMax = .ok second) :
    System.Reachable { s with
      accounts := Function.update (Function.update s.accounts c.perUser first) c.global second
      prepared := recordOf c ::ₘ s.prepared } := by
  obtain ⟨hardLimit, hruns⟩ := h
  exact ⟨hardLimit, ((hruns.tail (.charge h₁)).tail (.chargeGlobal rfl h₂)).tail (.allocate rfl _ rfl)⟩

/-- The users 0 and 1 have a record each, and the shared account 2 is full. -/
def twoRecords : System :=
  { System.start (fun _ => 2) with
    accounts := Function.update (Function.update (Function.update (Function.update (fun _ => ⟨0, 2⟩) 0 ⟨1, 2⟩) 2 ⟨1, 2⟩)
      1 ⟨1, 2⟩) 2 ⟨2, 2⟩
    prepared := recordOf ⟨1, 2⟩ ::ₘ recordOf ⟨0, 2⟩ ::ₘ 0 }

/-- A further call of user 0 has been refused and still holds its first charge. -/
def contended : System :=
  { twoRecords with accounts := Function.update twoRecords.accounts 0 ⟨2, 2⟩, refused := ⟨0, 2⟩ ::ₘ 0 }

/-- The records and the refused call are what the accounts count. -/
theorem accounts_exact_contended : contended.Reachable ∧
    (perUserOn 0 contended.live = 1 ∧ contended.underWay 0 = 1 ∧ (contended.accounts 0).queued = 2) ∧
    (globalOn 2 contended.live = 2 ∧ contended.underWay 2 = 0 ∧ (contended.accounts 2).queued = 2) := by
  have hstart : (System.start fun _ => 2).Reachable := ⟨_, .refl⟩
  have hfirst := hstart.record ⟨0, 2⟩ 2 ⟨1, 2⟩ ⟨1, 2⟩ (by decide) (by decide)
  have hsecond : twoRecords.Reachable :=
    hfirst.record ⟨1, 2⟩ 2 ⟨1, 2⟩ ⟨2, 2⟩ (by decide) (by decide)
  have hreach : contended.Reachable := by
    obtain ⟨hardLimit, hruns⟩ := hsecond
    have hcharge : (twoRecords.accounts 0).tryCharge 2 = .ok ⟨2, 2⟩ := by decide
    exact ⟨hardLimit, (hruns.tail (@Step.charge twoRecords 0 2 2 _ hcharge)).tail
      (.refuse (e := .limitExceeded) rfl (by decide))⟩
  have hlive : perUserOn 0 contended.live = 1 ∧ globalOn 0 contended.live = 0 ∧ contended.underWay 0 = 1 := by
    decide +kernel
  have hshared : perUserOn 2 contended.live = 0 ∧ globalOn 2 contended.live = 2 ∧ contended.underWay 2 = 0 := by
    decide +kernel
  have hcounts := (accounts_exact hreach).1
  refine ⟨hreach, ⟨hlive.1, hlive.2.2, ?_⟩, hshared.2.1, hshared.2.2, ?_⟩
  · rw [hcounts, hlive.1, hlive.2.1, hlive.2.2]
  · rw [hcounts, hshared.1, hshared.2.1, hshared.2.2]

end Balance

end TheKernel.Signal
