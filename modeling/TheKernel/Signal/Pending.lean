import TheKernel.Lib.Outcome
import TheKernel.Lib.BitWords

namespace TheKernel.Signal

/-- `SIGHUP` to `SIGRT32`. -/
structure Signo where
  number : Nat
  pos : 1 ≤ number
  le : number ≤ 64
  deriving DecidableEq

namespace Signo

def sigrtmin : Nat := 32

def isRealtime (signo : Signo) : Bool := sigrtmin ≤ signo.number

def fromRepr (raw : Nat) : Option Signo := if h : 1 ≤ raw ∧ raw ≤ 64 then some ⟨raw, h.1, h.2⟩ else none

end Signo

structure SignalSet where
  bits : BitVec 64

namespace SignalSet

def empty : SignalSet := ⟨0⟩

def signoBit (signo : Signo) : BitVec 64 := BitVec.twoPow 64 (signo.number - 1)

def has (set : SignalSet) (signal : Signo) : Bool := set.bits &&& signoBit signal ≠ 0

def add (set : SignalSet) (signal : Signo) : Bool × SignalSet :=
  if set.bits &&& signoBit signal ≠ 0 then (false, set) else (true, ⟨set.bits ||| signoBit signal⟩)

def remove (set : SignalSet) (signal : Signo) : Bool × SignalSet :=
  if set.bits &&& signoBit signal = 0 then (false, set) else (true, ⟨set.bits &&& ~~~signoBit signal⟩)

def dequeue (set mask : SignalSet) : Option Signo × SignalSet :=
  let bits := set.bits &&& mask.bits
  if bits = 0 then (none, set)
  else (Signo.fromRepr (bits.ctz.toNat + 1), ⟨set.bits &&& ~~~BitVec.twoPow 64 bits.ctz.toNat⟩)

end SignalSet

/-- A siginfo record: its number, and the bytes that nothing here reads. -/
structure SignalInfo where
  signo : Signo
  payload : List (BitVec 8)
  deriving DecidableEq

structure StandardSignal where
  order : Nat
  info : SignalInfo
  generation : Option (BitVec 64)
  standard : info.signo.isRealtime = false
  deriving DecidableEq

/-- The two accounts that a queued record is charged to. An account is named by
a number, as an `Arc` is by its address. -/
structure SignalQueueCharge where
  perUser : Nat
  global : Nat
  deriving DecidableEq

structure RealtimeSignalNode where
  order : Nat
  info : SignalInfo
  generation : Option (BitVec 64)
  charge : SignalQueueCharge
  realtime : info.signo.isRealtime = true
  deriving DecidableEq

inductive PreparedSignalKind where
  | standard (signal : StandardSignal)
  | realtime (node : RealtimeSignalNode)
  | realtimeFallback (info : SignalInfo) (h : info.signo.isRealtime = true)

structure PreparedSignal where
  kind : PreparedSignalKind
  generation : Option (BitVec 64)

def PreparedSignal.signo (prepared : PreparedSignal) : Signo :=
  match prepared.kind with
  | .standard signal => signal.info.signo
  | .realtime node => node.info.signo
  | .realtimeFallback info _ => info.signo

inductive DequeuedSignal where
  | standard (signal : StandardSignal)
  | realtime (node : RealtimeSignalNode)
  | realtimeFallback (signo : Signo) (publishEpoch : BitVec 64) (h : signo.isRealtime = true)
  deriving DecidableEq

def DequeuedSignal.signo : DequeuedSignal → Signo
  | .standard signal => signal.info.signo
  | .realtime node => node.info.signo
  | .realtimeFallback signo _ _ => signo

structure PublishOutcome where
  added : Bool
  unused : Option PreparedSignal

/-- The slots and queues are indexed by signal: a record's kind says which of
the two it goes to. A queue is its nodes in order. -/
structure PendingSignals where
  nextOrder : Nat
  set : SignalSet
  standard : Signo → Option StandardSignal
  realtime : Signo → List RealtimeSignalNode
  realtimePublishEpoch : Signo → BitVec 64

/-- Queue nodes whose destruction waits for the lock to be released. -/
structure DetachedSignal where
  realtime : List RealtimeSignalNode

namespace PendingSignals

def default : PendingSignals := ⟨0, .empty, fun _ => none, fun _ => [], fun _ => 0⟩

def orderMax : Nat := 2 ^ 128 - 1

def publish (p : PendingSignals) (prepared : PreparedSignal) : PublishOutcome × PendingSignals :=
  let signo := prepared.signo
  match prepared.kind with
  | .standard signal =>
      let signal := { signal with generation := prepared.generation }
      if p.set.has signo then (⟨false, some ⟨.standard signal, prepared.generation⟩⟩, p)
      else if p.nextOrder + 1 > orderMax then (⟨false, some ⟨.standard signal, prepared.generation⟩⟩, p)
      else
        (⟨true, none⟩, { p with
          nextOrder := p.nextOrder + 1
          set := (p.set.add signo).2
          standard := Function.update p.standard signo (some { signal with order := p.nextOrder + 1 }) })
  | .realtime node =>
      let node := { node with generation := prepared.generation }
      if p.nextOrder + 1 > orderMax then (⟨false, some ⟨.realtime node, prepared.generation⟩⟩, p)
      else
        (⟨true, none⟩, { p with
          nextOrder := p.nextOrder + 1
          set := (p.set.add signo).2
          realtime := Function.update p.realtime signo (p.realtime signo ++ [{ node with order := p.nextOrder + 1 }])
          realtimePublishEpoch := Function.update p.realtimePublishEpoch signo (p.realtimePublishEpoch signo + 1) })
  | .realtimeFallback _ _ => (⟨(p.set.add signo).1, none⟩, { p with set := (p.set.add signo).2 })

/-- Panics where a standard bit has no record in its slot. -/
def dequeueSignal (p : PendingSignals) (mask : SignalSet) : Outcome Empty (Option DequeuedSignal) × PendingSignals :=
  match p.set.dequeue mask with
  | (none, set) => (.ok none, { p with set := set })
  | (some signo, set) =>
      if h : signo.isRealtime then
        match p.realtime signo with
        | node :: queue =>
            (.ok (some (.realtime node)), { p with
              set := if queue = [] then set else (set.add signo).2
              realtime := Function.update p.realtime signo queue })
        | [] => (.ok (some (.realtimeFallback signo (p.realtimePublishEpoch signo) h)), { p with set := set })
      else
        match p.standard signo with
        | some signal => (.ok (some (.standard signal)), { p with
          set := set
          standard := Function.update p.standard signo none })
        | none => (.panic, { p with set := set })

def detachSignalInto (p : PendingSignals) (signo : Signo) (detached : DetachedSignal) :
    DetachedSignal × PendingSignals :=
  match p.set.remove signo with
  | (false, _) => (detached, p)
  | (true, set) =>
      if signo.isRealtime then
        (⟨detached.realtime ++ p.realtime signo⟩, { p with
          set := set
          realtime := Function.update p.realtime signo [] })
      else (detached, { p with set := set, standard := Function.update p.standard signo none })

def takeAll (p : PendingSignals) : PendingSignals × PendingSignals := (p, { default with nextOrder := p.nextOrder })

end PendingSignals

def DequeuedSignal.requeueFront (signal : DequeuedSignal) (pending : PendingSignals) : PendingSignals :=
  let signo := signal.signo
  match signal with
  | .standard signal => { pending with
      standard := Function.update pending.standard signo (some signal)
      set := (pending.set.add signo).2 }
  | .realtime node => { pending with
      set := (pending.set.add signo).2
      realtime := Function.update pending.realtime signo (node :: pending.realtime signo) }
  | .realtimeFallback signo publishEpoch _ =>
      if pending.realtimePublishEpoch signo = publishEpoch then { pending with set := (pending.set.add signo).2 }
        else pending

namespace SignalSet

variable {set mask : SignalSet} {signo other : Signo}

theorem has_iff : set.has signo = true ↔ set.bits.getLsbD (signo.number - 1) = true := by
  rw [has, decide_eq_true_eq, signoBit, ne_eq, and_twoPow_eq_zero, Bool.not_eq_false]

theorem pred_lt : signo.number - 1 < 64 := by
  have := signo.pos
  have := signo.le
  omega

theorem pred_eq_iff : signo.number - 1 = other.number - 1 ↔ other = signo := by
  obtain ⟨a, _, _⟩ := other
  obtain ⟨b, _, _⟩ := signo
  simp only [Signo.mk.injEq]
  omega

theorem has_empty : empty.has signo = false := by
  rw [← Bool.not_eq_true, has_iff]
  simp [empty]

theorem has_add : (set.add signo).2.has other = true ↔ other = signo ∨ set.has other = true := by
  unfold add
  split
  next hset =>
    have hsigno : set.has signo = true := decide_eq_true hset
    constructor
    · exact .inr
    · rintro (rfl | h)
      · exact hsigno
      · exact h
  next =>
    simp only [has_iff, BitVec.getLsbD_or, signoBit, BitVec.getLsbD_twoPow, Bool.or_eq_true, Bool.and_eq_true,
      decide_eq_true_eq, pred_lt, true_and, pred_eq_iff]
    exact or_comm

theorem has_clear : (⟨set.bits &&& ~~~signoBit signo⟩ : SignalSet).has other = true ↔ other ≠ signo ∧
    set.has other = true := by
  simp only [has_iff, BitVec.getLsbD_and, BitVec.getLsbD_not, signoBit, BitVec.getLsbD_twoPow, pred_lt,
    decide_true, Bool.true_and,
    Bool.and_eq_true, Bool.not_eq_true', decide_eq_false_iff_not, pred_eq_iff, ne_eq]
  exact and_comm

@[simp] theorem has_add_self : (set.add signo).2.has signo = true := has_add.mpr (.inl rfl)

theorem has_add_of_ne (h : other ≠ signo) : (set.add signo).2.has other = set.has other := by
  rw [Bool.eq_iff_iff, has_add]
  exact or_iff_right h

@[simp] theorem has_clear_self : (⟨set.bits &&& ~~~signoBit signo⟩ : SignalSet).has signo = false := by
  rw [← Bool.not_eq_true, has_clear]
  exact fun h => h.1 rfl

theorem has_clear_of_ne (h : other ≠ signo) : (⟨set.bits &&& ~~~signoBit signo⟩ : SignalSet).has other =
    set.has other := by
  rw [Bool.eq_iff_iff, has_clear]
  exact and_iff_right h

theorem remove_eq : set.remove signo =
    if set.has signo then (true, ⟨set.bits &&& ~~~signoBit signo⟩)
    else (false, set) := by
  simp only [remove, has, ne_eq, decide_not, Bool.not_eq_true', decide_eq_false_iff_not, ite_not]

/-- The lowest pending signal of the mask, or none when the mask has none. -/
theorem dequeue_spec (set mask : SignalSet) :
    (set.dequeue mask = (none, set) ∧ ∀ signo, set.has signo = true → mask.has signo = false) ∨
    ∃ signo, set.dequeue mask = (some signo, ⟨set.bits &&& ~~~signoBit signo⟩) ∧ set.has signo = true ∧
      mask.has signo = true ∧
      ∀ other, set.has other = true → mask.has other = true → signo.number ≤ other.number := by
  have hboth : ∀ signo, (set.bits &&& mask.bits).getLsbD (signo.number - 1) = true ↔ set.has signo = true ∧
      mask.has signo = true := by
    intro signo
    rw [has_iff, has_iff, BitVec.getLsbD_and, Bool.and_eq_true]
  unfold dequeue
  by_cases hzero : set.bits &&& mask.bits = 0
  · left
    refine ⟨by rw [if_pos hzero], fun signo hset => ?_⟩
    rw [← Bool.not_eq_true]
    intro hmask
    have := (hboth signo).mpr ⟨hset, hmask⟩
    rw [hzero] at this
    exact absurd this (by simp)
  · right
    have hlow : (set.bits &&& mask.bits).getLsbD (set.bits &&& mask.bits).ctz.toNat = true :=
      BitVec.getLsbD_true_ctz_of_ne_zero hzero
    have hlt : (set.bits &&& mask.bits).ctz.toNat < 64 := BitVec.lt_of_getLsbD hlow
    let signo : Signo := ⟨(set.bits &&& mask.bits).ctz.toNat + 1, by omega, by omega⟩
    obtain ⟨hset, hmask⟩ := (hboth signo).mp hlow
    refine ⟨signo, ?_, hset, hmask, fun other hother hother' => ?_⟩
    · rw [if_neg hzero, Signo.fromRepr, dif_pos ⟨by omega, by omega⟩]
      rfl
    · by_contra hlower
      have hfalse : (set.bits &&& mask.bits).getLsbD (other.number - 1) = false := by
        apply BitVec.getLsbD_false_of_lt_ctz
        have := other.pos
        simp only [signo] at hlower
        omega
      rw [(hboth other).mpr ⟨hother, hother'⟩] at hfalse
      cases hfalse

end SignalSet

inductive Record where
  | publish (prepared : PreparedSignal)
  | dequeue (result : Option DequeuedSignal)
  | detach (signo : Signo)
  | requeue (signal : DequeuedSignal)
  | takeAll

namespace Record

def fallback (signo : Signo) : Record → Bool
  | .publish ⟨.realtimeFallback info _, _⟩ => info.signo = signo
  | .requeue (.realtimeFallback signo' _ _) => signo' = signo
  | _ => false

def removes (signo : Signo) : Record → Bool
  | .dequeue (some signal) => signal.signo = signo
  | .detach signo' => signo' = signo
  | .takeAll => true
  | _ => false

end Record

/-- A fallback record came after the signal was last removed. The latest call
is the first of the list. -/
def FallbackSince (signo : Signo) : List Record → Prop
  | [] => False
  | record :: log => record.fallback signo = true ∨ (record.removes signo = false ∧ FallbackSince signo log)

namespace PendingSignals

inductive Run : PendingSignals → List Record → Prop
  | start : Run default []
  | publish {p : PendingSignals} {log : List Record} (h : Run p log) (prepared : PreparedSignal) :
      Run (p.publish prepared).2 (.publish prepared :: log)
  | dequeue {p : PendingSignals} {log : List Record} (h : Run p log) {mask : SignalSet} {result : Option DequeuedSignal}
      (hresult : (p.dequeueSignal mask).1 = .ok result) : Run (p.dequeueSignal mask).2 (.dequeue result :: log)
  | detach {p : PendingSignals} {log : List Record} (h : Run p log) (signo : Signo) (detached : DetachedSignal) :
      Run (p.detachSignalInto signo detached).2 (.detach signo :: log)
  | requeue {p : PendingSignals} {log : List Record} (h : Run p log) (signal : DequeuedSignal) :
      Run (signal.requeueFront p) (.requeue signal :: log)
  | takeAll {p : PendingSignals} {log : List Record} (h : Run p log) : Run p.takeAll.2 (.takeAll :: log)

/-- How the bit of a signal agrees with its slot, its queue and the fallback
records since it was last removed. -/
structure Agrees (signo : Signo) (bit : Bool) (slot : Option StandardSignal) (queue : List RealtimeSignalNode)
    (since : Prop) : Prop where
  standard : signo.isRealtime = false → (bit = true ↔ slot.isSome)
  slotNumber : ∀ signal, slot = some signal → signal.info.signo = signo
  realtime : queue ≠ [] → bit = true
  queueNumber : ∀ node ∈ queue, node.info.signo = signo
  fallback : signo.isRealtime = true → bit = true → queue = [] → since

def Sound (p : PendingSignals) (log : List Record) : Prop :=
  ∀ signo, Agrees signo (p.set.has signo) (p.standard signo) (p.realtime signo) (FallbackSince signo log)

variable {p p' : PendingSignals} {log : List Record} {signo : Signo} {record : Record}

theorem Agrees.clear {since : Prop} : Agrees signo false none [] since where
  standard _ := by simp
  slotNumber := nofun
  realtime h := absurd rfl h
  queueNumber := nofun
  fallback _ := nofun

theorem Agrees.mono {bit : Bool} {slot : Option StandardSignal} {queue : List RealtimeSignalNode} {since since' : Prop}
    (h : Agrees signo bit slot queue since) (himp : since → since') : Agrees signo bit slot queue since' :=
  { h with fallback := fun hrt hbit hempty => himp (h.fallback hrt hbit hempty) }

/-- Only the storage that a signal's number selects is in use. -/
theorem Agrees.slot_none {bit : Bool} {slot : Option StandardSignal} {queue : List RealtimeSignalNode} {since : Prop}
    (h : Agrees signo bit slot queue since) (hrt : signo.isRealtime = true) : slot = none := by
  cases hslot : slot with
  | none => rfl
  | some signal =>
      have := signal.standard
      rw [h.slotNumber signal hslot, hrt] at this
      cases this

theorem Agrees.queue_nil {bit : Bool} {slot : Option StandardSignal} {queue : List RealtimeSignalNode} {since : Prop}
    (h : Agrees signo bit slot queue since) (hrt : signo.isRealtime = false) : queue = [] := by
  cases hqueue : queue with
  | nil => rfl
  | cons node nodes =>
      have := node.realtime
      rw [h.queueNumber node (by simp [hqueue]), hrt] at this
      cases this

theorem Agrees.of_queue {queue : List RealtimeSignalNode} {since : Prop} (hrt : signo.isRealtime = true)
    (hne : queue ≠ [])
    (hqueue : ∀ node ∈ queue, node.info.signo = signo) : Agrees signo true none queue since where
  standard h := by rw [hrt] at h; cases h
  slotNumber := nofun
  realtime _ := rfl
  queueNumber := hqueue
  fallback _ _ hempty := absurd hempty hne

theorem Agrees.of_slot {signal : StandardSignal} {since : Prop} (h : signal.info.signo = signo) :
    Agrees signo true (some signal) [] since where
  standard _ := by simp
  slotNumber _ hsignal := by cases hsignal; exact h
  realtime _ := rfl
  queueNumber := nofun
  fallback hrt := by
    have := signal.standard
    rw [h, hrt] at this
    cases this

theorem Agrees.of_fallback {bit : Bool} {slot : Option StandardSignal} {queue : List RealtimeSignalNode}
    {since since' : Prop}
    (h : Agrees signo bit slot queue since) (hrt : signo.isRealtime = true) (hsince : since') :
    Agrees signo true slot queue since' where
  standard hstd := by rw [hrt] at hstd; cases hstd
  slotNumber := h.slotNumber
  realtime _ := rfl
  queueNumber := h.queueNumber
  fallback _ _ _ := hsince

theorem FallbackSince.keep (hremoves : record.removes signo = false) (h : FallbackSince signo log) :
    FallbackSince signo (record :: log) := .inr ⟨hremoves, h⟩

/-- A call that touches one signal leaves the others as they were. -/
theorem Sound.change (signo : Signo) (h : Sound p log)
    (hother : ∀ other, other ≠ signo → p'.set.has other = p.set.has other ∧ p'.standard other = p.standard other ∧
      p'.realtime other = p.realtime other ∧ record.removes other = false)
    (hsigno : Agrees signo (p'.set.has signo) (p'.standard signo) (p'.realtime signo) (FallbackSince signo
      (record :: log))) :
    Sound p' (record :: log) := by
  intro other
  by_cases hne : other = signo
  · rw [hne]
    exact hsigno
  · obtain ⟨hbit, hslot, hqueue, hremoves⟩ := hother other hne
    rw [hbit, hslot, hqueue]
    exact (h other).mono (FallbackSince.keep hremoves)

theorem Sound.idle (h : Sound p log) (hremoves : ∀ signo, record.removes signo = false) : Sound p (record :: log) :=
  fun signo => (h signo).mono (FallbackSince.keep (hremoves signo))

theorem sound_default : Sound default [] := by
  intro signo
  rw [show default.set.has signo = false from SignalSet.has_empty]
  exact .clear

theorem Sound.publish (h : Sound p log) (prepared : PreparedSignal) :
    Sound (p.publish prepared).2 (.publish prepared :: log) := by
  obtain ⟨kind, generation⟩ := prepared
  cases kind with
  | standard signal =>
      simp only [PendingSignals.publish]
      split
      · exact h.idle fun _ => rfl
      · split
        · exact h.idle fun _ => rfl
        · refine h.change signal.info.signo (fun other hne => ?_) ?_
          · exact ⟨SignalSet.has_add_of_ne hne, Function.update_of_ne hne _ _, rfl, rfl⟩
          · have hempty := (h signal.info.signo).queue_nil signal.standard
            simp only [PreparedSignal.signo, SignalSet.has_add_self, Function.update_self, hempty]
            exact .of_slot rfl
  | realtime node =>
      simp only [PendingSignals.publish]
      split
      · exact h.idle fun _ => rfl
      · refine h.change node.info.signo (fun other hne => ?_) ?_
        · exact ⟨SignalSet.has_add_of_ne hne, rfl, Function.update_of_ne hne _ _, rfl⟩
        · have hnone := (h node.info.signo).slot_none node.realtime
          simp only [PreparedSignal.signo, SignalSet.has_add_self, Function.update_self, hnone]
          apply Agrees.of_queue node.realtime (by simp)
          intro node' hnode'
          rcases List.mem_append.mp hnode' with hold | hnew
          · exact (h node.info.signo).queueNumber node' hold
          · rw [List.mem_singleton.mp hnew]
  | realtimeFallback info hinfo =>
      refine h.change info.signo (fun other hne => ?_) ?_
      · exact ⟨SignalSet.has_add_of_ne hne, rfl, rfl, rfl⟩
      · simp only [PendingSignals.publish, PreparedSignal.signo, SignalSet.has_add_self]
        exact (h info.signo).of_fallback hinfo (.inl (decide_eq_true rfl))

theorem Sound.requeue (h : Sound p log) (signal : DequeuedSignal) : Sound (signal.requeueFront p)
    (.requeue signal :: log) := by
  cases signal with
  | standard signal =>
      refine h.change signal.info.signo (fun other hne => ?_) ?_
      · exact ⟨SignalSet.has_add_of_ne hne, Function.update_of_ne hne _ _, rfl, rfl⟩
      · have hempty := (h signal.info.signo).queue_nil signal.standard
        simp only [DequeuedSignal.requeueFront, DequeuedSignal.signo, SignalSet.has_add_self, Function.update_self,
          hempty]
        exact .of_slot rfl
  | realtime node =>
      refine h.change node.info.signo (fun other hne => ?_) ?_
      · exact ⟨SignalSet.has_add_of_ne hne, rfl, Function.update_of_ne hne _ _, rfl⟩
      · have hnone := (h node.info.signo).slot_none node.realtime
        simp only [DequeuedSignal.requeueFront, DequeuedSignal.signo, SignalSet.has_add_self, Function.update_self,
          hnone]
        apply Agrees.of_queue node.realtime (by simp)
        intro node' hnode'
        rcases List.mem_cons.mp hnode' with rfl | hold
        · rfl
        · exact (h node.info.signo).queueNumber node' hold
  | realtimeFallback signo publishEpoch hsigno =>
      simp only [DequeuedSignal.requeueFront]
      split
      · refine h.change signo (fun other hne => ?_) ?_
        · exact ⟨SignalSet.has_add_of_ne hne, rfl, rfl, rfl⟩
        · simp only [SignalSet.has_add_self]
          exact (h signo).of_fallback hsigno (.inl (decide_eq_true rfl))
      · exact h.idle fun _ => rfl

theorem Sound.detach (h : Sound p log) (signo : Signo) (detached : DetachedSignal) :
    Sound (p.detachSignalInto signo detached).2 (.detach signo :: log) := by
  rw [detachSignalInto, SignalSet.remove_eq]
  have hremoves : ∀ other, other ≠ signo → Record.removes other (.detach signo) = false := fun other hne =>
    decide_eq_false (Ne.symm hne)
  cases hbit : p.set.has signo with
  | false =>
      refine h.change signo (fun other hne => ⟨rfl, rfl, rfl, hremoves other hne⟩) ?_
      simp only [Bool.false_eq_true, if_false]
      rw [hbit]
      exact { h signo with
        standard := fun hstd => by rw [← (h signo).standard hstd, hbit]
        realtime := fun hne => by rw [← hbit]; exact (h signo).realtime hne
        fallback := fun _ => nofun }
  | true =>
      simp only [if_true]
      split
      next hrt =>
        refine h.change signo (fun other hne => ?_) ?_
        · exact ⟨SignalSet.has_clear_of_ne hne, rfl, Function.update_of_ne hne _ _, hremoves other hne⟩
        · simp only [SignalSet.has_clear_self, Function.update_self, (h signo).slot_none hrt]
          exact .clear
      next hstd =>
        refine h.change signo (fun other hne => ?_) ?_
        · exact ⟨SignalSet.has_clear_of_ne hne, Function.update_of_ne hne _ _, rfl, hremoves other hne⟩
        · simp only [SignalSet.has_clear_self, Function.update_self, (h signo).queue_nil (Bool.not_eq_true _ ▸ hstd)]
          exact .clear

theorem Sound.takeAll (p : PendingSignals) (log : List Record) : Sound p.takeAll.2 (.takeAll :: log) := by
  intro signo
  rw [show p.takeAll.2.set.has signo = false from SignalSet.has_empty]
  exact .clear

/-- What a dequeue takes, and that it has a record to take. -/
theorem Sound.dequeue_cases (h : Sound p log) (mask : SignalSet) :
    (p.dequeueSignal mask = (.ok none, p) ∧ ∀ signo, p.set.has signo = true → mask.has signo = false) ∨
    ∃ signal, (p.dequeueSignal mask).1 = .ok (some signal) ∧ p.set.has signal.signo = true ∧
      mask.has signal.signo = true ∧
      (∀ other, p.set.has other = true → mask.has other = true → signal.signo.number ≤ other.number) ∧
      Sound (p.dequeueSignal mask).2 (.dequeue (some signal) :: log) := by
  rcases SignalSet.dequeue_spec p.set mask with ⟨hnone, hblocked⟩ | ⟨signo, hsome, hset, hmask, hleast⟩
  · left
    refine ⟨?_, hblocked⟩
    rw [dequeueSignal, hnone]
  · right
    have hagrees := h signo
    rw [dequeueSignal, hsome]
    dsimp only
    have hremoves : ∀ (signal : DequeuedSignal) (other : Signo), signal.signo = signo → other ≠ signo →
        Record.removes other (.dequeue (some signal)) = false := by
      intro signal other hsigno hne
      exact decide_eq_false (hsigno ▸ Ne.symm hne)
    by_cases hrt : signo.isRealtime = true
    · rw [dif_pos hrt]
      cases hqueue : p.realtime signo with
      | nil =>
          refine ⟨.realtimeFallback signo _ hrt, rfl, hset, hmask, hleast, h.change signo (fun other hne => ?_) ?_⟩
          · exact ⟨SignalSet.has_clear_of_ne hne, rfl, rfl, hremoves _ other rfl hne⟩
          · simp only [SignalSet.has_clear_self, hqueue, hagrees.slot_none hrt]
            exact .clear
      | cons node queue =>
          have hnode : (DequeuedSignal.realtime node).signo = signo := hagrees.queueNumber node (by simp [hqueue])
          refine ⟨.realtime node, rfl, by rwa [hnode], by rwa [hnode], by rwa [hnode],
            h.change signo (fun other hne => ?_) ?_⟩
          · refine ⟨?_, rfl, Function.update_of_ne hne _ _, hremoves _ other hnode hne⟩
            dsimp only
            split
            · exact SignalSet.has_clear_of_ne hne
            · rw [SignalSet.has_add_of_ne hne]
              exact SignalSet.has_clear_of_ne hne
          · simp only [Function.update_self, hagrees.slot_none hrt]
            split
            next hempty =>
              rw [hempty, SignalSet.has_clear_self]
              exact .clear
            next hne =>
              rw [SignalSet.has_add_self]
              exact .of_queue hrt hne fun node' hnode' => hagrees.queueNumber node' (by simp [hqueue, hnode'])
    · rw [dif_neg hrt]
      rw [Bool.not_eq_true] at hrt
      cases hslot : p.standard signo with
      | none =>
          have := (hagrees.standard hrt).mp hset
          rw [hslot] at this
          cases this
      | some signal =>
          have hsignal : (DequeuedSignal.standard signal).signo = signo := hagrees.slotNumber signal hslot
          refine ⟨.standard signal, rfl, by rwa [hsignal], by rwa [hsignal], by rwa [hsignal],
            h.change signo (fun other hne => ?_) ?_⟩
          · exact ⟨SignalSet.has_clear_of_ne hne, Function.update_of_ne hne _ _, rfl, hremoves _ other hsignal hne⟩
          · simp only [SignalSet.has_clear_self, Function.update_self, hagrees.queue_nil hrt]
            exact .clear

theorem Run.sound (h : Run p log) : Sound p log := by
  induction h with
  | start => exact sound_default
  | publish _ prepared ih => exact ih.publish prepared
  | @dequeue p log _ mask result hresult ih =>
      rcases ih.dequeue_cases mask with ⟨hnone, -⟩ | ⟨signal, hsome, -, -, -, hsound⟩
      · rw [hnone] at hresult ⊢
        cases hresult
        exact ih.idle fun _ => rfl
      · rw [hsome] at hresult
        cases hresult
        exact hsound
  | detach _ signo detached ih => exact ih.detach signo detached
  | requeue _ signal ih => exact ih.requeue signal
  | @takeAll p log _ _ => exact .takeAll p log

/-- The bitmap tells what is pending, however records come and go, so a dequeue
finds the record of every bit that it takes. -/
theorem pending_bits (h : Run p log) :
    (∀ signo, signo.isRealtime = false → (p.set.has signo = true ↔ (p.standard signo).isSome)) ∧
    (∀ signo, signo.isRealtime = true → p.realtime signo ≠ [] → p.set.has signo = true) ∧
    (∀ signo, signo.isRealtime = true → p.set.has signo = true → p.realtime signo = [] → FallbackSince signo log) ∧
    ∀ mask, ∃ result, (p.dequeueSignal mask).1 = .ok result ∧
      (∀ signal, result = some signal → p.set.has signal.signo = true ∧ mask.has signal.signo = true ∧
        ∀ other, p.set.has other = true → mask.has other = true → signal.signo.number ≤ other.number) ∧
      (result = none ↔ ∀ signo, p.set.has signo = true → mask.has signo = false) := by
  have hsound := h.sound
  refine ⟨fun signo => (hsound signo).standard, fun signo _ => (hsound signo).realtime,
    fun signo => (hsound signo).fallback, ?_⟩
  intro mask
  rcases hsound.dequeue_cases mask with ⟨hnone, hblocked⟩ | ⟨signal, hsome, hset, hmask, hleast, -⟩
  · exact ⟨none, by rw [hnone], nofun, fun _ => hblocked, fun _ => rfl⟩
  · refine ⟨some signal, hsome, ?_, nofun, fun hblocked => ?_⟩
    · rintro _ ⟨⟩
      exact ⟨hset, hmask, hleast⟩
    · rw [hblocked signal.signo hset] at hmask
      cases hmask

theorem pending_bits_fallback :
    ∃ p log, Run p log ∧ p.set.has ⟨40, by decide, by decide⟩ = true ∧ FallbackSince ⟨40, by decide, by decide⟩ log ∧
      ∃ result, (p.dequeueSignal ⟨BitVec.allOnes 64⟩).1 = .ok result := by
  have hpublished : Run _ _ := .publish .start ⟨.realtimeFallback ⟨⟨40, by decide, by decide⟩, []⟩ rfl, none⟩
  have hrequeued : Run _ _ := .requeue hpublished (.realtimeFallback ⟨40, by decide, by decide⟩ 0 rfl)
  have hset : (((SignalSet.empty.add ⟨40, by decide, by decide⟩).2.add ⟨40, by decide, by decide⟩).2.has
      ⟨40, by decide, by decide⟩) = true :=
    SignalSet.has_add_self
  obtain ⟨result, hresult, -⟩ := (pending_bits hrequeued).2.2.2 ⟨BitVec.allOnes 64⟩
  exact ⟨_, _, hrequeued, hset, (pending_bits hrequeued).2.2.1 _ rfl hset rfl, result, hresult⟩

end PendingSignals

end TheKernel.Signal
