import TheKernel.Signal.Pending

namespace TheKernel.Signal

inductive Event where
  | published (node : RealtimeSignalNode)
  | took (signal : DequeuedSignal)
  | gaveBack (signal : DequeuedSignal)
  | flushed
  deriving DecidableEq

/-- The queued records, in the order in which they were published. The latest
event is the first of the log. -/
def arrivals : List Event → List RealtimeSignalNode
  | [] => []
  | .published node :: log => arrivals log ++ [node]
  | _ :: log => arrivals log

/-- The queued records that were handed out and did not come back, in the order
in which they were handed out. -/
def out : List Event → List RealtimeSignalNode
  | [] => []
  | .took (.realtime node) :: log => out log ++ [node]
  | .gaveBack (.realtime node) :: log => (out log).filter (· ≠ node)
  | _ :: log => out log

/-- The queued records of the signal that were published since the last flush. -/
def sinceFlush (signo : Signo) : List Event → Nat
  | [] => 0
  | .published node :: log => if node.info.signo = signo then sinceFlush signo log + 1 else sinceFlush signo log
  | .took _ :: log => sinceFlush signo log
  | .gaveBack _ :: log => sinceFlush signo log
  | .flushed :: _ => 0

def ofSignal (signo : Signo) (nodes : List RealtimeSignalNode) : List RealtimeSignalNode :=
  nodes.filter (·.info.signo = signo)

def publications (signo : Signo) (log : List Event) : Nat := (ofSignal signo (arrivals log)).length

/-- The records of the signal that stay out were handed out as they arrived. -/
def InOrder (signo : Signo) (log : List Event) : Prop :=
  (ofSignal signo (out log)).Sublist (ofSignal signo (arrivals log))

instance (signo : Signo) (log : List Event) : Decidable (InOrder signo log) :=
  inferInstanceAs (Decidable (List.Sublist _ _))

def Held (log : List Event) : DequeuedSignal → Prop
  | .realtime node => node ∈ out log
  | signal => .took signal ∈ log

/-- No other record of the signal was handed out after this one and is out. -/
def LastOut (log : List Event) (node : RealtimeSignalNode) : Prop :=
  (ofSignal node.info.signo (out log)).getLast? = some node

instance (log : List Event) (node : RealtimeSignalNode) : Decidable (LastOut log node) :=
  inferInstanceAs (Decidable (_ = _))

namespace PendingSignals

/-- The event of a publication. A record is queued with the arrival token that
it gets here. -/
def announced (p : PendingSignals) (prepared : PreparedSignal) : List Event :=
  match prepared.kind with
  | .realtime node =>
      if p.nextOrder + 1 > orderMax then []
      else [.published { node with generation := prepared.generation, order := p.nextOrder + 1 }]
  | _ => []

/-- The pending signals that calls lead to in any order, where a queued record
comes back only as `Allowed` says. -/
inductive History (Allowed : List Event → RealtimeSignalNode → Prop) : PendingSignals → List Event → Prop
  | start : History Allowed default []
  | publish {p log} (h : History Allowed p log) (prepared : PreparedSignal) :
      History Allowed (p.publish prepared).2 (p.announced prepared ++ log)
  | dequeue {p log} (h : History Allowed p log) {mask : SignalSet} {signal : DequeuedSignal}
      (hsome : (p.dequeueSignal mask).1 = .ok (some signal)) : History Allowed (p.dequeueSignal mask).2
        (.took signal :: log)
  | idle {p log} (h : History Allowed p log) {mask : SignalSet} (hnone : (p.dequeueSignal mask).1 = .ok none) :
      History Allowed (p.dequeueSignal mask).2 log
  | detach {p log} (h : History Allowed p log) (signo : Signo) (detached : DetachedSignal) :
      History Allowed (p.detachSignalInto signo detached).2 log
  | requeue {p log} (h : History Allowed p log) {signal : DequeuedSignal} (hheld : Held log signal)
      (hallowed : ∀ node, signal = .realtime node → Allowed log node) :
      History Allowed (signal.requeueFront p) (.gaveBack signal :: log)
  | takeAll {p log} (h : History Allowed p log) : History Allowed p.takeAll.2 (.flushed :: log)

variable {p : PendingSignals} {log : List Event} {signo : Signo} {node : RealtimeSignalNode}

theorem dequeue_some {p' : PendingSignals} {mask : SignalSet} {signal : DequeuedSignal}
    (h : p.dequeueSignal mask = (.ok (some signal), p')) :
    p'.nextOrder = p.nextOrder ∧ p'.realtimePublishEpoch = p.realtimePublishEpoch ∧ match signal with
    | .standard _ => p'.realtime = p.realtime
    | .realtime node => ∃ signo queue, p.realtime signo = node :: queue ∧
        p'.realtime = Function.update p.realtime signo queue
    | .realtimeFallback signo epoch _ => p'.realtime = p.realtime ∧ epoch = p.realtimePublishEpoch signo := by
  rw [dequeueSignal] at h
  split at h
  · cases h
  next signo set _ =>
    split at h
    · split at h
      next node queue hqueue =>
        cases h
        exact ⟨rfl, rfl, signo, queue, hqueue, rfl⟩
      next =>
        cases h
        exact ⟨rfl, rfl, rfl, rfl⟩
    · split at h
      · cases h
        exact ⟨rfl, rfl, rfl⟩
      · cases h

theorem dequeue_none {p' : PendingSignals} {mask : SignalSet} (h : p.dequeueSignal mask = (.ok none, p')) :
    p'.nextOrder = p.nextOrder ∧ p'.realtimePublishEpoch = p.realtimePublishEpoch ∧ p'.realtime = p.realtime := by
  rw [dequeueSignal] at h
  split at h
  · cases h
    exact ⟨rfl, rfl, rfl⟩
  · split at h
    · split at h <;> cases h
    · split at h <;> cases h

theorem detach_spec (p : PendingSignals) (signo : Signo) (detached : DetachedSignal) :
    (p.detachSignalInto signo detached).2.nextOrder = p.nextOrder ∧
    (p.detachSignalInto signo detached).2.realtimePublishEpoch = p.realtimePublishEpoch ∧
    ∀ other, ((p.detachSignalInto signo detached).2.realtime other).Sublist (p.realtime other) := by
  rw [detachSignalInto]
  rcases p.set.remove signo with ⟨_ | _, set⟩
  · exact ⟨rfl, rfl, fun _ => .refl _⟩
  · dsimp only
    split
    · refine ⟨rfl, rfl, ?_⟩
      intro other
      by_cases hother : other = signo
      · simp [hother]
      · simp [Function.update_of_ne hother]
    · exact ⟨rfl, rfl, fun _ => .refl _⟩

section Order

/-- The records of a signal that are out, with those in its queue behind them,
are some of those that arrived. -/
structure Ordered (p : PendingSignals) (log : List Event) : Prop where
  number : ∀ signo, ∀ node ∈ p.realtime signo, node.info.signo = signo
  tokens : (arrivals log).Pairwise fun a b => a.order < b.order
  bounded : ∀ node ∈ arrivals log, node.order ≤ p.nextOrder
  order : ∀ signo, (ofSignal signo (out log) ++ p.realtime signo).Sublist (ofSignal signo (arrivals log))

theorem ofSignal_append {xs ys : List RealtimeSignalNode} :
    ofSignal signo (xs ++ ys) = ofSignal signo xs ++ ofSignal signo ys :=
  List.filter_append ..

theorem ofSignal_singleton_self : ofSignal node.info.signo [node] = [node] := by
  simp [ofSignal]

theorem ofSignal_singleton_of_ne (h : signo ≠ node.info.signo) : ofSignal signo [node] = [] := by
  simpa [ofSignal] using h.symm

theorem ordered_default : Ordered default [] where
  number := nofun
  tokens := .nil
  bounded := nofun
  order _ := .slnil

theorem Ordered.drop {p' : PendingSignals} {log' : List Event} (h : Ordered p log) (hnext : p.nextOrder ≤ p'.nextOrder)
    (hqueue : ∀ signo, (p'.realtime signo).Sublist (p.realtime signo)) (harrivals : arrivals log' = arrivals log)
    (hout : out log' = out log) : Ordered p' log' where
  number signo node hnode := h.number signo node ((hqueue signo).subset hnode)
  tokens := by rw [harrivals]; exact h.tokens
  bounded := by
    rw [harrivals]
    exact fun node hnode => (h.bounded node hnode).trans hnext
  order signo := by
    rw [harrivals, hout]
    exact (List.Sublist.append_left (hqueue signo) _).trans (h.order signo)

theorem Ordered.publish (h : Ordered p log) (prepared : PreparedSignal) :
    Ordered (p.publish prepared).2 (p.announced prepared ++ log) := by
  obtain ⟨kind, generation⟩ := prepared
  cases kind with
  | standard signal =>
      simp only [PendingSignals.publish, announced, List.nil_append]
      split
      · exact h
      · split
        · exact h
        · exact h.drop (Nat.le_succ _) (fun _ => .refl _) rfl rfl
  | realtime node =>
      simp only [PendingSignals.publish, announced, PreparedSignal.signo]
      split
      · exact h
      · constructor
        case number =>
          intro signo node' hnode'
          by_cases hsigno : signo = node.info.signo
          · subst hsigno
            simp only [Function.update_self, List.mem_append, List.mem_singleton] at hnode'
            rcases hnode' with hnode' | rfl
            · exact h.number _ node' hnode'
            · rfl
          · simp only [Function.update_of_ne hsigno] at hnode'
            exact h.number signo node' hnode'
        case tokens =>
          refine List.pairwise_append.mpr ⟨h.tokens, List.pairwise_singleton .., ?_⟩
          intro a ha b hb
          obtain rfl := List.mem_singleton.mp hb
          exact Nat.lt_succ_of_le (h.bounded a ha)
        case bounded =>
          intro a ha
          rcases List.mem_append.mp ha with ha | ha
          · exact (h.bounded a ha).trans (Nat.le_succ _)
          · obtain rfl := List.mem_singleton.mp ha
            exact le_refl _
        case order =>
          intro signo
          simp only [List.singleton_append, arrivals, out, ofSignal_append]
          by_cases hsigno : signo = node.info.signo
          · subst hsigno
            simp only [Function.update_self, ← List.append_assoc]
            refine (h.order _).append ?_
            simp [ofSignal]
          · simp only [Function.update_of_ne hsigno]
            exact (h.order signo).trans (List.sublist_append_left ..)
  | realtimeFallback info hrt => exact h.drop (le_refl _) (fun _ => .refl _) rfl rfl

theorem Ordered.dequeue {mask : SignalSet} {signal : DequeuedSignal} (h : Ordered p log)
    (hsome : (p.dequeueSignal mask).1 = .ok (some signal)) :
    Ordered (p.dequeueSignal mask).2 (.took signal :: log) := by
  obtain ⟨hnext, _, hqueue⟩ := dequeue_some (Prod.ext hsome rfl)
  cases signal with
  | standard signal => exact h.drop hnext.ge (fun _ => by rw [hqueue]) rfl rfl
  | realtimeFallback signo epoch hrt => exact h.drop hnext.ge (fun _ => by rw [hqueue.1]) rfl rfl
  | realtime node =>
      obtain ⟨signo, queue, hold, hnew⟩ := hqueue
      have hnode : node.info.signo = signo := h.number signo node (by simp [hold])
      constructor
      case number =>
        intro other node' hnode'
        rw [hnew] at hnode'
        by_cases hother : other = signo
        · subst hother
          rw [Function.update_self] at hnode'
          exact h.number other node' (by rw [hold]; exact List.mem_cons_of_mem _ hnode')
        · rw [Function.update_of_ne hother] at hnode'
          exact h.number other node' hnode'
      case tokens => exact h.tokens
      case bounded =>
        rw [hnext]
        exact h.bounded
      case order =>
        intro other
        have horder := h.order other
        rw [hnew]
        simp only [out, ofSignal_append, arrivals]
        by_cases hother : other = signo
        · subst hother
          subst hnode
          rw [ofSignal_singleton_self, Function.update_self, List.append_assoc, List.singleton_append, ← hold]
          exact horder
        · rw [Function.update_of_ne hother, ofSignal_singleton_of_ne (by rw [hnode]; exact hother), List.append_nil]
          exact horder

theorem Ordered.nodup (h : Ordered p log) : (ofSignal signo (out log)).Nodup := by
  have hnodup : (arrivals log).Nodup := h.tokens.imp fun hlt heq => by
    rw [heq] at hlt
    exact lt_irrefl _ hlt
  exact (hnodup.filter _).sublist ((List.sublist_append_left ..).trans (h.order signo))

/-- Without the record that came back last, the records of its signal that are
out are those before it. -/
theorem ofSignal_without (h : Ordered p log) {front : List RealtimeSignalNode}
    (hfront : ofSignal node.info.signo (out log) = front ++ [node]) :
    ofSignal node.info.signo ((out log).filter (· ≠ node)) = front := by
  have hnodup : (front ++ [node]).Nodup := hfront ▸ h.nodup
  have hnotin : node ∉ front := fun hmem => (List.nodup_append.mp hnodup).2.2 node hmem node
      (List.mem_singleton_self _) rfl
  have hcomm : ofSignal node.info.signo ((out log).filter (· ≠ node)) = (ofSignal node.info.signo (out log)).filter
      (· ≠ node) := by
    simp only [ofSignal, List.filter_filter, Bool.and_comm]
  rw [hcomm, hfront, List.filter_append, List.filter_eq_self.mpr]
  · simp
  · intro a ha
    simp only [decide_eq_true_eq]
    rintro rfl
    exact hnotin ha

theorem ofSignal_without_of_ne (hsigno : signo ≠ node.info.signo) {nodes : List RealtimeSignalNode} :
    ofSignal signo (nodes.filter (· ≠ node)) = ofSignal signo nodes := by
  rw [ofSignal, List.filter_filter, ofSignal]
  refine List.filter_congr ?_
  intro a _
  by_cases ha : a.info.signo = signo
  · have hne : a ≠ node := by
      rintro rfl
      exact hsigno ha.symm
    simp [ha, hne]
  · simp [ha]

theorem Ordered.requeue {signal : DequeuedSignal} (h : Ordered p log)
    (hlast : ∀ node, signal = .realtime node → LastOut log node) :
    Ordered (signal.requeueFront p) (.gaveBack signal :: log) := by
  cases signal with
  | standard signal => exact h.drop (le_refl _) (fun _ => .refl _) rfl rfl
  | realtimeFallback signo epoch hrt =>
      rw [DequeuedSignal.requeueFront]
      split
      · exact h.drop (le_refl _) (fun _ => .refl _) rfl rfl
      · exact h.drop (le_refl _) (fun _ => .refl _) rfl rfl
  | realtime node =>
      obtain ⟨front, hfront⟩ := List.getLast?_eq_some_iff.mp (hlast node rfl)
      constructor
      case number =>
        intro signo node' hnode'
        simp only [DequeuedSignal.requeueFront, DequeuedSignal.signo] at hnode'
        by_cases hsigno : signo = node.info.signo
        · subst hsigno
          rw [Function.update_self, List.mem_cons] at hnode'
          rcases hnode' with rfl | hnode'
          · rfl
          · exact h.number _ node' hnode'
        · rw [Function.update_of_ne hsigno] at hnode'
          exact h.number signo node' hnode'
      case tokens => exact h.tokens
      case bounded => exact h.bounded
      case order =>
        intro signo
        have horder := h.order signo
        simp only [DequeuedSignal.requeueFront, DequeuedSignal.signo, out, arrivals]
        by_cases hsigno : signo = node.info.signo
        · subst hsigno
          rw [hfront, List.append_assoc, List.singleton_append] at horder
          rw [ofSignal_without h hfront, Function.update_self]
          exact horder
        · rw [ofSignal_without_of_ne hsigno, Function.update_of_ne hsigno]
          exact horder

theorem History.ordered (h : History LastOut p log) : Ordered p log := by
  induction h with
  | start => exact ordered_default
  | publish _ prepared ih => exact ih.publish prepared
  | dequeue _ hsome ih => exact ih.dequeue hsome
  | idle _ hnone ih =>
      obtain ⟨hnext, _, hqueue⟩ := dequeue_none (Prod.ext hnone rfl)
      exact ih.drop hnext.ge (fun _ => by rw [hqueue]) rfl rfl
  | @detach p log _ signo detached ih =>
      obtain ⟨hnext, _, hqueue⟩ := p.detach_spec signo detached
      exact ih.drop hnext.ge hqueue rfl rfl
  | requeue _ _ hallowed ih => exact ih.requeue hallowed
  | takeAll _ ih => exact ih.drop (le_refl _) (fun _ => List.nil_sublist _) rfl rfl

/-- The next dequeue of its signal hands out the record that came back. -/
theorem dequeue_requeued (p : PendingSignals) (node : RealtimeSignalNode) :
    (((DequeuedSignal.realtime node).requeueFront p).dequeueSignal (SignalSet.empty.add node.info.signo).2).1 =
      .ok (some (.realtime node)) := by
  have hmask : ∀ other, (SignalSet.empty.add node.info.signo).2.has other = true ↔ other = node.info.signo := by
    intro other
    rw [SignalSet.has_add, SignalSet.has_empty]
    simp
  have hset : ((DequeuedSignal.realtime node).requeueFront p).set.has node.info.signo = true := SignalSet.has_add_self
  rcases SignalSet.dequeue_spec ((DequeuedSignal.realtime node).requeueFront p).set
    (SignalSet.empty.add node.info.signo).2 with ⟨_, hblocked⟩ | ⟨signo, hsome, _, hsigno, _⟩
  · have := hblocked _ hset
    rw [(hmask _).mpr rfl] at this
    cases this
  · obtain rfl := (hmask signo).mp hsigno
    rw [dequeueSignal, hsome]
    simp only [node.realtime, dif_pos, DequeuedSignal.requeueFront, DequeuedSignal.signo, Function.update_self]

/-- Records that come back while none of their signal that was handed out later
is out keep their order. Any other record is then handed out too late. -/
theorem realtime_in_order (h : History LastOut p log) :
    (∀ signo, InOrder signo log) ∧ ∀ node ∈ out log,
      (((DequeuedSignal.realtime node).requeueFront p).dequeueSignal (SignalSet.empty.add node.info.signo).2).1 =
        .ok (some (.realtime node)) ∧
      (LastOut log node ↔ InOrder node.info.signo (.took (.realtime node) :: .gaveBack (.realtime node) :: log)) := by
  have hordered := h.ordered
  refine ⟨fun signo => (List.sublist_append_left ..).trans (hordered.order signo), ?_⟩
  intro node hnode
  refine ⟨dequeue_requeued p node, ?_, ?_⟩
  · intro hlast
    have hback : Ordered ((DequeuedSignal.realtime node).requeueFront p) (.gaveBack (.realtime node) :: log) := by
      refine hordered.requeue ?_
      rintro _ ⟨⟩
      exact hlast
    exact (List.sublist_append_left ..).trans ((hback.dequeue (dequeue_requeued p node)).order _)
  · intro hin
    have hmem : node ∈ ofSignal node.info.signo (out log) := List.mem_filter.mpr ⟨hnode, by simp⟩
    obtain ⟨before, after, hsplit⟩ := List.append_of_mem hmem
    have hsorted : (ofSignal node.info.signo (arrivals log)).Pairwise fun a b => a.order < b.order :=
      hordered.tokens.filter _
    have hold := hsorted.sublist ((List.sublist_append_left ..).trans (hordered.order node.info.signo))
    rw [hsplit] at hold
    have hnew := hsorted.sublist hin
    simp only [out, ofSignal_append, ofSignal_singleton_self] at hnew
    cases after with
    | nil => rw [LastOut, hsplit, List.getLast?_append_cons, List.getLast?_singleton]
    | cons later after =>
        exfalso
        have hlt : node.order < later.order :=
          (List.pairwise_cons.mp (List.pairwise_append.mp hold).2.1).1 later (List.mem_cons_self ..)
        have hlater : later ∈ ofSignal node.info.signo (out log) := by simp [hsplit]
        have hstill : later ∈ ofSignal node.info.signo ((out log).filter (· ≠ node)) := by
          obtain ⟨hlater, hsigno⟩ := List.mem_filter.mp hlater
          refine List.mem_filter.mpr ⟨List.mem_filter.mpr ⟨hlater, ?_⟩, hsigno⟩
          simp only [decide_eq_true_eq]
          rintro rfl
          exact lt_irrefl _ hlt
        have := (List.pairwise_append.mp hnew).2.2 later hstill node (List.mem_singleton_self _)
        omega

section Handed

variable {Allowed : List Event → RealtimeSignalNode → Prop}

theorem History.hand (h : History Allowed p log) (signal : DequeuedSignal)
    (hsome : (p.dequeueSignal ⟨BitVec.allOnes 64⟩).1 = .ok (some signal)) :
    History Allowed (p.dequeueSignal ⟨BitVec.allOnes 64⟩).2 (.took signal :: log) := h.dequeue hsome

theorem History.back (h : History Allowed p log) (node : RealtimeSignalNode) (hout : node ∈ out log)
    (hallowed : Allowed log node) :
    History Allowed ((DequeuedSignal.realtime node).requeueFront p) (.gaveBack (.realtime node) :: log) := by
  refine h.requeue hout ?_
  rintro _ ⟨⟩
  exact hallowed

theorem History.cast {log' : List Event} (h : History Allowed p log) (hlog : log = log') : History Allowed p log' :=
  hlog ▸ h

end Handed

def signal40 : Signo := ⟨40, by decide, by decide⟩

def node40 (n : BitVec 8) (order : Nat) : RealtimeSignalNode := ⟨order, ⟨signal40, [n]⟩, none, ⟨0, 1⟩, rfl⟩

theorem realtime_in_order_two : ∃ p log, History LastOut p log ∧ InOrder signal40 log ∧
    out log = [node40 1 1, node40 2 2] := by
  have hpublished : History LastOut _ _ := .publish (.publish .start ⟨.realtime (node40 1 0), none⟩)
      ⟨.realtime (node40 2 0), none⟩
  have hfirst := hpublished.hand (.realtime (node40 1 1)) (by decide +kernel)
  have hback := hfirst.back (node40 1 1) (by decide +kernel) (by decide +kernel)
  have hsecond := (hback.hand (.realtime (node40 1 1)) (by decide +kernel)).hand (.realtime (node40 2 2))
      (by decide +kernel)
  exact ⟨_, _, hsecond, (realtime_in_order hsecond).1 _, by decide +kernel⟩

/-- Two records are out, and the first comes back before the second. -/
theorem realtime_out_of_order : ∃ p log, History (fun _ _ => True) p log ∧ ¬ InOrder signal40 log := by
  have hpublished : History (fun _ _ => True) _ _ :=
    .publish (.publish .start ⟨.realtime (node40 1 0), none⟩) ⟨.realtime (node40 2 0), none⟩
  have hfirst := hpublished.hand (.realtime (node40 1 1)) (by decide +kernel)
  have hboth := hfirst.hand (.realtime (node40 2 2)) (by decide +kernel)
  have hback := (hboth.back (node40 1 1) (by decide +kernel) trivial).back (node40 2 2) (by decide +kernel) trivial
  have hsecond := hback.hand (.realtime (node40 2 2)) (by decide +kernel)
  have hagain := hsecond.hand (.realtime (node40 1 1)) (by decide +kernel)
  exact ⟨_, _, hagain, by decide +kernel⟩

end Order

section Epoch

variable {Allowed : List Event → RealtimeSignalNode → Prop} {later earlier : List Event} {epoch : BitVec 64}

theorem arrivals_append (later earlier : List Event) : arrivals (later ++ earlier) = arrivals earlier ++
    arrivals later := by
  induction later with
  | nil => simp [arrivals]
  | cons event later ih => cases event <;> simp [arrivals, ih]

theorem publications_append (later earlier : List Event) :
    publications signo (later ++ earlier) = publications signo later + publications signo earlier := by
  simp only [publications, arrivals_append, ofSignal_append, List.length_append, Nat.add_comm]

theorem publications_cons (event : Event) : publications signo (event :: log) = publications signo [event] +
    publications signo log :=
  publications_append [event] log

theorem publications_published : publications signo [.published node] = if node.info.signo = signo then 1 else 0 := by
  simp only [publications, arrivals, ofSignal, List.nil_append, List.filter_cons, List.filter_nil, decide_eq_true_eq]
  split <;> rfl

theorem sinceFlush_append (hlater : .flushed ∉ later) :
    sinceFlush signo (later ++ log) = publications signo later + sinceFlush signo log := by
  induction later with
  | nil => simp [publications, arrivals, ofSignal]
  | cons event later ih =>
      rw [List.mem_cons, not_or] at hlater
      rw [publications_cons, List.cons_append]
      cases event with
      | flushed => exact absurd rfl hlater.1
      | published node =>
          rw [sinceFlush, ih hlater.2, publications_published]
          split <;> omega
      | took signal =>
          rw [sinceFlush, ih hlater.2]
          simp [publications, arrivals, ofSignal]
      | gaveBack signal =>
          rw [sinceFlush, ih hlater.2]
          simp [publications, arrivals, ofSignal]

theorem sinceFlush_of_flushed (hlater : .flushed ∈ later) :
    sinceFlush signo (later ++ log) = sinceFlush signo later := by
  induction later with
  | nil => cases hlater
  | cons event later ih =>
      have htail : event ≠ .flushed → sinceFlush signo (later ++ log) = sinceFlush signo later := by
        intro hne
        rcases List.mem_cons.mp hlater with heq | hmem
        · exact absurd heq.symm hne
        · exact ih hmem
      cases event with
      | flushed => rfl
      | published node => simp only [List.cons_append, sinceFlush, htail nofun]
      | took signal => simp only [List.cons_append, sinceFlush, htail nofun]
      | gaveBack signal => simp only [List.cons_append, sinceFlush, htail nofun]

theorem sinceFlush_le (log : List Event) : sinceFlush signo log ≤ publications signo log := by
  induction log with
  | nil => exact Nat.zero_le _
  | cons event log ih =>
      rw [publications_cons]
      cases event with
      | flushed => exact Nat.zero_le _
      | published node =>
          rw [sinceFlush, publications_published]
          split <;> omega
      | took signal => exact ih.trans (Nat.le_add_left ..)
      | gaveBack signal => exact ih.trans (Nat.le_add_left ..)

/-- The publish epoch counts the records since the last flush, and a fallback
record keeps the count that it saw. -/
theorem History.epoch_eq (h : History Allowed p log) :
    (∀ signo, p.realtimePublishEpoch signo = BitVec.ofNat 64 (sinceFlush signo log)) ∧
    ∀ later signo epoch hrt earlier, log = later ++ .took (.realtimeFallback signo epoch hrt) :: earlier →
      epoch = BitVec.ofNat 64 (sinceFlush signo earlier) := by
  -- an event that is no dequeue of a fallback record leaves those behind it
  have hcons : ∀ {event : Event} {log : List Event}, (∀ signo epoch hrt, event ≠ .took
      (.realtimeFallback signo epoch hrt)) →
      (∀ later signo epoch hrt earlier, log = later ++ .took (.realtimeFallback signo epoch hrt) :: earlier →
        epoch = BitVec.ofNat 64 (sinceFlush signo earlier)) →
      ∀ later signo epoch hrt earlier, event :: log = later ++ .took (.realtimeFallback signo epoch hrt) :: earlier →
        epoch = BitVec.ofNat 64 (sinceFlush signo earlier) := by
    intro event log hne hlog later signo epoch hrt earlier heq
    cases later with
    | nil =>
        rw [List.nil_append, List.cons.injEq] at heq
        exact absurd heq.1 (hne signo epoch hrt)
    | cons event' later =>
        rw [List.cons_append, List.cons.injEq] at heq
        exact hlog later signo epoch hrt earlier heq.2
  induction h with
  | start => exact ⟨fun _ => rfl, by simp⟩
  | @publish p log _ prepared ih =>
      obtain ⟨kind, generation⟩ := prepared
      cases kind with
      | standard signal =>
          simp only [PendingSignals.publish, announced, List.nil_append]
          split
          · exact ih
          · split
            · exact ih
            · exact ih
      | realtime node =>
          simp only [PendingSignals.publish, announced, PreparedSignal.signo]
          split
          · exact ih
          · refine ⟨?_, hcons (by simp) ih.2⟩
            intro signo
            simp only [List.singleton_append, sinceFlush]
            by_cases hsigno : signo = node.info.signo
            · subst hsigno
              rw [Function.update_self, ih.1, if_pos rfl, BitVec.ofNat_add]
              rfl
            · rw [Function.update_of_ne hsigno, if_neg (Ne.symm hsigno), ih.1]
      | realtimeFallback info hrt => exact ih
  | @dequeue p log _ mask signal hsome ih =>
      obtain ⟨_, hepoch, hqueue⟩ := dequeue_some (Prod.ext hsome rfl)
      rw [hepoch]
      refine ⟨ih.1, ?_⟩
      cases signal with
      | standard signal => exact hcons (by simp) ih.2
      | realtime node => exact hcons (by simp) ih.2
      | realtimeFallback signo epoch hrt =>
          intro later signo' epoch' hrt' earlier heq
          cases later with
          | nil =>
              cases heq
              rw [hqueue.2, ih.1]
          | cons event later =>
              cases heq
              exact ih.2 later signo' epoch' hrt' earlier rfl
  | idle _ hnone ih =>
      obtain ⟨_, hepoch, _⟩ := dequeue_none (Prod.ext hnone rfl)
      rw [hepoch]
      exact ih
  | @detach p log _ signo detached ih =>
      rw [(p.detach_spec signo detached).2.1]
      exact ih
  | @requeue p log _ signal _ _ ih =>
      refine ⟨?_, hcons (by simp) ih.2⟩
      cases signal with
      | standard signal => exact ih.1
      | realtime node => exact ih.1
      | realtimeFallback signo epoch hrt =>
          rw [DequeuedSignal.requeueFront]
          split
          · exact ih.1
          · exact ih.1
  | takeAll _ ih => exact ⟨fun _ => rfl, hcons (by simp) ih.2⟩

/-- A fallback record that comes back is dropped once a record of its signal
was published, but for a flush after which as many were published as when it was
taken. -/
theorem fallback_requeue_exact {hrt : signo.isRealtime = true}
    (h : History Allowed p (later ++ .took (.realtimeFallback signo epoch hrt) :: earlier))
    (hwrap : publications signo (later ++ .took (.realtimeFallback signo epoch hrt) :: earlier) < 2 ^ 64) :
    (p.set.has signo = false → ((DequeuedSignal.realtimeFallback signo epoch hrt).requeueFront p).set.has signo = true →
      publications signo later = 0) ↔
    ¬(p.set.has signo = false ∧ .flushed ∈ later ∧ publications signo later ≠ 0 ∧
      sinceFlush signo later = sinceFlush signo earlier) := by
  obtain ⟨hnow, hthen⟩ := h.epoch_eq
  have hearlier : publications signo (.took (.realtimeFallback signo epoch hrt) :: earlier) =
      publications signo earlier := rfl
  rw [publications_append, hearlier] at hwrap
  have hle : sinceFlush signo earlier ≤ publications signo earlier := sinceFlush_le earlier
  have hsets : p.set.has signo = false →
      (((DequeuedSignal.realtimeFallback signo epoch hrt).requeueFront p).set.has signo = true ↔
      if .flushed ∈ later then sinceFlush signo later = sinceFlush signo earlier
        else publications signo later = 0) := by
    intro hclear
    have hepoch : p.realtimePublishEpoch signo = epoch ↔
        sinceFlush signo (later ++ .took (.realtimeFallback signo epoch hrt) :: earlier) =
          sinceFlush signo earlier := by
      have hwhole : sinceFlush signo (later ++ .took (.realtimeFallback signo epoch hrt) :: earlier) ≤
          publications signo later + publications signo earlier := (sinceFlush_le _).trans_eq (publications_append ..)
      have hsaw : epoch.toNat = sinceFlush signo earlier := by
        rw [hthen later signo epoch hrt earlier rfl, BitVec.toNat_ofNat, Nat.mod_eq_of_lt (by omega)]
      rw [hnow, ← BitVec.toNat_inj, BitVec.toNat_ofNat, Nat.mod_eq_of_lt (by omega), hsaw]
    have hstep : ((DequeuedSignal.realtimeFallback signo epoch hrt).requeueFront p).set.has signo = true ↔
        p.realtimePublishEpoch signo = epoch := by
      rw [DequeuedSignal.requeueFront]
      split
      next heq => simp [heq]
      next hne => simp [hclear, hne]
    rw [hstep, hepoch]
    split
    next hflushed => rw [sinceFlush_of_flushed hflushed]
    next hflushed =>
      rw [sinceFlush_append hflushed, sinceFlush]
      omega
  constructor
  · rintro hsafe ⟨hclear, hflushed, hsome, hcount⟩
    refine hsome (hsafe hclear ((hsets hclear).mpr ?_))
    rwa [if_pos hflushed]
  · intro hgood hclear hset
    have := (hsets hclear).mp hset
    split at this
    next hflushed =>
      by_contra hsome
      exact hgood ⟨hclear, hflushed, hsome, this⟩
    next => exact this

/-- The fallback record is out while a record is published and handed out. -/
theorem fallback_requeue_exact_superseded :
    ∃ p later earlier, History LastOut p (later ++ .took (.realtimeFallback signal40 0 rfl) :: earlier) ∧
      publications signal40 later = 1 ∧
      ((DequeuedSignal.realtimeFallback signal40 0 rfl).requeueFront p).set.has signal40 = false := by
  have hpublished : History LastOut _ _ := .publish .start ⟨.realtimeFallback ⟨signal40, []⟩ rfl, none⟩
  have htaken := hpublished.hand (.realtimeFallback signal40 0 rfl) (by decide +kernel)
  have hlater := (History.publish htaken ⟨.realtime (node40 1 0), none⟩).hand (.realtime (node40 1 1))
      (by decide +kernel)
  let later : List Event := [.took (.realtime (node40 1 1)), .published (node40 1 1)]
  have hlog : History LastOut _ (later ++ [.took (.realtimeFallback signal40 0 rfl)]) := hlater.cast (by decide +kernel)
  refine ⟨_, later, [], hlog, by decide +kernel, ?_⟩
  rw [← Bool.not_eq_true]
  intro hset
  have hnone := (fallback_requeue_exact hlog (by decide +kernel)).mpr (by decide +kernel) (by decide +kernel) hset
  exact absurd hnone (by decide +kernel)

/-- A flush makes the epoch of the fallback record current again. -/
theorem fallback_requeue_resurrects :
    ∃ p later earlier, History (fun _ _ => True) p (later ++ .took (.realtimeFallback signal40 0 rfl) :: earlier) ∧
      publications signal40 later = 1 ∧ p.set.has signal40 = false ∧
      ((DequeuedSignal.realtimeFallback signal40 0 rfl).requeueFront p).set.has signal40 = true := by
  have hpublished : History (fun _ _ => True) _ _ := .publish .start ⟨.realtimeFallback ⟨signal40, []⟩ rfl, none⟩
  have htaken := hpublished.hand (.realtimeFallback signal40 0 rfl) (by decide +kernel)
  have hlater := (History.publish htaken ⟨.realtime (node40 1 0), none⟩).takeAll
  exact ⟨_, [.flushed, .published (node40 1 1)], [],
    hlater.cast (by decide +kernel), by decide +kernel, by decide +kernel, by decide +kernel⟩

end Epoch

end PendingSignals

end TheKernel.Signal
