import TheKernel.Seccomp.Chain

namespace TheKernel.Seccomp

open FilterChain

inductive SeccompMode where
  | disabled | strict | filter
  deriving DecidableEq

structure SeccompState where
  mode : SeccompMode
  filters : FilterChain

inductive SyncEligibility where
  | eligible | callerNotFiltered | modeConflict | divergentFilter

inductive StateTransitionError where
  | modeConflict | stale | invalidPreparedState

namespace SeccompState

def disabled : SeccompState := ⟨.disabled, []⟩

def evaluate (s : SeccompState) (data : SeccompData) : FilterDecision := s.filters.evaluate data

/-- The methods on `&mut self` return the state they leave behind. -/
def tryEnterStrict (s : SeccompState) : SeccompState × Except StateTransitionError Unit :=
  if s.mode ≠ .disabled ∨ s.filters.isEmpty = false then (s, .error .modeConflict)
  else ({ s with mode := .strict }, .ok ())

def tryPublishFilter (s : SeccompState) (expected prepared : FilterChain) :
    SeccompState × Except StateTransitionError Unit :=
  if s.mode = .strict then (s, .error .modeConflict)
  else if s.filters.sameIdentity expected = false then (s, .error .stale)
  else if prepared.directlyExtends expected = false then (s, .error .invalidPreparedState)
  else ({ s with filters := prepared, mode := .filter }, .ok ())

def syncEligibility (s caller : SeccompState) : SyncEligibility :=
  if caller.mode ≠ .filter ∨ caller.filters.isEmpty then .callerNotFiltered
  else match s.mode with
    | .disabled => .eligible
    | .filter => if s.filters.isAncestorOf caller.filters then .eligible else .divergentFilter
    | .strict => .modeConflict

def prepareSynchronizedFrom (s caller : SeccompState) : Except StateTransitionError SeccompState :=
  match s.syncEligibility caller with
  | .eligible => .ok caller
  | .callerNotFiltered => .error .invalidPreparedState
  | .modeConflict | .divergentFilter => .error .modeConflict

end SeccompState

inductive TransitionError where
  | install (error : FilterInstallError)
  | state (error : StateTransitionError)

section

variable {Task : Type} [DecidableEq Task]

/-- All live tasks with the chains any of them may hold a handle to. -/
structure System (Task : Type) where
  chains : List FilterChain
  nextNode : Nat
  tasks : Task → SeccompState

def System.initial : System Task := ⟨[[]], 0, fun _ => .disabled⟩

inductive Event (Task : Type) where
  | append (base : FilterChain) (program : VerifiedProgram) (metadata : FilterMetadata) (budget : FilterBudget)
      (executor : Option SeccompExecutor) (used nodeSize : Nat) (allocated : Bool)
  | enterStrict (task : Task)
  | publish (task : Task) (expected prepared : FilterChain)
  | synchronize (task : Task) (caller : SeccompState)

def Event.Held (s : System Task) : Event Task → Prop
  | .append base .. => base ∈ s.chains
  | .enterStrict _ => True
  | .publish _ expected prepared => expected ∈ s.chains ∧ prepared ∈ s.chains
  | .synchronize _ caller => caller.filters ∈ s.chains

namespace System

def setTask (s : System Task) (task : Task) (state : SeccompState) : System Task :=
  { s with tasks := Function.update s.tasks task state }

theorem setTask_tasks (s : System Task) (task : Task) (state : SeccompState) (t : Task) :
    (s.setTask task state).tasks t = if t = task then state else s.tasks t := Function.update_apply ..

theorem setTask_self (s : System Task) (task : Task) : s.setTask task (s.tasks task) = s := by
  rw [setTask, Function.update_eq_self]

def settle (s : System Task) (task : Task) (result : SeccompState × Except StateTransitionError Unit) :
    System Task × Except TransitionError Unit :=
  (s.setTask task result.1, result.2.mapError .state)

/-- One transition. `append` prepares a leaf off to the side, `synchronize`
installs what `prepare_synchronized_from` returned. -/
def step (s : System Task) : Event Task → System Task × Except TransitionError Unit
  | .append base program metadata budget executor used nodeSize allocated =>
      match base.tryAppendWithExecutor program metadata budget executor ⟨used, nodeSize, allocated, s.nextNode⟩ with
      | .ok chain => ({ s with chains := chain :: s.chains, nextNode := s.nextNode + 1 }, .ok ())
      | .error error => (s, .error (.install error))
  | .enterStrict task => s.settle task (s.tasks task).tryEnterStrict
  | .publish task expected prepared => s.settle task ((s.tasks task).tryPublishFilter expected prepared)
  | .synchronize task caller =>
      match (s.tasks task).prepareSynchronizedFrom caller with
      | .ok state => (s.setTask task state, .ok ())
      | .error error => (s, .error (.state error))

end System

inductive Run (start : System Task) : System Task → Prop
  | zero : Run start start
  | succ {s : System Task} (e : Event Task) : Run start s → e.Held s → Run start (s.step e).1

end

open Lineage SeccompState

theorem evaluateLoop_action (data : SeccompData) (c : FilterChain) (selected : FilterDecision) :
    (evaluateLoop data c selected).action =
      c.foldl (keepLess Action.precedence (nodeAction data)) selected.action := by
  induction c generalizing selected with
  | nil => rfl
  | cons node previous ih =>
      rw [evaluateLoop, List.foldl_cons, keepLess]
      split
      · exact ih ⟨nodeAction data node, some node.metadata⟩
      · exact ih selected

/-- Filters added at the leaf can only make the selected action more
restrictive. -/
theorem evaluate_suffix {c d : FilterChain} (h : c <:+ d) (data : SeccompData) :
    (d.evaluate data).action.precedence ≤ (c.evaluate data).action.precedence := by
  rw [FilterChain.evaluate, FilterChain.evaluate, evaluateLoop_action, evaluateLoop_action]
  exact rank_foldl_suffix h _

theorem onPath_iff (a : FilterNode) (d : FilterChain) :
    onPath a d = true ↔ ∃ n ∈ d, a.identity = n.identity := by
  induction d with
  | nil => simp [onPath]
  | cons node previous ih =>
      rw [onPath]
      split
      · next h => simp [h]
      · next h => simp [ih, h]

theorem isAncestorOf_of_suffix {c d : FilterChain} (h : c <:+ d) : c.isAncestorOf d = true := by
  cases c with
  | nil => rfl
  | cons a below =>
      rw [isAncestorOf, onPath_iff]
      exact ⟨a, h.subset (List.mem_cons_self), rfl⟩

section Identity

variable {chains : List FilterChain}

theorem suffix_of_isAncestorOf (h : Identified FilterNode.identity chains) {c d : FilterChain}
    (hc : c ∈ chains) (hd : d ∈ chains) (ha : c.isAncestorOf d = true) : c <:+ d := by
  cases c with
  | nil => exact List.nil_suffix
  | cons a below =>
      rw [isAncestorOf, onPath_iff] at ha
      obtain ⟨n, hn, hk⟩ := ha
      exact suffix_of_key_mem h hc hd hn hk

theorem eq_of_sameIdentity (h : Identified FilterNode.identity chains) {c d b : FilterChain} (hb : b ∈ chains)
    (hc : c <:+ b) (hd : d ∈ chains) (hs : c.sameIdentity d = true) : c = d := by
  cases c with
  | nil =>
      cases d with
      | nil => rfl
      | cons y ys => simp [sameIdentity] at hs
  | cons x xs =>
      cases d with
      | nil => simp [sameIdentity] at hs
      | cons y ys =>
          rw [sameIdentity, decide_eq_true_eq] at hs
          exact h b hb _ hd x xs y ys hc (List.suffix_refl _) hs

theorem suffix_of_directlyExtends (h : Identified FilterNode.identity chains) {c d : FilterChain}
    (hc : c ∈ chains) (hd : d ∈ chains) (hx : c.directlyExtends d = true) : d <:+ c ∧ c ≠ [] := by
  cases c with
  | nil => simp [directlyExtends] at hx
  | cons n below =>
      rw [directlyExtends] at hx
      obtain rfl := eq_of_sameIdentity h hc (List.suffix_cons n below) hd hx
      exact ⟨List.suffix_cons n below, List.cons_ne_nil _ _⟩

end Identity

structure Narrows (old new : SeccompState) : Prop where
  ancestor : old.filters <:+ new.filters
  strict : old.mode = .strict → new.mode = .strict
  filter : old.mode = .filter → new.mode = .filter

theorem Narrows.refl (s : SeccompState) : Narrows s s := ⟨List.suffix_refl _, id, id⟩

theorem Narrows.trans {r s t : SeccompState} (h : Narrows r s) (k : Narrows s t) : Narrows r t :=
  ⟨h.ancestor.trans k.ancestor, k.strict ∘ h.strict, k.filter ∘ h.filter⟩

def Bare (s : SeccompState) : Prop := s.mode ≠ .filter → s.filters = []

theorem tryEnterStrict_cases (s : SeccompState) :
    (∃ e, s.tryEnterStrict = (s, .error e)) ∨
      (s.mode = .disabled ∧ s.filters = [] ∧ s.tryEnterStrict = (⟨.strict, []⟩, .ok ())) := by
  rw [tryEnterStrict]
  split
  · exact .inl ⟨_, rfl⟩
  · next h =>
      simp only [ne_eq, not_or, not_not, Bool.not_eq_false, List.isEmpty_iff] at h
      exact .inr ⟨h.1, h.2, by rw [h.2]⟩

theorem tryPublishFilter_cases (s : SeccompState) (expected prepared : FilterChain) :
    (∃ e, s.tryPublishFilter expected prepared = (s, .error e)) ∨
      (s.mode ≠ .strict ∧ s.filters.sameIdentity expected = true ∧ prepared.directlyExtends expected = true ∧
        s.tryPublishFilter expected prepared = (⟨.filter, prepared⟩, .ok ())) := by
  rw [tryPublishFilter]
  split
  · exact .inl ⟨_, rfl⟩
  · next hm =>
      split
      · exact .inl ⟨_, rfl⟩
      · next hs =>
          split
          · exact .inl ⟨_, rfl⟩
          · next hx =>
              rw [Bool.not_eq_false] at hs hx
              exact .inr ⟨hm, hs, hx, rfl⟩

theorem prepareSynchronizedFrom_cases {s caller new : SeccompState}
    (h : s.prepareSynchronizedFrom caller = .ok new) :
    new = caller ∧ caller.mode = .filter ∧
      (s.mode = .disabled ∨ (s.mode = .filter ∧ s.filters.isAncestorOf caller.filters = true)) := by
  rw [prepareSynchronizedFrom] at h
  cases he : s.syncEligibility caller with
  | callerNotFiltered | modeConflict | divergentFilter => simp [he] at h
  | eligible =>
      rw [he] at h
      rw [syncEligibility] at he
      split at he
      · cases he
      · next hc =>
          simp only [ne_eq, not_or, not_not] at hc
          refine ⟨(Except.ok.inj h).symm, hc.1, ?_⟩
          cases hm : s.mode with
          | disabled => exact .inl rfl
          | strict => simp [hm] at he
          | filter =>
              simp only [hm] at he
              split at he
              · next ha => exact .inr ⟨rfl, ha⟩
              · cases he

theorem tryAppendWithExecutor_cases {c d : FilterChain} {program : VerifiedProgram} {metadata : FilterMetadata}
    {budget : FilterBudget} {executor : Option SeccompExecutor} {site : AppendSite}
    (h : c.tryAppendWithExecutor program metadata budget executor site = .ok d) :
    ∃ n, n.identity = site.fresh ∧ d = n :: c := by
  rw [tryAppendWithExecutor] at h
  repeat' split at h
  all_goals first | exact ⟨_, rfl, (Except.ok.inj h).symm⟩ | cases h

variable {Task : Type} [DecidableEq Task]

structure System.WellFormed (s : System Task) : Prop where
  root : [] ∈ s.chains
  identified : Identified FilterNode.identity s.chains
  below : ∀ c ∈ s.chains, ∀ n ∈ c, n.identity < s.nextNode
  held : ∀ t, (s.tasks t).filters ∈ s.chains
  bare : ∀ t, Bare (s.tasks t)

namespace System

omit [DecidableEq Task] in
theorem wellFormed_initial : (initial : System Task).WellFormed where
  root := List.mem_cons_self
  identified := by
    intro c hc d hd x xs y ys hx
    simp only [initial, List.mem_singleton] at hc
    subst hc
    simp at hx
  below := by simp [initial]
  held := by simp [initial, disabled]
  bare := by simp [initial, disabled, Bare]

theorem wellFormed_setTask {s : System Task} (h : s.WellFormed) (task : Task) {state : SeccompState}
    (hheld : state.filters ∈ s.chains) (hbare : Bare state) : (s.setTask task state).WellFormed := by
  have cases : ∀ P : SeccompState → Prop, (∀ t, P (s.tasks t)) → P state →
      ∀ t, P ((s.setTask task state).tasks t) := by
    intro P hold hnew t
    rw [setTask_tasks]
    split
    · exact hnew
    · exact hold t
  exact ⟨h.root, h.identified, h.below, cases (·.filters ∈ s.chains) h.held hheld, cases Bare h.bare hbare⟩

omit [DecidableEq Task] in
theorem wellFormed_append {s : System Task} (h : s.WellFormed) {base : FilterChain} (hb : base ∈ s.chains)
    {n : FilterNode} (hn : n.identity = s.nextNode) :
    WellFormed { s with chains := (n :: base) :: s.chains, nextNode := s.nextNode + 1 } where
  root := List.mem_cons_of_mem _ h.root
  identified := by
    apply identified_insert h.identified hb
    intro c hc x hx
    exact (hn ▸ h.below c hc x hx).ne
  below := by
    intro c hc x hx
    rcases List.mem_cons.mp hc with rfl | hc
    · rcases List.mem_cons.mp hx with rfl | hx
      · exact hn ▸ Nat.lt_succ_self _
      · exact Nat.lt_succ_of_lt (h.below base hb x hx)
    · exact Nat.lt_succ_of_lt (h.below c hc x hx)
  held t := List.mem_cons_of_mem _ (h.held t)
  bare := h.bare

/-- Everything a transition can do: fail and change nothing, add a chain, or
give one task a state that narrows its old one. -/
theorem step_cases {s : System Task} (h : s.WellFormed) {e : Event Task} (he : e.Held s) :
    (∃ error, s.step e = (s, .error error)) ∨
      (∃ base n, base ∈ s.chains ∧ n.identity = s.nextNode ∧
        s.step e = ({ s with chains := (n :: base) :: s.chains, nextNode := s.nextNode + 1 }, .ok ())) ∨
      (∃ task state, Narrows (s.tasks task) state ∧ state.filters ∈ s.chains ∧ Bare state ∧
        s.step e = (s.setTask task state, .ok ())) := by
  cases e with
  | append base program metadata budget executor used nodeSize allocated =>
      rw [step]
      split
      · next chain hc =>
          obtain ⟨n, hn, rfl⟩ := tryAppendWithExecutor_cases hc
          exact .inr (.inl ⟨base, n, he, hn, rfl⟩)
      · exact .inl ⟨_, rfl⟩
  | enterStrict task =>
      rw [step, settle]
      rcases tryEnterStrict_cases (s.tasks task) with ⟨error, hf⟩ | ⟨hm, hfilters, hs⟩
      · rw [hf, setTask_self]
        exact .inl ⟨_, rfl⟩
      · rw [hs]
        refine .inr (.inr ⟨task, _, ⟨?_, ?_, ?_⟩, h.root, fun _ => rfl, rfl⟩)
        · rw [hfilters]
        · intro _
          rfl
        · intro hc
          rw [hm] at hc
          cases hc
  | publish task expected prepared =>
      rw [step, settle]
      rcases tryPublishFilter_cases (s.tasks task) expected prepared with ⟨error, hf⟩ | ⟨hm, hs, hx, hp⟩
      · rw [hf, setTask_self]
        exact .inl ⟨_, rfl⟩
      · rw [hp]
        refine .inr (.inr ⟨task, _, ⟨?_, ?_, ?_⟩, he.2, fun hc => absurd rfl hc, rfl⟩)
        · rw [eq_of_sameIdentity h.identified (h.held task) (List.suffix_refl _) he.1 hs]
          exact (suffix_of_directlyExtends h.identified he.2 he.1 hx).1
        · intro hc
          exact absurd hc hm
        · intro _
          rfl
  | synchronize task caller =>
      rw [step]
      split
      · next state hp =>
          obtain ⟨rfl, hm, hold⟩ := prepareSynchronizedFrom_cases hp
          refine .inr (.inr ⟨task, state, ⟨?_, ?_, fun _ => hm⟩, he, fun hc => absurd hm hc, rfl⟩)
          · rcases hold with hd | ⟨_, ha⟩
            · rw [h.bare task (by rw [hd]; decide)]
              exact List.nil_suffix
            · exact suffix_of_isAncestorOf h.identified (h.held task) he ha
          · intro hc
            rcases hold with hd | ⟨hf, _⟩
            · rw [hd] at hc
              cases hc
            · rw [hf] at hc
              cases hc
      · exact .inl ⟨_, rfl⟩

theorem step_wellFormed {s : System Task} (h : s.WellFormed) {e : Event Task} (he : e.Held s) :
    (s.step e).1.WellFormed := by
  rcases step_cases h he with ⟨_, hs⟩ | ⟨base, n, hb, hn, hs⟩ | ⟨task, state, _, hheld, hbare, hs⟩
  · rw [hs]
    exact h
  · rw [hs]
    exact wellFormed_append h hb hn
  · rw [hs]
    exact wellFormed_setTask h task hheld hbare

theorem step_narrows {s : System Task} (h : s.WellFormed) {e : Event Task} (he : e.Held s) (t : Task) :
    Narrows (s.tasks t) ((s.step e).1.tasks t) := by
  rcases step_cases h he with ⟨_, hs⟩ | ⟨base, n, _, _, hs⟩ | ⟨task, state, hn, _, _, hs⟩
  · rw [hs]
    exact Narrows.refl _
  · rw [hs]
    exact Narrows.refl _
  · rw [hs, setTask_tasks]
    split
    · next ht =>
        rw [ht]
        exact hn
    · exact Narrows.refl _

theorem step_failed {s : System Task} (h : s.WellFormed) {e : Event Task} (he : e.Held s)
    (hf : (s.step e).2 ≠ .ok ()) : (s.step e).1 = s := by
  rcases step_cases h he with ⟨_, hs⟩ | ⟨base, n, _, _, hs⟩ | ⟨task, state, _, _, _, hs⟩
  · rw [hs]
  · rw [hs] at hf
    exact absurd rfl hf
  · rw [hs] at hf
    exact absurd rfl hf

theorem step_stale (s : System Task) (t : Task) {expected : FilterChain} (prepared : FilterChain)
    (hs : (s.tasks t).filters.sameIdentity expected = false) :
    (s.step (.publish t expected prepared)).2 ≠ .ok () := by
  rw [step, settle, tryPublishFilter]
  split
  · exact fun h => nomatch h
  · exact fun h => nomatch h

end System

theorem run_wellFormed {s s' : System Task} (hs : s.WellFormed) (h : Run s s') : s'.WellFormed := by
  induction h with
  | zero => exact hs
  | succ e _ he ih => exact System.step_wellFormed ih he

theorem run_narrows {s s' : System Task} (hs : s.WellFormed) (h : Run s s') (t : Task) :
    Narrows (s.tasks t) (s'.tasks t) := by
  induction h with
  | zero => exact Narrows.refl _
  | succ e hr he ih => exact ih.trans (System.step_narrows (run_wellFormed hs hr) he t)

/-- Between any two moments of a run a task's chain has only grown from its
old leaf, its mode has not been relaxed and no system call gets a weaker
verdict; a transition that fails, as a stale one does, changes nothing. -/
theorem transitions_only_restrict {s s' : System Task} (hs : Run System.initial s) (h : Run s s') :
    (∀ t, (s.tasks t).filters <:+ (s'.tasks t).filters ∧
      (s.tasks t).filters.isAncestorOf (s'.tasks t).filters = true ∧
      ((s.tasks t).mode = .strict → (s'.tasks t).mode = .strict) ∧
      ((s.tasks t).mode = .filter → (s'.tasks t).mode = .filter) ∧
      ∀ data, ((s'.tasks t).evaluate data).action.precedence ≤ ((s.tasks t).evaluate data).action.precedence) ∧
    (∀ e : Event Task, e.Held s' → (s'.step e).2 ≠ .ok () → (s'.step e).1 = s') ∧
    (∀ t expected prepared, (s'.tasks t).filters.sameIdentity expected = false →
      (s'.step (.publish t expected prepared)).2 ≠ .ok ()) := by
  have hwf := run_wellFormed System.wellFormed_initial hs
  refine ⟨?_, ?_, ?_⟩
  · intro t
    have hn := run_narrows hwf h t
    exact ⟨hn.ancestor, isAncestorOf_of_suffix hn.ancestor, hn.strict, hn.filter, evaluate_suffix hn.ancestor⟩
  · intro e he hf
    exact System.step_failed (run_wellFormed hwf h) he hf
  · intro t expected prepared hst
    exact System.step_stale s' t prepared hst

def denyChain : FilterChain :=
  [⟨0, some (fun _ => 0x00050001), ⟨false, false, 0⟩, 5, 1, ⟨0, 4096⟩⟩]

/-- One task publishes a filter that denies everything and its sibling is
synchronized with it. -/
def denyEvents : List (Event Bool) :=
  [.append [] denyProgram ⟨false, false, 0⟩ ⟨0, 4096⟩ (some (fun _ => 0x00050001)) 0 72 true,
    .publish false [] denyChain, .synchronize true ⟨.filter, denyChain⟩]

theorem run_denyEvents : Run System.initial (denyEvents.foldl (fun s e => (s.step e).1) System.initial) := by
  refine .succ _ (.succ _ (.succ _ .zero ?_) ?_) ?_
  · exact List.mem_cons_self
  · exact ⟨List.mem_cons_of_mem _ List.mem_cons_self, List.mem_cons_self⟩
  · exact List.mem_cons_self

theorem transitions_only_restrict_denyEvents :
    ((denyEvents.foldl (fun s e => (s.step e).1) System.initial).tasks true).mode = .filter ∧
      ∀ data, (((denyEvents.foldl (fun s e => (s.step e).1) System.initial).tasks true).evaluate
        data).action.precedence ≤ (SeccompState.disabled.evaluate data).action.precedence :=
  ⟨by decide +kernel, ((transitions_only_restrict .zero run_denyEvents).1 true).2.2.2.2⟩

end TheKernel.Seccomp
