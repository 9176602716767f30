import TheKernel.IoUring.RequestRefine

namespace TheKernel.IoUring

open Outcome Act RequestRegistry Board

def RequestRegistry.Op.plan : Op → Option CompletionPublication
  | .commitPublication publication | .rollbackPublication publication
  | .rollbackNonterminalPublication publication => some publication
  | _ => none

def Response.plan : Response → Option CompletionPublication
  | .planned publication => some publication
  | _ => none

/-- While a plan for a nonterminal completion is outside the registry, nothing
else ends the shot of its request, and a provider that reports the work in flight
does not do so for the request that holds the nonterminal reservation. -/
def Keeps (r : RequestRegistry) (op : Op) : Prop :=
  Permits r op ∧ ∀ id, op = .finishProviderCancel id .inFlight → r.nonterminalReservation ≠ some id

namespace RequestRegistry

/-- The registries that calls lead to when every step is `allowed`, and the plans
that are outside. A plan is handed back once, whatever the call then returns. -/
inductive Outside (allowed : RequestRegistry → Op → Prop) (ring capacity cqEntries : Nat) :
    RequestRegistry → List CompletionPublication → Prop
  | start {r : RequestRegistry} (h : new ring capacity cqEntries = .ok r) : Outside allowed ring capacity cqEntries r []
  | step {r t : RequestRegistry} {plans : List CompletionPublication} {op : Op} {response : Response}
      (h : Outside allowed ring capacity cqEntries r plans) (hop : allowed r op) (hplan : ∀ plan, op.plan =
        some plan → plan ∈ plans)
      (hstep : respond op r = (.ok response, t)) :
      Outside allowed ring capacity cqEntries t (response.plan.toList ++ op.plan.elim plans plans.erase)
  | failed {r t : RequestRegistry} {plans : List CompletionPublication} {op : Op} {error : IoUringError}
      (h : Outside allowed ring capacity cqEntries r plans) (hop : allowed r op) (hplan : ∀ plan, op.plan =
        some plan → plan ∈ plans)
      (hstep : respond op r = (.err error, t)) : Outside allowed ring capacity cqEntries t
        (op.plan.elim plans plans.erase)

end RequestRegistry

def CompletionPublication.Awaits (publication : CompletionPublication) (state : EntryState) : Prop :=
  if publication.terminal then state = .publishing publication.completion else ∃ mode, state = .shotInFlight mode

/-- A plan that is outside can be committed, and the request with the nonterminal
reservation has a shot in flight that no plan is about. -/
structure Orderly (b : Board) (plans : List CompletionPublication) : Prop where
  one : plans.length ≤ 1
  plan : ∀ publication ∈ plans, b.planned = some publication.id ∧ (publication.slot, publication.newTail) = b.next ∧
    ∃ e, b.entries publication.id = some e ∧ publication.Awaits e.state
  nothing : b.planned = none → plans = []
  announced : ∀ id, b.planned = some id → ∃ e, b.entries id = some e ∧ Announced e.state
  shot : ∀ id, b.shot = some id → b.planned ≠ some id ∧ ∃ e mode, b.entries id = some e ∧ e.state = .shotInFlight mode

section Orderly

variable {b : Board} {plans : List CompletionPublication} {id : RequestId} {e : RequestEntry} {state : EntryState}
  {entry : Option RequestEntry}

/-- Neither a plan nor the nonterminal reservation is about the request. -/
structure Apart (b : Board) (id : RequestId) : Prop where
  planned : b.planned ≠ some id
  shot : b.shot ≠ some id

theorem Orderly.apart (h : Orderly b plans) (he : b.entries id = some e) (hstate : ¬ Announced e.state) :
    Apart b id := by
  constructor
  · intro hid
    obtain ⟨e', he', hannounced⟩ := h.announced id hid
    rw [he, Option.some.injEq] at he'
    exact hstate (he' ▸ hannounced)
  · intro hid
    obtain ⟨-, e', mode, he', hshot⟩ := h.shot id hid
    rw [he, Option.some.injEq] at he'
    exact hstate (he' ▸ .inr ⟨mode, hshot⟩)

theorem Orderly.apart_of_none (h : Orderly b plans) (hnone : b.entries id = none) : Apart b id := by
  constructor
  · intro hid
    obtain ⟨e, he, -⟩ := h.announced id hid
    rw [hnone] at he
    cases he
  · intro hid
    obtain ⟨-, e, mode, he, -⟩ := h.shot id hid
    rw [hnone] at he
    cases he

theorem Orderly.put (h : Orderly b plans) (hid : Apart b id) : Orderly (b.put id entry) plans := by
  have hother : ∀ id', id' ≠ id → (b.put id entry).entries id' = b.entries id' :=
    fun id' hne => Function.update_of_ne hne _ _
  refine ⟨h.one, ?_, h.nothing, ?_, ?_⟩
  · intro publication hmem
    obtain ⟨hplanned, hnext, hentry⟩ := h.plan publication hmem
    refine ⟨hplanned, hnext, ?_⟩
    rw [hother _ fun heq => hid.planned (heq ▸ hplanned)]
    exact hentry
  · intro id' hplanned
    rw [hother id' fun heq => hid.planned (heq ▸ hplanned)]
    exact h.announced id' hplanned
  · intro id' hshot
    rw [hother id' fun heq => hid.shot (heq ▸ hshot)]
    exact h.shot id' hshot

theorem Orderly.withUsed (h : Orderly b plans) (used : List RequestId) : Orderly { b with used := used } plans :=
  ⟨h.one, h.plan, h.nothing, h.announced, h.shot⟩

theorem Orderly.unshot (h : Orderly b plans) : Orderly { b with shot := none } plans :=
  ⟨h.one, h.plan, h.nothing, h.announced, nofun⟩

theorem Orderly.endShot (h : Orderly b plans) (hplanned : b.planned ≠ some id) :
    Orderly ((b.restate id e state).unshot id) plans := by
  by_cases hshot : b.shot = some id
  · have hput : Orderly (Board.restate { b with shot := none } id e state) plans := h.unshot.put ⟨hplanned, nofun⟩
    change Orderly { b.restate id e state with shot := if b.shot = some id then none else b.shot } plans
    rw [if_pos hshot]
    exact hput
  · have hput : Orderly (b.restate id e state) plans := h.put ⟨hplanned, hshot⟩
    change Orderly { b.restate id e state with shot := if b.shot = some id then none else b.shot } plans
    rw [if_neg hshot]
    exact hput

theorem Orderly.beginShot {mode : CancellationMode} (h : Orderly b plans) (hid : Apart b id) :
    Orderly { b.restate id e (.shotInFlight mode) with shot := some id } plans := by
  have hput : Orderly (b.restate id e (.shotInFlight mode)) plans := h.put hid
  refine ⟨hput.one, hput.plan, hput.nothing, hput.announced, ?_⟩
  rintro _ ⟨⟩
  exact ⟨hid.planned, _, mode, Function.update_self .., rfl⟩

/-- A plan comes out while none is outside. -/
theorem Orderly.publish {completion : Completion} {terminal : Bool} {shot : Option RequestId} (h : Orderly b plans)
    (hnone : b.planned = none) (he : b.entries id = some e) (hannounced : Announced e.state)
    (hawaits : (⟨id, completion, b.next.1, b.next.2, terminal⟩ : CompletionPublication).Awaits e.state)
    (hshot : ∀ id', shot = some id' → id' ≠ id ∧ b.shot = some id') :
    Orderly { b with planned := some id, shot := shot } (⟨id, completion, b.next.1, b.next.2, terminal⟩ :: plans) := by
  rw [h.nothing hnone]
  refine ⟨le_rfl, ?_, nofun, ?_, ?_⟩
  · intro publication hmem
    rw [List.mem_singleton.mp hmem]
    exact ⟨rfl, rfl, e, he, hawaits⟩
  · rintro _ ⟨⟩
    exact ⟨e, he, hannounced⟩
  · intro id' hid'
    obtain ⟨hne, hold⟩ := hshot id' hid'
    refine ⟨?_, (h.shot id' hold).2⟩
    rintro ⟨⟩
    exact hne rfl

theorem Orderly.settle {publication : CompletionPublication} {next : Nat × BitVec 32} (h : Orderly b plans)
    (hmem : publication ∈ plans) (hplanned : b.planned = some publication.id) :
    Orderly { b.put publication.id entry with planned := none, next := next } (plans.erase publication) := by
  have hplans : plans = [publication] := by
    obtain ⟨p, hp⟩ := List.length_eq_one_iff.mp (le_antisymm h.one (List.length_pos_of_mem hmem))
    rw [hp, List.mem_singleton] at hmem
    rw [hp, hmem]
  rw [hplans, List.erase_cons_head]
  refine ⟨Nat.zero_le _, fun _ hin => absurd hin List.not_mem_nil, fun _ => rfl, nofun, ?_⟩
  intro id' hshot
  obtain ⟨hne, hentry⟩ := h.shot id' hshot
  refine ⟨nofun, ?_⟩
  have hother : id' ≠ publication.id := by
    rintro rfl
    exact hne hplanned
  change ∃ e mode, Function.update b.entries publication.id entry id' = some e ∧ _
  rw [Function.update_of_ne hother]
  exact hentry

/-- A call that fails keeps the plan that was handed to it. -/
theorem Orderly.lose (h : Orderly b plans) (op : Op) : Orderly b (op.plan.elim plans plans.erase) := by
  cases op.plan with
  | none => exact h
  | some publication =>
      refine ⟨(List.length_erase_le).trans h.one, fun p hp => h.plan p (List.mem_of_mem_erase hp), ?_,
        h.announced, h.shot⟩
      intro hnone
      change plans.erase publication = []
      rw [h.nothing hnone]
      rfl

theorem not_announced_of_claims {cause : TerminalCause} (h : Claims cause state) : ¬ Announced state := by
  rcases h with rfl | ⟨mode, rfl, _⟩
  · exact not_announced_prepared
  · exact not_announced_issued

theorem not_planned {r : RequestRegistry} {used : List RequestId} {mode : CancellationMode} (hmore : ¬ MorePending r id)
    (he : (board r used).entries id = some e) (hstate : e.state = .shotInFlight mode) :
    (board r used).planned ≠ some id :=
  fun hid => hmore ⟨hid, e, mode, found_eq_some.mp he, hstate⟩

theorem Orderly.step {r : RequestRegistry} {used : List RequestId} {b' : Board} {op : Op} {response : Response}
    (h : Orderly (board r used) plans) (hop : Keeps r op) (hplan : ∀ plan, op.plan = some plan → plan ∈ plans)
    (hstep : (board r used).Step op response b') :
    Orderly b' (response.plan.toList ++ op.plan.elim plans plans.erase) := by
  cases hstep with
  | reserve hused hnone =>
      exact (h.put (h.apart_of_none hnone)).withUsed _
  | rollback he hstate => exact h.put (h.apart he (hstate ▸ not_announced_reserved))
  | discardCompletion he hstate => exact h.put (h.apart he (hstate ▸ not_announced_pending))
  | commit he hstate => exact h.put (h.apart he (hstate ▸ not_announced_reserved))
  | issue he hstate => exact h.put (h.apart he (hstate ▸ not_announced_prepared))
  | beginNonterminalShot he hstate => exact h.beginShot (h.apart he (hstate ▸ not_announced_issued))
  | beginSideEffect he hstate | claimCancellableAtSlot he hstate | selectProviderCancelCandidate he hstate
  | beginProviderCancel he hstate => exact h.put (h.apart he (hstate ▸ not_announced_issued))
  | claimTerminal he hstate | claimCancel he hstate => exact h.put (h.apart he (not_announced_of_claims hstate))
  | finishTerminal he hstate => exact h.put (h.apart he (hstate ▸ not_announced_claimed))
  | abortNonterminalShot he hstate | claimTerminalAfterNonterminalShot he hstate | providerCancelled he hstate =>
      exact h.endShot (not_planned hop.1 he hstate)
  | providerInFlight he hstate => exact h.put ⟨not_planned hop.1 he hstate, hop.2 _ rfl⟩
  | skipSlot => exact h
  | publish he hstate hnone =>
      have hid := h.apart he (hstate ▸ not_announced_pending)
      refine (h.put hid).publish hnone (Function.update_self ..) (.inl ⟨_, rfl⟩) rfl ?_
      intro id' hshot
      exact ⟨fun heq => hid.shot (heq ▸ hshot), hshot⟩
  | publishNonterminal he hstate hshot hnone =>
      exact h.publish hnone he (.inr ⟨_, hstate⟩) ⟨_, hstate⟩ nofun
  | commitTerminal he hstate hplanned | commitNonterminal he hstate hplanned => exact h.settle (hplan _ rfl) hplanned
  | rollbackPublication he hstate hplanned | rollbackNonterminalPublication he hstate hplanned =>
      exact h.settle (hplan _ rfl) hplanned
  | idle hidle | passed hidle => cases op <;> first | exact h | exact hidle.elim

end Orderly

namespace RequestRegistry

variable {ring capacity cqEntries : Nat} {r : RequestRegistry} {plans : List CompletionPublication}

theorem Outside.orderly (h : Outside Keeps ring capacity cqEntries r plans) :
    ∃ used, Core r used ∧ Orderly (board r used) plans := by
  induction h with
  | start h =>
      refine ⟨[], core_initial h, Nat.zero_le _, fun _ hin => absurd hin List.not_mem_nil, fun _ => rfl, ?_, ?_⟩
      · intro id hid
        rw [new] at h
        split at h
        · cases h
        · split at h
          · cases h
          · cases h
            cases hid
      · intro id hid
        rw [new] at h
        split at h
        · cases h
        · split at h
          · cases h
          · cases h
            cases hid
  | step h hop hplan hstep ih =>
      obtain ⟨used, hcore, horderly⟩ := ih
      obtain ⟨used', hcore', hboard⟩ := (hcore.respond _).ok_of hstep
      exact ⟨used', hcore', horderly.step hop hplan hboard⟩
  | failed h hop hplan hstep ih =>
      obtain ⟨used, hcore, horderly⟩ := ih
      rcases (hcore.respond _).err_of hstep with rfl | ⟨_, hcore', hboard⟩
      · exact ⟨used, hcore, horderly.lose _⟩
      · exact ⟨used, hcore', hboard ▸ horderly.lose _⟩

theorem commitPublication_returns {used : List RequestId} (hcore : Core r used) {publication : CompletionPublication}
    {e : RequestEntry} (hplanned : r.publicationInFlight = some publication.id)
    (hnext : (publication.slot, publication.newTail) = (r.cqSlot r.cqTail, r.cqTail + 1))
    (he : r.entry publication.id = .ok e) (hawaits : publication.Awaits e.state) :
    ∃ t, commitPublication publication r = (.ok (), t) ∧ t.publicationInFlight = none := by
  rw [Prod.mk.injEq] at hnext
  rw [commitPublication, get_bind, if_neg (not_not.mpr hplanned), if_neg (by simp [hnext]), he, lift_ok_bind]
  rw [CompletionPublication.Awaits] at hawaits
  split at hawaits
  · next hterminal =>
      obtain ⟨t, heq, -, hnone, -⟩ := hcore.settleTerminal he hnext.1 hterminal hawaits
      exact ⟨t, heq, hnone⟩
  · next hterminal =>
      obtain ⟨mode, hstate⟩ := hawaits
      obtain ⟨t, heq, -, hnone, -⟩ := hcore.settleShot he hnext.1 (eq_false_of_ne_true hterminal) hstate
      exact ⟨t, heq, hnone⟩

/-- Every plan that is outside can be committed, whatever was called since, and a
nonterminal reservation belongs to a request with a shot in flight. -/
theorem plans_commit (h : Outside Keeps ring capacity cqEntries r plans) :
    (∀ publication ∈ plans, ∃ t, commitPublication publication r = (.ok (), t) ∧ t.publicationInFlight = none) ∧
    ∀ id, r.nonterminalReservation = some id → ∃ e mode, r.entry id = .ok e ∧ e.state = .shotInFlight mode := by
  obtain ⟨used, hcore, horderly⟩ := h.orderly
  constructor
  · intro publication hmem
    obtain ⟨hplanned, hnext, e, he, hawaits⟩ := horderly.plan publication hmem
    exact commitPublication_returns hcore hplanned hnext (found_eq_some.mp he) hawaits
  · intro id hid
    obtain ⟨-, e, mode, he, hstate⟩ := horderly.shot id hid
    exact ⟨e, mode, found_eq_some.mp he, hstate⟩

/-- A read whose nonterminal completion is being written. -/
theorem plans_commit_read :
    ∃ r p t, Outside Keeps 1 2 4 r [p] ∧ commitPublication p r = (.ok (), t) ∧ t.publicationInFlight = none := by
  have hnew : new 1 2 4 = .ok (initial 1 2 4) := by decide
  have h₀ : Outside Keeps 1 2 4 _ _ := .start hnew
  have h₁ := h₀.step (by exact ⟨trivial, nofun⟩) (by nofun) (rfl : respond (.reserve ⟨7, .read⟩) _ = _)
  have h₂ := h₁.step (by exact ⟨trivial, nofun⟩) (by nofun) (rfl : respond (.commit ⟨⟨1, 0, 1⟩, ⟨7, .read⟩⟩) _ = _)
  have h₃ := h₂.step (by exact ⟨trivial, nofun⟩) (by nofun) (rfl : respond (.issue ⟨⟨1, 0, 1⟩, ⟨7, .read⟩⟩ none) _ = _)
  have h₄ := h₃.step (by exact ⟨trivial, nofun⟩) (by nofun)
    (rfl : respond (.beginNonterminalShot ⟨⟨1, 0, 1⟩, ⟨7, .read⟩, .cancellable⟩) _ = _)
  have h₅ := h₄.step (by exact ⟨trivial, nofun⟩) (by nofun)
    (rfl : respond (.publishNonterminal ⟨⟨1, 0, 1⟩, ⟨7, .read⟩, .cancellable⟩ 0 0) _ = _)
  obtain ⟨t, hcommit, hnone⟩ := (plans_commit h₅).1 _ (List.mem_singleton.mpr rfl)
  exact ⟨_, _, t, h₅, hcommit, hnone⟩

/-- A shot that is aborted while its completion is being written leaves a plan
that cannot be committed, and a provider that reports the work in flight leaves
the reservation with a request that has no shot. -/
theorem plan_stuck :
    (∃ r p, Outside (fun _ _ => True) 1 2 4 r [p] ∧ commitPublication p r = (.err .invalidRequestState, r) ∧
      r.publicationInFlight = some p.id) ∧
    ∃ r plans id e, Outside (fun _ _ => True) 1 2 4 r plans ∧ r.nonterminalReservation = some id ∧ r.entry id = .ok e ∧
      e.state = .issued .cancellable := by
  have hnew : new 1 2 4 = .ok (initial 1 2 4) := by decide
  have h₀ : Outside (fun _ _ => True) 1 2 4 _ _ := .start hnew
  have h₁ := h₀.step trivial (by nofun) (rfl : respond (.reserve ⟨7, .read⟩) _ = _)
  have h₂ := h₁.step trivial (by nofun) (rfl : respond (.commit ⟨⟨1, 0, 1⟩, ⟨7, .read⟩⟩) _ = _)
  have h₃ := h₂.step trivial (by nofun) (rfl : respond (.issue ⟨⟨1, 0, 1⟩, ⟨7, .read⟩⟩ none) _ = _)
  have h₄ := h₃.step trivial (by nofun) (rfl : respond (.beginNonterminalShot ⟨⟨1, 0, 1⟩, ⟨7, .read⟩,
      .cancellable⟩) _ = _)
  have h₅ := h₄.step trivial (by nofun)
    (rfl : respond (.publishNonterminal ⟨⟨1, 0, 1⟩, ⟨7, .read⟩, .cancellable⟩ 0 0) _ = _)
  have h₆ := h₅.step trivial (by nofun) (rfl : respond (.abortNonterminalShot ⟨⟨1, 0, 1⟩, ⟨7, .read⟩,
      .cancellable⟩) _ = _)
  have h₇ := h₄.step trivial (by nofun) (rfl : respond (.finishProviderCancel ⟨1, 0, 1⟩ .inFlight) _ = _)
  exact ⟨⟨_, _, h₆, rfl, rfl⟩, _, _, ⟨1, 0, 1⟩, _, h₇, rfl, rfl, rfl⟩

end RequestRegistry

end TheKernel.IoUring
