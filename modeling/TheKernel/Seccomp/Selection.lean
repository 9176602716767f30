import TheKernel.Seccomp.Chain

namespace TheKernel.Seccomp

open FilterChain Outcome

/-- The chains that successful appends build, with the programs of their filters, newest first. -/
inductive Built : List VerifiedProgram → FilterChain → Prop
  | empty : Built [] []
  | append {programs : List VerifiedProgram} {c d : FilterChain} (h : Built programs c) (program : VerifiedProgram)
      (metadata : FilterMetadata) (budget : FilterBudget) (executor : Option SeccompExecutor) (site : AppendSite)
      (happend : c.tryAppendWithExecutor program metadata budget executor site = .ok d) : Built (program :: programs) d

def chainCost (programs : List VerifiedProgram) : Nat :=
  (programs.map VerifiedProgram.pathCharge).sum + filterPathPenalty * (programs.length - 1)

section Cost

variable {programs : List VerifiedProgram} {c d : FilterChain} {program : VerifiedProgram} {metadata : FilterMetadata}
  {budget : FilterBudget} {executor : Option SeccompExecutor} {site : AppendSite}

theorem tryAppendWithExecutor_ok (h : c.tryAppendWithExecutor program metadata budget executor site = .ok d) :
    ∃ cost count, appendCost c program = some cost ∧ cost ≤ maxInsnsPerPath ∧
      d = ⟨site.fresh, executor, metadata, cost, count, budget⟩ :: c := by
  rw [tryAppendWithExecutor] at h
  split at h
  · cases h
  · rename_i cost hcost
    split at h
    · cases h
    · rename_i hle
      split at h
      · cases h
      · rename_i count hcount
        split at h
        · cases h
        · split at h
          · cases h
          · split at h
            · cases h
              exact ⟨cost, count, hcost, Nat.not_lt.mp hle, rfl⟩
            · cases h

theorem Built.length_eq (h : Built programs c) : c.length = programs.length := by
  induction h with
  | empty => rfl
  | append h program metadata budget executor site happend ih =>
      obtain ⟨cost, count, -, -, rfl⟩ := tryAppendWithExecutor_ok happend
      rw [List.length_cons, List.length_cons, ih]

theorem Built.pathCost_eq (h : Built programs c) : c.pathCost = chainCost programs := by
  induction h with
  | empty => rfl
  | @append programs c d h program metadata budget executor site happend ih =>
      obtain ⟨cost, count, hcost, -, rfl⟩ := tryAppendWithExecutor_ok happend
      have hlength := h.length_eq
      rw [appendCost] at hcost
      cases programs with
      | nil =>
          cases c with
          | nil =>
              cases hcost
              simp [FilterChain.pathCost, chainCost]
          | cons node below => cases hlength
      | cons newest programs =>
          cases c with
          | nil => cases hlength
          | cons node below =>
              simp only [List.isEmpty_cons, Bool.false_eq_true, if_false, Option.bind_eq_some_iff] at hcost
              obtain ⟨mid, hmid, hcost⟩ := hcost
              rw [checkedAdd_eq_some] at hmid hcost
              change cost = _
              rw [← hcost.1, ← hmid.1, ih]
              simp only [chainCost, List.map_cons, List.sum_cons, List.length_cons, Nat.add_sub_cancel,
                filterPathPenalty]
              omega

theorem Built.pathCost_le (h : Built programs c) : c.pathCost ≤ maxInsnsPerPath := by
  cases h with
  | empty => exact Nat.zero_le _
  | append h program metadata budget executor site happend =>
      obtain ⟨cost, count, -, hle, rfl⟩ := tryAppendWithExecutor_ok happend
      exact hle

end Cost

section Selection

structure NewestLeast (data : SeccompData) (c : FilterChain) (node : FilterNode) : Prop where
  split : ∃ newer older, c = newer ++ node :: older ∧
    (∀ n ∈ newer, (nodeAction data node).precedence < (nodeAction data n).precedence) ∧
    ∀ n ∈ older, (nodeAction data node).precedence ≤ (nodeAction data n).precedence

variable {data : SeccompData}

theorem NewestLeast.head {node : FilterNode} {older : FilterChain}
    (h : ∀ n ∈ older, (nodeAction data node).precedence ≤ (nodeAction data n).precedence) :
    NewestLeast data (node :: older) node :=
  ⟨[], older, rfl, nofun, h⟩

theorem NewestLeast.cons {x node : FilterNode} {c : FilterChain} (h : NewestLeast data c node)
    (hx : (nodeAction data node).precedence < (nodeAction data x).precedence) : NewestLeast data (x :: c) node := by
  obtain ⟨newer, older, rfl, hnewer, holder⟩ := h.split
  refine ⟨x :: newer, older, rfl, ?_, holder⟩
  intro n hn
  rcases List.mem_cons.mp hn with rfl | hn
  · exact hx
  · exact hnewer n hn

theorem NewestLeast.le {node : FilterNode} {c : FilterChain} (h : NewestLeast data c node) :
    ∀ n ∈ c, (nodeAction data node).precedence ≤ (nodeAction data n).precedence := by
  obtain ⟨newer, older, rfl, hnewer, holder⟩ := h.split
  intro n hn
  rcases List.mem_append.mp hn with hn | hn
  · exact (hnewer n hn).le
  · rcases List.mem_cons.mp hn with rfl | hn
    · exact le_rfl
    · exact holder n hn

/-- The scan keeps its choice where nothing is strictly less, and ends at the newest of the
least otherwise. -/
theorem evaluateLoop_spec (data : SeccompData) (c : FilterChain) (selected : FilterDecision) :
    (evaluateLoop data c selected = selected ∧
      ∀ n ∈ c, selected.action.precedence ≤ (nodeAction data n).precedence) ∨
    ∃ node, NewestLeast data c node ∧ (nodeAction data node).precedence < selected.action.precedence ∧
      evaluateLoop data c selected = ⟨nodeAction data node, some node.metadata⟩ := by
  induction c generalizing selected with
  | nil => exact .inl ⟨rfl, nofun⟩
  | cons x c ih =>
      rw [evaluateLoop]
      split
      · rename_i hless
        refine .inr ?_
        rcases ih ⟨nodeAction data x, some x.metadata⟩ with ⟨heq, hle⟩ | ⟨node, hnode, hlt, heq⟩
        · exact ⟨x, .head hle, hless, heq⟩
        · exact ⟨node, hnode.cons hlt, hlt.trans hless, heq⟩
      · rename_i hge
        rw [not_lt] at hge
        rcases ih selected with ⟨heq, hle⟩ | ⟨node, hnode, hlt, heq⟩
        · refine .inl ⟨heq, ?_⟩
          intro n hn
          rcases List.mem_cons.mp hn with rfl | hn
          · exact hge
          · exact hle n hn
        · exact .inr ⟨node, hnode.cons (hlt.trans_le hge), hlt, heq⟩

end Selection

/-- The selected action has the least key among `ALLOW` and the results of all filters. It is
the plain `ALLOW` where no filter's key is below that of `ALLOW`, and the result of the most
recently installed of the filters with the least key otherwise. The recorded cost is that of
the whole path and within the limit. -/
theorem evaluate_selects {programs : List VerifiedProgram} {c : FilterChain} (hbuilt : Built programs c)
    (data : SeccompData) :
    ((c.evaluate data).action.precedence ≤ (Action.mk seccompRetAllow).precedence ∧
      ∀ n ∈ c, (c.evaluate data).action.precedence ≤ (nodeAction data n).precedence) ∧
    ((c.evaluate data = ⟨⟨seccompRetAllow⟩, none⟩ ∧
        ∀ n ∈ c, (Action.mk seccompRetAllow).precedence ≤ (nodeAction data n).precedence) ∨
      ∃ node, NewestLeast data c node ∧
        (nodeAction data node).precedence < (Action.mk seccompRetAllow).precedence ∧
        c.evaluate data = ⟨nodeAction data node, some node.metadata⟩) ∧
    c.pathCost = chainCost programs ∧ c.pathCost ≤ maxInsnsPerPath := by
  have hspec := evaluateLoop_spec data c ⟨⟨seccompRetAllow⟩, none⟩
  refine ⟨?_, hspec, hbuilt.pathCost_eq, hbuilt.pathCost_le⟩
  rw [FilterChain.evaluate]
  rcases hspec with ⟨heq, hle⟩ | ⟨node, hnode, hlt, heq⟩
  · rw [heq]
    exact ⟨le_rfl, hle⟩
  · rw [heq]
    exact ⟨hlt.le, hnode.le⟩

def retNode (identity cost count : Nat) (value : BitVec 32) : FilterNode :=
  ⟨identity, some (fun _ => value), ⟨false, false, 0⟩, cost, count, ⟨0, 4096⟩⟩

def errnoChain : FilterChain := [retNode 1 14 2 0x00050002, retNode 0 5 1 0x00050001]

theorem built_errnoChain : Built [denyProgram, denyProgram] errnoChain :=
  .append (.append .empty denyProgram ⟨false, false, 0⟩ ⟨0, 4096⟩ (some fun _ => 0x00050001) ⟨0, 72, true, 0⟩ rfl)
    denyProgram ⟨false, false, 0⟩ ⟨0, 4096⟩ (some fun _ => 0x00050002) ⟨80, 72, true, 1⟩ rfl

def zeroData : SeccompData := ⟨0, 0, 0, fun _ => 0⟩

theorem evaluate_selects_errnoChain :
    (errnoChain.evaluate zeroData).action = ⟨0x00050002⟩ ∧
    (errnoChain.evaluate zeroData).action.precedence ≤ (Action.mk seccompRetAllow).precedence ∧
      errnoChain.pathCost = chainCost [denyProgram, denyProgram] :=
  ⟨by decide, (evaluate_selects built_errnoChain zeroData).1.1, (evaluate_selects built_errnoChain zeroData).2.2.1⟩

def allowChain : FilterChain := [retNode 0 5 1 0x7fff0001]

/-- The data of a filter that allows is lost, although its key is the least one. -/
theorem allow_data_lost : ¬ ∀ programs c data node, Built programs c → NewestLeast data c node →
    (nodeAction data node).precedence ≤ (Action.mk seccompRetAllow).precedence →
    (c.evaluate data).action = nodeAction data node := by
  intro hclaim
  have hbuilt : Built [denyProgram] allowChain :=
    .append .empty denyProgram ⟨false, false, 0⟩ ⟨0, 4096⟩ (some fun _ => 0x7fff0001) ⟨0, 72, true, 0⟩ rfl
  have hdata := hclaim [denyProgram] allowChain zeroData (retNode 0 5 1 0x7fff0001) hbuilt (.head nofun)
    (by decide)
  exact absurd (congrArg Action.raw hdata) (by decide)

end TheKernel.Seccomp
