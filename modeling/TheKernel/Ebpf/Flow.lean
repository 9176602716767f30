import TheKernel.Ebpf.Verify

namespace TheKernel.Ebpf

open Outcome

theorem operands_of_le {x : Instruction} (h : ¬ (10 < x.dst ∨ 10 < x.src)) :
    ∃ dst src, x.operands = some (dst, src) := by
  have hdst : x.dst < 11 := by omega
  have hsrc : x.src < 11 := by omega
  exact ⟨⟨x.dst, hdst⟩, ⟨x.src, hsrc⟩, by rw [Instruction.operands, dif_pos hdst, dif_pos hsrc]⟩

/-- What `decode` promises about a slot that starts an instruction. -/
structure DecodedAs (x : Instruction) (d : Decoded) : Prop where
  operands : ∃ dst src, x.operands = some (dst, src)
  wide : d ≠ .basic → x.opClass = .ld

theorem decodeWide_not_continuation {resolveFd : BitVec 32 → Option MapInfo} {i : Nat} {x next : Instruction}
    {d : Decoded} (h : decodeWide resolveFd i x next = .ok d) : d.isContinuation = false := by
  rw [decodeWide] at h
  repeat' split at h
  all_goals first | (obtain rfl := Outcome.ok.inj h; rfl) | cases h

theorem isWide_ld {x : Instruction} (h : isWide x = true) : x.opClass = .ld := by
  simp only [isWide, decide_eq_true_eq] at h
  exact h.1

theorem decodeFrom_spec (resolveFd : BitVec 32 → Option MapInfo) (i : Nat) (xs : List Instruction)
    (ds : List Decoded) (h : decodeFrom resolveFd i xs = .ok ds) :
    ds.length = xs.length ∧ (∀ d ∈ ds.head?, d.isContinuation = false) ∧
      ∀ (j : Nat) x d, xs[j]? = some x → ds[j]? = some d → d.isContinuation = false → DecodedAs x d := by
  induction i, xs using decodeFrom.induct generalizing ds with
  | case1 i =>
      rw [decodeFrom, ok.injEq] at h
      subst h
      simp
  | case2 i x rest hbad =>
      rw [decodeFrom.eq_def] at h
      simp [hbad] at h
  | case3 i x hgood hw =>
      rw [decodeFrom.eq_def] at h
      simp [hgood, hw] at h
  | case4 i x hgood hw next rest ih =>
      rw [decodeFrom.eq_def] at h
      simp only [hgood, hw, if_true, if_false] at h
      rw [bind_eq_ok] at h
      obtain ⟨d, hd, h⟩ := h
      rw [bind_eq_ok] at h
      obtain ⟨ds', hds', h⟩ := h
      rw [ok.injEq] at h
      subst h
      obtain ⟨hlen, _, hall⟩ := ih ds' hds'
      refine ⟨by simp [hlen], by simp [decodeWide_not_continuation hd], ?_⟩
      intro j y e hy he hc
      match j with
      | 0 =>
          simp only [List.getElem?_cons_zero, Option.some.injEq] at hy he
          subst hy he
          exact ⟨operands_of_le hgood, fun _ => isWide_ld hw⟩
      | 1 =>
          simp only [List.getElem?_cons_succ, List.getElem?_cons_zero, Option.some.injEq] at he
          subst he
          cases hc
      | j + 2 => exact hall j y e (by simpa using hy) (by simpa using he) hc
  | case5 i x rest hgood hw ih =>
      rw [decodeFrom.eq_def] at h
      simp only [hgood, hw, if_false, Bool.false_eq_true] at h
      rw [bind_eq_ok] at h
      obtain ⟨ds', hds', h⟩ := h
      rw [ok.injEq] at h
      subst h
      obtain ⟨hlen, _, hall⟩ := ih ds' hds'
      refine ⟨by simp [hlen], by simp [Decoded.isContinuation], ?_⟩
      intro j y e hy he hc
      cases j with
      | zero =>
          simp only [List.getElem?_cons_zero, Option.some.injEq] at hy he
          subst hy he
          exact ⟨operands_of_le hgood, fun hb => absurd rfl hb⟩
      | succ j => exact hall j y e (by simpa using hy) (by simpa using he) hc

/-- The walk marks only what it pushes, and every edge it takes goes forward
when loops are not allowed. -/
theorem visit_spec {allowLoops : Bool} {succ : List (List Nat)} {i : Nat} {seen seen' : List Bool}
    {pushed : List Nat} (h : visit allowLoops succ i seen = .ok (seen', pushed)) :
    (∀ j, seen'[j]? = some true → seen[j]? = some true ∨ j ∈ pushed) ∧
      ∀ next, succ[i]? = some next → ∀ n ∈ next, allowLoops = false → i < n := by
  rw [visit] at h
  split at h
  · cases h
  · next next hnext =>
      have hinv := forEnum_invariant _ (fun k (r : List Bool × List Nat) =>
        (∀ j, r.1[j]? = some true → seen[j]? = some true ∨ j ∈ r.2) ∧
          ∀ m n, m < k → next[m]? = some n → allowLoops = false → i < n) 0 next (seen, []) (seen', pushed) ?_
          ⟨fun j hj => .inl hj, by simp⟩ h
      · refine ⟨hinv.1, ?_⟩
        intro next' hn' n hn
        rw [hnext, Option.some.injEq] at hn'
        subst hn'
        obtain ⟨m, hm⟩ := List.mem_iff_getElem?.mp hn
        exact hinv.2 m n (by simpa using (List.getElem?_eq_some_iff.mp hm).1) hm
      · intro m n r r' hn hr hbody
        rw [visitSuccessor] at hbody
        split at hbody
        · cases hbody
        · next hforward =>
            have hstep : ∀ k l, k < 0 + m + 1 → next[k]? = some l → allowLoops = false → i < l := by
              intro k l hk hl hloops
              rcases Nat.lt_succ_iff_lt_or_eq.mp hk with hk | hk
              · exact hr.2 k l hk hl hloops
              · rw [hk, Nat.zero_add, hn, Option.some.injEq] at hl
                subst hl
                by_contra hle
                exact hforward ⟨hloops, Nat.le_of_not_lt hle⟩
            split at hbody
            · cases hbody
            · obtain rfl := Outcome.ok.inj hbody
              exact ⟨hr.1, hstep⟩
            · obtain rfl := Outcome.ok.inj hbody
              refine ⟨?_, hstep⟩
              intro j hj
              rw [List.getElem?_set] at hj
              split at hj
              · next hjn => exact .inr (by simp [hjn])
              · rcases hr.1 j hj with h | h
                · exact .inl h
                · exact .inr (by simp [h])

theorem reachable_forward {allowLoops : Bool} {succ : List (List Nat)} {seen : List Bool}
    (h : reachable allowLoops succ = .ok seen) (hl : allowLoops = false) {i : Nat} (hi : seen[i]? = some true)
    {next : List Nat} (hnext : succ[i]? = some next) {n : Nat} (hn : n ∈ next) : i < n := by
  have hinv := Worklist.drain_invariant (fun queue seen => ∀ j, seen[j]? = some true →
    j ∈ queue ∨ ∀ next, succ[j]? = some next → ∀ n ∈ next, allowLoops = false → j < n) ?_ ?_ h
  · rcases hinv i hi with h | h
    · simp at h
    · exact h next hnext n hn hl
  · intro x queue s s' pushed hq hv j hj
    obtain ⟨hmark, hforward⟩ := visit_spec hv
    rcases hmark j hj with hold | hnew
    · rcases hq j hold with hmem | hdone
      · rcases List.mem_cons.mp hmem with rfl | hmem
        · exact .inr hforward
        · exact .inl (List.mem_append_left _ hmem)
      · exact .inr hdone
    · exact .inl (List.mem_append_right _ hnew)
  · intro j hj
    rw [List.getElem?_set] at hj
    split at hj
    · next h0 => exact .inl (by simp [← h0])
    · simp [List.getElem?_replicate] at hj

/-- The turns given to the reachability walk are enough: each slot is pushed
at most once. -/
theorem reachable_enough (allowLoops : Bool) {succ : List (List Nat)} (hne : succ ≠ []) {turns : Nat}
    (h : succ.length + 1 ≤ turns) :
    Worklist.drain (visit allowLoops succ) turns [0] ((List.replicate succ.length false).set 0 true) =
      reachable allowLoops succ := by
  apply Worklist.drain_enough (fun _ _ => True) (fun queue seen => seen.count false + queue.length) ?_ trivial ?_ h
  · intro x queue s s' pushed _ hv
    refine ⟨trivial, ?_⟩
    rw [visit] at hv
    split at hv
    · cases hv
    · next next _ =>
        have hinv := forEnum_invariant _ (fun _ (r : List Bool × List Nat) =>
          r.1.count false + r.2.length = s.count false) 0 next (s, []) (s', pushed) ?_ (by simp) hv
        · simp only [List.length_append, List.length_cons]
          have : s'.count false + pushed.length = s.count false := hinv
          omega
        · intro m n r r' _ hr hbody
          rw [visitSuccessor] at hbody
          split at hbody
          · cases hbody
          · split at hbody
            · cases hbody
            · obtain rfl := Outcome.ok.inj hbody
              exact hr
            · next hn =>
                obtain rfl := Outcome.ok.inj hbody
                obtain ⟨hlt, hget⟩ := List.getElem?_eq_some_iff.mp hn
                have hpos : 0 < r.1.count false := List.count_pos_iff.mpr (hget ▸ List.getElem_mem hlt)
                simp only [List.count_set hlt, hget, List.length_append, List.length_singleton]
                simp
                omega
  · cases succ with
    | nil => exact absurd rfl hne
    | cons next succ => simp [List.replicate_succ]

def OnInstruction (p : Program) (pc : Nat) : Prop := ∃ d, p.decoded[pc]? = some d ∧ d.isContinuation = false

/-- What acceptance by `Program::verify` says about the control flow: every
slot that starts an instruction has successors that start instructions too,
and they lie ahead unless loops are allowed. -/
structure Linked (h : Helpers) (p : Program) : Prop where
  start : OnInstruction p 0
  length : p.decoded.length = p.instructions.length
  decodedAs : ∀ (i : Nat) x d, p.instructions[i]? = some x → p.decoded[i]? = some d → d.isContinuation = false →
    DecodedAs x d
  successors : ∀ (i : Nat) x d, p.instructions[i]? = some x → p.decoded[i]? = some d → d.isContinuation = false →
    ∃ next, validOpcode h x d = true ∧ successors x d i = .ok next ∧
      ∀ n ∈ next, OnInstruction p n ∧ (p.policy.allowLoops = false → i < n)

theorem linkInstruction_ok {h : Helpers} {decoded : List Decoded} {i : Nat} {x : Instruction} {d : Decoded}
    (hd : decoded[i]? = some d) (hc : d.isContinuation = false) {next : List Nat}
    (hl : linkInstruction h decoded i x = .ok next) :
    validOpcode h x d = true ∧ Ebpf.successors x d i = .ok next ∧
      ∀ n ∈ next, ∃ d : Decoded, decoded[n]? = some d ∧ d.isContinuation = false := by
  rw [linkInstruction, hd] at hl
  have hopen : (do
      validateOpcode h x d i
      let next ← Ebpf.successors x d i
      if next.all (fun s => decoded[s]?.any (fun d : Decoded => d.isContinuation = false)) then
        (.ok next : Outcome VerifyError (List Nat))
      else .err (.badJump i)) = .ok next := by
    cases d with
    | continuation head => cases hc
    | basic | wideImmediate v | map r => exact hl
  rw [bind_eq_ok] at hopen
  obtain ⟨_, hvalid, hopen⟩ := hopen
  rw [bind_eq_ok] at hopen
  obtain ⟨next', hnext, hopen⟩ := hopen
  rw [validateOpcode] at hvalid
  split at hvalid
  · next hv =>
      split at hopen
      · next hall =>
          obtain rfl := Outcome.ok.inj hopen
          refine ⟨hv, hnext, ?_⟩
          intro n hn
          have := List.all_eq_true.mp hall n hn
          simpa [Option.any_eq_true] using this
      · cases hopen
  · cases hvalid

theorem verifyParts_ok {h : Helpers} {policy : VerifyPolicy} {instructions : List Instruction}
    {decoded : List Decoded} {a : Analysis} (hv : verifyParts h policy instructions decoded = .ok a) :
    0 < instructions.length ∧ ∃ succ seen, linkProgram h instructions decoded = .ok succ ∧
      reachable policy.allowLoops succ = .ok seen ∧
      (∀ (i : Nat) x, instructions[i]? = some x → checkReached decoded seen i = .ok ()) ∧
      analyse h policy instructions decoded succ = .ok a := by
  rw [verifyParts] at hv
  split at hv
  · cases hv
  · next hne =>
      split at hv
      · cases hv
      · split at hv
        · cases hv
        · rw [bind_eq_ok] at hv
          obtain ⟨succ, hlink, hv⟩ := hv
          rw [bind_eq_ok] at hv
          obtain ⟨_, _, hv⟩ := hv
          rw [bind_eq_ok] at hv
          obtain ⟨seen, hseen, hv⟩ := hv
          rw [bind_eq_ok] at hv
          obtain ⟨_, hreached, ha⟩ := hv
          rw [forEnum_check] at hreached
          refine ⟨?_, succ, seen, hlink, hseen, ?_, ha⟩
          · rw [List.length_pos_iff]
            simpa using hne
          · intro i x hx
            simpa using hreached i x hx

theorem verify_ok {instructions : List Instruction} {resolveFd : BitVec 32 → Option MapInfo} {h : Helpers}
    {policy : VerifyPolicy} {p : Program} (hv : Program.verify instructions resolveFd h policy = .ok p) :
    decode resolveFd p.instructions = .ok p.decoded ∧ p.policy = policy ∧
      ∃ a, verifyParts h p.policy p.instructions p.decoded = .ok a := by
  rw [Program.verify, bind_eq_ok] at hv
  obtain ⟨decoded, hd, hv⟩ := hv
  rw [bind_eq_ok] at hv
  obtain ⟨a, ha, hv⟩ := hv
  obtain rfl := Outcome.ok.inj hv
  exact ⟨hd, rfl, a, ha⟩

theorem verify_linked {instructions : List Instruction} {resolveFd : BitVec 32 → Option MapInfo} {h : Helpers}
    {policy : VerifyPolicy} {p : Program} (hv : Program.verify instructions resolveFd h policy = .ok p) :
    Linked h p := by
  obtain ⟨hd, _, a, ha⟩ := verify_ok hv
  obtain ⟨hlen, hhead, hdec⟩ := decodeFrom_spec resolveFd 0 p.instructions p.decoded hd
  obtain ⟨hpos, succ, seen, hlink, hseen, hreached, _⟩ := verifyParts_ok ha
  obtain ⟨_, hsucc⟩ := forEnum_collect (linkInstruction h p.decoded) p.instructions hlink
  refine ⟨?_, hlen, hdec, ?_⟩
  · obtain ⟨d, hfirst⟩ := List.isSome_head?.mpr (List.ne_nil_of_length_pos (hlen ▸ hpos)) |> Option.isSome_iff_exists.mp
    exact ⟨d, by rw [← List.head?_eq_getElem?]; exact hfirst, hhead d hfirst⟩
  intro i x d hx hdi hc
  obtain ⟨next, hnext, hl⟩ := hsucc i x hx
  obtain ⟨hvalid, hs, hall⟩ := linkInstruction_ok hdi hc hl
  have hmark : seen[i]? = some true := by
    have hr := hreached i x hx
    rw [checkReached, hdi] at hr
    cases hb : seen[i]? with
    | none => simp [hb] at hr
    | some b =>
        cases b with
        | true => rfl
        | false => simp [hb, hc] at hr
  refine ⟨next, hvalid, hs, fun n hn => ⟨hall n hn, fun hloops => ?_⟩⟩
  exact reachable_forward hseen hloops hmark hnext hn

variable {h : Helpers} {p : Program}

/-- The abstract register types that control-flow paths carry to a slot,
without the joins of the worklist. -/
inductive Flow (h : Helpers) (p : Program) : Nat → Types → Prop
  | start : Flow h p 0 (initialTypes p.policy)
  | edge {i n : Nat} {s out : Types} {x : Instruction} {d : Decoded} {dst src : Register} {next : List Nat} :
      Flow h p i s → p.instructions[i]? = some x → p.decoded[i]? = some d → x.operands = some (dst, src) →
      transfer h p.policy x d dst src s i = .ok out → x.isExit = false → successors x d i = .ok next →
      n ∈ next → Flow h p n (refineNullCheck x dst out (takenEdge x i n))

def Coherent (h : Helpers) (p : Program) : Prop := ∀ n s t, Flow h p n s → Flow h p n t → s = t

theorem flow_onInstruction (hl : Linked h p) {i : Nat} {s : Types} (hf : Flow h p i s) : OnInstruction p i := by
  induction hf with
  | start => exact hl.start
  | edge _ hx hd _ _ _ hs hn ih =>
      obtain ⟨d', hd', hc⟩ := ih
      rw [hd, Option.some.injEq] at hd'
      subst hd'
      obtain ⟨next', _, hs', hall⟩ := hl.successors _ _ _ hx hd hc
      rw [hs, ok.injEq] at hs'
      subst hs'
      exact (hall _ hn).1

@[simp] theorem join_self (s : Types) : join s s = s := by
  funext r
  simp [join]

/-- A table entry the worklist is done with: its transfer succeeded and its
successors carry what flows out of it. -/
def Closed (h : Helpers) (p : Program) (state : Table) (i : Nat) (s : Types) : Prop :=
  ∀ x d dst src, p.instructions[i]? = some x → p.decoded[i]? = some d → x.operands = some (dst, src) →
    ∃ out, transfer h p.policy x d dst src s i = .ok out ∧
      (x.isExit = false → ∀ next, successors x d i = .ok next → ∀ n ∈ next,
        state[n]? = some (some (refineNullCheck x dst out (takenEdge x i n))))

def Extends (state state' : Table) : Prop :=
  ∀ (i : Nat) (s : Types), state[i]? = some (some s) → state'[i]? = some (some s)

theorem closed_extends {state state' : Table} {i : Nat} {s : Types} (hc : Closed h p state i s)
    (he : Extends state state') : Closed h p state' i s := by
  intro x d dst src hx hd hops
  obtain ⟨out, ht, hall⟩ := hc x d dst src hx hd hops
  exact ⟨out, ht, fun hexit next hs n hn => he n _ (hall hexit next hs n hn)⟩

/-- What one turn may do to the table when no two flows disagree: it fills
empty entries with flows and queues them. -/
structure Grows (h : Helpers) (p : Program) (state state' : Table) (pushed : List Nat) : Prop where
  keeps : Extends state state'
  fills : ∀ (i : Nat) (s : Types), state'[i]? = some (some s) → state[i]? = some (some s) ∨ i ∈ pushed ∧ Flow h p i s

theorem mergeSuccessor_grows (hc : Coherent h p) {x : Instruction} {dst : Register} {out : Types} {i n : Nat}
    {r r' : Analysis × List Nat} (hflow : Flow h p n (refineNullCheck x dst out (takenEdge x i n)))
    (hold : ∀ t, r.1.state[n]? = some (some t) → Flow h p n t)
    (hm : mergeSuccessor p.policy x dst out i n r = .ok r') :
    (∃ pushed, r'.2 = r.2 ++ pushed ∧ Grows h p r.1.state r'.1.state pushed) ∧
      r'.1.state[n]? = some (some (refineNullCheck x dst out (takenEdge x i n))) := by
  rw [mergeSuccessor] at hm
  cases hn : r.1.state[n]? with
  | none => simp [hn] at hm
  | some old =>
      simp only [hn] at hm
      cases old with
      | none =>
          simp only [joinEntry, reduceCtorEq, if_false] at hm
          split at hm
          · cases hm
          · obtain rfl := Outcome.ok.inj hm
            have hlt : n < r.1.state.length := (List.getElem?_eq_some_iff.mp hn).1
            refine ⟨⟨[n], rfl, ?_, ?_⟩, ?_⟩
            · intro j s hj
              have hjn : n ≠ j := by
                rintro rfl
                rw [hn] at hj
                cases hj
              simpa [List.getElem?_set, hjn] using hj
            · intro j s hj
              simp only [List.getElem?_set] at hj
              split at hj
              · next hjn =>
                  subst hjn
                  rw [Option.some.injEq, Option.some.injEq] at hj
                  subst hj
                  exact .inr ⟨List.mem_singleton.mpr rfl, hflow⟩
              · exact .inl hj
            · simp only [List.getElem?_set, if_true, hlt]
      | some old =>
          have hagree : old = refineNullCheck x dst out (takenEdge x i n) := hc n _ _ (hold old hn) hflow
          simp only [joinEntry, ← hagree, join_self, if_true] at hm
          obtain rfl := Outcome.ok.inj hm
          exact ⟨⟨[], by simp, fun _ _ hj => hj, fun _ _ hj => .inl hj⟩, by rw [hn, hagree]⟩

theorem grows_trans {a b c : Table} {q q' : List Nat} (h₁ : Grows h p a b q) (h₂ : Grows h p b c q') :
    Grows h p a c (q ++ q') where
  keeps i s hs := h₂.keeps i s (h₁.keeps i s hs)
  fills i s hs := by
    rcases h₂.fills i s hs with hb | ⟨hmem, hf⟩
    · rcases h₁.fills i s hb with ha | ⟨hmem, hf⟩
      · exact .inl ha
      · exact .inr ⟨List.mem_append_left _ hmem, hf⟩
    · exact .inr ⟨List.mem_append_right _ hmem, hf⟩

theorem flowOut_grows (hc : Coherent h p) {x : Instruction} {dst : Register} {out : Types} {i : Nat}
    {next : List Nat} {a a' : Analysis} {pushed : List Nat} (hexit : x.isExit = false)
    (hflow : ∀ n ∈ next, Flow h p n (refineNullCheck x dst out (takenEdge x i n)))
    (hold : ∀ (n : Nat) t, a.state[n]? = some (some t) → Flow h p n t)
    (hf : flowOut p.policy x dst out i next a = .ok (a', pushed)) :
    Grows h p a.state a'.state pushed ∧
      ∀ n ∈ next, a'.state[n]? = some (some (refineNullCheck x dst out (takenEdge x i n))) := by
  rw [flowOut, if_neg (by simp [hexit])] at hf
  have hinv := forEnum_invariant _ (fun k (r : Analysis × List Nat) =>
    Grows h p a.state r.1.state r.2 ∧ ∀ m n, m < k → next[m]? = some n →
      r.1.state[n]? = some (some (refineNullCheck x dst out (takenEdge x i n)))) 0 next (a, []) (a', pushed) ?_
      ⟨⟨fun _ _ hj => hj, fun _ _ hj => .inl hj⟩, by simp⟩ hf
  · refine ⟨hinv.1, ?_⟩
    intro n hn
    obtain ⟨m, hm⟩ := List.mem_iff_getElem?.mp hn
    exact hinv.2 m n (by simpa using (List.getElem?_eq_some_iff.mp hm).1) hm
  · intro m n r r' hn hr hbody
    have hflows : ∀ (j : Nat) t, r.1.state[j]? = some (some t) → Flow h p j t := by
      intro j t hj
      rcases hr.1.fills j t hj with ha | ⟨_, hf⟩
      · exact hold j t ha
      · exact hf
    obtain ⟨⟨q, hq, hg⟩, hset⟩ := mergeSuccessor_grows hc (hflow n (List.mem_of_getElem? hn)) (hflows n) hbody
    refine ⟨hq ▸ grows_trans hr.1 hg, ?_⟩
    intro k l hk hl
    rcases Nat.lt_succ_iff_lt_or_eq.mp hk with hk | hk
    · exact hg.keeps l _ (hr.2 k l hk hl)
    · rw [hk, Nat.zero_add, hn, Option.some.injEq] at hl
      subst hl
      exact hset

/-- Everything a successful turn of the worklist read and did. -/
theorem analyseInstruction_ok {policy : VerifyPolicy} {instructions : List Instruction} {decoded : List Decoded}
    {succ : List (List Nat)} {i : Nat} {a a' : Analysis} {pushed : List Nat}
    (ha : analyseInstruction h policy instructions decoded succ i a = .ok (a', pushed)) :
    ∃ s x d next dst src required out, a.state[i]? = some (some s) ∧ instructions[i]? = some x ∧
      decoded[i]? = some d ∧ succ[i]? = some next ∧ x.operands = some (dst, src) ∧
      transfer h policy x d dst src s i = .ok out ∧
      flowOut policy x dst out i next { a with requiredContextBytes := required } = .ok (a', pushed) := by
  rw [analyseInstruction] at ha
  split at ha
  · next s x d next hs hx hd hn =>
      split at ha
      · cases ha
      · next dst src hops =>
          rw [bind_eq_ok] at ha
          obtain ⟨required, _, ha⟩ := ha
          rw [bind_eq_ok] at ha
          obtain ⟨out, ht, ha⟩ := ha
          exact ⟨s, x, d, next, dst, src, required, out, hs, hx, hd, hn, hops, ht, ha⟩
  · cases ha

/-- One turn keeps the table a table of flows and closes the entry it
processed. -/
theorem analyseInstruction_grows (hl : Linked h p) (hc : Coherent h p) {succ : List (List Nat)}
    (hlink : linkProgram h p.instructions p.decoded = .ok succ) {i : Nat} {a a' : Analysis} {pushed : List Nat}
    (hold : ∀ (n : Nat) t, a.state[n]? = some (some t) → Flow h p n t)
    (ha : analyseInstruction h p.policy p.instructions p.decoded succ i a = .ok (a', pushed)) :
    Grows h p a.state a'.state pushed ∧ ∀ s, a.state[i]? = some (some s) → Closed h p a'.state i s := by
  obtain ⟨s, x, d, next, dst, src, required, out, hs, hx, hd, hn, hops, ht, hf⟩ := analyseInstruction_ok ha
  have unique : ∀ {Q : Types → Prop}, Q s → ∀ t, a.state[i]? = some (some t) → Q t := by
    intro Q hQ t hi
    rw [hs, Option.some.injEq, Option.some.injEq] at hi
    exact hi ▸ hQ
  have closes : ∀ {state : Table}, (x.isExit = false → ∀ next, successors x d i = .ok next → ∀ n ∈ next,
      state[n]? = some (some (refineNullCheck x dst out (takenEdge x i n)))) → Closed h p state i s := by
    intro state hall x' d' dst' src' hx' hd' hops'
    rw [hx, Option.some.injEq] at hx'
    rw [hd, Option.some.injEq] at hd'
    subst hx' hd'
    rw [hops, Option.some.injEq, Prod.mk.injEq] at hops'
    obtain ⟨rfl, rfl⟩ := hops'
    exact ⟨out, ht, hall⟩
  cases hexit : x.isExit with
  | true =>
      rw [flowOut, if_pos hexit, ok.injEq, Prod.mk.injEq] at hf
      obtain ⟨rfl, rfl⟩ := hf
      refine ⟨⟨fun _ _ hj => hj, fun _ _ hj => .inl hj⟩, unique (closes ?_)⟩
      intro hne
      rw [hexit] at hne
      cases hne
  | false =>
      have hflow := hold i s hs
      obtain ⟨d', hd', hcont⟩ := flow_onInstruction hl hflow
      rw [hd, Option.some.injEq] at hd'
      subst hd'
      obtain ⟨next', hn', hlinked⟩ := (forEnum_collect (linkInstruction h p.decoded) p.instructions hlink).2 i x hx
      rw [hn, Option.some.injEq] at hn'
      subst hn'
      obtain ⟨_, hsucc, _⟩ := linkInstruction_ok hd hcont hlinked
      obtain ⟨hg, hall⟩ := flowOut_grows hc hexit
        (fun n hmem => Flow.edge hflow hx hd hops ht hexit hsucc hmem)
        (show ∀ (n : Nat) t, (Analysis.mk a.state a.changes required).state[n]? = some (some t) → Flow h p n t
          from hold) hf
      refine ⟨hg, unique (closes ?_)⟩
      intro _ next' hs' n hmem
      rw [hsucc, ok.injEq] at hs'
      subst hs'
      exact hall n hmem

/-- When no two flows to a slot disagree, the table that `verify_parts`
computes is the table of flows, closed under the edges of the program. -/
theorem analyse_closed (hl : Linked h p) (hc : Coherent h p) {succ : List (List Nat)} {a : Analysis}
    (hlink : linkProgram h p.instructions p.decoded = .ok succ)
    (ha : analyse h p.policy p.instructions p.decoded succ = .ok a) :
    a.state[0]? = some (some (initialTypes p.policy)) ∧
      ∀ (i : Nat) s, a.state[i]? = some (some s) → Flow h p i s ∧ Closed h p a.state i s := by
  have hinv := Worklist.drain_invariant (fun queue (a : Analysis) =>
    a.state[0]? = some (some (initialTypes p.policy)) ∧
      (∀ (i : Nat) s, a.state[i]? = some (some s) → Flow h p i s) ∧
      ∀ (i : Nat) s, a.state[i]? = some (some s) → i ∈ queue ∨ Closed h p a.state i s) ?_ ?_ ha
  · obtain ⟨hstart, hflow, hdone⟩ := hinv
    refine ⟨hstart, fun i s hs => ⟨hflow i s hs, ?_⟩⟩
    rcases hdone i s hs with hmem | hclosed
    · simp at hmem
    · exact hclosed
  · intro i queue a a' pushed hP hbody
    obtain ⟨hstart, hflow, hdone⟩ := hP
    obtain ⟨hg, hclosed⟩ := analyseInstruction_grows hl hc hlink hflow hbody
    refine ⟨hg.keeps 0 _ hstart, ?_, ?_⟩
    · intro j s hs
      rcases hg.fills j s hs with hold | ⟨_, hf⟩
      · exact hflow j s hold
      · exact hf
    · intro j s hs
      rcases hg.fills j s hs with hold | ⟨hmem, _⟩
      · rcases hdone j s hold with hmem | hcl
        · rcases List.mem_cons.mp hmem with rfl | hmem
          · exact .inr (hclosed s hold)
          · exact .inl (List.mem_append_left _ hmem)
        · exact .inr (closed_extends hcl hg.keeps)
      · exact .inl (List.mem_append_right _ hmem)
  · have hentry : ∀ (i : Nat) s, ((List.replicate p.instructions.length none).set 0
        (some (initialTypes p.policy)))[i]? = some (some s) → i = 0 ∧ s = initialTypes p.policy := by
      intro i s hs
      rw [List.getElem?_set] at hs
      split at hs
      · next h0 =>
          split at hs
          · rw [Option.some.injEq, Option.some.injEq] at hs
            exact ⟨h0.symm, hs.symm⟩
          · cases hs
      · simp [List.getElem?_replicate] at hs
    refine ⟨?_, ?_, ?_⟩
    · obtain ⟨d, hd, _⟩ := hl.start
      have hpos : 0 < p.instructions.length := hl.length ▸ (List.getElem?_eq_some_iff.mp hd).1
      simp [hpos]
    · intro i s hs
      obtain ⟨rfl, rfl⟩ := hentry i s hs
      exact .start
    · intro i s hs
      exact .inl (List.mem_singleton.mpr (hentry i s hs).1)

/-- The turns given to the worklist are enough: each further push is a change,
and `max_states` bounds the changes. -/
theorem analyse_enough (h : Helpers) (policy : VerifyPolicy) (instructions : List Instruction)
    (decoded : List Decoded) (succ : List (List Nat)) {turns : Nat} (hturns : policy.maxStates + 2 ≤ turns) :
    Worklist.drain (analyseInstruction h policy instructions decoded succ) turns [0]
        ⟨(List.replicate instructions.length none).set 0 (some (initialTypes policy)), 0, 0⟩ =
      analyse h policy instructions decoded succ := by
  have merge : ∀ x dst out i n (r r' : Analysis × List Nat), r.1.changes ≤ policy.maxStates →
      mergeSuccessor policy x dst out i n r = .ok r' →
      r'.1.changes ≤ policy.maxStates ∧ r'.1.changes + r.2.length = r.1.changes + r'.2.length := by
    intro x dst out i n r r' hr hm
    rw [mergeSuccessor] at hm
    split at hm
    · cases hm
    · simp only at hm
      split at hm
      · obtain rfl := Outcome.ok.inj hm
        exact ⟨hr, rfl⟩
      · split at hm
        · cases hm
        · next hle =>
            obtain rfl := Outcome.ok.inj hm
            simp only [List.length_append, List.length_singleton]
            omega
  apply Worklist.drain_enough (fun _ (a : Analysis) => a.changes ≤ policy.maxStates)
    (fun queue a => policy.maxStates - a.changes + queue.length) ?_ (Nat.zero_le _) (by simp) hturns
  intro i queue a a' pushed hle hbody
  obtain ⟨s, x, d, next, dst, src, required, out, _, _, _, _, _, _, hf⟩ := analyseInstruction_ok hbody
  have hcount : a'.changes ≤ policy.maxStates ∧ a'.changes = a.changes + pushed.length := by
    rw [flowOut] at hf
    split at hf
    · obtain ⟨rfl, rfl⟩ := Prod.mk.inj (Outcome.ok.inj hf)
      exact ⟨hle, rfl⟩
    · have hinv := forEnum_invariant _ (fun _ (r : Analysis × List Nat) =>
        r.1.changes ≤ policy.maxStates ∧ r.1.changes = a.changes + r.2.length) 0 next _ (a', pushed) ?_
        ⟨hle, rfl⟩ hf
      · exact hinv
      · intro m n r r' _ hr hm
        obtain ⟨hr', heq⟩ := merge x dst out i n r r' hr.1 hm
        exact ⟨hr', by omega⟩
  refine ⟨hcount.1, ?_⟩
  simp only [List.length_append, List.length_cons]
  omega

end TheKernel.Ebpf
