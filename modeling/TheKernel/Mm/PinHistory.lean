import TheKernel.Mm.PinRun

namespace TheKernel.Mm

namespace PinRegistry

variable {r t : PinRegistry} {call : RegistryCall} {result : PinResult}

theorem Drains.frame (h : Drains r t) :
    t.identity = r.identity ∧ t.pageSize = r.pageSize ∧ t.nextToken = r.nextToken ∧ t.state = r.state ∧
      ∀ record, some record ∈ t.records → some record ∈ r.records := by
  induction h with
  | refl => exact ⟨rfl, rfl, rfl, rfl, fun _ h => h⟩
  | tail _ hstep ih =>
      obtain ⟨i, record, _, hrefund⟩ := hstep
      cases hrefund
      obtain ⟨hidentity, hpage, hnext, hstate, hrecords⟩ := ih
      exact ⟨hidentity, hpage, hnext, hstate, fun a ha => hrecords a (mem_of_mem_set_none ha)⟩

theorem Effect.identity (h : Effect r call result t) : t.identity = r.identity ∧ t.pageSize = r.pageSize := by
  cases h with
  | refused | quotaSet | ownerAdded | ownerRemoved | reserved | validated | committed | closing | finished =>
      exact ⟨rfl, rfl⟩
  | rolledBack _ _ _ hrefund | cancelled hrefund | released hrefund =>
      cases hrefund
      exact ⟨rfl, rfl⟩
  | tornDown _ hdrain => exact ⟨hdrain.frame.1, hdrain.frame.2.1⟩

/-- A call hands out the next token of its registry or none. -/
theorem Effect.token (h : Effect r call result t) (i : Nat) :
    tokenOf (.registry i call, result) = none ∧ t.nextToken = r.nextToken ∨
      ∃ n, r.nextToken = some n ∧ tokenOf (.registry i call, result) = some ⟨r.identity, n⟩ ∧
        t.nextToken = following n := by
  cases h with
  | refused | quotaSet | ownerAdded | ownerRemoved | validated | committed | closing | finished => exact .inl ⟨rfl, rfl⟩
  | reserved _ _ _ _ _ _ _ _ hnext => exact .inr ⟨_, hnext, rfl, rfl⟩
  | rolledBack _ _ _ hrefund | cancelled hrefund | released hrefund =>
      cases hrefund
      exact .inl ⟨rfl, rfl⟩
  | tornDown _ hdrain => exact .inl ⟨rfl, hdrain.frame.2.2.1⟩

end PinRegistry

namespace PinBudget

variable {b t : PinBudget} {call : BudgetCall} {result : PinResult}

theorem Effect.identity (h : Effect b call result t) : t.identity = b.identity := by
  cases h <;> rfl

theorem Effect.charge (h : Effect b call result t) (i : Nat) :
    chargeOf (.budget i call, result) = none ∧ t.nextCharge = b.nextCharge ∨
      ∃ n, b.nextCharge = some n ∧ chargeOf (.budget i call, result) = some ⟨b.identity, n⟩ ∧
        t.nextCharge = following n := by
  cases h with
  | refused | released => exact .inl ⟨rfl, rfl⟩
  | charged _ _ hnext => exact .inr ⟨_, hnext, rfl, rfl⟩

end PinBudget

section Tokens

variable {trace : PinTrace} {s t : PinSystem} {call : PinCall} {result : PinResult} {entry : PinCall × PinResult}

theorem issued_concat_none (h : tokenOf entry = none) : issued (trace ++ [entry]) = issued trace := by
  simp [issued, h]

theorem issued_concat_some {token : PinToken} (h : tokenOf entry = some token) :
    issued (trace ++ [entry]) = issued trace ++ [token] := by
  simp [issued, h]

theorem charged_concat_none (h : chargeOf entry = none) : charged (trace ++ [entry]) = charged trace := by
  simp [charged, h]

theorem charged_concat_some {charge : PinBudgetCharge} (h : chargeOf entry = some charge) :
    charged (trace ++ [entry]) = charged trace ++ [charge] := by
  simp [charged, h]

def PinSystem.tokenIssuers (s : PinSystem) : List (Nat × Option Nat) :=
  s.registries.map fun r => (r.identity, r.nextToken)

def PinSystem.chargeIssuers (s : PinSystem) : List (Nat × Option Nat) :=
  s.budgets.map fun b => (b.identity, b.nextCharge)

def PinToken.pair (token : PinToken) : Nat × Nat := (token.registry, token.sequence)

def PinBudgetCharge.pair (charge : PinBudgetCharge) : Nat × Nat := (charge.budget, charge.token)

/-- Tokens come from registries of distinct identities, each of which counts
up. -/
structure TokensIssued (trace : PinTrace) (s : PinSystem) : Prop where
  below : ∀ r ∈ s.registries, r.identity < s.nextRegistry
  issued : Issued s.tokenIssuers ((issued trace).map PinToken.pair)

theorem tokensIssued_step (hs : TokensIssued trace s) (h : s.Effect call result t) :
    TokensIssued (trace ++ [(call, result)]) t := by
  have hsame : ∀ {next : Nat} {bs : List PinBudget} {n : Nat}, tokenOf (call, result) = none → s.nextRegistry ≤ next →
      TokensIssued (trace ++ [(call, result)]) ⟨next, n, s.registries, bs⟩ := by
    intro next bs n hnone hnext
    refine ⟨fun r hr => Nat.lt_of_lt_of_le (hs.below r hr) hnext, ?_⟩
    rw [issued_concat_none hnone]
    exact hs.issued
  cases h with
  | registryMade =>
      constructor
      · intro r hr
        rcases List.mem_append.mp hr with hr | hr
        · exact Nat.lt_succ_of_lt (hs.below r hr)
        · cases List.mem_singleton.mp hr
          exact Nat.lt_succ_self _
      · rw [issued_concat_none rfl, PinSystem.tokenIssuers, List.map_append]
        apply hs.issued.add
        intro issuer hissuer
        obtain ⟨r, hr, rfl⟩ := List.mem_map.mp hissuer
        exact Nat.ne_of_lt (hs.below r hr)
  | registryRefused hnext => exact hsame rfl hnext
  | budgetMade => exact hsame rfl (Nat.le_refl _)
  | budgetRefused => exact hsame rfl (Nat.le_refl _)
  | budgetCalled => exact hsame rfl (Nat.le_refl _)
  | @registryCalled i _ _ r u hi heffect =>
      have hissuer : s.tokenIssuers[i]? = some (r.identity, r.nextToken) := by
        rw [PinSystem.tokenIssuers, List.getElem?_map, hi]
        rfl
      obtain ⟨hidentity, _⟩ := heffect.identity
      constructor
      · intro a ha
        rcases List.mem_or_eq_of_mem_set ha with ha | rfl
        · exact hs.below a ha
        · rw [hidentity]
          exact hs.below r (List.mem_of_getElem? hi)
      · rw [PinSystem.tokenIssuers, List.map_set, hidentity]
        rcases heffect.token i with ⟨hnone, hnext⟩ | ⟨n, hn, htoken, hnext⟩
        · rw [issued_concat_none hnone, hnext]
          exact hs.issued.replace hissuer (fun _ h => h)
        · rw [issued_concat_some htoken, hnext, List.map_append]
          rw [hn] at hissuer
          exact hs.issued.issue hissuer (fun _ h => following_spent h rfl) (spent_following n)

/-- The counter of budgets stops at zero once it has wrapped. -/
structure ChargesIssued (trace : PinTrace) (s : PinSystem) : Prop where
  below : s.nextBudget ≠ 0 → ∀ b ∈ s.budgets, b.identity < s.nextBudget
  issued : Issued s.chargeIssuers ((charged trace).map PinBudgetCharge.pair)

theorem chargesIssued_step (hs : ChargesIssued trace s) (h : s.Effect call result t) :
    ChargesIssued (trace ++ [(call, result)]) t := by
  have hsame : ∀ {n : Nat} {rs : List PinRegistry}, chargeOf (call, result) = none →
      ChargesIssued (trace ++ [(call, result)]) ⟨n, s.nextBudget, rs, s.budgets⟩ := by
    intro n rs hnone
    refine ⟨hs.below, ?_⟩
    rw [charged_concat_none hnone]
    exact hs.issued
  cases h with
  | budgetMade hzero =>
      constructor
      · intro hnext b hb
        dsimp only at hnext ⊢
        rw [ne_eq, ite_eq_left_iff, Classical.not_imp] at hnext
        rw [if_neg hnext.1]
        rcases List.mem_append.mp hb with hb | hb
        · exact Nat.lt_succ_of_lt (hs.below hzero b hb)
        · cases List.mem_singleton.mp hb
          exact Nat.lt_succ_self _
      · rw [charged_concat_none rfl, PinSystem.chargeIssuers, List.map_append]
        apply hs.issued.add
        intro issuer hissuer
        obtain ⟨b, hb, rfl⟩ := List.mem_map.mp hissuer
        exact Nat.ne_of_lt (hs.below hzero b hb)
  | registryMade => exact hsame rfl
  | registryRefused hnext => exact hsame rfl
  | budgetRefused => exact hsame rfl
  | registryCalled => exact hsame rfl
  | @budgetCalled i _ _ b u hi heffect =>
      have hissuer : s.chargeIssuers[i]? = some (b.identity, b.nextCharge) := by
        rw [PinSystem.chargeIssuers, List.getElem?_map, hi]
        rfl
      constructor
      · intro hnext a ha
        rcases List.mem_or_eq_of_mem_set ha with ha | rfl
        · exact hs.below hnext a ha
        · rw [heffect.identity]
          exact hs.below hnext b (List.mem_of_getElem? hi)
      · rw [PinSystem.chargeIssuers, List.map_set, heffect.identity]
        rcases heffect.charge i with ⟨hnone, hnext⟩ | ⟨n, hn, htoken, hnext⟩
        · rw [charged_concat_none hnone, hnext]
          exact hs.issued.replace hissuer (fun _ h => h)
        · rw [charged_concat_some htoken, hnext, List.map_append]
          rw [hn] at hissuer
          exact hs.issued.issue hissuer (fun _ h => following_spent h rfl) (spent_following n)

theorem PinRun.tokensIssued (h : PinRun trace s) : TokensIssued trace s :=
  h.invariant ⟨by simp [PinSystem.start], issued_nil⟩ fun _ _ _ _ _ _ hs _ => tokensIssued_step hs

theorem PinRun.chargesIssued (h : PinRun trace s) : ChargesIssued trace s :=
  h.invariant ⟨by simp [PinSystem.start], issued_nil⟩ fun _ _ _ _ _ _ hs _ => chargesIssued_step hs

end Tokens

section Segments

variable {trace : PinTrace} {s t : PinSystem} {call : PinCall} {result : PinResult} {entry : PinCall × PinResult}
  {i : Nat} {token : PinToken} {pageSize : PageSize} {record : PinRecord}

theorem segments_concat_none (h : segmentOf i token entry = none) :
    segments i token (trace ++ [entry]) = segments i token trace := by
  simp [segments, h]

theorem segments_concat_some {covered : PageRange} (h : segmentOf i token entry = some covered) :
    segments i token (trace ++ [entry]) = segments i token trace ++ [covered] := by
  simp [segments, h]

/-- A live record was reserved, and has validated what the trace says. -/
structure Tracked (trace : PinTrace) (i : Nat) (pageSize : PageSize) (record : PinRecord) : Prop where
  reserved : (.registry i (.reserve record.request record.snapshot.addressSpace), .ok (.reserved ⟨record.token⟩)) ∈
    trace
  range : PageRange.covering record.request.range pageSize = .ok record.range
  covers : Covers record.range.start (segments i record.token trace) record.validatedUntil
  count : (segments i record.token trace).length = record.validatedMappings

theorem Tracked.concat (h : Tracked trace i pageSize record) (hnone : segmentOf i record.token entry = none) :
    Tracked (trace ++ [entry]) i pageSize record := by
  refine ⟨List.mem_append_left _ h.reserved, h.range, ?_, ?_⟩
  · rw [segments_concat_none hnone]
    exact h.covers
  · rw [segments_concat_none hnone]
    exact h.count

theorem PinRegistry.Effect.tracked {r u : PinRegistry} {call : RegistryCall} {result : PinResult}
    (h : r.Effect call result u) (hs : r.Sound)
    (htracked : ∀ record, some record ∈ r.records → Tracked trace i r.pageSize record)
    (hfresh : ∀ token, segments i token trace ≠ [] → Spent r.nextToken token.sequence) :
    ∀ record, some record ∈ u.records → Tracked (trace ++ [(.registry i call, result)]) i r.pageSize record := by
  cases h with
  | refused =>
      intro record hrecord
      apply (htracked record hrecord).concat
      cases call <;> rfl
  | quotaSet | ownerAdded | ownerRemoved | closing | finished =>
      intro record hrecord
      exact (htracked record hrecord).concat rfl
  | @reserved request addressSpace _ j n _ range charge _ hrange _ _ hfree _ _ _ hnext =>
      intro record hrecord
      rcases (mem_set_some hfree).mp hrecord with hrecord | rfl
      · exact (htracked record hrecord).concat rfl
      · have hnil : segments i ⟨r.identity, n⟩ trace = [] := by
          by_contra hne
          exact Nat.lt_irrefl n (hfresh _ hne n hnext)
        refine ⟨List.mem_append_right _ (List.mem_singleton.mpr rfl), hrange, ?_, ?_⟩
        · rw [segments_concat_none rfl, hnil]
          rfl
        · rw [segments_concat_none rfl, hnil]
          rfl
  | @validated reservation expected current covered j old hlive htoken _ hvalid =>
      intro record hrecord
      obtain ⟨k, hk⟩ := List.mem_iff_getElem?.mp hrecord
      rcases getElem?_set_some hk with ⟨_, hk⟩ | ⟨hne, hk⟩
      · cases hk
        have hold := htracked old (List.mem_of_getElem? hlive)
        have hsegment : segmentOf i old.token
            (.registry i (.revalidateNext reservation expected current covered), .ok .done) = some covered :=
          if_pos ⟨rfl, htoken.symm⟩
        refine ⟨List.mem_append_left _ hold.reserved, hold.range, ?_, ?_⟩
        · rw [segments_concat_some hsegment]
          exact hold.covers.concat (PinRegistry.validation_eq_ok hvalid).1
        · rw [segments_concat_some hsegment, List.length_append, hold.count]
          rfl
      · apply (htracked record (List.mem_of_getElem? hk)).concat
        apply if_neg
        rintro ⟨_, heq⟩
        exact hne (hs.distinct j k old record hlive hk (htoken.trans heq))
  | committed hlive =>
      intro record hrecord
      rcases mem_of_mem_set hrecord with hrecord | hrecord
      · exact (htracked record hrecord).concat rfl
      · cases hrecord
        have hold := htracked _ (List.mem_of_getElem? hlive)
        exact Tracked.concat ⟨hold.reserved, hold.range, hold.covers, hold.count⟩ rfl
  | rolledBack _ _ _ hrefund | cancelled hrefund | released hrefund =>
      cases hrefund
      intro record hrecord
      exact (htracked record (mem_of_mem_set_none hrecord)).concat rfl
  | tornDown _ hdrain =>
      intro record hrecord
      exact (htracked record (hdrain.frame.2.2.2.2 record hrecord)).concat rfl

/-- Only a live record is revalidated, and its token is spent. -/
theorem PinRegistry.Effect.segment_spent {r u : PinRegistry} {call : RegistryCall} {result : PinResult}
    {covered : PageRange}
    (h : r.Effect call result u) (hs : r.Sound)
    (hsegment : segmentOf i token (.registry i call, result) = some covered) :
    Spent r.nextToken token.sequence := by
  cases h with
  | validated hlive htoken =>
      rw [segmentOf, Option.ite_none_right_eq_some] at hsegment
      rw [← hsegment.1.2, ← htoken]
      exact (hs.issued _ (List.mem_of_getElem? hlive)).2
  | refused => cases call <;> cases hsegment
  | _ => cases hsegment

theorem PinRegistry.Effect.spent {r u : PinRegistry} {call : RegistryCall} {result : PinResult} {n : Nat}
    (h : r.Effect call result u) (hn : Spent r.nextToken n) : Spent u.nextToken n := by
  rcases h.token 0 with ⟨_, hnext⟩ | ⟨m, hm, _, hnext⟩
  · rw [hnext]
    exact hn
  · rw [hnext]
    exact following_spent hn hm

theorem segmentOf_eq_some {i : Nat} {covered : PageRange} (h : segmentOf i token (call, result) = some covered) :
    ∃ c, call = .registry i c := by
  cases call with
  | registry j c =>
      refine ⟨c, ?_⟩
      rcases eq_or_ne j i with rfl | hne
      · rfl
      · cases c <;> cases result <;> simp [segmentOf, hne] at h
  | newRegistry => cases h
  | newBudget => cases h
  | budget => cases h

/-- The trace says what every live record of the system has validated. -/
structure RecordsTracked (trace : PinTrace) (s : PinSystem) : Prop where
  tracked : ∀ (i : Nat) (r : PinRegistry) (record : PinRecord), s.registries[i]? = some r → some record ∈ r.records →
    Tracked trace i r.pageSize record
  fresh : ∀ i token, segments i token trace ≠ [] → ∃ r, s.registries[i]? = some r ∧ Spent r.nextToken token.sequence

theorem recordsTracked_step (ht : RecordsTracked trace s) (hs : s.Sound) (h : s.Effect call result t) :
    RecordsTracked (trace ++ [(call, result)]) t := by
  have hother : ∀ {n m : Nat} {rs : List PinRegistry} {bs : List PinBudget}, (∀ i c, call ≠ .registry i c) →
      (∀ (i : Nat) (r : PinRegistry), s.registries[i]? = some r → rs[i]? = some r) →
      (∀ (i : Nat) (r : PinRegistry), rs[i]? = some r → s.registries[i]? = some r ∨ ∀ record, some record ∉ r.records) →
      RecordsTracked (trace ++ [(call, result)]) ⟨n, m, rs, bs⟩ := by
    intro n m rs bs hcall hold hnew
    have hnone : ∀ i token, segmentOf i token (call, result) = none := by
      intro i token
      by_contra hsome
      obtain ⟨covered, hcovered⟩ := Option.ne_none_iff_exists'.mp hsome
      obtain ⟨c, hc⟩ := segmentOf_eq_some hcovered
      exact hcall i c hc
    constructor
    · intro i r record hi hrecord
      rcases hnew i r hi with hi | hvacant
      · exact (ht.tracked i r record hi hrecord).concat (hnone i record.token)
      · exact absurd hrecord (hvacant record)
    · intro i token hsegments
      rw [segments_concat_none (hnone i token)] at hsegments
      obtain ⟨r, hr, hspent⟩ := ht.fresh i token hsegments
      exact ⟨r, hold i r hr, hspent⟩
  cases h with
  | registryRefused | budgetMade | budgetRefused | budgetCalled =>
      exact hother (by simp) (fun _ _ h => h) (fun _ _ h => .inl h)
  | registryMade =>
      apply hother (by simp)
      · intro i r hi
        rw [List.getElem?_append_left (List.getElem?_eq_some_iff.mp hi).1]
        exact hi
      · intro i r hi
        rw [List.getElem?_append] at hi
        split at hi
        · exact .inl hi
        · right
          cases List.mem_singleton.mp (List.mem_of_getElem? hi)
          simp
  | @registryCalled i c _ r u hi heffect =>
      have hsound := hs.registry r (List.mem_of_getElem? hi)
      have hspent : ∀ token, segments i token trace ≠ [] → Spent r.nextToken token.sequence := by
        intro token hsegments
        obtain ⟨a, ha, hspent⟩ := ht.fresh i token hsegments
        rw [hi] at ha
        cases ha
        exact hspent
      have hself : (s.registries.set i u)[i]? = some u := List.getElem?_set_self (List.getElem?_eq_some_iff.mp hi).1
      have hne : ∀ j, i ≠ j → ∀ token, segmentOf j token (.registry i c, result) = none := by
        intro j hij token
        by_contra hsome
        obtain ⟨covered, hcovered⟩ := Option.ne_none_iff_exists'.mp hsome
        obtain ⟨_, hc⟩ := segmentOf_eq_some hcovered
        cases hc
        exact hij rfl
      constructor
      · intro j a record hj hrecord
        by_cases hij : i = j
        · subst hij
          rw [hself] at hj
          cases hj
          rw [heffect.identity.2]
          exact heffect.tracked hsound (fun record => ht.tracked i r record hi) hspent record hrecord
        · rw [List.getElem?_set_ne hij] at hj
          exact (ht.tracked j a record hj hrecord).concat (hne j hij record.token)
      · intro j token hsegments
        by_cases hij : i = j
        · subst hij
          refine ⟨u, hself, heffect.spent ?_⟩
          cases hsegment : segmentOf i token (.registry i c, result) with
          | none =>
              rw [segments_concat_none hsegment] at hsegments
              exact hspent token hsegments
          | some covered => exact heffect.segment_spent hsound hsegment
        · rw [segments_concat_none (hne j hij token)] at hsegments
          obtain ⟨a, ha, hspent⟩ := ht.fresh j token hsegments
          refine ⟨a, ?_, hspent⟩
          rw [List.getElem?_set_ne hij]
          exact ha

theorem PinRun.recordsTracked (h : PinRun trace s) : RecordsTracked trace s :=
  h.invariant ⟨by simp [PinSystem.start], by simp [segments]⟩ fun _ _ _ _ _ _ ht hs => recordsTracked_step ht hs

end Segments

end TheKernel.Mm
