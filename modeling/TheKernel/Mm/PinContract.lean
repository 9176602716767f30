import TheKernel.Mm.PinHistory

namespace TheKernel.Mm

def PinRegistryState.rank : PinRegistryState → Nat
  | .opened => 0
  | .closing => 1
  | .tearingDown => 2
  | .closed => 3

section Lifecycle

variable {trace : PinTrace} {s t : PinSystem} {call : PinCall} {result : PinResult}

theorem PinRegistry.Effect.forward {r u : PinRegistry} {call : RegistryCall} {result : PinResult}
    (h : r.Effect call result u) : r.state.rank ≤ u.state.rank := by
  cases h with
  | refused | quotaSet | ownerAdded | ownerRemoved | reserved | validated | committed => exact Nat.le_refl _
  | rolledBack _ _ _ hrefund | cancelled hrefund | released hrefund =>
      cases hrefund
      exact Nat.le_refl _
  | closing hstate => rcases hstate with hstate | hstate <;> simp [hstate, PinRegistryState.rank]
  | tornDown hstate hdrain =>
      rw [hdrain.frame.2.2.2.1]
      cases hr : r.state with
      | closed => exact absurd hr hstate
      | _ => simp [PinRegistryState.rank]
  | finished => cases r.state <;> simp [PinRegistryState.rank]

/-- Every registry is still there after a call, and has not moved back. -/
theorem PinSystem.Effect.forward (h : s.Effect call result t) {i : Nat} {r : PinRegistry}
    (hi : s.registries[i]? = some r) : ∃ u, t.registries[i]? = some u ∧ r.state.rank ≤ u.state.rank := by
  cases h with
  | registryMade =>
      refine ⟨r, ?_, Nat.le_refl _⟩
      rw [List.getElem?_append_left (List.getElem?_eq_some_iff.mp hi).1]
      exact hi
  | registryRefused | budgetMade | budgetRefused | budgetCalled => exact ⟨r, hi, Nat.le_refl _⟩
  | @registryCalled j _ _ a u ha heffect =>
      by_cases hij : j = i
      · subst hij
        rw [ha] at hi
        cases hi
        exact ⟨u, List.getElem?_set_self (List.getElem?_eq_some_iff.mp ha).1, heffect.forward⟩
      · refine ⟨r, ?_, Nat.le_refl _⟩
        rw [List.getElem?_set_ne hij]
        exact hi

theorem PinRegistry.Effect.torn {r u : PinRegistry} {result : PinResult} (h : r.Effect .beginTeardown result u) :
    2 ≤ u.state.rank := by
  cases h with
  | refused hteardown =>
      rw [hteardown rfl]
      exact Nat.le_succ 2
  | tornDown _ hdrain =>
      rw [hdrain.frame.2.2.2.1]
      exact Nat.le_refl 2

def TeardownsHold (trace : PinTrace) (s : PinSystem) : Prop :=
  ∀ i result, (.registry i .beginTeardown, result) ∈ trace →
    ∃ r, s.registries[i]? = some r ∧ 2 ≤ r.state.rank

theorem teardownsHold_step (ht : TeardownsHold trace s) (h : s.Effect call result t) :
    TeardownsHold (trace ++ [(call, result)]) t := by
  intro i answer hmem
  rcases List.mem_append.mp hmem with hmem | hmem
  · obtain ⟨r, hr, hrank⟩ := ht i answer hmem
    obtain ⟨u, hu, hforward⟩ := h.forward hr
    exact ⟨u, hu, Nat.le_trans hrank hforward⟩
  · cases List.mem_singleton.mp hmem
    cases h with
    | registryCalled hi heffect =>
        exact ⟨_, List.getElem?_set_self (List.getElem?_eq_some_iff.mp hi).1, heffect.torn⟩

theorem PinRun.teardownsHold (h : PinRun trace s) : TeardownsHold trace s :=
  h.invariant (by simp [TeardownsHold]) fun _ _ _ _ _ _ ht _ => teardownsHold_step ht

end Lifecycle

/-- The two ledgers of a registry are what its live records add up to, within
the quotas. -/
structure PinRegistry.Balanced (r : PinRegistry) : Prop where
  global : r.globalUsage = slotTotal PinRecord.charge r.records
  globalAdmits : r.globalQuota.admits r.globalUsage = true
  owner : ∀ account, some account ∈ r.owners → account.usage = slotTotal (PinRecord.chargeTo account.owner) r.records
  ownerAdmits : ∀ account, some account ∈ r.owners → account.quota.admits account.usage = true
  configured : ∀ record, some record ∈ r.records → ∃ account, some account ∈ r.owners ∧
    account.owner = record.request.owner

inductive RolledBack (s : PinSystem) : PinCall → MmError → PinSystem → Prop
  | intro {i index : Nat} {reservation : PinReservation} {expected : ExpectedMapping} {current : MappingSnapshot}
      {covered : PageRange} {r u : PinRegistry} {record : PinRecord} {e : MmError} (hi : s.registries[i]? = some r)
      (htoken : record.token = reservation.token) (hreserved : record.state = .reserved)
      (hvalid : r.validation record expected current covered = .err e) (hrefund : r.Refunds index record u) :
      RolledBack s (.registry i (.revalidateNext reservation expected current covered)) e
        { s with registries := s.registries.set i u }

structure PinContract (trace : PinTrace) (s : PinSystem) : Prop where
  registry : ∀ r ∈ s.registries, r.Balanced
  budget : ∀ b ∈ s.budgets, b.usage = slotTotal PinBudgetRecord.accounting b.records ∧ b.quota.admits b.usage = true
  tokens : (issued trace).Nodup
  charges : (charged trace).Nodup
  covered : ∀ i reservation reply t, s.step (.registry i (.commit reservation)) = some (.ok reply, t) →
    ∃ r request addressSpace range, s.registries[i]? = some r ∧
      (.registry i (.reserve request addressSpace), .ok (.reserved reservation)) ∈ trace ∧
      PageRange.covering request.range r.pageSize = .ok range ∧ segments i reservation.token trace ≠ [] ∧
      Covers range.start (segments i reservation.token trace) range.stop
  failed : ∀ call e t, s.step call = some (.err e, t) →
    t.registries = s.registries ∧ t.budgets = s.budgets ∨ RolledBack s call e t
  returns : ∀ call t, s.step call ≠ some (.panic, t)
  forward : ∀ call result t (i : Nat) (r : PinRegistry), s.step call = some (result, t) → s.registries[i]? = some r →
    ∃ u, t.registries[i]? = some u ∧ r.state.rank ≤ u.state.rank
  torn : ∀ i result, (.registry i .beginTeardown, result) ∈ trace →
    ∀ request addressSpace reply t, s.step (.registry i (.reserve request addressSpace)) ≠ some (.ok reply, t)
  finished : ∀ i reply t, s.step (.registry i .finishTeardown) = some (.ok reply, t) →
    ∃ r, s.registries[i]? = some r ∧ ∀ record, some record ∉ r.records

section Contract

variable {trace : PinTrace} {s t : PinSystem}

theorem PinRun.covered (h : PinRun trace s) {i : Nat} {reservation : PinReservation} {reply : PinReply}
    (hstep : s.step (.registry i (.commit reservation)) = some (.ok reply, t)) :
    ∃ r request addressSpace range, s.registries[i]? = some r ∧
      (.registry i (.reserve request addressSpace), .ok (.reserved reservation)) ∈ trace ∧
      PageRange.covering request.range r.pageSize = .ok range ∧ segments i reservation.token trace ≠ [] ∧
      Covers range.start (segments i reservation.token trace) range.stop := by
  have heffect := PinSystem.step_effect h.sound hstep
  cases heffect with
  | @registryCalled _ _ _ r u hi heffect =>
      cases heffect with
      | @committed _ j record hlive htoken _ huntil hmappings =>
          have htracked := h.recordsTracked.tracked i r record hi (List.mem_of_getElem? hlive)
          obtain ⟨hreserved, hrange, hcovers, hcount⟩ := htracked
          rw [htoken] at hreserved hcovers hcount
          rw [huntil] at hcovers
          refine ⟨r, record.request, record.snapshot.addressSpace, record.range, hi, hreserved, hrange, ?_, hcovers⟩
          intro hnil
          rw [hnil] at hcount
          exact hmappings hcount.symm

theorem PinRun.failed (h : PinRun trace s) {call : PinCall} {e : MmError} (hstep : s.step call = some (.err e, t)) :
    t.registries = s.registries ∧ t.budgets = s.budgets ∨ RolledBack s call e t := by
  have heffect := PinSystem.step_effect h.sound hstep
  cases heffect with
  | registryRefused | budgetRefused => exact .inl ⟨rfl, rfl⟩
  | registryCalled hi heffect =>
      cases heffect with
      | refused => exact .inl ⟨set_of_getElem? hi, rfl⟩
      | rolledBack htoken hreserved hvalid hrefund => exact .inr (.intro hi htoken hreserved hvalid hrefund)
  | budgetCalled hi heffect =>
      cases heffect with
      | refused => exact .inl ⟨rfl, set_of_getElem? hi⟩

theorem PinRun.torn (h : PinRun trace s) {i : Nat} {result : PinResult}
    (hmem : (.registry i .beginTeardown, result) ∈ trace) (request : PinRequest) (addressSpace : AddressSpaceId)
    (reply : PinReply) (t : PinSystem) : s.step (.registry i (.reserve request addressSpace)) ≠ some
    (.ok reply, t) := by
  intro hstep
  obtain ⟨r, hr, hrank⟩ := h.teardownsHold i result hmem
  have heffect := PinSystem.step_effect h.sound hstep
  cases heffect with
  | registryCalled hi heffect =>
      rw [hr] at hi
      cases hi
      cases heffect with
      | reserved hopen =>
          rw [hopen] at hrank
          simp [PinRegistryState.rank] at hrank

end Contract

/-- Every run of calls on registries and budgets meets the contract. -/
theorem pin_contract {trace : PinTrace} {s : PinSystem} (h : PinRun trace s) : PinContract trace s := by
  have hs := h.sound
  constructor
  case registry =>
    intro r hr
    have hsound := hs.registry r hr
    exact ⟨hsound.global, hsound.globalAdmits, hsound.owner, hsound.ownerAdmits, hsound.configured⟩
  case budget => exact fun b hb => ⟨(hs.budget b hb).usage, (hs.budget b hb).admits⟩
  case tokens => exact List.Nodup.of_map _ h.tokensIssued.issued.nodup
  case charges => exact List.Nodup.of_map _ h.chargesIssued.issued.nodup
  case covered => exact fun i reservation reply t hstep => h.covered hstep
  case failed => exact fun call e t hstep => h.failed hstep
  case returns =>
    intro call t hstep
    have heffect := PinSystem.step_effect hs hstep
    cases heffect with
    | registryCalled _ heffect => cases heffect
    | budgetCalled _ heffect => cases heffect
  case forward => exact fun call result t i r hstep hi => (PinSystem.step_effect hs hstep).forward hi
  case torn => exact fun i result hmem => h.torn hmem
  case finished =>
    intro i reply t hstep
    have heffect := PinSystem.step_effect hs hstep
    cases heffect with
    | registryCalled hi heffect =>
        cases heffect with
        | finished hempty => exact ⟨_, hi, hempty⟩

def PinSystem.runCalls : List PinCall → PinTrace → PinSystem → Option (PinTrace × PinSystem)
  | [], trace, s => some (trace, s)
  | call :: calls, trace, s => (s.step call).bind fun next => runCalls calls (trace ++ [(call, next.1)]) next.2

theorem PinRun.of_runCalls {calls : List PinCall} {trace : PinTrace} {s : PinSystem} (h : PinRun trace s)
    {final : PinTrace × PinSystem} (hcalls : PinSystem.runCalls calls trace s = some final) :
    PinRun final.1 final.2 := by
  induction calls generalizing trace s with
  | nil =>
      cases hcalls
      exact h
  | cons call calls ih =>
      rw [PinSystem.runCalls, Option.bind_eq_some_iff] at hcalls
      obtain ⟨next, hnext, hcalls⟩ := hcalls
      exact ih (h.step hnext) hcalls

def onePageReserved : List PinCall :=
  [.newRegistry 1 1 4096 ⟨1, 4096, 1⟩ 7, .registry 0 (.configureOwner ⟨1, by decide⟩ ⟨1, 4096, 1⟩),
    .registry 0 (.reserve ⟨⟨4096, 8192, by decide, by decide⟩, .read, .synchronous, .userCopy, ⟨1, by decide⟩⟩
      ⟨1, by decide⟩)]

theorem onePage_power : 2 ^ Nat.log2 4096 = 4096 := by decide

theorem onePage_bounded : 4096 ≤ wordMax := by decide

def onePage : PageRange :=
  ⟨⟨4096, 8192, by decide, by decide⟩, ⟨4096, onePage_power, onePage_bounded⟩, by decide, by decide⟩

def onePageMapping : MappingSnapshot :=
  ⟨⟨1, by decide⟩, ⟨1, by decide⟩, ⟨1, by decide⟩, onePage, ⟨true, true, false⟩, .anonymousPrivate, true, true⟩

def staleRevalidation : PinCall :=
  .registry 0 (.revalidateNext ⟨⟨1, 7⟩⟩ ⟨⟨1, by decide⟩, ⟨1, by decide⟩, ⟨2, by decide⟩,
    onePage⟩ onePageMapping onePage)

def freshRevalidation : PinCall :=
  .registry 0 (.revalidateNext ⟨⟨1, 7⟩⟩ ⟨⟨1, by decide⟩, ⟨1, by decide⟩, ⟨1, by decide⟩,
    onePage⟩ onePageMapping onePage)

theorem pin_contract_committed : ∃ trace s t, PinRun trace s ∧ PinContract trace s ∧
    s.step (.registry 0 (.commit ⟨⟨1, 7⟩⟩)) = some (.ok (.committed ⟨1, 7⟩), t) := by
  have hruns : ((PinSystem.runCalls (onePageReserved ++ [freshRevalidation]) [] .start).bind fun final =>
      (final.2.step (.registry 0 (.commit ⟨⟨1, 7⟩⟩))).map Prod.fst) = some (.ok (.committed ⟨1, 7⟩)) := by
    decide +kernel
  obtain ⟨final, hfinal, hcommit⟩ := Option.bind_eq_some_iff.mp hruns
  obtain ⟨⟨_, t⟩, hstep, rfl⟩ := Option.map_eq_some_iff.mp hcommit
  have hrun := PinRun.start.of_runCalls hfinal
  exact ⟨final.1, final.2, t, hrun, pin_contract hrun, hstep⟩

/-- A stale revalidation fails and the charges of its reservation are gone. -/
theorem stale_revalidation_refunds : ¬ ∀ trace s, PinRun trace s → ∀ call e t, s.step call = some (.err e, t) →
    t.registries.map PinRegistry.globalUsage = s.registries.map PinRegistry.globalUsage := by
  intro hall
  have hruns : ((PinSystem.runCalls onePageReserved [] .start).bind fun final =>
      (final.2.step staleRevalidation).map fun next =>
        (next.1, final.2.registries.map PinRegistry.globalUsage, next.2.registries.map PinRegistry.globalUsage)) =
      some (.err .staleGeneration, [⟨1, 4096, 1⟩], [⟨0, 0, 0⟩]) := by
    decide +kernel
  obtain ⟨final, hfinal, hstale⟩ := Option.bind_eq_some_iff.mp hruns
  obtain ⟨⟨result, t⟩, hstep, heq⟩ := Option.map_eq_some_iff.mp hstale
  simp only [Prod.mk.injEq] at heq
  obtain ⟨rfl, hbefore, hafter⟩ := heq
  have hsame := hall _ _ (PinRun.start.of_runCalls hfinal) _ _ _ hstep
  rw [hbefore, hafter] at hsame
  simp at hsame

inductive InvalidationReason where
  | protect
  | unmap
  | remap
  | cowBreak
  | fork
  | truncate
  | discard
  | holePunch
  | fileInvalidation
  | exec
  | teardown

def MappingSnapshot.expected (snapshot : MappingSnapshot) : ExpectedMapping :=
  ⟨snapshot.addressSpace, snapshot.mapping, snapshot.generation, snapshot.range⟩

structure InvalidationRange where
  expected : ExpectedMapping
  range : PageRange
  reason : InvalidationReason
  within : expected.range.contains range = true

def InvalidationRange.new (snapshot : MappingSnapshot) (range : PageRange) (reason : InvalidationReason) :
    Outcome MmError InvalidationRange :=
  if h : snapshot.range.contains range = true then .ok ⟨snapshot.expected, range, reason, h⟩ else .err .rangeNotMapped

namespace PinRegistry

def fencesMutation (record : PinRecord) : Bool := record.state = .reserved || record.request.duration ≠ .longTerm

def blocks (invalidation : InvalidationRange) (record : PinRecord) : Bool :=
  fencesMutation record && record.snapshot.addressSpace = invalidation.expected.addressSpace &&
    record.range.overlaps invalidation.range

def firstMutationBlocker (r : PinRegistry) (invalidation : InvalidationRange) : Option PinRecord :=
  r.records.findSome? fun slot => slot.bind fun record => if blocks invalidation record then some record else none

def admitMutation (r : PinRegistry) (invalidation : InvalidationRange) : Outcome MmError Unit :=
  if (r.firstMutationBlocker invalidation).isSome then .err .mappingPinned else .ok ()

theorem admitMutation_eq_ok {r : PinRegistry} {invalidation : InvalidationRange} :
    r.admitMutation invalidation = .ok () ↔ ∀ record, some record ∈ r.records → blocks invalidation record = false := by
  have hnone : r.firstMutationBlocker invalidation = none ↔
      ∀ record, some record ∈ r.records → blocks invalidation record = false := by
    rw [firstMutationBlocker, List.findSome?_eq_none_iff]
    constructor
    · intro h record hmem
      have := h (some record) hmem
      simpa using this
    · rintro h (_ | record) hmem
      · rfl
      · simpa using h record hmem
  rw [← hnone, admitMutation]
  cases r.firstMutationBlocker invalidation <;> simp

end PinRegistry

/-- A reservation or a short-lived pin contains an address that is invalidated. -/
def Pinned (r : PinRegistry) (invalidation : InvalidationRange) : Prop :=
  ∃ record, some record ∈ r.records ∧ (record.state = .reserved ∨ record.request.duration ≠ .longTerm) ∧
    record.snapshot.addressSpace = invalidation.expected.addressSpace ∧
    ∃ address, record.range.range.Has address ∧ invalidation.range.range.Has address

theorem PageRange.covering_pageSize {range : UserRange} {pageSize : PageSize} {pages : PageRange}
    (h : covering range pageSize = .ok pages) : pages.pageSize = pageSize := by
  rw [covering] at h
  obtain ⟨stop, -, h⟩ := Outcome.bind_eq_ok.mp h
  exact (withPageSize_eq_ok h).2.2

theorem PinRun.record_pageSize {trace : PinTrace} {s : PinSystem} (h : PinRun trace s) {r : PinRegistry}
    (hr : r ∈ s.registries) {record : PinRecord} (hrecord : some record ∈ r.records) :
    record.range.pageSize = r.pageSize := by
  obtain ⟨i, hi⟩ := List.mem_iff_getElem?.mp hr
  exact PageRange.covering_pageSize (h.recordsTracked.tracked i r record hi hrecord).range

theorem PageSize.eq_of_bytes {a b : PageSize} (h : a.bytes = b.bytes) : a = b := by
  cases a
  cases b
  cases h
  rfl

/-- A mutation is admitted exactly when no pin is in its way, unless it is
stated in pages of another size than those of a pin in its way. -/
theorem admitMutation_exact {trace : PinTrace} {s : PinSystem} (h : PinRun trace s) {r : PinRegistry}
    (hr : r ∈ s.registries) (invalidation : InvalidationRange) :
    (r.admitMutation invalidation = .ok () ↔ ¬Pinned r invalidation) ↔
      invalidation.range.pageSize = r.pageSize ∨ ¬Pinned r invalidation := by
  have hblocks : ∀ record, some record ∈ r.records → (PinRegistry.blocks invalidation record = true ↔
      (record.state = .reserved ∨ record.request.duration ≠ .longTerm) ∧
        record.snapshot.addressSpace = invalidation.expected.addressSpace ∧ r.pageSize = invalidation.range.pageSize ∧
        ∃ address, record.range.range.Has address ∧ invalidation.range.range.Has address) := by
    intro record hrecord
    have hsize : record.range.pageSize.bytes = invalidation.range.pageSize.bytes ↔
        r.pageSize = invalidation.range.pageSize := by
      rw [h.record_pageSize hr hrecord]
      exact ⟨PageSize.eq_of_bytes, congrArg _⟩
    rw [PinRegistry.blocks, PinRegistry.fencesMutation, PageRange.overlaps, Bool.and_eq_true, Bool.and_eq_true,
      Bool.and_eq_true, UserRange.overlaps_iff, Bool.or_eq_true, decide_eq_true_eq, decide_eq_true_eq,
        decide_eq_true_eq,
      decide_eq_true_eq, hsize, and_assoc]
  have hadmitted : r.admitMutation invalidation = .ok () ↔ ¬(Pinned r invalidation ∧ r.pageSize =
      invalidation.range.pageSize) := by
    rw [PinRegistry.admitMutation_eq_ok]
    constructor
    · rintro hall ⟨⟨record, hmem, hfence, hspace, haddress⟩, hsize⟩
      have hfalse := hall record hmem
      rw [(hblocks record hmem).mpr ⟨hfence, hspace, hsize, haddress⟩] at hfalse
      cases hfalse
    · intro hnot record hmem
      by_contra hne
      obtain ⟨hfence, hspace, hsize, haddress⟩ := (hblocks record hmem).mp (Bool.eq_true_of_not_eq_false hne)
      exact hnot ⟨⟨record, hmem, hfence, hspace, haddress⟩, hsize⟩
  rw [hadmitted]
  constructor
  · intro hiff
    by_contra hcon
    rw [not_or, not_not] at hcon
    exact hiff.mp (fun hboth => hcon.1 hboth.2.symm) hcon.2
  · rintro (hsize | hfree)
    · rw [hsize]
      simp
    · simp [hfree]

def hugeInvalidation : InvalidationRange :=
  ⟨⟨⟨1, by decide⟩, ⟨1, by decide⟩, ⟨1, by decide⟩,
      ⟨⟨0, 2097152, by decide, by decide⟩, ⟨2097152, by decide, by decide⟩, by decide, by decide⟩⟩,
    ⟨⟨0, 2097152, by decide, by decide⟩, ⟨2097152, by decide, by decide⟩, by decide, by decide⟩, .unmap, by decide⟩

/-- A reserved page is in the way of the huge page, and is missed. -/
theorem admitMutation_misses_huge : ¬∀ trace s, PinRun trace s → ∀ r ∈ s.registries, ∀ invalidation,
    r.admitMutation invalidation = .ok () ↔ ¬Pinned r invalidation := by
  intro hall
  have hruns : ((PinSystem.runCalls onePageReserved [] .start).bind fun final => final.2.registries.head?.map fun r =>
      (r.admitMutation hugeInvalidation, r.records.map fun slot => slot.map fun record =>
        (record.state, record.snapshot.addressSpace, record.range))) =
      some (.ok (), [some (.reserved, ⟨1, by decide⟩, onePage)]) := by
    decide +kernel
  obtain ⟨final, hfinal, hruns⟩ := Option.bind_eq_some_iff.mp hruns
  obtain ⟨r, hr, hruns⟩ := Option.map_eq_some_iff.mp hruns
  rw [Prod.mk.injEq] at hruns
  have hrun := PinRun.start.of_runCalls hfinal
  refine (hall _ _ hrun r (List.mem_of_mem_head? hr) hugeInvalidation).mp hruns.1 ?_
  have hmem : some (RecordState.reserved, (⟨1, by decide⟩ : AddressSpaceId), onePage) ∈
      r.records.map fun slot => slot.map fun record => (record.state, record.snapshot.addressSpace, record.range) := by
    rw [hruns.2]
    exact List.mem_singleton.mpr rfl
  obtain ⟨slot, hslot, hmap⟩ := List.mem_map.mp hmem
  obtain ⟨record, rfl, hrecord⟩ := Option.map_eq_some_iff.mp hmap
  simp only [Prod.mk.injEq] at hrecord
  obtain ⟨hstate, hspace, hrange⟩ := hrecord
  refine ⟨record, hslot, .inl hstate, hspace, 4096, ?_, ?_⟩
  · rw [hrange]
    exact ⟨by decide, by decide⟩
  · exact ⟨by decide, by decide⟩

theorem admitMutation_exact_onePage : ∃ trace s r, PinRun trace s ∧ r ∈ s.registries ∧
    ∃ invalidation, invalidation.range.pageSize = r.pageSize ∧
      (r.admitMutation invalidation = .ok () ↔ ¬Pinned r invalidation) := by
  have hruns : ((PinSystem.runCalls onePageReserved [] .start).bind fun final => final.2.registries.head?.map fun r =>
      r.pageSize) = some ⟨4096, by decide, by decide⟩ := by
    decide +kernel
  obtain ⟨final, hfinal, hruns⟩ := Option.bind_eq_some_iff.mp hruns
  obtain ⟨r, hr, hsize⟩ := Option.map_eq_some_iff.mp hruns
  have hrun := PinRun.start.of_runCalls hfinal
  have hmem := List.mem_of_mem_head? hr
  refine ⟨final.1, final.2, r, hrun, hmem, ⟨onePageMapping.expected, onePage, .unmap, by decide⟩, hsize.symm, ?_⟩
  exact (admitMutation_exact hrun hmem _).mpr (.inl hsize.symm)

end TheKernel.Mm
