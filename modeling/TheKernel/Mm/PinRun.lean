import TheKernel.Mm.PinEffect

namespace TheKernel.Mm

open Act

namespace PinRegistry

theorem ensureOpen_eq_ok {r : PinRegistry} (h : r.ensureOpen = .ok ()) : r.state = .opened := by
  rw [ensureOpen] at h
  split at h
  · assumption
  · cases h
  · cases h
  · cases h

theorem ensureOpen_ne_panic (r : PinRegistry) : r.ensureOpen ≠ .panic := by
  rw [ensureOpen]
  split <;> simp

theorem configureOwner_effect (r : PinRegistry) (owner : PinOwner) (quota : PinQuota) :
    Ensures (configureOwner owner quota) r (fun _ t => Effect r (.configureOwner owner quota) (.ok .done) t)
      (fun _ t => t = r) False := by
  apply ensures_get_bind
  refine ensures_lift_bind (fun _ _ => ?_) (fun _ _ => rfl) r.ensureOpen_ne_panic
  cases hindex : r.ownerIndex owner with
  | some found =>
      obtain ⟨hk, _⟩ := ownerIndex_spec hindex
      dsimp only
      split
      · exact ensures_fail rfl
      case isFalse hquota => exact ensures_modify (.quotaSet hk (by simpa using hquota))
  | none =>
      refine ensures_okOr_bind (fun k hk => ?_) (fun _ => rfl)
      apply ensures_modify
      apply Effect.ownerAdded (getElem?_freeSlot hk)
      intro account haccount
      simpa using findSlot_eq_none hindex haccount

theorem removeOwner_effect (r : PinRegistry) (owner : PinOwner) :
    Ensures (removeOwner owner) r (fun _ t => Effect r (.removeOwner owner) (.ok .done) t)
      (fun _ t => t = r) False := by
  apply ensures_get_bind
  refine ensures_lift_bind (fun _ _ => ?_) (fun _ _ => rfl) r.ensureOpen_ne_panic
  refine ensures_okOr_bind (fun found hindex => ?_) (fun _ => rfl)
  obtain ⟨hk, _⟩ := ownerIndex_spec hindex
  dsimp only
  split
  · exact ensures_fail rfl
  case isFalse hzero => exact ensures_modify (.ownerRemoved hk (not_not.mp hzero))

theorem validateOverlap_ne_panic (r : PinRegistry) (request : PinRequest) (range : PageRange)
    (addressSpace : AddressSpaceId) : r.validateOverlap request range addressSpace ≠ .panic := by
  rw [validateOverlap]
  split <;> simp

theorem reserve_effect (r : PinRegistry) (request : PinRequest) (addressSpace : AddressSpaceId) :
    Ensures (reserve request addressSpace) r
      (fun reservation t => Effect r (.reserve request addressSpace) (.ok (.reserved reservation)) t)
      (fun _ t => t = r) False := by
  apply ensures_get_bind
  refine ensures_lift_bind (fun _ hopen => ?_) (fun _ _ => rfl) r.ensureOpen_ne_panic
  refine ensures_lift_bind (fun range hrange => ?_) (fun _ _ => rfl) (PageRange.covering_ne_panic _ _)
  refine ensures_lift_bind (fun _ _ => ?_) (fun _ _ => rfl) (validateOverlap_ne_panic _ _ _ _)
  refine ensures_okOr_bind (fun found hindex => ?_) (fun _ => rfl)
  obtain ⟨hk, howner⟩ := ownerIndex_spec hindex
  refine ensures_okOr_bind (fun i hi => ?_) (fun _ => rfl)
  refine ensures_lift_bind (fun charge hcharge => ?_) (fun _ _ => rfl) (PinAccounting.forRange_ne_panic _)
  refine ensures_lift_bind (fun ownerUsage hou => ?_) (fun _ _ => rfl) (PinAccounting.checkedAdd_ne_panic _ _)
  refine ensures_lift_bind (fun globalUsage hgu => ?_) (fun _ _ => rfl) (PinAccounting.checkedAdd_ne_panic _ _)
  cases PinAccounting.checkedAdd_eq_ok hou
  cases PinAccounting.checkedAdd_eq_ok hgu
  split
  · exact ensures_fail rfl
  case isFalse hquota =>
    simp only [Bool.or_eq_true, Bool.not_eq_true', not_or, Bool.not_eq_false] at hquota
    cases hnext : r.nextToken with
    | none =>
        rw [allocateToken, Ensures, bind_apply, get_bind, hnext]
        rfl
    | some token =>
        apply ensures_bind_of_eq (a := ⟨r.identity, token⟩) (t := { r with nextToken := following token })
        · rw [allocateToken, get_bind, hnext]
          rfl
        · apply ensures_modify_bind
          exact ensures_pure (.reserved (ensureOpen_eq_ok hopen) hrange hk howner (getElem?_freeSlot hi) hcharge
            hquota.1 hquota.2 hnext)

theorem validateMapping_ne_panic (r : PinRegistry) (request : PinRequest) (range : PageRange)
    (snapshot : MappingSnapshot) : r.validateMapping request range snapshot ≠ .panic := by
  rw [validateMapping]
  iterate 7 apply Outcome.guard_ne_panic
  simp

theorem validation_ne_panic (r : PinRegistry) (record : PinRecord) (expected : ExpectedMapping)
    (current : MappingSnapshot) (covered : PageRange) : r.validation record expected current covered ≠ .panic := by
  rw [validation]
  apply Outcome.guard_ne_panic
  apply Outcome.guard_ne_panic
  cases hrange : expected.revalidateRange current covered with
  | ok _ => exact validateMapping_ne_panic _ _ _ _
  | err e => simp
  | panic => exact (ExpectedMapping.revalidateRange_ne_panic _ _ _ hrange).elim

/-- The count of segments stays below the bytes they cover, so it never
overflows. -/
theorem revalidateNext_effect {r : PinRegistry} (hs : Sound r) (reservation : PinReservation)
    (expected : ExpectedMapping) (current : MappingSnapshot) (covered : PageRange) :
    Ensures (revalidateNext reservation expected current covered) r
      (fun _ t => Effect r (.revalidateNext reservation expected current covered) (.ok .done) t)
      (fun e t => Effect r (.revalidateNext reservation expected current covered) (.err e) t) False := by
  apply ensures_get_bind
  refine ensures_okOr_bind (fun found hindex => ?_) (fun _ => .refused (by simp))
  obtain ⟨i, record⟩ := found
  obtain ⟨hlive, htoken⟩ := recordIndex_spec hindex
  dsimp only
  split
  · exact ensures_fail (.refused (by simp))
  case isFalse hreserved =>
    rw [not_not] at hreserved
    cases hvalid : r.validation record expected current covered with
    | panic => exact (validation_ne_panic _ _ _ _ _ hvalid).elim
    | err e =>
        obtain ⟨t, ht, hrefund⟩ := removeRecord_refunds hs hlive
        apply ensures_bind_of_eq ht
        exact ensures_fail (.rolledBack htoken hreserved hvalid hrefund)
    | ok _ =>
        apply ensures_modify_bind
        obtain ⟨hstart, _⟩ := validation_eq_ok hvalid
        have hsegments := hs.segments record (List.mem_of_getElem? hlive)
        have hbound : covered.stop ≤ wordMax := covered.range.bounded
        have hnonempty : covered.start < covered.stop := covered.range.nonempty
        rw [if_pos (by omega)]
        apply ensures_modify
        dsimp only
        rw [List.set_set]
        exact .validated hlive htoken hreserved hvalid

theorem commit_effect (r : PinRegistry) (reservation : PinReservation) :
    Ensures (commit reservation) r (fun token t => Effect r (.commit reservation) (.ok (.committed token)) t)
      (fun _ t => t = r) False := by
  apply ensures_get_bind
  refine ensures_okOr_bind (fun found hindex => ?_) (fun _ => rfl)
  obtain ⟨hlive, htoken⟩ := recordIndex_spec hindex
  dsimp only
  split
  · exact ensures_fail rfl
  split
  · exact ensures_fail rfl
  case isFalse hreserved hcovered =>
    simp only [not_or, not_not] at hreserved hcovered
    apply ensures_modify_bind
    exact ensures_pure (.committed hlive htoken hreserved hcovered.1 hcovered.2)

theorem discard_refunds {r : PinRegistry} (hs : Sound r) (state : RecordState) (token : PinToken) :
    Ensures (discard state token) r (fun _ t => ∃ i record, Refunds r i record t) (fun _ t => t = r) False := by
  apply ensures_get_bind
  refine ensures_okOr_bind (fun found hindex => ?_) (fun _ => rfl)
  obtain ⟨hlive, _⟩ := recordIndex_spec hindex
  dsimp only
  split
  · exact ensures_fail rfl
  · obtain ⟨t, ht, hrefund⟩ := removeRecord_refunds hs hlive
    exact ensures_of_eq ht ⟨_, _, hrefund⟩

theorem beginClose_effect (r : PinRegistry) :
    Ensures beginClose r (fun progress t => Effect r .beginClose (.ok (.progress progress)) t) (fun _ t => t = r)
      False := by
  apply ensures_get_bind
  cases hstate : r.state with
  | opened =>
      apply ensures_modify_bind
      exact ensures_get_bind (ensures_pure (.closing (.inl hstate)))
  | closing =>
      have hsame : { r with state := .closing } = r := by rw [← hstate]
      have heffect : Effect r .beginClose (.ok (.progress r.progress)) { r with state := .closing } :=
        .closing (.inr hstate)
      rw [hsame] at heffect
      exact heffect
  | tearingDown => exact ensures_fail rfl
  | closed => exact ensures_fail rfl

/-- Each step of the loop leaves the slots behind it without reservations. -/
theorem beginTeardown_effect {r : PinRegistry} (hs : Sound r) :
    Ensures beginTeardown r (fun report t => Effect r .beginTeardown (.ok (.report report)) t)
      (fun e t => Effect r .beginTeardown (.err e) t) False := by
  apply ensures_get_bind
  split
  case isTrue hclosed => exact ensures_fail (.refused fun _ => hclosed)
  case isFalse hclosed =>
    apply ensures_modify_bind
    have hloop : Ensures ((List.range r.records.length).foldlM cancelReserved 0) { r with state := .tearingDown }
        (fun cancelled t => Sound t ∧ Drains { r with state := .tearingDown } t ∧
          cancelled ≤ (List.range r.records.length).length)
        (fun e t => Effect r .beginTeardown (.err e) t) False := by
      apply ensures_foldlM (I := fun done cancelled t => Sound t ∧ Drains { r with state := .tearingDown } t ∧
        cancelled ≤ done.length)
      · exact ⟨hs.withState (by rintro ⟨⟩), .refl, Nat.le_refl _⟩
      rintro done i cancelled t ⟨rest, hdone⟩ ⟨ht, hdrain, hcancelled⟩
      apply ensures_get_bind
      split
      case isTrue hany =>
        obtain ⟨record, hrecord, hreserved⟩ := (Option.any_eq_true _ _).mp hany
        have hlive : t.records[i]? = some (some record) := Option.join_eq_some_iff.mp hrecord
        obtain ⟨u, hu, hrefund⟩ := removeRecord_refunds ht hlive
        apply ensures_bind_of_eq hu
        have hlength := congrArg List.length hdone
        simp only [List.length_range, List.length_append, List.length_cons] at hlength
        have hcapacity := hs.capacity
        rw [if_pos (by omega)]
        apply ensures_pure
        refine ⟨ht.refunds hrefund, hdrain.tail ⟨i, record, by simpa using hreserved, hrefund⟩, ?_⟩
        simp only [List.length_append, List.length_cons, List.length_nil]
        omega
      case isFalse =>
        apply ensures_pure
        refine ⟨ht, hdrain, ?_⟩
        simp only [List.length_append, List.length_cons, List.length_nil]
        omega
    refine hloop.bind fun cancelled t ht => ?_
    exact ensures_get_bind (ensures_pure (.tornDown hclosed ht.2.1))

theorem progress_total_eq_zero {r : PinRegistry} (h : r.progress.total = 0) (record : PinRecord) :
    some record ∉ r.records := by
  intro hrecord
  simp only [progress, LifecycleProgress.total, activeCount, reservedCount, Nat.add_eq_zero_iff, List.countP_eq_zero,
    Bool.not_eq_true] at h
  have hactive := h.1 _ hrecord
  have hreserved := h.2 _ hrecord
  cases hstate : record.state with
  | reserved => simp [hstate] at hreserved
  | active => simp [hstate] at hactive

theorem finishTeardown_effect {r : PinRegistry} (hs : Sound r) :
    Ensures finishTeardown r (fun _ t => Effect r .finishTeardown (.ok .done) t) (fun _ t => t = r) False := by
  apply ensures_get_bind
  cases hstate : r.state with
  | opened => exact ensures_fail rfl
  | closing =>
      dsimp only
      split
      · exact ensures_fail rfl
      case isFalse htotal => exact ensures_modify (.finished (progress_total_eq_zero (not_not.mp htotal)))
  | tearingDown =>
      dsimp only
      split
      · exact ensures_fail rfl
      case isFalse htotal => exact ensures_modify (.finished (progress_total_eq_zero (not_not.mp htotal)))
  | closed =>
      have hsame : { r with state := .closed } = r := by rw [← hstate]
      have heffect := Effect.finished (hs.closed hstate)
      rw [hsame] at heffect
      exact ensures_pure heffect

theorem effect_of_run {r : PinRegistry} (hs : Sound r) (call : RegistryCall) :
    Ensures call.run r (fun reply t => Effect r call (.ok reply) t) (fun e t => Effect r call (.err e) t) False := by
  have hrefused : call ≠ .beginTeardown → ∀ (e : MmError) (t : PinRegistry), t = r → Effect r call (.err e) t := by
    rintro hcall e t rfl
    exact .refused fun h => absurd h hcall
  cases call with
  | configureOwner owner quota =>
      exact ((configureOwner_effect r owner quota).mono (fun _ _ h => h) (hrefused (by simp)) id).bind
        fun _ _ h => ensures_pure h
  | removeOwner owner =>
      exact ((removeOwner_effect r owner).mono (fun _ _ h => h) (hrefused (by simp)) id).bind fun _ _ h =>
        ensures_pure h
  | reserve request addressSpace =>
      exact ((reserve_effect r request addressSpace).mono (fun _ _ h => h) (hrefused (by simp)) id).bind
        fun _ _ h => ensures_pure h
  | revalidateNext reservation expected current covered =>
      exact (revalidateNext_effect hs reservation expected current covered).bind fun _ _ h => ensures_pure h
  | commit reservation =>
      exact ((commit_effect r reservation).mono (fun _ _ h => h) (hrefused (by simp)) id).bind fun _ _ h =>
        ensures_pure h
  | cancelReservation reservation =>
      refine ((discard_refunds hs .reserved reservation.token).mono (fun _ _ h => h) (hrefused (by simp)) id).bind ?_
      rintro _ t ⟨i, record, hrefund⟩
      exact ensures_pure (.cancelled hrefund)
  | release token =>
      refine ((discard_refunds hs .active token).mono (fun _ _ h => h) (hrefused (by simp)) id).bind ?_
      rintro _ t ⟨i, record, hrefund⟩
      exact ensures_pure (.released hrefund)
  | beginClose =>
      exact ((beginClose_effect r).mono (fun _ _ h => h) (hrefused (by simp)) id).bind fun _ _ h => ensures_pure h
  | beginTeardown =>
      exact (beginTeardown_effect hs).bind fun _ _ h => ensures_pure h
  | finishTeardown =>
      exact ((finishTeardown_effect hs).mono (fun _ _ h => h) (hrefused (by simp)) id).bind fun _ _ h => ensures_pure h

end PinRegistry

/-- The registries and budgets made so far, and the two counters that name them. -/
structure PinSystem where
  nextRegistry : Nat
  nextBudget : Nat
  registries : List PinRegistry
  budgets : List PinBudget

inductive PinCall where
  | newRegistry (ownerCapacity tokenCapacity : BitVec 64) (pageSize : Nat) (globalQuota : PinQuota) (firstToken : Nat)
  | newBudget (chargeCapacity : BitVec 64) (pageSize : Nat) (quota : PinQuota) (firstCharge : Nat)
  | registry (index : Nat) (call : RegistryCall)
  | budget (index : Nat) (call : BudgetCall)

abbrev PinResult := Outcome MmError PinReply

abbrev PinTrace := List (PinCall × PinResult)

namespace PinSystem

def start : PinSystem := ⟨1, 1, [], []⟩

def step (s : PinSystem) : PinCall → Option (PinResult × PinSystem)
  | .newRegistry ownerCapacity tokenCapacity pageSize globalQuota firstToken =>
      match PinRegistry.new ownerCapacity.toNat tokenCapacity.toNat pageSize globalQuota firstToken s.nextRegistry with
      | (.ok r, next) => some (.ok .done, { s with nextRegistry := next, registries := s.registries ++ [r] })
      | (.err e, next) => some (.err e, { s with nextRegistry := next })
      | (.panic, next) => some (.panic, { s with nextRegistry := next })
  | .newBudget chargeCapacity pageSize quota firstCharge =>
      match PinBudget.new chargeCapacity.toNat pageSize quota firstCharge s.nextBudget with
      | (.ok b, next) => some (.ok .done, { s with nextBudget := next, budgets := s.budgets ++ [b] })
      | (.err e, next) => some (.err e, { s with nextBudget := next })
      | (.panic, next) => some (.panic, { s with nextBudget := next })
  | .registry i call => s.registries[i]?.map fun r =>
      ((call.run r).1, { s with registries := s.registries.set i (call.run r).2 })
  | .budget i call => s.budgets[i]?.map fun b =>
      ((call.run b).1, { s with budgets := s.budgets.set i (call.run b).2 })

end PinSystem

inductive PinRun : PinTrace → PinSystem → Prop
  | start : PinRun [] .start
  | step {trace : PinTrace} {s t : PinSystem} {call : PinCall} {result : PinResult} (h : PinRun trace s)
      (hstep : s.step call = some (result, t)) : PinRun (trace ++ [(call, result)]) t

def tokenOf : PinCall × PinResult → Option PinToken
  | (.registry _ _, .ok (.reserved reservation)) => some reservation.token
  | _ => none

def chargeOf : PinCall × PinResult → Option PinBudgetCharge
  | (.budget _ _, .ok (.charged charge)) => some charge
  | _ => none

def issued (trace : PinTrace) : List PinToken := trace.filterMap tokenOf

def charged (trace : PinTrace) : List PinBudgetCharge := trace.filterMap chargeOf

/-- The segment that an entry revalidates for a reservation of registry `i`. -/
def segmentOf (i : Nat) (token : PinToken) : PinCall × PinResult → Option PageRange
  | (.registry j (.revalidateNext reservation _ _ covered), .ok _) =>
      if j = i ∧ reservation.token = token then some covered else none
  | _ => none

def segments (i : Nat) (token : PinToken) (trace : PinTrace) : List PageRange := trace.filterMap (segmentOf i token)

/-- The segments follow one another from `start` to `stop`. -/
def Covers (start : Nat) : List PageRange → Nat → Prop
  | [], stop => start = stop
  | segment :: rest, stop => segment.start = start ∧ Covers segment.stop rest stop

theorem Covers.concat {start stop : Nat} {segs : List PageRange} {segment : PageRange} (h : Covers start segs stop)
    (hstart : segment.start = stop) : Covers start (segs ++ [segment]) segment.stop := by
  induction segs generalizing start with
  | nil => exact ⟨hstart.trans h.symm, rfl⟩
  | cons first rest ih => exact ⟨h.1, ih h.2⟩

inductive PinSystem.Effect (s : PinSystem) : PinCall → PinResult → PinSystem → Prop
  | registryMade {ownerCapacity tokenCapacity : BitVec 64} {size firstToken : Nat} {pageSize : PageSize}
      {quota : PinQuota} :
      Effect s (.newRegistry ownerCapacity tokenCapacity size quota firstToken) (.ok .done) { s with
        nextRegistry := s.nextRegistry + 1
        registries := s.registries ++ [⟨s.nextRegistry, pageSize, quota, ⟨0, 0, 0⟩,
          List.replicate ownerCapacity.toNat none, List.replicate tokenCapacity.toNat none, some firstToken, .opened⟩] }
  | registryRefused {ownerCapacity tokenCapacity : BitVec 64} {size firstToken next : Nat} {quota : PinQuota}
      {e : MmError} (hnext : s.nextRegistry ≤ next) :
      Effect s (.newRegistry ownerCapacity tokenCapacity size quota firstToken) (.err e) { s with nextRegistry := next }
  | budgetMade {chargeCapacity : BitVec 64} {size firstCharge : Nat} {pageSize : PageSize} {quota : PinQuota}
      (hnext : s.nextBudget ≠ 0) :
      Effect s (.newBudget chargeCapacity size quota firstCharge) (.ok .done) { s with
        nextBudget := if s.nextBudget = wordMax then 0 else s.nextBudget + 1
        budgets := s.budgets ++ [⟨s.nextBudget, pageSize, quota, ⟨0, 0, 0⟩, List.replicate chargeCapacity.toNat none,
          some firstCharge⟩] }
  | budgetRefused {chargeCapacity : BitVec 64} {size firstCharge : Nat} {quota : PinQuota} {e : MmError} :
      Effect s (.newBudget chargeCapacity size quota firstCharge) (.err e) s
  | registryCalled {i : Nat} {call : RegistryCall} {result : PinResult} {r t : PinRegistry}
      (hi : s.registries[i]? = some r) (heffect : r.Effect call result t) :
      Effect s (.registry i call) result { s with registries := s.registries.set i t }
  | budgetCalled {i : Nat} {call : BudgetCall} {result : PinResult} {b t : PinBudget} (hi : s.budgets[i]? = some b)
      (heffect : b.Effect call result t) :
      Effect s (.budget i call) result { s with budgets := s.budgets.set i t }

theorem PageSize.new_ne_panic (bytes : Nat) : PageSize.new bytes ≠ .panic := by
  rw [PageSize.new]
  apply Outcome.guard_ne_panic
  split <;> simp

theorem PinRegistry.new_spec (ownerCapacity tokenCapacity size firstToken n : Nat) (quota : PinQuota) :
    Ensures (PinRegistry.new ownerCapacity tokenCapacity size quota firstToken) n
      (fun r next => next = n + 1 ∧ ∃ pageSize, r = ⟨n, pageSize, quota, ⟨0, 0, 0⟩, List.replicate ownerCapacity none,
        List.replicate tokenCapacity none, some firstToken, .opened⟩) (fun _ next => n ≤ next) False := by
  refine ensures_lift_bind (fun pageSize _ => ?_) (fun _ _ => Nat.le_refl n) (PageSize.new_ne_panic size)
  split
  · exact ensures_fail (Nat.le_refl n)
  have hidentity : Ensures allocatePinRegistryIdentity n (fun identity next => identity = n ∧ next = n + 1)
      (fun _ next => n ≤ next) False := by
    apply ensures_get_bind
    split
    · apply ensures_set_bind
      split
      · exact ensures_fail (Nat.le_succ n)
      · exact ensures_pure ⟨rfl, rfl⟩
    · exact ensures_fail (Nat.le_refl n)
  refine hidentity.bind ?_
  rintro identity next ⟨rfl, rfl⟩
  exact ensures_pure ⟨rfl, pageSize, rfl⟩

theorem PinBudget.new_spec (chargeCapacity size firstCharge n : Nat) (quota : PinQuota) :
    Ensures (PinBudget.new chargeCapacity size quota firstCharge) n
      (fun b next => n ≠ 0 ∧ next = (if n = wordMax then 0 else n + 1) ∧ ∃ pageSize,
        b = ⟨n, pageSize, quota, ⟨0, 0, 0⟩, List.replicate chargeCapacity none, some firstCharge⟩)
      (fun _ next => next = n) False := by
  refine ensures_lift_bind (fun pageSize _ => ?_) (fun _ _ => rfl) (PageSize.new_ne_panic size)
  split
  · exact ensures_fail rfl
  have hidentity : Ensures allocatePinBudgetIdentity n
      (fun identity next => identity = n ∧ n ≠ 0 ∧ next = if n = wordMax then 0 else n + 1)
      (fun _ next => next = n) False := by
    apply ensures_get_bind
    split
    · exact ensures_fail rfl
    case isFalse hzero =>
      apply ensures_set_bind
      exact ensures_pure ⟨rfl, hzero, rfl⟩
  refine hidentity.bind ?_
  rintro identity next ⟨rfl, hzero, rfl⟩
  exact ensures_pure ⟨hzero, rfl, pageSize, rfl⟩

namespace PinSystem

structure Sound (s : PinSystem) : Prop where
  registry : ∀ r ∈ s.registries, r.Sound
  budget : ∀ b ∈ s.budgets, b.Sound

theorem step_effect {s t : PinSystem} {call : PinCall} {result : PinResult} (hs : Sound s)
    (h : s.step call = some (result, t)) : Effect s call result t := by
  cases call with
  | newRegistry ownerCapacity tokenCapacity size quota firstToken =>
      have hnew := PinRegistry.new_spec ownerCapacity.toNat tokenCapacity.toNat size firstToken s.nextRegistry quota
      rw [step] at h
      rcases hres : PinRegistry.new ownerCapacity.toNat tokenCapacity.toNat size quota firstToken s.nextRegistry with
        ⟨o, next⟩
      rw [hres] at h
      cases o with
      | ok r =>
          obtain ⟨rfl, pageSize, rfl⟩ := hnew.ok_of hres
          cases h
          exact .registryMade
      | err e =>
          have hnext := hnew.err_of hres
          cases h
          exact .registryRefused hnext
      | panic => exact (hnew.panic_of (by rw [hres])).elim
  | newBudget chargeCapacity size quota firstCharge =>
      have hnew := PinBudget.new_spec chargeCapacity.toNat size firstCharge s.nextBudget quota
      rw [step] at h
      rcases hres : PinBudget.new chargeCapacity.toNat size quota firstCharge s.nextBudget with ⟨o, next⟩
      rw [hres] at h
      cases o with
      | ok b =>
          obtain ⟨hzero, rfl, pageSize, rfl⟩ := hnew.ok_of hres
          cases h
          exact .budgetMade hzero
      | err e =>
          cases hnew.err_of hres
          cases h
          exact .budgetRefused
      | panic => exact (hnew.panic_of (by rw [hres])).elim
  | registry i call =>
      rw [step, Option.map_eq_some_iff] at h
      obtain ⟨r, hi, hr⟩ := h
      have heffect := PinRegistry.effect_of_run (hs.registry r (List.mem_of_getElem? hi)) call
      rcases hres : call.run r with ⟨o, u⟩
      rw [hres] at hr
      cases hr
      cases o with
      | ok reply => exact .registryCalled hi (heffect.ok_of hres)
      | err e => exact .registryCalled hi (heffect.err_of hres)
      | panic => exact (heffect.panic_of (by rw [hres])).elim
  | budget i call =>
      rw [step, Option.map_eq_some_iff] at h
      obtain ⟨b, hi, hb⟩ := h
      have heffect := PinBudget.effect_of_run (hs.budget b (List.mem_of_getElem? hi)) call
      rcases hres : call.run b with ⟨o, u⟩
      rw [hres] at hb
      cases hb
      cases o with
      | ok reply => exact .budgetCalled hi (heffect.ok_of hres)
      | err e => exact .budgetCalled hi (heffect.err_of hres)
      | panic => exact (heffect.panic_of (by rw [hres])).elim

theorem Sound.effect {s t : PinSystem} {call : PinCall} {result : PinResult} (hs : Sound s)
    (h : Effect s call result t) : Sound t := by
  cases h with
  | registryMade =>
      refine ⟨?_, hs.budget⟩
      intro r hr
      rcases List.mem_append.mp hr with hr | hr
      · exact hs.registry r hr
      · cases List.mem_singleton.mp hr
        exact PinRegistry.sound_new
  | registryRefused => exact ⟨hs.registry, hs.budget⟩
  | budgetMade =>
      refine ⟨hs.registry, ?_⟩
      intro b hb
      rcases List.mem_append.mp hb with hb | hb
      · exact hs.budget b hb
      · cases List.mem_singleton.mp hb
        exact ⟨(slotTotal_replicate _).symm, PinQuota.admits_zero _⟩
  | budgetRefused => exact hs
  | registryCalled hi heffect =>
      refine ⟨?_, hs.budget⟩
      intro r hr
      rcases List.mem_or_eq_of_mem_set hr with hr | rfl
      · exact hs.registry r hr
      · exact (hs.registry _ (List.mem_of_getElem? hi)).effect heffect
  | budgetCalled hi heffect =>
      refine ⟨hs.registry, ?_⟩
      intro b hb
      rcases List.mem_or_eq_of_mem_set hb with hb | rfl
      · exact hs.budget b hb
      · exact (hs.budget _ (List.mem_of_getElem? hi)).effect heffect

end PinSystem

theorem PinRun.sound {trace : PinTrace} {s : PinSystem} (h : PinRun trace s) : s.Sound := by
  induction h with
  | start => exact ⟨by simp [PinSystem.start], by simp [PinSystem.start]⟩
  | step _ hstep ih => exact ih.effect (PinSystem.step_effect ih hstep)

/-- An invariant of the trace and the system that every effect keeps holds
after every run. -/
theorem PinRun.invariant {I : PinTrace → PinSystem → Prop} (hstart : I [] .start)
    (hstep : ∀ trace s t call result, PinRun trace s → I trace s → s.Sound → s.Effect call result t →
      I (trace ++ [(call, result)]) t) {trace : PinTrace} {s : PinSystem} (h : PinRun trace s) : I trace s := by
  induction h with
  | start => exact hstart
  | step h hs ih => exact hstep _ _ _ _ _ h ih h.sound (PinSystem.step_effect h.sound hs)

end TheKernel.Mm
