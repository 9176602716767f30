import TheKernel.Mm.UffdRegister

namespace TheKernel.Mm

namespace UffdRegistrationTable

variable {table after : UffdRegistrationTable} {batch : UffdBatch} {plan : UffdRegistrationPlan}

theorem keyedSlots_of_nodup {records : List (Option UffdRegistration)} (h : (records.reduceOption.map (·.id)).Nodup) :
    KeyedSlots UffdRegistration.id records := by
  induction records with
  | nil =>
      intro i j x y hx
      cases hx
  | cons record records ih =>
      have hrest : KeyedSlots UffdRegistration.id records := by
        apply ih
        cases record with
        | none => exact h
        | some z => exact (List.nodup_cons.mp h).2
      have hhead : ∀ x, record = some x → ∀ (j : Nat) (y : UffdRegistration), records[j]? = some (some y) →
          x.id ≠ y.id := by
        rintro x rfl j y hy hid
        have hmem : y ∈ records.reduceOption := List.reduceOption_mem_iff.mpr (List.mem_of_getElem? hy)
        exact (List.nodup_cons.mp h).1 (List.mem_map.mpr ⟨y, hmem, hid.symm⟩)
      intro i j x y hx hy hid
      cases i with
      | zero =>
          cases j with
          | zero => rfl
          | succ j => exact absurd hid (hhead x (Option.some.inj hx) j y hy)
      | succ i =>
          cases j with
          | zero => exact absurd hid.symm (hhead y (Option.some.inj hy) i x hx)
          | succ j => rw [hrest i j x y hx hy hid]

theorem Sound.disjoint (h : table.Sound) {i j : Nat} {x y : UffdRegistration} (hx : table.records[i]? = some (some x))
    (hy : table.records[j]? = some (some y)) (hne : i ≠ j) (hspace : x.addressSpace = y.addressSpace) (address : Nat) :
    ¬ (x.range.range.Has address ∧ y.range.range.Has address) := by
  rintro ⟨hxaddress, hyaddress⟩
  have hxmem : x ∈ table.iter := mem_iter.mpr (List.mem_of_getElem? hx)
  have hymem : y ∈ table.iter := mem_iter.mpr (List.mem_of_getElem? hy)
  have heq := h.eq_of_overlap hxmem hymem hspace (rangesOverlap_iff.mpr ⟨address, hxaddress, hyaddress⟩)
  exact hne (keyedSlots_of_nodup h.unique i j x y hx hy (congrArg (·.id) heq))

structure Complete (call : UffdCall) (table after : UffdRegistrationTable) : Prop where
  removed : ∀ x ∈ table.iter, call.gone x = true → x ∉ after.iter
  kept : ∀ x ∈ table.iter, call.gone x = false → x ∈ after.iter
  registered : ∀ request ∈ call.requests, ∃ x ∈ after.iter, x.request = request
  new : ∀ x ∈ after.iter, x ∉ table.iter → x.request ∈ call.requests ∧ ¬ Used table.nextId x.id

theorem complete_of_effect {call : UffdCall} {new : List UffdRegistration} (h : call.Effect table new after)
    (hsound : table.Sound) : Complete call table after where
  removed := by
    intro x hx hgone hafter
    rcases h.changed.mem_iff.mp hafter with ⟨-, hkept⟩ | hnew
    · rw [hgone] at hkept
      cases hkept
    · exact h.changed.issued.not_used hnew (hsound.used x hx)
  kept := fun x hx hkept => h.changed.mem_iff.mpr (.inl ⟨hx, hkept⟩)
  registered := h.registered
  new := by
    intro x hx hout
    rcases h.changed.mem_iff.mp hx with ⟨hold, -⟩ | hnew
    · exact absurd hold hout
    · exact ⟨h.new_requests x hnew, h.changed.issued.not_used hnew⟩

/-- The table has changed in a way that matters to a plan: at all, or, when
its revision is used up, in a registration that the plan removes or reuses. -/
def Conflict (batch : UffdBatch) (table after : UffdRegistrationTable) : Prop :=
  table.revision ≠ wordMax ∧ after ≠ table ∨
    ∃ x ∈ table.iter, (x.id ∈ batch.removed ∨ x.request ∈ batch.requests) ∧ x ∉ after.iter

/-- The same for a delta, which reuses the registrations of its pages. -/
def DeltaConflict (intent : UffdRegistrationIntent) (vmas : List MappingSnapshot)
    (table after : UffdRegistrationTable) : Prop :=
  after ≠ table ∧ (table.revision ≠ wordMax ∨ ∃ v ∈ vmas, ∃ address, intent.range.range.Has address ∧
    v.range.range.Has address ∧ ¬ after.Covers intent.handler v.addressSpace address)

/-- A plan that is still the plan of a changed table does not conflict. -/
theorem not_conflict_of_plan (hsound : table.Sound) (hruns : Runs table after)
    (hplan : Planned table batch.removed batch.requests plan)
    (hafter : Planned after batch.removed batch.requests plan) : ¬ Conflict batch table after := by
  have hrevision : table.revision = after.revision := hplan.revision.symm.trans hafter.revision
  rcases hruns.counted hsound with rfl | hlt | ⟨hmax, -, hsub⟩
  · rintro (⟨-, hne⟩ | ⟨x, hx, -, hout⟩)
    · exact hne rfl
    · exact hout hx
  · omega
  rintro (⟨hne, -⟩ | ⟨x, hx, hused, hout⟩)
  · exact hne hmax
  have hback : ∀ y ∈ after.iter, y.id = x.id → y = x := fun y hy hid => hsound.eq_of_id (hsub y hy) hx hid
  rcases hused with hid | hrequest
  · obtain ⟨y, hy, hyid⟩ := hafter.known x.id hid
    exact hout (hback y hy hyid ▸ hy)
  · -- nothing can be published any more, so the request has its registration still
    have hnone : plan.published = 0 := by
      by_contra hne
      exact hplan.unsealed hne hmax
    have hfresh : x.request ∉ fresh (after.held batch.removed) batch.requests := by
      have hlen := hafter.publishes
      rw [hnone, eq_comm, List.length_eq_zero_iff] at hlen
      rw [hlen]
      exact List.not_mem_nil
    have hheld : x.request ∈ after.held batch.removed := by
      by_contra hnot
      exact hfresh (mem_fresh.mpr ⟨hrequest, hnot⟩)
    obtain ⟨y, hy, -, hyrequest⟩ := mem_held.mp hheld
    have hxy : y = x := by
      apply hsound.eq_of_overlap (hsub y hy) hx
      · exact congrArg (·.addressSpace) hyrequest
      · rw [show y.range = x.range from congrArg (·.range) hyrequest]
        exact rangesOverlap_self _
    exact hout (hxy ▸ hy)

theorem stale_commit (hsound : table.Sound) (hruns : Runs table after) (hpreflight : batch.preflight table = .ok plan)
    (hconflict : Conflict batch table after) : ∃ error, batch.commit plan after = (.err error, after) := by
  rcases batch.commit_cases after plan with herr | heq
  · exact herr
  · rw [heq]
    rcases commitRequestChanges_cases after plan batch.removed batch.requests batch.requireSingleOwner with herr | hplan
    · exact herr
    · have hbefore := planRequestChanges_eq_ok (UffdBatch.preflight_eq_ok hpreflight).1
      exact absurd hconflict (not_conflict_of_plan hsound hruns hbefore (planRequestChanges_eq_ok hplan))

theorem stale_replay {intent : UffdRegistrationIntent} {vmas : List MappingSnapshot}
    {deltaPlan : UffdRegistrationDeltaPlan}
    {api : UffdApiState} (hsound : table.Sound) (hruns : Runs table after)
    (hpreflight : table.preflightRegisterDelta api intent vmas = .ok deltaPlan)
    (hconflict : DeltaConflict intent vmas table after) :
    ∃ error, after.replayRegisterDelta deltaPlan intent vmas = .err error := by
  have hafter := hruns.sound hsound
  rw [preflightRegisterDelta, Outcome.unit_bind_eq_ok] at hpreflight
  obtain ⟨_, _, _, hplanned⟩ := planRegisterDelta_eq_ok hsound hpreflight.2
  rw [replayRegisterDelta]
  by_cases hrevision : after.revision = deltaPlan.revision
  · rw [if_neg (not_not.mpr hrevision)]
    cases hplan : after.planRegisterDelta intent vmas with
    | err error => exact ⟨error, rfl⟩
    | panic => exact absurd hplan (planRegisterDelta_ne_panic hafter intent vmas)
    | ok current =>
        refine ⟨.staleGeneration, ?_⟩
        rw [Outcome.ok_bind, if_pos]
        rintro rfl
        have hsame : table.revision = after.revision := hplanned.revision.symm.trans hrevision.symm
        rcases hruns.counted hsound with heq | hlt | ⟨hmax, hafterMax, -⟩
        · exact hconflict.1 heq
        · omega
        · obtain ⟨v, hv, address, hintent, hvma, hout⟩ := hconflict.2.resolve_left (not_not.mpr hmax)
          obtain ⟨addressSpace, removed, requests, hnow⟩ := planRegisterDelta_eq_ok hafter hplan
          have hnil : requests = [] := by
            by_contra hne
            exact hnow.unsealed hne hafterMax
          obtain ⟨delta, hdelta⟩ := hnow.deltas.canonical v hv
          obtain ⟨target, htarget, hcanonical⟩ := hnow.profile.canonical hv hdelta
          have hno : delta.noOp = true := by
            by_contra hno
            rw [Bool.not_eq_true] at hno
            have hmem := (hnow.deltas.mem_requests delta.desired).mpr ⟨v, delta, ⟨hv, hdelta, hno⟩, rfl⟩
            rw [hnil] at hmem
            cases hmem
          obtain ⟨x, hfilter, hrequest⟩ := hcanonical.noOp.mp hno
          have hx : x ∈ after.iter := by
            have hmem : x ∈ after.iter.filter (folds intent v delta.desired.range) := by
              rw [hfilter]
              simp
            exact List.mem_of_mem_filter hmem
          refine hout ⟨x, hx, (congrArg (·.handler) hrequest).trans hcanonical.request.1,
            (congrArg (·.addressSpace) hrequest).trans hcanonical.request.2.1, ?_⟩
          rw [show x.range = delta.desired.range from congrArg (·.range) hrequest]
          exact hcanonical.grown.reaches.has ((has_target htarget).mpr ⟨hintent, hvma⟩)
  · exact ⟨.staleGeneration, by rw [if_pos hrevision]⟩

/-- In every table that calls can reach, no two registrations of an address
space share an address; an identity stays with its registration for good;
every call fails and changes nothing or is applied as a whole; a plan is
rejected once the table has changed under it; and a plan is committed when
nothing has changed. -/
theorem table_contract (h : Reachable table) :
    (∀ (i j : Nat) (x y : UffdRegistration), table.records[i]? = some (some x) → table.records[j]? = some (some y) →
      i ≠ j →
      x.addressSpace = y.addressSpace → ∀ address, ¬ (x.range.range.Has address ∧ y.range.range.Has address)) ∧
    (∀ after last x y, Runs table after → Runs after last → x ∈ table.iter → y ∈ last.iter → x.id = y.id →
      y = x ∧ x ∈ after.iter) ∧
    (∀ call : UffdCall, (∃ error, call.run table = (.err error, table)) ∨
      ∃ after, call.run table = (.ok (), after) ∧ Complete call table after) ∧
    (∀ (batch : UffdBatch) plan after, batch.preflight table = .ok plan → Runs table after →
      Conflict batch table after → ∃ error, batch.commit plan after = (.err error, after)) ∧
    (∀ api intent vmas plan after, table.preflightRegisterDelta api intent vmas = .ok plan → Runs table after →
      DeltaConflict intent vmas table after → ∃ error, after.replayRegisterDelta plan intent vmas = .err error) ∧
    (∀ (batch : UffdBatch) plan, batch.preflight table = .ok plan →
      ∃ result after, batch.commit plan table = (.ok result, after) ∧ Complete (.commit batch plan) table after) ∧
    ∀ api intent vmas plan, table.preflightRegisterDelta api intent vmas = .ok plan →
      ∃ removed requests, table.replayRegisterDelta plan intent vmas = .ok (removed, requests) ∧
        (plan.isNoop = false → ∃ result after, (deltaBatch api removed requests).submit table =
          (.ok result, after)) := by
  have hsound := h.sound
  refine ⟨fun i j x y hx hy hne hspace => hsound.disjoint hx hy hne hspace,
    fun after last x y hfirst hsecond hx hy hid => hfirst.never_reused hsecond hsound hx hy hid, ?_,
    fun batch plan after hpreflight hruns hconflict => stale_commit hsound hruns hpreflight hconflict,
    fun api intent vmas plan after hpreflight hruns hconflict => stale_replay hsound hruns hpreflight hconflict, ?_, ?_⟩
  · intro call
    rcases call.run_effect hsound with herr | ⟨new, after, hok, heffect⟩
    · exact .inl herr
    · exact .inr ⟨after, hok, complete_of_effect heffect hsound⟩
  · intro batch plan hpreflight
    obtain ⟨hplan, hcommit⟩ := UffdBatch.preflight_eq_ok hpreflight
    obtain ⟨counts, visited, new, after, hok, hlands⟩ := UffdBatch.lands_of_plan hsound hplan
    refine ⟨_, after, hcommit.trans hok, complete_of_effect (UffdCall.batch_effect hlands _ (fun _ => rfl) rfl) hsound⟩
  · intro api intent vmas plan hpreflight
    obtain ⟨_, removed, requests, after, -, hreplay, hbatch, -, -⟩ := registerRange_of_preflight hsound hpreflight
    refine ⟨removed, requests, hreplay, fun hnoop => ?_⟩
    rcases hbatch with ⟨hyes, -⟩ | ⟨-, result, hsubmit⟩
    · rw [hnoop] at hyes
      cases hyes
    · exact ⟨result, after, hsubmit⟩

def sharedTable (second : FaultHandlerId) : UffdRegistrationTable :=
  ((UffdCall.register ⟨.initialized⟩ ⟨second, ⟨1, Nat.one_ne_zero⟩, ⟨1, Nat.one_ne_zero⟩, ⟨1, Nat.one_ne_zero⟩,
    pages 12288 16384 (by decide), .missing, rfl⟩).run (sampleTable ⟨1, Nat.one_ne_zero⟩)).2

def leftTable (second : FaultHandlerId) : UffdRegistrationTable :=
  ((UffdCall.detachHandler second).run (sharedTable second)).2

/-- The first of two registrations is planned to be removed: the plan is committed
as it is, and refused once the other handler has gone. -/
theorem table_contract_shared :
    Reachable (sharedTable ⟨2, by decide⟩) ∧
    (sharedTable ⟨2, by decide⟩).iter.map (fun x => (x.handler.raw, x.range.start)) = [(1, 4096), (2, 12288)] ∧
    (∃ result after, (UffdBatch.mappingRemove [⟨1, by decide⟩]).commit ⟨3, 1, 0, 0, some ⟨3, by decide⟩⟩
      (sharedTable ⟨2, by decide⟩) = (.ok result, after)) ∧
    ∃ error, (UffdBatch.mappingRemove [⟨1, by decide⟩]).commit ⟨3, 1, 0, 0, some ⟨3, by decide⟩⟩
      (leftTable ⟨2, by decide⟩) = (.err error, leftTable ⟨2, by decide⟩) := by
  have hreach : Reachable (sharedTable ⟨2, by decide⟩) := by
    obtain ⟨capacity, firstId, start, hnew, hruns⟩ := sampleTable_reachable ⟨1, Nat.one_ne_zero⟩
    exact ⟨capacity, firstId, start, hnew, hruns.tail ⟨_, rfl⟩⟩
  have hplan : (UffdBatch.mappingRemove [⟨1, by decide⟩]).preflight (sharedTable ⟨2, by decide⟩) =
      .ok ⟨3, 1, 0, 0, some ⟨3, by decide⟩⟩ := by
    decide +kernel
  obtain ⟨-, -, -, hstale, -, hcommit, -⟩ := table_contract hreach
  refine ⟨hreach, by decide +kernel, ?_, hstale _ _ _ hplan (.single ⟨_, rfl⟩)
    (.inl ⟨by decide +kernel, by decide +kernel⟩)⟩
  obtain ⟨result, after, hok, -⟩ := hcommit _ _ hplan
  exact ⟨result, after, hok⟩

end UffdRegistrationTable

end TheKernel.Mm
