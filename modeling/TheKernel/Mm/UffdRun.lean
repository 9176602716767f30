import Mathlib.Logic.Relation
import TheKernel.Mm.UffdPlan

namespace TheKernel.Mm

section Issued

variable {next after : Option UffdRegistrationId} {xs : List UffdRegistration} {x : UffdRegistration}

def Used (next : Option UffdRegistrationId) (id : UffdRegistrationId) : Prop := ∀ n, next = some n → id.raw < n.raw

theorem used_next {id other : UffdRegistrationId} (h : Used (some id) other ∨ other = id) : Used id.next other := by
  intro n hn
  rw [UffdRegistrationId.next] at hn
  split at hn
  · cases hn
    rcases h with h | rfl
    · exact Nat.lt_succ_of_lt (h id rfl)
    · exact Nat.lt_succ_self _
  · cases hn

theorem Issued.used (h : Issued next xs after) {id : UffdRegistrationId} (hid : Used next id) : Used after id := by
  induction xs generalizing next with
  | nil =>
      cases h
      exact hid
  | cons y xs ih =>
      obtain ⟨rfl, h⟩ := h
      exact ih h (used_next (.inl hid))

theorem Issued.used_of_mem (h : Issued next xs after) (hx : x ∈ xs) : Used after x.id := by
  induction xs generalizing next with
  | nil => cases hx
  | cons y xs ih =>
      obtain ⟨rfl, h⟩ := h
      rcases List.mem_cons.mp hx with rfl | hx
      · exact h.used (used_next (.inr rfl))
      · exact ih h hx

theorem Issued.not_used (h : Issued next xs after) (hx : x ∈ xs) : ¬ Used next x.id := by
  induction xs generalizing next with
  | nil => cases hx
  | cons y xs ih =>
      obtain ⟨rfl, h⟩ := h
      rcases List.mem_cons.mp hx with rfl | hx
      · intro hused
        exact absurd (hused x.id rfl) (Nat.lt_irrefl _)
      · intro hused
        exact ih h hx (used_next (.inl hused))

theorem Issued.nodup (h : Issued next xs after) : (xs.map (·.id)).Nodup := by
  induction xs generalizing next with
  | nil => simp
  | cons y xs ih =>
      obtain ⟨rfl, h⟩ := h
      rw [List.map_cons, List.nodup_cons]
      refine ⟨?_, ih h⟩
      intro hmem
      obtain ⟨z, hz, hzid⟩ := List.mem_map.mp hmem
      have hnot := h.not_used hz
      rw [hzid] at hnot
      exact hnot (used_next (.inr rfl))

end Issued

namespace UffdRegistrationTable

/-- Every interval has one owner, and every registration its own identity. -/
structure Sound (table : UffdRegistrationTable) : Prop where
  unique : (table.iter.map (·.id)).Nodup
  apart : ∀ x ∈ table.iter, ∀ y ∈ table.iter, x.id ≠ y.id → x.addressSpace = y.addressSpace →
    rangesOverlap x.range y.range = false
  used : ∀ x ∈ table.iter, Used table.nextId x.id
  bounded : table.revision ≤ wordMax

theorem Sound.eq_of_id {table : UffdRegistrationTable} (h : table.Sound) {x y : UffdRegistration} (hx : x ∈ table.iter)
    (hy : y ∈ table.iter) (hid : x.id = y.id) : x = y := List.inj_on_of_nodup_map h.unique hx hy hid

theorem Sound.eq_of_overlap {table : UffdRegistrationTable} (h : table.Sound) {x y : UffdRegistration}
    (hx : x ∈ table.iter)
    (hy : y ∈ table.iter) (hspace : x.addressSpace = y.addressSpace) (hoverlap : rangesOverlap x.range y.range = true) :
    x = y := by
  by_cases hid : x.id = y.id
  · exact h.eq_of_id hx hy hid
  · rw [h.apart x hx y hy hid hspace] at hoverlap
    cases hoverlap

structure Changed (table : UffdRegistrationTable) (gone : UffdRegistration → Bool) (new : List UffdRegistration)
    (after : UffdRegistrationTable) : Prop where
  perm : after.iter.Perm (table.iter.filter (!gone ·) ++ new)
  issued : Issued table.nextId new after.nextId
  capacity : after.records.length = table.records.length
  apart : ∀ x ∈ new, ∀ y ∈ after.iter, x.id ≠ y.id → x.addressSpace = y.addressSpace →
    rangesOverlap x.range y.range = false
  revision : after.revision ≤ wordMax
  counted : after = table ∨ table.revision < after.revision ∨
    table.revision = wordMax ∧ after.revision = wordMax ∧ new = []

section Changed

variable {table after : UffdRegistrationTable} {gone : UffdRegistration → Bool} {new : List UffdRegistration}
  {x : UffdRegistration}

theorem Changed.mem_iff (h : Changed table gone new after) : x ∈ after.iter ↔ x ∈ table.iter ∧ gone x = false ∨
    x ∈ new := by
  rw [h.perm.mem_iff, List.mem_append, List.mem_filter, Bool.not_eq_true']

theorem Changed.mem_of_used (h : Changed table gone new after) (hx : x ∈ after.iter) (hused : Used table.nextId x.id) :
    x ∈ table.iter := by
  rcases h.mem_iff.mp hx with hold | hnew
  · exact hold.1
  · exact absurd hused (h.issued.not_used hnew)

theorem Changed.sound (h : Changed table gone new after) (hsound : table.Sound) : after.Sound where
  unique := by
    rw [(h.perm.map _).nodup_iff, List.map_append, List.nodup_append]
    refine ⟨hsound.unique.sublist (List.filter_sublist.map _), h.issued.nodup, ?_⟩
    rintro id hold _ hnew rfl
    obtain ⟨y, hy, hyid⟩ := List.mem_map.mp hold
    obtain ⟨z, hz, hzid⟩ := List.mem_map.mp hnew
    have hused := hsound.used y (List.mem_of_mem_filter hy)
    rw [hyid, ← hzid] at hused
    exact h.issued.not_used hz hused
  apart := by
    intro x hx y hy hne hspace
    by_cases hxnew : x ∈ new
    · exact h.apart x hxnew y hy hne hspace
    by_cases hynew : y ∈ new
    · rw [rangesOverlap_comm]
      exact h.apart y hynew x hx (Ne.symm hne) hspace.symm
    · have hxold := (h.mem_iff.mp hx).resolve_right hxnew
      have hyold := (h.mem_iff.mp hy).resolve_right hynew
      exact hsound.apart x hxold.1 y hyold.1 hne hspace
  used := by
    intro x hx
    rcases h.mem_iff.mp hx with hold | hnew
    · exact h.issued.used (hsound.used x hold.1)
    · exact h.issued.used_of_mem hnew
  bounded := h.revision

end Changed

theorem Committed.changed {table after : UffdRegistrationTable} {removed : List UffdRegistrationId}
    {requests : List UffdRegistrationRequest} {new : List UffdRegistration}
    (h : Committed table removed requests new after) (hcompatible : Compatible table removed requests)
    (hsound : table.Sound) : Changed table (·.id ∈ removed) new after where
  perm := by
    rw [← retained_eq]
    exact h.perm
  issued := h.issued
  capacity := h.capacity
  apart := by
    intro x hx y hy hne hspace
    have hrequest : ∀ z ∈ new, z.request ∈ requests ∧ z.request ∉ table.held removed := by
      intro z hz
      rw [← mem_fresh, ← h.requests]
      exact List.mem_map_of_mem hz
    obtain ⟨hxmem, hxnot⟩ := hrequest x hx
    rcases List.mem_append.mp (h.perm.mem_iff.mp hy) with hold | hnew
    · by_contra hoverlap
      rw [Bool.not_eq_false, rangesOverlap_comm] at hoverlap
      obtain ⟨hymem, hynot⟩ := mem_retained.mp hold
      have heq := hcompatible.clear x.request hxmem y hymem ⟨hynot, hspace.symm, hoverlap⟩
      exact hxnot (mem_held.mpr ⟨y, hymem, hynot, heq⟩)
    · apply hcompatible.apart _ hxmem _ (hrequest y hnew).1
      intro heq
      have hnodup : (new.map (·.request)).Nodup := by
        rw [h.requests]
        exact fresh_nodup ..
      exact hne (congrArg (·.id) (List.inj_on_of_nodup_map hnodup hx hnew heq))
  revision := by
    have := hsound.bounded
    rw [h.revision]
    split <;> omega
  counted := by
    by_cases hchange : removed ≠ [] ∨ new ≠ []
    · by_cases hsealed : table.revision = wordMax
      · refine .inr (.inr ⟨hsealed, ?_, ?_⟩)
        · rw [h.revision, if_neg (fun hboth => hboth.2 hsealed), hsealed]
        · by_contra hne
          exact h.unsealed hne hsealed
      · refine .inr (.inl ?_)
        rw [h.revision, if_pos ⟨hchange, hsealed⟩]
        omega
    · push Not at hchange
      exact .inl (h.same hchange.1 hchange.2)

end UffdRegistrationTable

open UffdRegistrationTable

inductive UffdBatch where
  | register (api : UffdApiState) (requests : List UffdRegistrationRequest)
  | replace (api : UffdApiState) (removed : List UffdRegistrationId) (replacements : List UffdRegistrationRequest)
  | mappingReplace (removed : List UffdRegistrationId) (replacements : List UffdRegistrationReplacement)
  | mappingRemove (removed : List UffdRegistrationId)

namespace UffdBatch

def removed : UffdBatch → List UffdRegistrationId
  | register _ _ => []
  | replace _ removed _ => removed
  | mappingReplace removed _ => removed
  | mappingRemove removed => removed

def requests : UffdBatch → List UffdRegistrationRequest
  | register _ requests => requests
  | replace _ _ replacements => replacements
  | mappingReplace _ replacements => replacements.map (·.request)
  | mappingRemove _ => []

def requireSingleOwner : UffdBatch → Bool
  | register _ _ | replace _ _ _ => true
  | mappingReplace _ _ | mappingRemove _ => false

def preflight (table : UffdRegistrationTable) : UffdBatch → Outcome MmError UffdRegistrationPlan
  | register api requests => table.preflightRegister api requests
  | replace api removed replacements => table.preflightReplace api removed replacements
  | mappingReplace removed replacements => table.preflightMappingReplace removed replacements
  | mappingRemove removed => table.preflightMappingRemove removed

def commit (plan : UffdRegistrationPlan) :
    UffdBatch → Act UffdRegistrationTable MmError (UffdRegistrationCommit × List UffdRegistration)
  | register _ requests => commitRegister plan requests
  | replace _ removed replacements => commitReplace plan removed replacements
  | mappingReplace removed replacements => commitMappingReplace plan removed replacements
  | mappingRemove removed => commitMappingRemove plan removed

def submit : UffdBatch → Act UffdRegistrationTable MmError (UffdRegistrationCommit × List UffdRegistration)
  | register api requests => registerBatch api requests
  | replace api removed replacements => replaceBatch api removed replacements
  | mappingReplace removed replacements => mappingReplaceBatch removed replacements
  | mappingRemove removed => mappingReplaceBatch removed []

variable {table : UffdRegistrationTable} {plan : UffdRegistrationPlan}

theorem validateMappingReplacements_ne_panic (table : UffdRegistrationTable) (removed : List UffdRegistrationId)
    (replacements : List UffdRegistrationReplacement) :
    table.validateMappingReplacements removed replacements ≠ .panic := by
  cases removed with
  | nil => simp [validateMappingReplacements]
  | cons first rest =>
      refine Outcome.bind_ne_panic (get_ne_panic table first) fun owner _ => ?_
      refine Outcome.bind_ne_panic (Outcome.forM_ne_panic ?_ _) fun _ _ => Outcome.forM_ne_panic ?_ _
      · intro id
        refine Outcome.bind_ne_panic (get_ne_panic table id) fun x _ => Outcome.guard_ne_panic ?_
        simp
      · intro replacement
        refine Outcome.guard_ne_panic (Outcome.bind_ne_panic (get_ne_panic table _) fun x _ =>
          Outcome.guard_ne_panic ?_)
        simp

theorem commitMappingReplace_cases (table : UffdRegistrationTable) (plan : UffdRegistrationPlan)
    (removed : List UffdRegistrationId) (replacements : List UffdRegistrationReplacement) :
    (∃ error, commitMappingReplace plan removed replacements table = (.err error, table)) ∨
      commitMappingReplace plan removed replacements table =
        commitRequestChanges plan removed (replacements.map (·.request)) false table := by
  by_cases hrevision : table.revision = plan.revision
  · cases hvalid : table.validateMappingReplacements removed replacements with
    | ok _ =>
        refine .inr ?_
        simp [commitMappingReplace, hrevision, hvalid]
    | err error =>
        refine .inl ⟨error, ?_⟩
        simp [commitMappingReplace, hrevision, hvalid]
    | panic => exact absurd hvalid (validateMappingReplacements_ne_panic table removed replacements)
  · refine .inl ⟨.staleGeneration, ?_⟩
    simp [commitMappingReplace, hrevision]

theorem commit_cases (batch : UffdBatch) (table : UffdRegistrationTable) (plan : UffdRegistrationPlan) :
    (∃ error, batch.commit plan table = (.err error, table)) ∨
      batch.commit plan table = commitRequestChanges plan batch.removed batch.requests batch.requireSingleOwner
        table := by
  cases batch with
  | register api requests => exact .inr rfl
  | replace api removed replacements => exact .inr rfl
  | mappingReplace removed replacements => exact commitMappingReplace_cases ..
  | mappingRemove removed => exact commitMappingReplace_cases ..

/-- A plan that a preflight has made is the one that its commit asks for. -/
theorem preflight_eq_ok {batch : UffdBatch} (h : batch.preflight table = .ok plan) :
    table.planRequestChanges batch.removed batch.requests batch.requireSingleOwner = .ok plan ∧
      batch.commit plan table = commitRequestChanges plan batch.removed batch.requests batch.requireSingleOwner
        table := by
  have hmapping : ∀ removed replacements, table.preflightMappingReplace removed replacements = .ok plan →
      table.planRequestChanges removed (replacements.map (·.request)) false = .ok plan ∧
        commitMappingReplace plan removed replacements table =
          commitRequestChanges plan removed (replacements.map (·.request)) false table := by
    intro removed replacements h
    rw [preflightMappingReplace, Outcome.unit_bind_eq_ok] at h
    obtain ⟨hvalid, hplan⟩ := h
    refine ⟨hplan, ?_⟩
    simp [commitMappingReplace, (planRequestChanges_eq_ok hplan).revision, hvalid]
  cases batch with
  | register api requests =>
      rw [preflight, preflightRegister, Outcome.unit_bind_eq_ok, Outcome.guard_eq_ok] at h
      exact ⟨h.2.2, rfl⟩
  | replace api removed replacements =>
      rw [preflight, preflightReplace, Outcome.unit_bind_eq_ok, Outcome.guard_eq_ok] at h
      exact ⟨h.2.2, rfl⟩
  | mappingReplace removed replacements => exact hmapping removed replacements h
  | mappingRemove removed => exact hmapping removed [] h

theorem requireInitialized_ne_panic (api : UffdApiState) : api.requireInitialized ≠ .panic := by
  rw [UffdApiState.requireInitialized]
  split <;> simp

theorem preflight_ne_panic (batch : UffdBatch) (table : UffdRegistrationTable) : batch.preflight table ≠ .panic := by
  have hmapping : ∀ removed replacements, table.preflightMappingReplace removed replacements ≠ .panic :=
    fun removed _ =>
    Outcome.bind_ne_panic (validateMappingReplacements_ne_panic table removed _) fun _ _ =>
      planRequestChanges_ne_panic table _ _ _
  cases batch with
  | register api requests =>
      exact Outcome.bind_ne_panic (requireInitialized_ne_panic api) fun _ _ =>
        Outcome.guard_ne_panic (planRequestChanges_ne_panic table _ _ _)
  | replace api removed replacements =>
      exact Outcome.bind_ne_panic (requireInitialized_ne_panic api) fun _ _ =>
        Outcome.guard_ne_panic (planRequestChanges_ne_panic table _ _ _)
  | mappingReplace removed replacements => exact hmapping removed replacements
  | mappingRemove removed => exact hmapping removed []

theorem submit_eq (batch : UffdBatch) :
    batch.submit = (Act.get >>= fun table => Act.lift (batch.preflight table) >>= fun plan => batch.commit plan) := by
  cases batch <;> rfl

theorem submit_cases (batch : UffdBatch) (table : UffdRegistrationTable) :
    (∃ error, batch.submit table = (.err error, table)) ∨
      ∃ plan, batch.preflight table = .ok plan ∧ batch.submit table = batch.commit plan table := by
  rw [submit_eq, Act.get_bind]
  cases h : batch.preflight table with
  | ok plan => exact .inr ⟨plan, rfl, rfl⟩
  | err error => exact .inl ⟨error, rfl⟩
  | panic => exact absurd h (preflight_ne_panic batch table)

structure Lands (batch : UffdBatch) (table : UffdRegistrationTable) (visited new : List UffdRegistration)
    (after : UffdRegistrationTable) : Prop where
  changed : Changed table (·.id ∈ batch.removed) new after
  new_requests : ∀ x ∈ new, x.request ∈ batch.requests
  registered : ∀ request ∈ batch.requests, ∃ x ∈ after.iter, x.request = request
  visited : visited.map (·.request) = fresh [] batch.requests

theorem lands_of_plan {batch : UffdBatch} (hsound : table.Sound)
    (h : table.planRequestChanges batch.removed batch.requests batch.requireSingleOwner = .ok plan) :
    ∃ counts visited new after,
      commitRequestChanges plan batch.removed batch.requests batch.requireSingleOwner table =
        (.ok (counts, visited), after) ∧ batch.Lands table visited new after := by
  obtain ⟨visited, new, after, hcommit, hcommitted, hvisited, hin⟩ := commitRequestChanges_of_plan h
  refine ⟨_, visited, new, after, hcommit, hcommitted.changed (planRequestChanges_eq_ok h).toCompatible hsound, ?_, ?_,
    hvisited⟩
  · intro x hx
    have hmem : x.request ∈ new.map (·.request) := List.mem_map_of_mem hx
    rw [hcommitted.requests, mem_fresh] at hmem
    exact hmem.1
  · intro request hmem
    have hvisit : request ∈ visited.map (·.request) := by
      rw [hvisited, mem_fresh]
      exact ⟨hmem, by simp⟩
    obtain ⟨x, hx, hrequest⟩ := List.mem_map.mp hvisit
    exact ⟨x, hin x hx, hrequest⟩

theorem commit_effect (batch : UffdBatch) (hsound : table.Sound) (plan : UffdRegistrationPlan) :
    (∃ error, batch.commit plan table = (.err error, table)) ∨
      ∃ counts visited new after, batch.commit plan table = (.ok (counts, visited), after) ∧
        batch.Lands table visited new after := by
  rcases batch.commit_cases table plan with herr | heq
  · exact .inl herr
  · rw [heq]
    rcases commitRequestChanges_cases table plan batch.removed batch.requests batch.requireSingleOwner with herr | hplan
    · exact .inl herr
    · exact .inr (lands_of_plan hsound hplan)

theorem submit_effect (batch : UffdBatch) (hsound : table.Sound) :
    (∃ error, batch.submit table = (.err error, table)) ∨
      ∃ counts visited new after, batch.submit table = (.ok (counts, visited), after) ∧
        batch.Lands table visited new after := by
  rcases batch.submit_cases table with herr | ⟨plan, -, heq⟩
  · exact .inl herr
  · rw [heq]
    exact batch.commit_effect hsound plan

end UffdBatch

inductive UffdCall where
  | commit (batch : UffdBatch) (plan : UffdRegistrationPlan)
  | submit (batch : UffdBatch)
  | register (api : UffdApiState) (request : UffdRegistrationRequest)
  | unregister (id : UffdRegistrationId)
  | detachHandler (handler : FaultHandlerId)

namespace UffdCall

def gone (call : UffdCall) (x : UffdRegistration) : Bool :=
  match call with
  | commit batch _ | submit batch => batch.removed.contains x.id
  | register _ _ => false
  | unregister id => x.id = id
  | detachHandler handler => x.handler = handler

def requests : UffdCall → List UffdRegistrationRequest
  | commit batch _ | submit batch => batch.requests
  | register _ request => [request]
  | unregister _ | detachHandler _ => []

def run : UffdCall → Act UffdRegistrationTable MmError Unit
  | commit batch plan => batch.commit plan >>= fun _ => pure ()
  | submit batch => batch.submit >>= fun _ => pure ()
  | register api request => UffdRegistrationTable.register api request >>= fun _ => pure ()
  | unregister id => UffdRegistrationTable.unregister id >>= fun _ => pure ()
  | detachHandler handler => UffdRegistrationTable.detachHandler handler >>= fun _ => pure ()

variable {table : UffdRegistrationTable}

/-- What a call that returns has done. -/
structure Effect (call : UffdCall) (table : UffdRegistrationTable) (new : List UffdRegistration)
    (after : UffdRegistrationTable) : Prop where
  changed : Changed table call.gone new after
  new_requests : ∀ x ∈ new, x.request ∈ call.requests
  registered : ∀ request ∈ call.requests, ∃ x ∈ after.iter, x.request = request

theorem changed_of_clear {records : List (Option UffdRegistration)} {gone : UffdRegistration → Bool}
    (hsound : table.Sound) (hiter : records.reduceOption = table.iter.filter (!gone ·))
    (hlength : records.length = table.records.length) :
    Changed table gone [] { table with records := records, revision := min (table.revision + 1) wordMax } where
  perm := by
    rw [List.append_nil]
    exact .of_eq hiter
  issued := rfl
  capacity := hlength
  apart := nofun
  revision := Nat.min_le_right ..
  counted := by
    have := hsound.bounded
    by_cases hsealed : table.revision = wordMax
    · refine .inr (.inr ⟨hsealed, ?_, rfl⟩)
      simp only
      omega
    · refine .inr (.inl ?_)
      simp only
      omega

theorem filter_set_none {records : List (Option UffdRegistration)} {slot : Nat} {x : UffdRegistration}
    (hunique : (records.reduceOption.map (·.id)).Nodup) (hslot : records[slot]? = some (some x)) :
    (records.set slot none).reduceOption = records.reduceOption.filter (fun y => !decide (y.id = x.id)) := by
  induction records generalizing slot with
  | nil => cases hslot
  | cons record records ih =>
      cases slot with
      | zero =>
          simp only [List.getElem?_cons_zero, Option.some.injEq] at hslot
          subst hslot
          rw [List.reduceOption_cons_of_some, List.map_cons, List.nodup_cons] at hunique
          rw [List.set_cons_zero, List.reduceOption_cons_of_none, List.reduceOption_cons_of_some,
            List.filter_cons_of_neg (by simp), eq_comm, List.filter_eq_self]
          intro y hy
          simp only [Bool.not_eq_true', decide_eq_false_iff_not]
          intro hid
          exact hunique.1 (List.mem_map.mpr ⟨y, hy, hid⟩)
      | succ slot =>
          rw [List.set_cons_succ]
          cases record with
          | none => exact ih hunique hslot
          | some y =>
              rw [List.reduceOption_cons_of_some, List.map_cons, List.nodup_cons] at hunique
              have hne : y.id ≠ x.id := by
                intro hid
                have hx : x ∈ records.reduceOption := List.reduceOption_mem_iff.mpr (List.mem_of_getElem? hslot)
                exact hunique.1 (List.mem_map.mpr ⟨x, hx, hid.symm⟩)
              rw [List.reduceOption_cons_of_some, List.reduceOption_cons_of_some, List.filter_cons_of_pos
                (by simpa using hne), ih hunique.2 hslot]

theorem unregister_effect (hsound : table.Sound) (id : UffdRegistrationId) :
    (∃ error, (unregister id).run table = (.err error, table)) ∨
      ∃ after, (unregister id).run table = (.ok (), after) ∧ (unregister id).Effect table [] after := by
  cases hslot : findSlot (fun x : UffdRegistration => decide (x.id = id)) table.records with
  | none =>
      refine .inl ⟨.unknownUffdRegistration, ?_⟩
      simp [run, UffdRegistrationTable.unregister, Act.bind_apply, hslot, Act.okOr]
  | some found =>
      obtain ⟨slot, x⟩ := found
      obtain ⟨hget, hid⟩ := findSlot_eq_some hslot
      have hid : x.id = id := by simpa using hid
      subst hid
      refine .inr ⟨_, ?_, changed_of_clear hsound (filter_set_none hsound.unique hget) (List.length_set ..),
        nofun, nofun⟩
      simp [run, UffdRegistrationTable.unregister, Act.bind_apply, hslot, Act.okOr]

theorem detachHandler_effect (hsound : table.Sound) (handler : FaultHandlerId) :
    ∃ after, (detachHandler handler).run table = (.ok (), after) ∧ (detachHandler handler).Effect table [] after := by
  by_cases hnone : (table.iter.filter (·.handler = handler)).length = 0
  · refine ⟨table, by simp [run, UffdRegistrationTable.detachHandler, Act.bind_apply, hnone], ?_, nofun, nofun⟩
    exact {
      perm := by
        rw [List.append_nil, List.filter_eq_self.mpr]
        intro x hx
        have hnil := List.filter_eq_nil_iff.mp (List.length_eq_zero_iff.mp hnone) x hx
        simpa [gone] using hnil
      issued := rfl
      capacity := rfl
      apart := nofun
      revision := hsound.bounded
      counted := .inl rfl }
  · refine ⟨_, ?_, changed_of_clear hsound (reduceOption_clear ..) (List.length_map ..), nofun, nofun⟩
    simp only [run, UffdRegistrationTable.detachHandler, Act.bind_apply, Act.get_apply, if_neg hnone]
    rfl

theorem batch_effect {batch : UffdBatch} {visited new : List UffdRegistration} {after : UffdRegistrationTable}
    (h : batch.Lands table visited new after) (call : UffdCall) (hgone : ∀ x, call.gone x = batch.removed.contains x.id)
    (hrequests : call.requests = batch.requests) : call.Effect table new after := by
  have heq : call.gone = fun x => decide (x.id ∈ batch.removed) :=
    funext fun x => (hgone x).trans (List.contains_eq_mem _ _)
  refine ⟨?_, ?_, ?_⟩
  · rw [heq]
    exact h.changed
  · rw [hrequests]
    exact h.new_requests
  · rw [hrequests]
    exact h.registered

theorem register_effect (hsound : table.Sound) (api : UffdApiState) (request : UffdRegistrationRequest) :
    (∃ error, (register api request).run table = (.err error, table)) ∨
      ∃ new after, (register api request).run table = (.ok (), after) ∧
        (register api request).Effect table new after := by
  rcases (UffdBatch.register api [request]).submit_effect hsound with ⟨error, herr⟩ | ⟨counts, visited,
    new, after, hok, hlands⟩
  · rw [UffdBatch.submit] at herr
    exact .inl ⟨error, by simp [run, UffdRegistrationTable.register, Act.bind_apply, herr]⟩
  · rw [UffdBatch.submit] at hok
    refine .inr ⟨new, after, ?_, batch_effect hlands _ (fun x => by simp [gone, UffdBatch.removed]) rfl⟩
    obtain ⟨x, hx⟩ : ∃ x, visited.getLast? = some x := by
      have hlen := congrArg List.length hlands.visited
      rw [List.length_map] at hlen
      cases hlast : visited.getLast? with
      | some x => exact ⟨x, rfl⟩
      | none =>
          rw [List.getLast?_eq_none_iff] at hlast
          rw [hlast] at hlen
          simp [UffdBatch.requests, fresh] at hlen
    simp [run, UffdRegistrationTable.register, Act.bind_apply, hok, hx, Act.okOr]

/-- A call either fails and leaves the table as it is, or has its whole effect. -/
theorem run_effect (call : UffdCall) (hsound : table.Sound) :
    (∃ error, call.run table = (.err error, table)) ∨
      ∃ new after, call.run table = (.ok (), after) ∧ call.Effect table new after := by
  cases call with
  | commit batch plan =>
      rcases batch.commit_effect hsound plan with ⟨error, herr⟩ | ⟨counts, visited, new, after, hok, hlands⟩
      · exact .inl ⟨error, by simp [run, Act.bind_apply, herr]⟩
      · refine .inr ⟨new, after, by simp [run, Act.bind_apply, hok], batch_effect hlands _ (fun _ => rfl) rfl⟩
  | submit batch =>
      rcases batch.submit_effect hsound with ⟨error, herr⟩ | ⟨counts, visited, new, after, hok, hlands⟩
      · exact .inl ⟨error, by simp [run, Act.bind_apply, herr]⟩
      · refine .inr ⟨new, after, by simp [run, Act.bind_apply, hok], batch_effect hlands _ (fun _ => rfl) rfl⟩
  | register api request => exact register_effect hsound api request
  | unregister id =>
      rcases unregister_effect hsound id with herr | ⟨after, hok, heffect⟩
      · exact .inl herr
      · exact .inr ⟨[], after, hok, heffect⟩
  | detachHandler handler =>
      obtain ⟨after, hok, heffect⟩ := detachHandler_effect hsound handler
      exact .inr ⟨[], after, hok, heffect⟩

end UffdCall

namespace UffdRegistrationTable

def Step (table after : UffdRegistrationTable) : Prop := ∃ call : UffdCall, after = (call.run table).2

abbrev Runs : UffdRegistrationTable → UffdRegistrationTable → Prop := Relation.ReflTransGen Step

def Reachable (table : UffdRegistrationTable) : Prop :=
  ∃ capacity firstId start, new capacity firstId = .ok start ∧ Runs start table

variable {table after last : UffdRegistrationTable} {x y : UffdRegistration}

theorem Step.changed (h : Step table after) (hsound : table.Sound) :
    after = table ∨ ∃ gone new, Changed table gone new after := by
  obtain ⟨call, rfl⟩ := h
  rcases call.run_effect hsound with ⟨error, herr⟩ | ⟨new, after, hok, heffect⟩
  · rw [herr]
    exact .inl rfl
  · rw [hok]
    exact .inr ⟨call.gone, new, heffect.changed⟩

theorem Step.sound (h : Step table after) (hsound : table.Sound) : after.Sound := by
  rcases h.changed hsound with rfl | ⟨gone, new, hchanged⟩
  · exact hsound
  · exact hchanged.sound hsound

theorem Runs.sound (h : Runs table after) (hsound : table.Sound) : after.Sound := by
  induction h with
  | refl => exact hsound
  | tail _ hstep ih => exact hstep.sound ih

theorem Reachable.sound (h : Reachable table) : table.Sound := by
  obtain ⟨capacity, firstId, start, hnew, hruns⟩ := h
  apply hruns.sound
  rw [new] at hnew
  split at hnew
  · cases hnew
  · cases hnew
    have hiter : ∀ nextId, (UffdRegistrationTable.mk (List.replicate capacity none) nextId 1).iter = [] := by
      intro nextId
      simp [iter]
    refine ⟨by rw [hiter]; simp, ?_, ?_, by simp [wordMax]⟩
    · intro x hx
      rw [hiter] at hx
      cases hx
    · intro x hx
      rw [hiter] at hx
      cases hx

theorem Runs.used (h : Runs table after) (hsound : table.Sound) {id : UffdRegistrationId} (hid : Used table.nextId id) :
    Used after.nextId id := by
  induction h with
  | refl => exact hid
  | tail hbefore hstep ih =>
      rcases hstep.changed (Runs.sound hbefore hsound) with rfl | ⟨gone, new, hchanged⟩
      · exact ih
      · exact hchanged.issued.used ih

/-- An identity that is taken stays with its registration. -/
theorem Runs.mem_of_used (h : Runs table after) (hsound : table.Sound) (hx : x ∈ after.iter)
    (hused : Used table.nextId x.id) : x ∈ table.iter := by
  induction h with
  | refl => exact hx
  | tail hbefore hstep ih =>
      rcases hstep.changed (Runs.sound hbefore hsound) with rfl | ⟨gone, new, hchanged⟩
      · exact ih hx
      · exact ih (hchanged.mem_of_used hx (Runs.used hbefore hsound hused))

theorem Runs.never_reused (hfirst : Runs table after) (hsecond : Runs after last) (hsound : table.Sound)
    (hx : x ∈ table.iter) (hy : y ∈ last.iter) (hid : x.id = y.id) : y = x ∧ x ∈ after.iter := by
  have hused : Used table.nextId y.id := hid ▸ hsound.used x hx
  have hmiddle : y ∈ after.iter := hsecond.mem_of_used (hfirst.sound hsound) hy (hfirst.used hsound hused)
  have heq : y = x := hsound.eq_of_id (hfirst.mem_of_used hsound hmiddle hused) hx hid.symm
  exact ⟨heq, heq ▸ hmiddle⟩

/-- A table whose revision has not moved is the same table, unless the
revision cannot move any more. -/
theorem Runs.counted (h : Runs table after) (hsound : table.Sound) :
    after = table ∨ table.revision < after.revision ∨
      table.revision = wordMax ∧ after.revision = wordMax ∧ ∀ x ∈ after.iter, x ∈ table.iter := by
  induction h with
  | refl => exact .inl rfl
  | @tail middle after hbefore hstep ih =>
      have hmiddle := Runs.sound hbefore hsound
      have hafter := (hstep.sound hmiddle).bounded
      rcases hstep.changed hmiddle with rfl | ⟨gone, new, hchanged⟩
      · exact ih
      · have hmem : new = [] → ∀ x ∈ after.iter, x ∈ middle.iter := by
          rintro rfl x hx
          rcases hchanged.mem_iff.mp hx with hold | hnew
          · exact hold.1
          · cases hnew
        rcases hchanged.counted with rfl | hlt | ⟨hsealed, hlast, hnil⟩
        · exact ih
        · rcases ih with rfl | hless | ⟨hmax, hmiddlemax, -⟩
          · exact .inr (.inl hlt)
          · exact .inr (.inl (hless.trans hlt))
          · omega
        · rcases ih with rfl | hless | ⟨hmax, hmiddlemax, hsub⟩
          · exact .inr (.inr ⟨hsealed, hlast, hmem hnil⟩)
          · exact .inr (.inl (by omega))
          · exact .inr (.inr ⟨hmax, hlast, fun x hx => hsub x (hmem hnil x hx)⟩)

end UffdRegistrationTable

end TheKernel.Mm
