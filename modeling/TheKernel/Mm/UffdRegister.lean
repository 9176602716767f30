import TheKernel.Mm.UffdDelta

namespace TheKernel.Mm

open PageRange

namespace UffdRegistrationTable

variable {table : UffdRegistrationTable} {intent : UffdRegistrationIntent} {vmas : List MappingSnapshot}

/-- Mappings of one address space, one after the other, each with a part of
the range. -/
structure Profile (range : PageRange) (addressSpace : AddressSpaceId) (vmas : List MappingSnapshot) : Prop where
  space : ∀ v ∈ vmas, v.addressSpace = addressSpace
  kind : ∀ v ∈ vmas, v.kind = .anonymousPrivate
  target : ∀ v ∈ vmas, ∃ target, pageRangeIntersection range v.range = some target
  ordered : vmas.Pairwise fun v w => v.range.stop ≤ w.range.start

theorem profile_from {range : PageRange} {addressSpace : AddressSpaceId} {previousEnd last : Option Nat}
    (h : vmas.foldlM (fun previousEnd snapshot =>
      if snapshot.addressSpace ≠ addressSpace ∨ snapshot.kind ≠ .anonymousPrivate ∨
          snapshot.range.pageSize ≠ range.pageSize ∨ previousEnd.any (snapshot.range.start < ·) ∨
          pageRangeIntersection range snapshot.range = none then
        Outcome.err MmError.invalidUffdRegistrationBatch
      else .ok (some snapshot.range.stop)) previousEnd = .ok last) :
    Profile range addressSpace vmas ∧ ∀ stop, previousEnd = some stop → ∀ v ∈ vmas, stop ≤ v.range.start := by
  induction vmas generalizing previousEnd with
  | nil => exact ⟨⟨nofun, nofun, nofun, .nil⟩, fun _ _ => nofun⟩
  | cons v vmas ih =>
      rw [List.foldlM_cons, Outcome.bind_eq_ok] at h
      obtain ⟨middle, hv, hrest⟩ := h
      rw [Outcome.guard_eq_ok] at hv
      obtain ⟨hgood, hmiddle⟩ := hv
      cases hmiddle
      simp only [not_or, not_not] at hgood
      obtain ⟨hspace, hkind, -, hprevious, htarget⟩ := hgood
      obtain ⟨hprofile, hlater⟩ := ih hrest
      have hafter : ∀ w ∈ vmas, v.range.stop ≤ w.range.start := hlater _ rfl
      refine ⟨⟨?_, ?_, ?_, List.pairwise_cons.mpr ⟨hafter, hprofile.ordered⟩⟩, ?_⟩
      · exact List.forall_mem_cons.mpr ⟨hspace, hprofile.space⟩
      · exact List.forall_mem_cons.mpr ⟨hkind, hprofile.kind⟩
      · exact List.forall_mem_cons.mpr ⟨Option.ne_none_iff_exists'.mp htarget, hprofile.target⟩
      · rintro stop rfl
        have hv : stop ≤ v.range.start := by simpa using hprevious
        refine List.forall_mem_cons.mpr ⟨hv, fun w hw => ?_⟩
        have := hafter w hw
        have := v.range.start_lt_stop
        omega

theorem validateVmaProfile_eq_ok {range : PageRange} {addressSpace : AddressSpaceId}
    (h : validateVmaProfile range vmas = .ok addressSpace) : Profile range addressSpace vmas := by
  cases vmas with
  | nil => cases h
  | cons first vmas =>
      rw [validateVmaProfile] at h
      obtain ⟨last, hfold, h⟩ := Outcome.bind_eq_ok.mp h
      cases h
      exact (profile_from hfold).1

theorem validateVmaProfile_ne_panic (range : PageRange) (vmas : List MappingSnapshot) :
    validateVmaProfile range vmas ≠ .panic := by
  cases vmas with
  | nil => simp [validateVmaProfile]
  | cons first vmas =>
      refine Outcome.bind_ne_panic (Outcome.foldlM_ne_panic ?_ _ _) fun _ _ => by simp
      intro previousEnd snapshot
      apply Outcome.guard_ne_panic
      simp

/-- Two of the mappings are the same or share no address. -/
theorem Profile.eq_of_overlap {range : PageRange} {addressSpace : AddressSpaceId} (h : Profile range addressSpace vmas)
    {v w : MappingSnapshot} (hv : v ∈ vmas) (hw : w ∈ vmas) (hoverlap : rangesOverlap v.range w.range = true) :
    v = w := by
  obtain ⟨hlt₁, hlt₂⟩ := of_decide_eq_true hoverlap
  obtain ⟨i, hi, rfl⟩ := List.mem_iff_getElem.mp hv
  obtain ⟨j, hj, rfl⟩ := List.mem_iff_getElem.mp hw
  have hordered := List.pairwise_iff_getElem.mp h.ordered
  rcases Nat.lt_trichotomy i j with hij | rfl | hij
  · have := hordered i j hi hj hij
    omega
  · rfl
  · have := hordered j i hj hi hij
    omega

def Asks (table : UffdRegistrationTable) (intent : UffdRegistrationIntent) (vmas : List MappingSnapshot)
    (snapshot : MappingSnapshot) (delta : CanonicalRegistrationDelta) : Prop :=
  snapshot ∈ vmas ∧ table.canonicalRegisterDelta intent snapshot = .ok delta ∧ delta.noOp = false

structure Deltas (table : UffdRegistrationTable) (intent : UffdRegistrationIntent) (vmas : List MappingSnapshot)
    (removed : List UffdRegistrationId) (requests : List UffdRegistrationRequest) : Prop where
  canonical : ∀ v ∈ vmas, ∃ delta, table.canonicalRegisterDelta intent v = .ok delta
  mem_removed : ∀ id, id ∈ removed ↔ ∃ v delta, table.Asks intent vmas v delta ∧
    ∃ x ∈ table.iter, folds intent v delta.desired.range x = true ∧ x.id = id
  mem_requests : ∀ request, request ∈ requests ↔ ∃ v delta, table.Asks intent vmas v delta ∧ delta.desired = request

theorem Profile.tail {range : PageRange} {addressSpace : AddressSpaceId} {v : MappingSnapshot}
    (h : Profile range addressSpace (v :: vmas)) : Profile range addressSpace vmas where
  space := (List.forall_mem_cons.mp h.space).2
  kind := (List.forall_mem_cons.mp h.kind).2
  target := (List.forall_mem_cons.mp h.target).2
  ordered := (List.pairwise_cons.mp h.ordered).2

def SomeRefused (table : UffdRegistrationTable) (intent : UffdRegistrationIntent) (vmas : List MappingSnapshot)
    (error : MmError) : Prop :=
  ∃ v ∈ vmas, ∃ target, pageRangeIntersection intent.range v.range = some target ∧
    Refused intent v target table.iter error

theorem Deltas.nil (table : UffdRegistrationTable) (intent : UffdRegistrationIntent) :
    Deltas table intent [] [] [] := by
  refine ⟨nofun, fun id => ?_, fun request => ?_⟩
  · refine ⟨nofun, ?_⟩
    rintro ⟨v, delta, ⟨hv, -⟩, -⟩
    cases hv
  · refine ⟨nofun, ?_⟩
    rintro ⟨v, delta, ⟨hv, -⟩, -⟩
    cases hv

theorem asks_cons {v w : MappingSnapshot} {delta delta' : CanonicalRegistrationDelta}
    (h : table.canonicalRegisterDelta intent v = .ok delta) :
    table.Asks intent (v :: vmas) w delta' ↔ (w = v ∧ delta' = delta ∧ delta.noOp = false) ∨
      table.Asks intent vmas w delta' := by
  simp only [Asks, List.mem_cons]
  constructor
  · rintro ⟨rfl | hw, hdelta, hno⟩
    · rw [h] at hdelta
      cases hdelta
      exact .inl ⟨rfl, rfl, hno⟩
    · exact .inr ⟨hw, hdelta, hno⟩
  · rintro (⟨rfl, rfl, hno⟩ | ⟨hw, hdelta, hno⟩)
    · exact ⟨.inl rfl, h, hno⟩
    · exact ⟨.inr hw, hdelta, hno⟩

theorem Deltas.skip {v : MappingSnapshot} {delta : CanonicalRegistrationDelta} {removed : List UffdRegistrationId}
    {requests : List UffdRegistrationRequest} (h : Deltas table intent vmas removed requests)
    (hdelta : table.canonicalRegisterDelta intent v = .ok delta) (hno : delta.noOp = true) :
    Deltas table intent (v :: vmas) removed requests := by
  have hasks : ∀ w delta', table.Asks intent (v :: vmas) w delta' ↔ table.Asks intent vmas w delta' := by
    intro w delta'
    rw [asks_cons hdelta, hno]
    simp
  refine ⟨List.forall_mem_cons.mpr ⟨⟨delta, hdelta⟩, h.canonical⟩, ?_, ?_⟩
  · intro id
    simp only [hasks]
    exact h.mem_removed id
  · intro request
    simp only [hasks]
    exact h.mem_requests request

theorem Deltas.add {v : MappingSnapshot} {delta : CanonicalRegistrationDelta} {removed : List UffdRegistrationId}
    {requests : List UffdRegistrationRequest} (h : Deltas table intent vmas removed requests)
    (hdelta : table.canonicalRegisterDelta intent v = .ok delta) (hno : delta.noOp = false) :
    Deltas table intent (v :: vmas) ((table.iter.filter (folds intent v delta.desired.range)).map (·.id) ++ removed)
      (delta.desired :: requests) := by
  refine ⟨List.forall_mem_cons.mpr ⟨⟨delta, hdelta⟩, h.canonical⟩, ?_, ?_⟩
  · intro id
    simp only [List.mem_append, h.mem_removed, List.mem_map, List.mem_filter, asks_cons hdelta, hno, and_true]
    constructor
    · rintro (⟨x, ⟨hx, hfolds⟩, hid⟩ | ⟨w, delta', hasks, hmem⟩)
      · exact ⟨v, delta, .inl ⟨rfl, rfl⟩, x, hx, hfolds, hid⟩
      · exact ⟨w, delta', .inr hasks, hmem⟩
    · rintro ⟨w, delta', ⟨rfl, rfl⟩ | hasks, x, hx, hfolds, hid⟩
      · exact .inl ⟨x, ⟨hx, hfolds⟩, hid⟩
      · exact .inr ⟨w, delta', hasks, x, hx, hfolds, hid⟩
  · intro request
    simp only [List.mem_cons, h.mem_requests, asks_cons hdelta, hno, and_true]
    constructor
    · rintro (rfl | ⟨w, delta', hasks, heq⟩)
      · exact ⟨v, delta, .inl ⟨rfl, rfl⟩, rfl⟩
      · exact ⟨w, delta', .inr hasks, heq⟩
    · rintro ⟨w, delta', ⟨rfl, rfl⟩ | hasks, heq⟩
      · exact .inl heq.symm
      · exact .inr ⟨w, delta', hasks, heq⟩

theorem Profile.canonical {addressSpace : AddressSpaceId} (hprofile : Profile intent.range addressSpace vmas)
    {v : MappingSnapshot} (hv : v ∈ vmas) {delta : CanonicalRegistrationDelta}
    (h : table.canonicalRegisterDelta intent v = .ok delta) :
    ∃ target, pageRangeIntersection intent.range v.range = some target ∧ Canonical table intent v target delta := by
  obtain ⟨target, htarget⟩ := hprofile.target v hv
  have hyields := canonicalRegisterDelta_yields table (hprofile.kind v hv) htarget
  rw [h] at hyields
  exact ⟨target, htarget, hyields⟩

/-- What folds into the range of one mapping folds into that of no other. -/
theorem Profile.eq_of_folds {addressSpace : AddressSpaceId} (hprofile : Profile intent.range addressSpace vmas)
    {v w : MappingSnapshot} (hv : v ∈ vmas) (hw : w ∈ vmas) {delta delta' : CanonicalRegistrationDelta}
    (hdelta : table.canonicalRegisterDelta intent v = .ok delta)
    (hdelta' : table.canonicalRegisterDelta intent w = .ok delta')
    {x : UffdRegistration} (hx : x ∈ table.iter) (hfolds : folds intent v delta.desired.range x = true)
    (hfolds' : folds intent w delta'.desired.range x = true) : v = w := by
  obtain ⟨_, -, hcanonical⟩ := hprofile.canonical hv hdelta
  obtain ⟨_, -, hcanonical'⟩ := hprofile.canonical hw hdelta'
  have hinside := (hcanonical.fixed x hx hfolds).1.inside
  have hinside' := (hcanonical'.fixed x hx hfolds').1.inside
  apply hprofile.eq_of_overlap hv hw
  apply hinside.overlap
  rw [rangesOverlap_comm]
  exact hinside'.overlap (rangesOverlap_self _)

theorem registerDeltas_yields (hsound : table.Sound) {addressSpace : AddressSpaceId}
    (hprofile : Profile intent.range addressSpace vmas) :
    (table.registerDeltas intent vmas).Yields (table.SomeRefused intent vmas)
      (fun (removed, requests) => Deltas table intent vmas removed requests ∧ removed.Nodup) := by
  induction vmas with
  | nil => exact ⟨.nil table intent, .nil⟩
  | cons v vmas ih =>
      obtain ⟨target, htarget⟩ := hprofile.target v (by simp)
      have hyields := canonicalRegisterDelta_yields table (hprofile.kind v (by simp)) htarget
      have hrest : (table.registerDeltas intent vmas).Yields (table.SomeRefused intent (v :: vmas))
          (fun (removed, requests) => Deltas table intent vmas removed requests ∧ removed.Nodup) :=
        (ih hprofile.tail).mono (fun error ⟨w, hw, hrefused⟩ => ⟨w, List.mem_cons_of_mem v hw, hrefused⟩) fun _ => id
      rw [registerDeltas]
      cases hdelta : table.canonicalRegisterDelta intent v with
      | panic =>
          rw [hdelta] at hyields
          exact hyields.elim
      | err error =>
          rw [hdelta] at hyields
          exact ⟨v, by simp, target, htarget, hyields⟩
      | ok delta =>
          rw [Outcome.ok_bind]
          split
          · rename_i hno
            exact hrest.imp fun _ h => ⟨h.1.skip hdelta hno, h.2⟩
          · rename_i hno
            rw [Bool.not_eq_true] at hno
            have hfolds : (foldsAmong intent v delta.desired.range table.iter).Yields
                (table.SomeRefused intent (v :: vmas))
                (fun found => found = table.iter.filter (folds intent v delta.desired.range)) :=
              (foldsAmong_yields (List.Subset.refl _)).mono (fun error h => ⟨v, by simp, target, htarget,
                .inl h⟩) fun _ => id
            refine hfolds.bind ?_
            rintro folded rfl
            refine hrest.bind ?_
            rintro ⟨removed, requests⟩ ⟨hdeltas, hnodup⟩
            refine ⟨hdeltas.add hdelta hno, ?_⟩
            rw [List.nodup_append]
            refine ⟨hsound.unique.sublist (List.filter_sublist.map _), hnodup, ?_⟩
            rintro id hid _ hid' rfl
            obtain ⟨x, hxmem, hxid⟩ := List.mem_map.mp hid
            obtain ⟨hx, hxfolds⟩ := List.mem_filter.mp hxmem
            obtain ⟨w, delta', ⟨hw, hdelta', -⟩, y, hy, hyfolds, hyid⟩ := (hdeltas.mem_removed id).mp hid'
            have hxy : x = y := hsound.eq_of_id hx hy (hxid.trans hyid.symm)
            subst hxy
            have hvw := hprofile.eq_of_folds (by simp) (List.mem_cons_of_mem v hw) hdelta hdelta' hx hxfolds hyfolds
            subst hvw
            have hordered := (List.pairwise_cons.mp hprofile.ordered).1 v hw
            have := v.range.start_lt_stop
            omega

theorem pageSize_eq_of_bytes {a b : PageSize} (h : a.bytes = b.bytes) : a = b := by
  obtain ⟨bytes, _, _⟩ := a
  obtain ⟨bytes', _, _⟩ := b
  subst h
  rfl

theorem Current.pageSize {snapshot : MappingSnapshot} {x : UffdRegistration} (h : Current snapshot x) :
    x.range.pageSize = snapshot.range.pageSize := by
  have hcontains := (current_iff.mp h).2.2.2.2
  rw [contains, Bool.and_eq_true] at hcontains
  exact (pageSize_eq_of_bytes (of_decide_eq_true hcontains.1)).symm

theorem mode_eq (intent : UffdRegistrationIntent) (x : UffdRegistration) : x.mode = intent.mode :=
  x.request.supported.trans intent.supported.symm

section Deltas

variable {v : MappingSnapshot} {target : PageRange} {delta : CanonicalRegistrationDelta} {x : UffdRegistration}

theorem Canonical.folds_of_current (h : Canonical table intent v target delta) (hhandler : x.handler = intent.handler)
    (hcurrent : Current v x) (hoverlap : rangesOverlap x.range delta.desired.range = true) :
    folds intent v delta.desired.range x = true := by
  obtain ⟨hlt₁, hlt₂⟩ := of_decide_eq_true hoverlap
  have htouch : rangesTouch x.range delta.desired.range = true :=
    rangesTouch_iff.mpr ⟨hcurrent.pageSize.trans h.grown.size.symm, hlt₁.le, hlt₂.le⟩
  have hsnapshot : rangesOverlap x.range v.range = true := by
    rw [rangesOverlap_comm]
    exact hcurrent.inside.overlap (rangesOverlap_self _)
  exact decide_eq_true (p := _ ∧ _) ⟨⟨(current_iff.mp hcurrent).1, hhandler, mode_eq intent x⟩, htouch, hsnapshot⟩

/-- Whatever has an address of the range is a part of it. -/
theorem Canonical.folds_of_overlap (h : Canonical table intent v target delta) (hsound : table.Sound)
    (hx : x ∈ table.iter)
    (hspace : x.addressSpace = v.addressSpace) (hoverlap : rangesOverlap x.range delta.desired.range = true) :
    folds intent v delta.desired.range x = true := by
  obtain ⟨address, hxaddress, haddress⟩ := rangesOverlap_iff.mp hoverlap
  rcases h.grown.covered address haddress with htarget | ⟨y, hy, howned, hcurrent, hinside, hyaddress⟩
  · obtain ⟨hhandler, hcurrent⟩ := h.own x hx hspace (rangesOverlap_iff.mpr ⟨address, hxaddress, htarget⟩)
    exact h.folds_of_current hhandler hcurrent hoverlap
  · have hxy : x = y := hsound.eq_of_overlap hx hy (hspace.trans howned.1.symm)
      (rangesOverlap_iff.mpr ⟨address, hxaddress, hyaddress⟩)
    subst hxy
    exact h.folds_of_current howned.2.1 hcurrent hoverlap

variable {addressSpace : AddressSpaceId} {removed : List UffdRegistrationId} {requests : List UffdRegistrationRequest}

theorem Deltas.compatible (h : Deltas table intent vmas removed requests) (hsound : table.Sound)
    (hprofile : Profile intent.range addressSpace vmas) (hnodup : removed.Nodup) :
    Compatible table removed requests where
  nodup := hnodup
  known := by
    intro id hid
    obtain ⟨v, delta, -, x, hx, -, hxid⟩ := (h.mem_removed id).mp hid
    exact ⟨x, hx, hxid⟩
  apart := by
    intro a ha b hb hne
    by_contra hoverlap
    rw [Bool.not_eq_false] at hoverlap
    obtain ⟨v, delta, ⟨hv, hdelta, -⟩, rfl⟩ := (h.mem_requests a).mp ha
    obtain ⟨w, delta', ⟨hw, hdelta', -⟩, rfl⟩ := (h.mem_requests b).mp hb
    obtain ⟨_, -, hcanonical⟩ := hprofile.canonical hv hdelta
    obtain ⟨_, -, hcanonical'⟩ := hprofile.canonical hw hdelta'
    have hfirst := hcanonical.grown.within.overlap hoverlap
    rw [rangesOverlap_comm] at hfirst
    have hboth := hcanonical'.grown.within.overlap hfirst
    have hvw : w = v := hprofile.eq_of_overlap hw hv hboth
    subst hvw
    rw [hdelta] at hdelta'
    cases hdelta'
    exact hne rfl
  clear := by
    rintro request hrequest x hx ⟨hid, hspace, hoverlap⟩
    obtain ⟨v, delta, hasks, rfl⟩ := (h.mem_requests request).mp hrequest
    obtain ⟨_, -, hcanonical⟩ := hprofile.canonical hasks.1 hasks.2.1
    have hfolds := hcanonical.folds_of_overlap hsound hx (hspace.trans hcanonical.request.2.1) hoverlap
    exact absurd ((h.mem_removed x.id).mpr ⟨v, delta, hasks, x, hx, hfolds, rfl⟩) hid

theorem Deltas.owned_of_removed (h : Deltas table intent vmas removed requests) (hsound : table.Sound)
    (hprofile : Profile intent.range addressSpace vmas) (hx : x ∈ table.iter) (hid : x.id ∈ removed) :
    x.handler = intent.handler ∧ x.addressSpace = addressSpace := by
  obtain ⟨v, delta, hasks, y, hy, hfolds, hyid⟩ := (h.mem_removed x.id).mp hid
  have hxy : y = x := hsound.eq_of_id hy hx hyid
  subst hxy
  obtain ⟨howned, -⟩ := of_decide_eq_true hfolds
  exact ⟨howned.2.1, howned.1.trans (hprofile.space v hasks.1)⟩

theorem Deltas.owned_of_requests (h : Deltas table intent vmas removed requests)
    (hprofile : Profile intent.range addressSpace vmas) {request : UffdRegistrationRequest}
    (hrequest : request ∈ requests) :
    request.handler = intent.handler ∧ request.addressSpace = addressSpace := by
  obtain ⟨v, delta, hasks, rfl⟩ := (h.mem_requests request).mp hrequest
  obtain ⟨_, -, hcanonical⟩ := hprofile.canonical hasks.1 hasks.2.1
  exact ⟨hcanonical.request.1, hcanonical.request.2.1.trans (hprofile.space v hasks.1)⟩

end Deltas

theorem advanceRegistrationIds_mono {next last : Option UffdRegistrationId} {few many : Nat}
    (h : advanceRegistrationIds next many = .ok last) (hle : few ≤ many) :
    ∃ after, advanceRegistrationIds next few = .ok after := by
  induction few generalizing next many with
  | zero => exact ⟨next, rfl⟩
  | succ few ih =>
      cases many with
      | zero => cases hle
      | succ many =>
          cases next with
          | none => cases h
          | some raw => exact ih h (by omega)

/-- What a plan of a delta stands for. -/
structure DeltaPlanned (table : UffdRegistrationTable) (intent : UffdRegistrationIntent) (vmas : List MappingSnapshot)
    (plan : UffdRegistrationDeltaPlan) (addressSpace : AddressSpaceId) (removed : List UffdRegistrationId)
    (requests : List UffdRegistrationRequest) : Prop where
  profile : Profile intent.range addressSpace vmas
  found : table.registerDeltas intent vmas = .ok (removed, requests)
  deltas : Deltas table intent vmas removed requests
  nodup : removed.Nodup
  room : requests.length + (table.len - removed.length) ≤ table.records.length
  ids : advanceRegistrationIds table.nextId requests.length = .ok plan.nextIdAfter
  unsealed : requests ≠ [] → table.revision ≠ wordMax
  revision : plan.revision = table.revision
  counts : plan.removed = removed.length ∧ plan.replacements = requests.length

theorem planRegisterDelta_eq_ok (hsound : table.Sound) {plan : UffdRegistrationDeltaPlan}
    (h : table.planRegisterDelta intent vmas = .ok plan) :
    ∃ addressSpace removed requests, DeltaPlanned table intent vmas plan addressSpace removed requests := by
  rw [planRegisterDelta] at h
  obtain ⟨addressSpace, hprofile, h⟩ := Outcome.bind_eq_ok.mp h
  have hprofile := validateVmaProfile_eq_ok hprofile
  obtain ⟨⟨removed, requests⟩, hfound, h⟩ := Outcome.bind_eq_ok.mp h
  have hyields := registerDeltas_yields hsound hprofile
  rw [hfound] at hyields
  simp only [Outcome.guard_eq_ok, not_lt] at h
  obtain ⟨hretains, hlen, hroom, h⟩ := h
  obtain ⟨nextIdAfter, hids, h⟩ := Outcome.bind_eq_ok.mp h
  rw [Outcome.guard_eq_ok] at h
  obtain ⟨hsealed, h⟩ := h
  cases h
  refine ⟨addressSpace, removed, requests, hprofile, hfound, hyields.1, hyields.2, by omega, hids, ?_, rfl, rfl, rfl⟩
  intro hne hmax
  exact hsealed ⟨by simpa using hne, hmax⟩

theorem planRegisterDelta_ne_panic (hsound : table.Sound) (intent : UffdRegistrationIntent)
    (vmas : List MappingSnapshot) : table.planRegisterDelta intent vmas ≠ .panic := by
  refine Outcome.bind_ne_panic (validateVmaProfile_ne_panic _ _) fun addressSpace hprofile => ?_
  apply Outcome.bind_ne_panic
  · intro hpanic
    have hyields := registerDeltas_yields hsound (validateVmaProfile_eq_ok hprofile)
    rw [hpanic] at hyields
    exact hyields
  · intro found _
    iterate 3 apply Outcome.guard_ne_panic
    refine Outcome.bind_ne_panic (advanceRegistrationIds_ne_panic _ _) fun _ _ => Outcome.guard_ne_panic ?_
    simp

/-- A plan that is replayed at once gives what it stands for. -/
theorem DeltaPlanned.replay {plan : UffdRegistrationDeltaPlan} {addressSpace : AddressSpaceId}
    {removed : List UffdRegistrationId} {requests : List UffdRegistrationRequest}
    (h : DeltaPlanned table intent vmas plan addressSpace removed requests)
    (hplan : table.planRegisterDelta intent vmas = .ok plan) :
    table.replayRegisterDelta plan intent vmas = .ok (removed, requests) := by
  rw [replayRegisterDelta, if_neg (not_not.mpr h.revision.symm), hplan, Outcome.ok_bind, if_neg (by simp)]
  exact h.found

def deltaBatch (api : UffdApiState) (removed : List UffdRegistrationId) (requests : List UffdRegistrationRequest) :
    UffdBatch :=
  if removed.isEmpty then .register api requests else .replace api removed requests

theorem deltaBatch_removed (api : UffdApiState) (removed : List UffdRegistrationId)
    (requests : List UffdRegistrationRequest) : (deltaBatch api removed requests).removed = removed := by
  rw [deltaBatch]
  split
  · rename_i hempty
    exact (List.isEmpty_iff.mp hempty).symm
  · rfl

theorem deltaBatch_requests (api : UffdApiState) (removed : List UffdRegistrationId)
    (requests : List UffdRegistrationRequest) : (deltaBatch api removed requests).requests = requests := by
  rw [deltaBatch]
  split <;> rfl

theorem DeltaPlanned.submits {plan : UffdRegistrationDeltaPlan} {addressSpace : AddressSpaceId}
    {removed : List UffdRegistrationId} {requests : List UffdRegistrationRequest}
    (h : DeltaPlanned table intent vmas plan addressSpace removed requests) (hsound : table.Sound) {api : UffdApiState}
    (hapi : api.requireInitialized = .ok ()) (hnoop : plan.isNoop = false) :
    ∃ batchPlan, (deltaBatch api removed requests).preflight table = .ok batchPlan := by
  have hne : ¬ (removed.isEmpty ∧ requests.isEmpty) := by
    rw [UffdRegistrationDeltaPlan.isNoop, decide_eq_false_iff_not, h.counts.1, h.counts.2] at hnoop
    simpa using hnoop
  have hfresh : (fresh (table.held removed) requests).length ≤ requests.length :=
    (List.subperm_of_subset (fresh_nodup _ _) fun request hmem => (mem_fresh.mp hmem).1).length_le
  obtain ⟨nextIdAfter, hids⟩ := advanceRegistrationIds_mono h.ids hfresh
  have hroom := h.room
  have hremoved : ∀ x ∈ table.iter, x.id ∈ removed → x.request.owner = (intent.handler, addressSpace, intent.mode) := by
    intro x hx hid
    obtain ⟨hhandler, hspace⟩ := h.deltas.owned_of_removed hsound h.profile hx hid
    exact Prod.ext hhandler (Prod.ext hspace (mode_eq intent x))
  have hrequests : ∀ request ∈ requests, request.owner = (intent.handler, addressSpace, intent.mode) := by
    intro request hrequest
    obtain ⟨hhandler, hspace⟩ := h.deltas.owned_of_requests h.profile hrequest
    exact Prod.ext hhandler (Prod.ext hspace (request.supported.trans intent.supported.symm))
  obtain ⟨batchPlan, hplan⟩ := planRequestChanges_completes (h.deltas.compatible hsound h.profile h.nodup) hne hremoved
    hrequests (by omega) hids (fun hlen => h.unsealed (by rintro rfl; simp [fresh] at hlen))
  refine ⟨batchPlan, ?_⟩
  rw [deltaBatch]
  split
  · rename_i hempty
    rw [UffdBatch.preflight, preflightRegister, hapi, Outcome.ok_bind,
      if_neg (fun hrequests => hne ⟨hempty, hrequests⟩)]
    rw [List.isEmpty_iff] at hempty
    rw [← hempty]
    exact hplan
  · rename_i hempty
    rw [UffdBatch.preflight, preflightReplace, hapi, Outcome.ok_bind, if_neg hempty]
    exact hplan

/-- The table has what the delta asks for, and the rest of what it had. -/
structure Applied (table : UffdRegistrationTable) (removed : List UffdRegistrationId)
    (requests : List UffdRegistrationRequest) (after : UffdRegistrationTable) : Prop where
  sound : after.Sound
  kept : ∀ x ∈ table.iter, x.id ∉ removed → x ∈ after.iter
  origin : ∀ x ∈ after.iter, (x ∈ table.iter ∧ x.id ∉ removed) ∨ x.request ∈ requests
  registered : ∀ request ∈ requests, ∃ x ∈ after.iter, x.request = request

theorem registerRange_of_preflight (hsound : table.Sound) {api : UffdApiState} {plan : UffdRegistrationDeltaPlan}
    (h : table.preflightRegisterDelta api intent vmas = .ok plan) :
    ∃ addressSpace removed requests after, DeltaPlanned table intent vmas plan addressSpace removed requests ∧
      table.replayRegisterDelta plan intent vmas = .ok (removed, requests) ∧
      (plan.isNoop = true ∧ after = table ∨
        plan.isNoop = false ∧ ∃ result, (deltaBatch api removed requests).submit table = (.ok result, after)) ∧
      registerRange api intent vmas table = (.ok (), after) ∧ Applied table removed requests after := by
  have hpreflight := h
  rw [preflightRegisterDelta, Outcome.unit_bind_eq_ok] at h
  obtain ⟨hapi, hplan⟩ := h
  obtain ⟨addressSpace, removed, requests, hplanned⟩ := planRegisterDelta_eq_ok hsound hplan
  have hreplay := hplanned.replay hplan
  cases hnoop : plan.isNoop with
  | true =>
      have hcounts := of_decide_eq_true hnoop
      rw [hplanned.counts.1, hplanned.counts.2, List.length_eq_zero_iff, List.length_eq_zero_iff] at hcounts
      obtain ⟨rfl, rfl⟩ := hcounts
      refine ⟨addressSpace, [], [], table, hplanned, hreplay, .inl ⟨rfl, rfl⟩, ?_, hsound, ?_, ?_, nofun⟩
      · simp [registerRange, hpreflight, hnoop]
      · exact fun x hx _ => hx
      · exact fun x hx => .inl ⟨hx, by simp⟩
  | false =>
      obtain ⟨batchPlan, hbatch⟩ := hplanned.submits hsound hapi hnoop
      obtain ⟨hbatchPlan, hcommit⟩ := UffdBatch.preflight_eq_ok hbatch
      obtain ⟨counts, visited, new, after, hok, hlands⟩ := UffdBatch.lands_of_plan hsound hbatchPlan
      have hsubmit : (deltaBatch api removed requests).submit table = (.ok (counts, visited), after) := by
        rw [UffdBatch.submit_eq, Act.get_bind, hbatch, Act.lift_ok_bind, hcommit, hok]
      have hmem := fun x => hlands.changed.mem_iff (x := x)
      have hnew := hlands.new_requests
      have hregistered := hlands.registered
      simp only [deltaBatch_removed, decide_eq_false_iff_not] at hmem
      rw [deltaBatch_requests] at hnew hregistered
      refine ⟨addressSpace, removed, requests, after, hplanned, hreplay, .inr ⟨rfl, _, hsubmit⟩, ?_,
        hlands.changed.sound hsound, fun x hx hid => (hmem x).mpr (.inl ⟨hx, hid⟩), ?_, hregistered⟩
      · rw [deltaBatch] at hsubmit
        rw [registerRange, Act.get_bind, hpreflight, Act.lift_ok_bind, hnoop, if_neg Bool.false_ne_true, hreplay,
          Act.lift_ok_bind]
        split at hsubmit
        · rename_i hempty
          rw [UffdBatch.submit] at hsubmit
          simp [hempty, Act.bind_apply, hsubmit]
        · rename_i hempty
          rw [UffdBatch.submit] at hsubmit
          simp [hempty, Act.bind_apply, hsubmit]
      · intro x hx
        rcases (hmem x).mp hx with hold | hxnew
        · exact .inl hold
        · exact .inr (hnew x hxnew)

def Covers (table : UffdRegistrationTable) (handler : FaultHandlerId) (addressSpace : AddressSpaceId)
    (address : Nat) : Prop :=
  ∃ x ∈ table.iter, x.handler = handler ∧ x.addressSpace = addressSpace ∧ x.range.range.Has address

/-- The one registration that a mapping has for a handler around the range:
it is made of the range and of registrations that the handler had, and none
that the handler had or has in the mapping touches it. -/
structure IsUnion (table after : UffdRegistrationTable) (intent : UffdRegistrationIntent) (v : MappingSnapshot)
    (y : UffdRegistration) : Prop where
  owned : Owned intent v y
  current : Current v y
  target : ∀ address, intent.range.range.Has address → v.range.range.Has address → y.range.range.Has address
  union : ∀ address, y.range.range.Has address → intent.range.range.Has address ∧ v.range.range.Has address ∨
    ∃ x ∈ table.iter, Owned intent v x ∧ Inside x.range y.range ∧ x.range.range.Has address
  maximal : ∀ x ∈ table.iter, Owned intent v x → rangesTouch x.range y.range = true →
    rangesOverlap x.range v.range = true → Inside x.range y.range
  alone : ∀ z ∈ after.iter, Owned intent v z → rangesTouch z.range y.range = true →
    rangesOverlap z.range v.range = true → z = y

structure Registered (table : UffdRegistrationTable) (intent : UffdRegistrationIntent) (vmas : List MappingSnapshot)
    (addressSpace : AddressSpaceId) (after : UffdRegistrationTable) : Prop where
  space : ∀ v ∈ vmas, v.addressSpace = addressSpace
  covers : ∀ address, after.Covers intent.handler addressSpace address ↔
    table.Covers intent.handler addressSpace address ∨ intent.range.range.Has address ∧ ∃ v ∈ vmas,
      v.range.range.Has address
  others : ∀ x, x.handler ≠ intent.handler ∨ x.addressSpace ≠ addressSpace → (x ∈ after.iter ↔ x ∈ table.iter)
  unions : ∀ v ∈ vmas, ∃ y ∈ after.iter, IsUnion table after intent v y

section Registered

variable {plan : UffdRegistrationDeltaPlan} {addressSpace : AddressSpaceId} {removed : List UffdRegistrationId}
  {requests : List UffdRegistrationRequest} {after : UffdRegistrationTable} {v : MappingSnapshot} {target : PageRange}
  {delta : CanonicalRegistrationDelta} {x : UffdRegistration}

end Registered

def sampleTable (handler : FaultHandlerId) : UffdRegistrationTable :=
  ((UffdCall.register ⟨.initialized⟩ ⟨handler, ⟨1, Nat.one_ne_zero⟩, ⟨1, Nat.one_ne_zero⟩, ⟨1, Nat.one_ne_zero⟩,
    pages 4096 8192 (by decide), .missing, rfl⟩).run ⟨[none, none], some ⟨1, Nat.one_ne_zero⟩, 1⟩).2

theorem sampleTable_reachable (handler : FaultHandlerId) : Reachable (sampleTable handler) :=
  ⟨2, 1, ⟨[none, none], some ⟨1, Nat.one_ne_zero⟩, 1⟩, rfl, .single ⟨_, rfl⟩⟩

end UffdRegistrationTable

end TheKernel.Mm
