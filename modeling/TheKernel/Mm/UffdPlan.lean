import Mathlib.Data.List.Induction
import Mathlib.Data.List.Nodup
import TheKernel.Mm.Uffd

namespace TheKernel.Mm

theorem rangesOverlap_iff {left right : PageRange} :
    rangesOverlap left right = true ↔ ∃ address, left.range.Has address ∧ right.range.Has address := by
  have h : rangesOverlap left right = left.range.overlaps right.range := rfl
  rw [h, UserRange.overlaps_iff]

theorem rangesOverlap_self (range : PageRange) : rangesOverlap range range = true :=
  rangesOverlap_iff.mpr ⟨range.start, ⟨le_rfl, range.range.nonempty⟩, le_rfl, range.range.nonempty⟩

theorem rangesOverlap_comm (left right : PageRange) : rangesOverlap left right = rangesOverlap right left := by
  rw [Bool.eq_iff_iff, rangesOverlap_iff, rangesOverlap_iff]
  constructor
  · rintro ⟨address, hleft, hright⟩
    exact ⟨address, hright, hleft⟩
  · rintro ⟨address, hright, hleft⟩
    exact ⟨address, hleft, hright⟩

/-- The elements that are not held, each where it first stands. -/
def fresh {α : Type} [DecidableEq α] (held xs : List α) : List α :=
  xs.foldl (fun done x => if x ∈ done ∨ x ∈ held then done else done ++ [x]) []

section Fresh

variable {α : Type} [DecidableEq α] {held xs : List α} {x : α}

theorem mem_fresh : x ∈ fresh held xs ↔ x ∈ xs ∧ x ∉ held := by
  induction xs using List.reverseRecOn with
  | nil => simp [fresh]
  | append_singleton xs y ih =>
      rw [fresh, List.foldl_append] at *
      simp only [List.foldl_cons, List.foldl_nil, List.mem_append, List.mem_singleton]
      split <;> grind

theorem fresh_append (held xs : List α) (x : α) :
    fresh held (xs ++ [x]) = if x ∈ xs ∨ x ∈ held then fresh held xs else fresh held xs ++ [x] := by
  have hmem : x ∈ fresh held xs ∨ x ∈ held ↔ x ∈ xs ∨ x ∈ held := by
    rw [mem_fresh]
    tauto
  rw [fresh, List.foldl_append]
  simp only [List.foldl_cons, List.foldl_nil]
  exact if_congr hmem rfl rfl

theorem fresh_nodup (held xs : List α) : (fresh held xs).Nodup := by
  induction xs using List.reverseRecOn with
  | nil => simp [fresh]
  | append_singleton xs y ih =>
      rw [fresh_append]
      split
      · exact ih
      · rename_i h
        rw [List.nodup_append]
        refine ⟨ih, by simp, ?_⟩
        rintro a ha b hb rfl
        rw [List.mem_singleton] at hb
        subst hb
        exact h (.inl (mem_fresh.mp ha).1)

end Fresh

namespace UffdRegistrationTable

variable {table : UffdRegistrationTable} {removed : List UffdRegistrationId} {requests : List UffdRegistrationRequest}
  {request : UffdRegistrationRequest} {single : Bool} {plan : UffdRegistrationPlan} {x : UffdRegistration}

@[simp] theorem mem_iter : x ∈ table.iter ↔ some x ∈ table.records := List.reduceOption_mem_iff

theorem get_eq_ok {id : UffdRegistrationId} (h : table.get id = .ok x) : x ∈ table.iter ∧ x.id = id := by
  rw [get] at h
  split at h
  · rename_i y hy
    cases h
    exact ⟨List.mem_of_find?_eq_some hy, by simpa using List.find?_some hy⟩
  · cases h

theorem get_of_mem (hmem : x ∈ table.iter) : ∃ y, table.get x.id = .ok y := by
  rw [get]
  cases hfind : table.iter.find? (·.id = x.id) with
  | some y => exact ⟨y, rfl⟩
  | none =>
      have hne := List.find?_eq_none.mp hfind x hmem
      simp at hne

def retained (table : UffdRegistrationTable) (removed : List UffdRegistrationId) : List UffdRegistration :=
  table.iter.filter fun x => !removed.contains x.id

def held (table : UffdRegistrationTable) (removed : List UffdRegistrationId) : List UffdRegistrationRequest :=
  (table.retained removed).map (·.request)

theorem mem_retained : x ∈ table.retained removed ↔ x ∈ table.iter ∧ x.id ∉ removed := by
  simp [retained]

theorem mem_held : request ∈ table.held removed ↔ ∃ x ∈ table.iter, x.id ∉ removed ∧ x.request = request := by
  simp only [held, List.mem_map, mem_retained, and_assoc]

/-- A registration that stays has a part of the range that is requested. -/
def Collides (removed : List UffdRegistrationId) (request : UffdRegistrationRequest) (x : UffdRegistration) : Prop :=
  x.id ∉ removed ∧ x.addressSpace = request.addressSpace ∧ rangesOverlap x.range request.range = true

theorem collides_of_request (hid : x.id ∉ removed) (h : x.request = request) : Collides removed request x := by
  refine ⟨hid, by rw [← h]; rfl, ?_⟩
  rw [← h]
  exact rangesOverlap_self _

theorem findExact_from (registrations : List UffdRegistration) (exact found : Bool) :
    registrations.foldlM (fun exact registered =>
      if registered.id ∈ removed ∨ registered.addressSpace ≠ request.addressSpace ∨
          ¬ rangesOverlap registered.range request.range then .ok exact
      else if registered.handler ≠ request.handler then Outcome.err MmError.busy
      else if registered.request = request then .ok true
      else .err .uffdRegistrationOverlap) exact = .ok found ↔
    (∀ x ∈ registrations, Collides removed request x → x.request = request) ∧
      (found = true ↔ exact = true ∨ ∃ x ∈ registrations, x.id ∉ removed ∧ x.request = request) := by
  induction registrations generalizing exact with
  | nil => cases exact <;> cases found <;> simp
  | cons x registrations ih =>
      rw [List.foldlM_cons, List.forall_mem_cons]
      by_cases hskip : x.id ∈ removed ∨ x.addressSpace ≠ request.addressSpace ∨ ¬ rangesOverlap x.range request.range
      · have hclear : ¬ Collides removed request x := by
          rintro ⟨h₁, h₂, h₃⟩
          tauto
        have hother : ¬ (x.id ∉ removed ∧ x.request = request) := fun h => hclear (collides_of_request h.1 h.2)
        rw [if_pos hskip, Outcome.ok_bind, ih]
        simp only [List.exists_mem_cons_iff, hother, false_or, hclear, false_implies, true_and]
      · have hcollides : Collides removed request x := by
          unfold Collides
          tauto
        rw [if_neg hskip]
        by_cases heq : x.request = request
        · have hhandler : ¬ x.handler ≠ request.handler := by
            rw [← heq]
            exact fun h => h rfl
          rw [if_neg hhandler, if_pos heq, Outcome.ok_bind, ih]
          simp [heq, hcollides.1]
        · constructor
          · intro h
            rw [if_neg heq] at h
            split at h <;> cases h
          · rintro ⟨⟨h, -⟩, -⟩
            exact absurd (h hcollides) heq

theorem findExact_eq_ok {found : Bool} :
    findExact removed request table.iter = .ok found ↔
      (∀ x ∈ table.iter, Collides removed request x → x.request = request) ∧
        (found = true ↔ request ∈ table.held removed) := by
  rw [findExact, findExact_from, mem_held]
  simp

/-- A batch that collides with nothing: neither with itself, nor with what stays. -/
structure Compatible (table : UffdRegistrationTable) (removed : List UffdRegistrationId)
    (requests : List UffdRegistrationRequest) : Prop where
  nodup : removed.Nodup
  known : ∀ id ∈ removed, ∃ x ∈ table.iter, x.id = id
  apart : ∀ a ∈ requests, ∀ b ∈ requests, a ≠ b → rangesOverlap a.range b.range = false
  clear : ∀ request ∈ requests, ∀ x ∈ table.iter, Collides removed request x → x.request = request

structure Planned (table : UffdRegistrationTable) (removed : List UffdRegistrationId)
    (requests : List UffdRegistrationRequest) (plan : UffdRegistrationPlan) : Prop extends
    Compatible table removed requests where
  revision : plan.revision = table.revision
  removes : plan.removed = removed.length
  publishes : plan.published = (fresh (table.held removed) requests).length
  retains : removed.length ≤ table.len
  room : plan.published + (table.len - removed.length) ≤ table.records.length
  ids : advanceRegistrationIds table.nextId plan.published = .ok plan.nextIdAfter
  unsealed : plan.published ≠ 0 → table.revision ≠ wordMax

theorem checkRemoved_eq_ok {owner : Option UffdOwner} (h : table.checkRemoved removed single = .ok owner) :
    removed.Nodup ∧ ∀ id ∈ removed, ∃ x ∈ table.iter, x.id = id := by
  have hinv := Outcome.forEnum_invariant _ (fun k _ => (removed.take k).Nodup ∧
    ∀ id ∈ removed.take k, ∃ x ∈ table.iter, x.id = id) 0 removed none owner ?_ (by simp) h
  · simpa using hinv
  · intro i id owner owner' hid hdone hbody
    rw [Nat.zero_add] at hdone hbody ⊢
    rw [Outcome.guard_eq_ok, Outcome.bind_eq_ok] at hbody
    obtain ⟨hnew, x, hx, -⟩ := hbody
    rw [List.take_add_one, hid, Option.toList_some, List.nodup_append]
    refine ⟨⟨hdone.1, by simp, ?_⟩, ?_⟩
    · rintro a ha b hb rfl
      rw [List.mem_singleton] at hb
      subst hb
      exact hnew ha
    · intro other hother
      rcases List.mem_append.mp hother with hother | hother
      · exact hdone.2 other hother
      · rw [List.mem_singleton] at hother
        subst hother
        obtain ⟨hmem, hxid⟩ := get_eq_ok hx
        exact ⟨x, hmem, hxid⟩

structure Counted (table : UffdRegistrationTable) (removed : List UffdRegistrationId)
    (requests : List UffdRegistrationRequest) (counts : RequestCounts) : Prop where
  apart : ∀ a ∈ requests, ∀ b ∈ requests, a ≠ b → rangesOverlap a.range b.range = false
  clear : ∀ request ∈ requests, ∀ x ∈ table.iter, Collides removed request x → x.request = request
  publishes : counts.published = (fresh (table.held removed) requests).length
  unique : counts.unique = counts.published + counts.reused

theorem Counted.duplicate {counts : RequestCounts} {owner : Option UffdOwner}
    (h : Counted table removed requests counts)
    (hmem : request ∈ requests) : Counted table removed (requests ++ [request]) { counts with owner } := by
  have hsub : ∀ a, a ∈ requests ++ [request] ↔ a ∈ requests := by
    intro a
    rw [List.mem_append, List.mem_singleton]
    exact ⟨fun ha => ha.elim id (by rintro rfl; exact hmem), .inl⟩
  refine ⟨?_, ?_, ?_, h.unique⟩
  · intro a ha b hb
    exact h.apart a ((hsub a).mp ha) b ((hsub b).mp hb)
  · intro a ha
    exact h.clear a ((hsub a).mp ha)
  · rw [fresh_append, if_pos (.inl hmem)]
    exact h.publishes

theorem Counted.add {counts counts' : RequestCounts} (h : Counted table removed requests counts)
    (hnew : request ∉ requests)
    (hapart : ∀ previous ∈ requests, previous ≠ request → rangesOverlap previous.range request.range = false)
    (hclear : ∀ x ∈ table.iter, Collides removed request x → x.request = request)
    (hpublish : counts'.published = counts.published + if request ∈ table.held removed then 0 else 1)
    (hunique : counts'.unique = counts'.published + counts'.reused) :
    Counted table removed (requests ++ [request]) counts' := by
  refine ⟨?_, ?_, ?_, hunique⟩
  · intro a ha b hb hne
    rw [List.mem_append, List.mem_singleton] at ha hb
    rcases ha with ha | rfl
    · rcases hb with hb | rfl
      · exact h.apart a ha b hb hne
      · exact hapart a ha hne
    · rcases hb with hb | rfl
      · rw [rangesOverlap_comm]
        exact hapart b hb hne.symm
      · exact absurd rfl hne
  · intro a ha
    rw [List.mem_append, List.mem_singleton] at ha
    rcases ha with ha | rfl
    · exact h.clear a ha
    · exact hclear
  · rw [fresh_append, hpublish, h.publishes]
    by_cases hheld : request ∈ table.held removed
    · rw [if_pos hheld, if_pos (.inr hheld), Nat.add_zero]
    · rw [if_neg hheld, if_neg (by tauto), List.length_append, List.length_singleton]

theorem counted_nil (owner : Option UffdOwner) : Counted table removed [] ⟨owner, 0, 0, 0⟩ :=
  ⟨nofun, nofun, rfl, rfl⟩

theorem any_overlap_eq_false {previous : List UffdRegistrationRequest} :
    previous.any (fun previous => previous ≠ request ∧ rangesOverlap previous.range request.range) = false ↔
      ∀ a ∈ previous, a ≠ request → rangesOverlap a.range request.range = false := by
  simp

theorem countRequests_eq_ok {owner : Option UffdOwner} {counts : RequestCounts}
    (h : table.countRequests removed requests single owner = .ok counts) : Counted table removed requests counts := by
  have hinv := Outcome.forEnum_invariant _ (fun k counts => Counted table removed (requests.take k) counts) 0 requests
    ⟨owner, 0, 0, 0⟩ counts ?_ (counted_nil owner) h
  · simpa using hinv
  · intro i request counts counts' hrequest hdone hbody
    rw [Nat.zero_add] at hdone hbody ⊢
    obtain ⟨owner', -, hbody⟩ := Outcome.bind_eq_ok.mp hbody
    rw [Outcome.guard_eq_ok, Bool.not_eq_true, any_overlap_eq_false] at hbody
    obtain ⟨hapart, hbody⟩ := hbody
    rw [List.take_add_one, hrequest, Option.toList_some]
    split at hbody
    · rename_i hdup
      cases hbody
      exact hdone.duplicate hdup
    · rename_i hnew
      obtain ⟨exact, hexact, hbody⟩ := Outcome.bind_eq_ok.mp hbody
      obtain ⟨hclear, hheld⟩ := findExact_eq_ok.mp hexact
      have hunique := hdone.unique
      split at hbody
      · rename_i hfound
        cases hbody
        apply hdone.add hnew hapart hclear
        · rw [if_pos (hheld.mp hfound)]
          rfl
        · simp only
          omega
      · rename_i hfound
        cases hbody
        apply hdone.add hnew hapart hclear
        · rw [if_neg fun hmem => hfound (hheld.mpr hmem)]
        · simp only
          omega

theorem planRequestChanges_eq_ok (h : table.planRequestChanges removed requests single = .ok plan) :
    Planned table removed requests plan := by
  rw [planRequestChanges, Outcome.guard_eq_ok] at h
  obtain ⟨-, h⟩ := h
  obtain ⟨owner, howner, h⟩ := Outcome.bind_eq_ok.mp h
  obtain ⟨counts, hcounts, h⟩ := Outcome.bind_eq_ok.mp h
  simp only [Outcome.guard_eq_ok, not_lt, not_not] at h
  obtain ⟨hretains, hlen, hroom, hunique, h⟩ := h
  obtain ⟨nextIdAfter, hids, h⟩ := Outcome.bind_eq_ok.mp h
  rw [Outcome.guard_eq_ok] at h
  obtain ⟨hsealed, h⟩ := h
  cases h
  obtain ⟨hnodup, hknown⟩ := checkRemoved_eq_ok howner
  have hcounted := countRequests_eq_ok hcounts
  exact {
    nodup := hnodup
    known := hknown
    apart := hcounted.apart
    clear := hcounted.clear
    revision := rfl
    removes := rfl
    publishes := hcounted.publishes
    retains := hretains
    room := by simp only; omega
    ids := hids
    unsealed := fun hne heq => hsealed ⟨hne, heq⟩ }

theorem len_le_length (table : UffdRegistrationTable) : table.len ≤ table.records.length :=
  List.reduceOption_length_le table.records

theorem Compatible.retains (h : Compatible table removed requests) : removed.length ≤ table.len := by
  have hsub : removed ⊆ table.iter.map (·.id) := by
    intro id hid
    obtain ⟨x, hx, rfl⟩ := h.known id hid
    exact List.mem_map_of_mem hx
  have hle := (List.subperm_of_subset h.nodup hsub).length_le
  rwa [List.length_map] at hle

theorem singleOwner_eq_ok {owner : UffdOwner} {found : Option UffdOwner} (h : found = none ∨ found = some owner) :
    singleOwner true found owner = .ok (some owner) := by
  rcases h with rfl | rfl <;> simp [singleOwner]

theorem checkRemoved_completes (h : Compatible table removed requests) {owner : UffdOwner}
    (howner : ∀ x ∈ table.iter, x.id ∈ removed → x.request.owner = owner) :
    ∃ found, table.checkRemoved removed true = .ok found ∧ (found = none ∨ found = some owner) := by
  apply Outcome.forEnum_completes _ (fun _ found => found = none ∨ found = some owner)
  · intro i id found hid hfound
    rw [Nat.zero_add]
    have hmem : id ∈ removed := List.mem_of_getElem? hid
    have hnew : id ∉ removed.take i := by
      obtain ⟨hi, rfl⟩ := List.getElem?_eq_some_iff.mp hid
      intro hbefore
      obtain ⟨j, hj, heq⟩ := List.mem_take_iff_getElem.mp hbefore
      have hji : j = i := (List.Nodup.getElem_inj_iff h.nodup).mp heq
      omega
    obtain ⟨x, hx, rfl⟩ := h.known id hmem
    obtain ⟨y, hy⟩ := get_of_mem hx
    obtain ⟨hymem, hyid⟩ := get_eq_ok hy
    have hyowner := howner y hymem (hyid ▸ hmem)
    refine ⟨some owner, ?_, .inr rfl⟩
    rw [if_neg hnew, hy, Outcome.ok_bind, hyowner]
    exact singleOwner_eq_ok hfound
  · exact .inl rfl

theorem countRequests_completes (h : Compatible table removed requests) {owner : UffdOwner} {found : Option UffdOwner}
    (hfound : found = none ∨ found = some owner) (howner : ∀ request ∈ requests, request.owner = owner) :
    ∃ counts, table.countRequests removed requests true found = .ok counts := by
  suffices hloop : ∃ counts, table.countRequests removed requests true found = .ok counts ∧
      (counts.owner = none ∨ counts.owner = some owner) by
    obtain ⟨counts, hcounts, -⟩ := hloop
    exact ⟨counts, hcounts⟩
  apply Outcome.forEnum_completes _ (fun _ (counts : RequestCounts) => counts.owner = none ∨ counts.owner = some owner)
  · intro i request counts hrequest hcounts
    rw [Nat.zero_add]
    have hmem : request ∈ requests := List.mem_of_getElem? hrequest
    have hapart : (requests.take i).any (fun previous => previous ≠ request ∧
        rangesOverlap previous.range request.range) =
        false := any_overlap_eq_false.mpr fun a ha hne => h.apart a (List.mem_of_mem_take ha) request hmem hne
    rw [howner request hmem, singleOwner_eq_ok hcounts, Outcome.ok_bind,
      if_neg (by rw [hapart]; exact Bool.false_ne_true)]
    split
    · exact ⟨_, rfl, .inr rfl⟩
    · have hexact : findExact removed request table.iter = .ok (decide (request ∈ table.held removed)) :=
        findExact_eq_ok.mpr ⟨h.clear request hmem, decide_eq_true_iff⟩
      rw [hexact, Outcome.ok_bind]
      split
      · exact ⟨_, rfl, .inr rfl⟩
      · exact ⟨_, rfl, .inr rfl⟩
  · exact hfound

theorem planRequestChanges_completes (h : Compatible table removed requests)
    (hne : ¬ (removed.isEmpty ∧ requests.isEmpty))
    {owner : UffdOwner} (hremoved : ∀ x ∈ table.iter, x.id ∈ removed → x.request.owner = owner)
    (hrequests : ∀ request ∈ requests, request.owner = owner)
    (hroom : (fresh (table.held removed) requests).length + (table.len - removed.length) ≤ table.records.length)
    {nextIdAfter : Option UffdRegistrationId}
    (hids : advanceRegistrationIds table.nextId (fresh (table.held removed) requests).length = .ok nextIdAfter)
    (hsealed : (fresh (table.held removed) requests).length ≠ 0 → table.revision ≠ wordMax) :
    ∃ plan, table.planRequestChanges removed requests true = .ok plan := by
  obtain ⟨found, hcheck, hfound⟩ := checkRemoved_completes h hremoved
  obtain ⟨counts, hcounts⟩ := countRequests_completes h hfound hrequests
  have hcounted := countRequests_eq_ok hcounts
  have hretains := h.retains
  have hlen := table.len_le_length
  rw [← hcounted.publishes] at hroom hids hsealed
  refine ⟨⟨table.revision, removed.length, counts.published, counts.reused, nextIdAfter⟩, ?_⟩
  rw [planRequestChanges, if_neg hne, hcheck, Outcome.ok_bind, hcounts, Outcome.ok_bind, if_neg (by omega),
    if_neg (by omega), if_neg (by omega), if_neg (not_not.mpr hcounted.unique), hids, Outcome.ok_bind,
    if_neg fun hboth => hsealed hboth.1 hboth.2]

theorem get_ne_panic (table : UffdRegistrationTable) (id : UffdRegistrationId) : table.get id ≠ .panic := by
  rw [get]
  split <;> simp

theorem singleOwner_ne_panic (single : Bool) (found : Option UffdOwner) (owner : UffdOwner) :
    singleOwner single found owner ≠ .panic := by
  rw [singleOwner]
  split
  · split <;> simp
  · simp

theorem findExact_ne_panic (registrations : List UffdRegistration) :
    findExact removed request registrations ≠ .panic := by
  apply Outcome.foldlM_ne_panic
  intro exact x
  split
  · simp
  · apply Outcome.guard_ne_panic
    split <;> simp

theorem advanceRegistrationIds_ne_panic (next : Option UffdRegistrationId) (count : Nat) :
    advanceRegistrationIds next count ≠ .panic := by
  induction count generalizing next with
  | zero => simp [advanceRegistrationIds]
  | succ count ih =>
      cases next with
      | none => simp [advanceRegistrationIds]
      | some raw => exact ih raw.next

theorem planRequestChanges_ne_panic (table : UffdRegistrationTable) (removed : List UffdRegistrationId)
    (requests : List UffdRegistrationRequest) (single : Bool) :
    table.planRequestChanges removed requests single ≠ .panic := by
  apply Outcome.guard_ne_panic
  apply Outcome.bind_ne_panic
  · apply Outcome.forEnum_ne_panic
    intro i id owner
    apply Outcome.guard_ne_panic
    exact Outcome.bind_ne_panic (get_ne_panic table id) fun x _ => singleOwner_ne_panic _ _ _
  intro owner _
  apply Outcome.bind_ne_panic
  · apply Outcome.forEnum_ne_panic
    intro i request counts
    refine Outcome.bind_ne_panic (singleOwner_ne_panic _ _ _) fun owner _ => Outcome.guard_ne_panic ?_
    split
    · simp
    · refine Outcome.bind_ne_panic (findExact_ne_panic _) fun exact _ => ?_
      split <;> simp
  intro counts _
  iterate 4 apply Outcome.guard_ne_panic
  refine Outcome.bind_ne_panic (advanceRegistrationIds_ne_panic _ _) fun next _ => Outcome.guard_ne_panic ?_
  simp

end UffdRegistrationTable

/-- Registrations with the identities from `next` on, up to `after`. -/
def Issued (next : Option UffdRegistrationId) : List UffdRegistration → Option UffdRegistrationId → Prop
  | [], after => next = after
  | x :: xs, after => next = some x.id ∧ Issued x.id.next xs after

section Issued

variable {next after : Option UffdRegistrationId} {xs : List UffdRegistration} {x : UffdRegistration}

theorem Issued.append (h : Issued next xs (some x.id)) : Issued next (xs ++ [x]) x.id.next := by
  induction xs generalizing next with
  | nil => exact ⟨h, rfl⟩
  | cons y xs ih => exact ⟨h.1, ih h.2⟩

theorem Issued.advance (h : Issued next xs after) : advanceRegistrationIds next xs.length = .ok after := by
  induction xs generalizing next with
  | nil =>
      cases h
      rfl
  | cons y xs ih =>
      obtain ⟨rfl, h⟩ := h
      exact ih h

/-- As long as not all identities are used that were seen to be there, one is left. -/
theorem Issued.left (h : Issued next xs after) {count : Nat} {last : Option UffdRegistrationId}
    (hcount : advanceRegistrationIds next count = .ok last) (hlt : xs.length < count) : ∃ id, after = some id := by
  induction xs generalizing next count with
  | nil =>
      cases h
      cases count with
      | zero => cases hlt
      | succ count =>
          cases after with
          | none => cases hcount
          | some id => exact ⟨id, rfl⟩
  | cons y xs ih =>
      obtain ⟨rfl, h⟩ := h
      cases count with
      | zero => cases hlt
      | succ count => exact ih h hcount (by simpa using hlt)

end Issued

namespace UffdRegistrationTable

variable {table : UffdRegistrationTable} {removed : List UffdRegistrationId} {requests : List UffdRegistrationRequest}
  {single : Bool} {plan : UffdRegistrationPlan}

/-- The records that are cleared are those that a predicate picks. -/
theorem reduceOption_clear (records : List (Option UffdRegistration)) (gone : UffdRegistration → Bool) :
    (records.map fun record => if record.any gone then none else record).reduceOption =
      records.reduceOption.filter (!gone ·) := by
  induction records with
  | nil => rfl
  | cons record records ih =>
      rw [List.map_cons]
      cases record with
      | none =>
          rw [if_neg (by simp), List.reduceOption_cons_of_none, List.reduceOption_cons_of_none]
          exact ih
      | some x =>
          cases hx : gone x with
          | true =>
              rw [if_pos (by simpa using hx), List.reduceOption_cons_of_none, List.reduceOption_cons_of_some,
                List.filter_cons_of_neg (by simpa using hx)]
              exact ih
          | false =>
              rw [if_neg (by simpa using hx), List.reduceOption_cons_of_some, List.reduceOption_cons_of_some,
                List.filter_cons_of_pos (by simpa using hx)]
              exact congrArg (x :: ·) ih

theorem retained_eq (table : UffdRegistrationTable) (removed : List UffdRegistrationId) :
    table.retained removed = table.iter.filter (fun x => !decide (x.id ∈ removed)) := by
  simp [retained]

theorem clearRemoved_nil (records : List (Option UffdRegistration)) : clearRemoved [] records = records := by
  simp [clearRemoved]

theorem Compatible.length_retained (h : Compatible table removed requests) :
    (table.retained removed).length ≤ table.len - removed.length := by
  have hsub : removed ⊆ (table.iter.filter (·.id ∈ removed)).map (·.id) := by
    intro id hid
    obtain ⟨x, hx, rfl⟩ := h.known id hid
    exact List.mem_map_of_mem (List.mem_filter.mpr ⟨hx, by simpa using hid⟩)
  have hle := (List.subperm_of_subset h.nodup hsub).length_le
  have hsplit := List.length_eq_length_filter_add (l := table.iter) (·.id ∈ removed)
  rw [List.length_map] at hle
  rw [retained_eq, len, hsplit]
  omega

/-- A position of a list, and what stands before it. -/
theorem take_of_zipIdx {α : Type} {xs : List α} {done rest : List (α × Nat)} {x : α} {i : Nat}
    (h : xs.zipIdx = done ++ (x, i) :: rest) : xs.take i = done.map Prod.fst := by
  have hlen : done.length < xs.length := by
    have := congrArg List.length h
    simp at this
    omega
  have hi : i = done.length := by
    have hget := congrArg (·[done.length]?) h
    simp only [List.getElem?_zipIdx, List.getElem?_append_right le_rfl, Nat.sub_self, List.getElem?_cons_zero,
      List.getElem?_eq_getElem hlen, Option.map_some, Option.some.injEq, Prod.mk.injEq] at hget
    omega
  have hmap := congrArg (List.map Prod.fst) h
  rw [List.zipIdx_map_fst, List.map_append] at hmap
  rw [hmap, hi, ← List.length_map (f := Prod.fst), List.take_left]

/-- The requests so far are in the table, those that were not there with new
identities. -/
structure Publishes (table : UffdRegistrationTable) (removed : List UffdRegistrationId)
    (done : List UffdRegistrationRequest) (nextId : Option UffdRegistrationId) (new : List UffdRegistration)
    (current : UffdRegistrationTable) : Prop where
  perm : current.iter.Perm (table.retained removed ++ new)
  requests : new.map (·.request) = fresh (table.held removed) done
  issued : Issued table.nextId new nextId
  capacity : current.records.length = table.records.length
  revision : current.revision = table.revision
  nextId : current.nextId = table.nextId
  same : removed = [] → new = [] → current = table

theorem Publishes.mem_request {done : List UffdRegistrationRequest} {nextId : Option UffdRegistrationId}
    {new : List UffdRegistration} {current : UffdRegistrationTable}
    (h : Publishes table removed done nextId new current) {request : UffdRegistrationRequest} :
    request ∈ current.iter.map (·.request) ↔ request ∈ done ∨ request ∈ table.held removed := by
  rw [(h.perm.map _).mem_iff, List.map_append, List.mem_append, h.requests, mem_fresh]
  change request ∈ table.held removed ∨ _ ↔ _
  tauto

theorem Publishes.start (table : UffdRegistrationTable) (removed : List UffdRegistrationId) :
    Publishes table removed [] table.nextId [] { table with records := clearRemoved removed table.records } where
  perm := by
    rw [List.append_nil, retained_eq]
    exact .of_eq (reduceOption_clear ..)
  requests := rfl
  issued := rfl
  capacity := List.length_map ..
  revision := rfl
  nextId := rfl
  same := by
    rintro rfl -
    rw [clearRemoved_nil]

theorem Publishes.skip {done : List UffdRegistrationRequest} {nextId : Option UffdRegistrationId}
    {new : List UffdRegistration} {current : UffdRegistrationTable}
    (h : Publishes table removed done nextId new current)
    {request : UffdRegistrationRequest} (hmem : request ∈ done ∨ request ∈ table.held removed) :
    Publishes table removed (done ++ [request]) nextId new current where
  perm := h.perm
  requests := by rw [fresh_append, if_pos hmem, h.requests]
  issued := h.issued
  capacity := h.capacity
  revision := h.revision
  nextId := h.nextId
  same := h.same

theorem Publishes.add {done : List UffdRegistrationRequest} {raw : UffdRegistrationId}
    {new : List UffdRegistration} {current : UffdRegistrationTable}
    (h : Publishes table removed done (some raw) new current)
    {request : UffdRegistrationRequest} (hmem : ¬ (request ∈ done ∨ request ∈ table.held removed)) {slot : Nat}
    (hslot : freeSlot current.records = some slot) :
    Publishes table removed (done ++ [request]) raw.next (new ++ [⟨raw, request⟩])
      { current with records := current.records.set slot (some ⟨raw, request⟩) } where
  perm := by
    rw [← List.append_assoc]
    exact (reduceOption_set_perm (getElem?_freeSlot hslot)).trans (h.perm.append_right _)
  requests := by rw [fresh_append, if_neg hmem, List.map_append, h.requests, List.map_singleton]
  issued := Issued.append (x := ⟨raw, request⟩) h.issued
  capacity := by rw [List.length_set, h.capacity]
  revision := h.revision
  nextId := h.nextId
  same := by simp

/-- There is room for a request that is not in the table. -/
theorem Publishes.room {done rest : List UffdRegistrationRequest} {nextId : Option UffdRegistrationId}
    {new : List UffdRegistration} {current : UffdRegistrationTable}
    (h : Publishes table removed done nextId new current)
    {request : UffdRegistrationRequest} (hmem : ¬ (request ∈ done ∨ request ∈ table.held removed))
    (hplan : Planned table removed requests plan) (hrequests : requests = done ++ request :: rest) :
    (∃ raw, nextId = some raw) ∧ ∃ slot, freeSlot current.records = some slot := by
  have hlt : new.length < plan.published := by
    have hsub : new.map (·.request) ++ [request] ⊆ fresh (table.held removed) requests := by
      intro a ha
      rw [List.mem_append, h.requests, mem_fresh, List.mem_singleton] at ha
      rw [mem_fresh, hrequests, List.mem_append]
      rcases ha with ha | rfl
      · exact ⟨.inl ha.1, ha.2⟩
      · exact ⟨.inr (by simp), fun hheld => hmem (.inr hheld)⟩
    have hnodup : (new.map (·.request) ++ [request]).Nodup := by
      have hfresh := fresh_nodup (table.held removed) (done ++ [request])
      rwa [fresh_append, if_neg hmem, ← h.requests] at hfresh
    have hle := (List.subperm_of_subset hnodup hsub).length_le
    rw [List.length_append, List.length_map, List.length_singleton, ← hplan.publishes] at hle
    exact hle
  refine ⟨h.issued.left hplan.ids hlt, freeSlot_of_length_lt ?_⟩
  have hlen := h.perm.length_eq
  have hretained := hplan.toCompatible.length_retained
  have hroom := hplan.room
  rw [List.length_append, iter] at hlen
  rw [h.capacity]
  omega

theorem publish_spec (h : Planned table removed requests plan) :
    ∃ new current, publish requests table.nextId { table with records := clearRemoved removed table.records } =
      (.ok (), current) ∧ Publishes table removed requests plan.nextIdAfter new current := by
  suffices hloop : Act.Ensures (publish requests table.nextId)
      { table with records := clearRemoved removed table.records }
      (fun _ current => ∃ new nextId, Publishes table removed requests nextId new current) (fun _ _ => False) False by
    obtain ⟨_, current, heq, new, nextId, hnew⟩ := hloop.returns
    have hlast := hnew.issued.advance
    have hlen : new.length = plan.published := by
      rw [h.publishes, ← hnew.requests, List.length_map]
    rw [hlen, h.ids] at hlast
    cases hlast
    exact ⟨new, current, heq, hnew⟩
  refine Act.Ensures.bind (Act.ensures_foldlM (I := fun done nextId current =>
    ∃ new, Publishes table removed (done.map Prod.fst) nextId new current) _ ⟨[], Publishes.start table removed⟩ ?_) ?_
  · rintro done ⟨request, index⟩ nextId current ⟨rest, hrest⟩ ⟨new, hnew⟩
    have hdone := take_of_zipIdx hrest
    have hrequests : requests = done.map Prod.fst ++ request :: rest.map Prod.fst := by
      have hmap := congrArg (List.map Prod.fst) hrest
      rwa [List.zipIdx_map_fst, List.map_append, List.map_cons] at hmap
    have hcond : (request ∈ requests.take index ∨ current.iter.any (·.request = request)) ↔
        (request ∈ done.map Prod.fst ∨ request ∈ table.held removed) := by
      have hany : current.iter.any (·.request = request) = true ↔ request ∈ current.iter.map (·.request) := by
        simp
      rw [hany, hnew.mem_request, hdone]
      tauto
    rw [List.map_append, List.map_singleton]
    apply Act.ensures_get_bind
    split
    · rename_i hmem
      exact Act.ensures_pure ⟨new, hnew.skip (hcond.mp hmem)⟩
    · rename_i hmem
      rw [hcond] at hmem
      obtain ⟨⟨raw, rfl⟩, slot, hslot⟩ := hnew.room hmem h hrequests
      apply Act.ensures_bind_of_eq (a := raw) (t := current) rfl
      apply Act.ensures_bind_of_eq (a := slot) (t := current) (by rw [hslot]; rfl)
      apply Act.ensures_set_bind
      exact Act.ensures_pure ⟨_, hnew.add hmem hslot⟩
  · rintro nextId current ⟨new, hnew⟩
    rw [List.zipIdx_map_fst] at hnew
    exact Act.ensures_pure ⟨new, nextId, hnew⟩

theorem visit_spec (h : ∀ request ∈ requests, request ∈ table.iter.map (·.request)) :
    ∃ visited, visit requests table = (.ok visited, table) ∧ visited.map (·.request) = fresh [] requests ∧
      ∀ x ∈ visited, x ∈ table.iter := by
  suffices hloop : Act.Ensures (visit requests) table (fun visited current => current = table ∧
      visited.map (·.request) = fresh [] requests ∧ ∀ x ∈ visited, x ∈ table.iter) (fun _ _ => False) False by
    obtain ⟨visited, current, heq, rfl, hvisited⟩ := hloop.returns
    exact ⟨visited, heq, hvisited⟩
  refine (Act.ensures_foldlM (I := fun done visited current => current = table ∧
    visited.map (·.request) = fresh [] (done.map Prod.fst) ∧ ∀ x ∈ visited, x ∈ table.iter) _ ⟨rfl, rfl, by
      simp⟩ ?_).imp ?_ id
  · rintro done ⟨request, index⟩ visited current ⟨rest, hrest⟩ ⟨rfl, hmap, hin⟩
    have hdone := take_of_zipIdx hrest
    have hmem : request ∈ requests := by
      have hzip : (request, index) ∈ requests.zipIdx := by
        rw [hrest]
        simp
      exact List.fst_mem_of_mem_zipIdx hzip
    simp only [List.map_append, List.map_singleton, fresh_append, List.not_mem_nil, or_false]
    rw [hdone]
    split
    · exact Act.ensures_pure ⟨rfl, hmap, hin⟩
    · obtain ⟨y, hy, hyrequest⟩ := List.mem_map.mp (h request hmem)
      obtain ⟨x, hx⟩ : ∃ x, current.iter.find? (·.request = request) = some x :=
        Option.isSome_iff_exists.mp (List.find?_isSome.mpr ⟨y, hy, by simpa using hyrequest⟩)
      have hxrequest : x.request = request := by simpa using List.find?_some hx
      apply Act.ensures_get_bind
      apply Act.ensures_bind_of_eq (a := x) (t := current) (by rw [hx]; rfl)
      refine Act.ensures_pure ⟨rfl, by rw [List.map_append, hmap, List.map_singleton, hxrequest], ?_⟩
      intro z hz
      rcases List.mem_append.mp hz with hz | hz
      · exact hin z hz
      · rw [List.mem_singleton] at hz
        subst hz
        exact List.mem_of_find?_eq_some hx
  · rintro visited current ⟨rfl, hmap, hin⟩
    rw [List.zipIdx_map_fst] at hmap
    exact ⟨rfl, hmap, hin⟩

/-- A batch is in the table: what it removes is gone, its requests are there,
and those that were not there before are the new registrations. -/
structure Committed (table : UffdRegistrationTable) (removed : List UffdRegistrationId)
    (requests : List UffdRegistrationRequest) (new : List UffdRegistration) (after : UffdRegistrationTable) : Prop where
  perm : after.iter.Perm (table.retained removed ++ new)
  requests : new.map (·.request) = fresh (table.held removed) requests
  issued : Issued table.nextId new after.nextId
  capacity : after.records.length = table.records.length
  revision : after.revision =
    if (removed ≠ [] ∨ new ≠ []) ∧ table.revision ≠ wordMax then table.revision + 1 else table.revision
  unsealed : new ≠ [] → table.revision ≠ wordMax
  same : removed = [] → new = [] → after = table

theorem commitRequestChanges_of_plan (h : table.planRequestChanges removed requests single = .ok plan) :
    ∃ visited new after, commitRequestChanges plan removed requests single table =
        (.ok (⟨plan.removed, plan.published, plan.reused⟩, visited), after) ∧
      Committed table removed requests new after ∧ visited.map (·.request) = fresh [] requests ∧
      ∀ x ∈ visited, x ∈ after.iter := by
  have hplan := planRequestChanges_eq_ok h
  obtain ⟨new, current, hpublish, hnew⟩ := publish_spec hplan
  have hlen : plan.published = new.length := by
    rw [hplan.publishes, ← hnew.requests, List.length_map]
  have hchanges : plan.changesTable = true ↔ removed ≠ [] ∨ new ≠ [] := by
    rw [UffdRegistrationPlan.changesTable, decide_eq_true_eq, hplan.removes, hlen, ne_eq, ne_eq,
      List.length_eq_zero_iff, List.length_eq_zero_iff]
  let after : UffdRegistrationTable := if plan.changesTable ∧ current.revision ≠ wordMax then
    { current with nextId := plan.nextIdAfter, revision := current.revision + 1 }
    else { current with nextId := plan.nextIdAfter }
  have hafter : after.iter = current.iter ∧ after.records = current.records ∧ after.nextId = plan.nextIdAfter := by
    simp only [after]
    split <;> exact ⟨rfl, rfl, rfl⟩
  have hin : ∀ request ∈ requests, request ∈ after.iter.map (·.request) := by
    intro request hmem
    rw [hafter.1]
    exact hnew.mem_request.mpr (.inl hmem)
  obtain ⟨visited, hvisit, hvisited⟩ := visit_spec hin
  refine ⟨visited, new, after, ?_, ?_, hvisited⟩
  · simp only [commitRequestChanges, Act.get_bind]
    rw [if_neg (not_not.mpr hplan.revision.symm), h, Act.lift_ok_bind, if_neg (by simp), Act.set_bind, Act.bind_apply,
      hpublish]
    simp only [Act.modify_bind]
    rw [Act.bind_apply]
    have htable : (if plan.changesTable = true ∧ current.revision ≠ wordMax then
        { current with nextId := plan.nextIdAfter, revision := current.revision + 1 }
        else { current with nextId := plan.nextIdAfter }) = after := rfl
    simp only [ne_eq] at htable
    rw [htable, hvisit]
    rfl
  · exact {
      perm := by
        rw [hafter.1]
        exact hnew.perm
      requests := hnew.requests
      issued := by
        rw [hafter.2.2]
        exact hnew.issued
      capacity := by rw [hafter.2.1, hnew.capacity]
      revision := by
        simp only [after, hchanges, hnew.revision]
        split <;> rfl
      unsealed := fun hne => hplan.unsealed (by rw [hlen]; simpa using hne)
      same := by
        intro hremoved hnil
        have hids := hnew.issued
        rw [hnil] at hids
        have hno : ¬ (plan.changesTable ∧ current.revision ≠ wordMax) := by
          rw [hchanges]
          tauto
        simp only [after, if_neg hno]
        rw [hnew.same hremoved hnil, ← hids] }

/-- A commit either fails and leaves the table as it is, or its plan is the
one that the table gives, and then the whole batch is in the table. -/
theorem commitRequestChanges_cases (table : UffdRegistrationTable) (plan : UffdRegistrationPlan)
    (removed : List UffdRegistrationId) (requests : List UffdRegistrationRequest) (single : Bool) :
    (∃ error, commitRequestChanges plan removed requests single table = (.err error, table)) ∨
      table.planRequestChanges removed requests single = .ok plan := by
  by_cases hrevision : table.revision = plan.revision
  · cases hplan : table.planRequestChanges removed requests single with
    | ok current =>
        by_cases heq : current = plan
        · exact .inr (by rw [heq])
        · refine .inl ⟨.staleGeneration, ?_⟩
          simp [commitRequestChanges, hrevision, hplan, heq]
    | err error =>
        refine .inl ⟨error, ?_⟩
        simp [commitRequestChanges, hrevision, hplan]
    | panic => exact absurd hplan (planRequestChanges_ne_panic _ _ _ _)
  · refine .inl ⟨.staleGeneration, ?_⟩
    simp [commitRequestChanges, hrevision]

end UffdRegistrationTable

end TheKernel.Mm
