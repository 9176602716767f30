import TheKernel.MemorySet.Consistent
import TheKernel.MemorySet.Unmap

namespace TheKernel.MemorySet

open Act

variable {F B E R L ε : Type} {backend : MappingBackend F B E R} {mode : UnmapMode} {ℓ : B → Nat → L} {range : Range}
  {c : Call F B E R} {memory : Nat → Bool} {maxAreas : Nat} {panic : Prop}

section Checks

theorem tryReserve_spec (site count : Nat) : Ensures (tryReserve memory site count) c (fun _ d => d = c)
    (fun _ d => d = c) panic := by
  rw [tryReserve]
  split
  · exact ensures_pure rfl
  · exact ensures_fail rfl

theorem checkAreaLimit_spec (count : Nat) :
    Ensures (checkAreaLimit count maxAreas) c (fun _ d => d = c ∧ count ≤ maxAreas) (fun _ d => d = c) panic := by
  rw [checkAreaLimit]
  split
  · exact ensures_fail rfl
  · exact ensures_pure ⟨rfl, by omega⟩

theorem modeReserve_spec (site unmaps completeAreas : Nat) :
    Ensures (modeReserve mode memory site unmaps completeAreas) c (fun _ d => d = c) (fun _ d => d = c) panic := by
  cases mode with
  | immediate => exact ensures_pure rfl
  | deferred =>
      refine (tryReserve_spec site unmaps).bind ?_
      rintro _ _ rfl
      exact tryReserve_spec (site + 1) completeAreas

theorem addOrNoMemory_eq_ok {a b n : Nat} (h : addOrNoMemory a b = .ok n) : n = a + b := by
  rw [addOrNoMemory] at h
  split at h
  · rename_i hadd
    cases h
    exact (checkedAdd_eq_some.mp hadd).1.symm
  · cases h

theorem addOrNoMemory_spec (a b : Nat) :
    Ensures (lift (addOrNoMemory a b)) c (fun n d => d = c ∧ n = a + b) (fun _ d => d = c) panic := by
  refine ensures_lift (fun n hn => ⟨rfl, addOrNoMemory_eq_ok hn⟩) (fun _ _ => rfl) (fun h => ?_)
  rw [addOrNoMemory] at h
  split at h <;> cases h

theorem fragmentCountAfterUnmap_spec (range : Range) :
    Ensures (lift (fragmentCountAfterUnmap c.set.areas range)) c
      (fun n d => d = c ∧ n = c.set.areas.size - (iterOverlapping c.set.areas range).length +
        ((iterOverlapping c.set.areas range).map (fragments range)).sum) (fun _ d => d = c) panic := by
  refine ensures_lift (fun n hn => ⟨rfl, ?_⟩) (fun _ _ => rfl) (fun h => ?_)
  · simp only [fragmentCountAfterUnmap] at hn
    split at hn
    · cases hn
    · exact addOrNoMemory_eq_ok hn
  · simp only [fragmentCountAfterUnmap, addOrNoMemory] at h
    split at h
    · cases h
    · split at h <;> cases h

theorem rangeFrom_spec (start size : Nat) :
    Ensures (lift (rangeFrom start size)) c (fun r d => d = c ∧ r = (start, start + size) ∧ start + size ≤ usizeMax)
      (fun _ d => d = c) panic := by
  refine ensures_lift (fun r hr => ?_) (fun _ _ => rfl) (fun h => ?_)
  · rw [rangeFrom] at hr
    split at hr
    · rename_i hadd
      cases hr
      obtain ⟨rfl, hle⟩ := checkedAdd_eq_some.mp hadd
      exact ⟨rfl, rfl, hle⟩
    · cases hr
  · rw [rangeFrom] at h
    split at h <;> cases h

theorem preflightUnmap_spec (h : Ordered c.set.areas) (hlt : range.1 < range.2) :
    Ensures (preflightUnmap backend range) c (fun _ d => d = c ∧ Pending backend range c.table c)
      (fun _ d => d = c) panic := by
  refine ensures_get_bind ?_
  split
  · rename_i hall
    refine ensures_pure ⟨rfl, fun k a hget hover => ⟨?_, fun _ x _ => rfl⟩⟩
    have hover' := Area.overlaps_iff.mp hover
    have hne := h.nonempty k a hget
    have hkey := h.key k a hget
    rw [List.all_eq_true] at hall
    have hmem : a ∈ (c.set.areas.range (firstStart c.set.areas range.1) range.2).map (·.2) := by
      refine List.mem_map.mpr ⟨(k, a), SortedMap.mem_range.mpr ⟨hget, h.firstStart_le_key hget hover'.2, ?_⟩, rfl⟩
      dsimp only
      omega
    have ha := hall a hmem
    simp only [preflightUnmapArea, decide_eq_true_eq] at ha
    refine ha.resolve_left fun hempty => hempty ?_
    simp only [clip]
    omega
  · exact ensures_fail rfl

theorem admitUnmap_spec (h : Ordered c.set.areas) (hlt : range.1 < range.2) :
    Ensures (admitUnmap backend mode memory range maxAreas) c
      (fun _ d => d = c ∧ Pending backend range c.table c ∧
        max c.set.areas.size (c.set.areas.size - (iterOverlapping c.set.areas range).length +
          ((iterOverlapping c.set.areas range).map (fragments range)).sum) ≤ maxAreas)
      (fun _ d => d = c) panic := by
  refine ensures_get_bind ((fragmentCountAfterUnmap_spec range).bind ?_)
  rintro n _ ⟨rfl, rfl⟩
  refine (checkAreaLimit_spec _).bind ?_
  rintro - _ ⟨rfl, hmax⟩
  refine (tryReserve_spec _ _).bind ?_
  rintro - _ rfl
  refine (modeReserve_spec _ _ _).bind ?_
  rintro - _ rfl
  exact (preflightUnmap_spec h hlt).mono (fun _ d hd => ⟨hd.1, hd.2, hmax⟩) (fun _ _ => id) id

end Checks

section Unmap

theorem modeFinish_apply : (modeFinish : Act (Call F B E R) ε (UnmapRetirement F B R)) c = (.ok c.retirement, c) := rfl

theorem Consistent.unmapped {d : Call F B E R} (h : Consistent c.set) (hlt : range.1 < range.2)
    (hd : Unmapped ℓ range c d) : Consistent d.set := by
  obtain ⟨⟨areas, gaps, revision⟩, table, retirement, peak⟩ := d
  obtain ⟨hord, hview, hgaps, -⟩ := hd
  dsimp only at hord hview hgaps ⊢
  subst hgaps
  refine h.release hord hlt fun x => ?_
  rw [← view_eq_none (ℓ := ℓ), hview x, ← view_eq_none (ℓ := ℓ)]
  by_cases hx : range.1 ≤ x ∧ x < range.2
  · rw [if_pos hx]
    exact ⟨fun _ => .inr hx, fun _ => rfl⟩
  · rw [if_neg hx]
    exact ⟨.inl, fun hor => hor.resolve_right hx⟩

theorem unmapWithLimitInner_spec [DecidableEq F] (h : Consistent c.set) (hloc : Interchangeable backend ℓ)
    (start size : Nat) : Ensures (unmapWithLimitInner backend mode memory start size maxAreas) c
      (fun _ d => start + size ≤ usizeMax ∧ (size = 0 ∧ d = c ∨
        0 < size ∧ Unmapped ℓ (start, start + size) c d ∧ Consistent d.set ∧
          max c.set.areas.size (c.set.areas.size - (iterOverlapping c.set.areas (start, start + size)).length +
            ((iterOverlapping c.set.areas (start, start + size)).map (fragments (start, start + size))).sum) ≤
              maxAreas))
      (fun _ d => d = c) (¬ Honest backend) := by
  refine (rangeFrom_spec start size).bind ?_
  rintro r _ ⟨rfl, rfl, hbound⟩
  dsimp only
  split
  · exact ensures_of_eq modeFinish_apply ⟨hbound, .inl ⟨by omega, rfl⟩⟩
  · have hlt : start < start + size := by omega
    refine (admitUnmap_spec h.ordered hlt).bind ?_
    rintro - _ ⟨rfl, hpending, hmax⟩
    refine ensures_get_bind ((commitUnmap_spec (ℓ := ℓ) h.ordered hloc hlt hpending).bind fun _ d hd => ?_)
    exact ensures_of_eq modeFinish_apply ⟨hbound, .inr ⟨by omega, hd, h.unmapped hlt hd, hmax⟩⟩

structure Retired (backend : MappingBackend F B E R) (c : Call F B E R) (gone : List Nat) (d : Call F B E R) :
    Prop where
  consistent : Consistent d.set
  get? : ∀ k, d.set.areas.get? k = if k ∈ gone then none else c.set.areas.get? k
  revision : d.set.revision = c.set.revision
  table : Honest backend → ∀ k a, d.set.areas.get? k = some a → Agree a.range c.table d.table

def Admitted (backend : MappingBackend F B E R) (c : Call F B E R) (k : Nat) : Prop :=
  ∃ a, c.set.areas.get? k = some a ∧ backend.preflightUnmap a.backend a.start a.size c.table = true

theorem retireSelected_spec {d : Call F B E R} {gone : List Nat} {k : Nat} {err : ε → Call F B E R → Prop}
    (h : Retired backend c gone d) (hk : k ∉ gone) (hadm : Admitted backend c k) :
    Ensures (retireSelected backend k : Act (Call F B E R) ε Unit) d
      (fun _ e => Retired backend c (gone ++ [k]) e) err (¬ Honest backend) := by
  obtain ⟨a, hget, hpre⟩ := hadm
  have hget' : d.set.areas.get? k = some a := by
    rw [h.get?, if_neg hk]
    exact hget
  have hord := h.consistent.ordered
  have hne := hord.nonempty k a hget'
  refine ensures_bind_of_eq (areaAt_apply hget') ?_
  refine (modeUnmap_spec (Nat.le_of_lt hne) hpre (fun hon => h.table hon k a hget')).bind fun _ e he => ?_
  have hgete : e.set.areas.get? k = some a := by
    rw [he.set]
    exact hget'
  refine ensures_bind_of_eq (removeArea_apply hgete) (ensures_bind_of_eq (modify_apply _ _) ?_)
  refine (retireArea_spec a).mono ?_ (fun _ _ => id) id
  rintro - f ⟨hset, -, htable⟩
  simp only [Call.withAreas_areas, Call.withAreas_gaps, Call.withAreas_revision, Call.withAreas_table,
    he.set] at hset htable
  refine ⟨?_, fun j => ?_, ?_, fun hon j b hj => ?_⟩
  · rw [hset]
    refine h.consistent.release (hord.erase k) hne fun x => ?_
    rw [hord.find_erase hget']
    by_cases hx : a.start ≤ x ∧ x < a.stop
    · rw [if_pos hx]
      exact ⟨fun _ => .inr hx, fun _ => rfl⟩
    · rw [if_neg hx]
      exact ⟨.inl, fun hor => hor.resolve_right hx⟩
  · rw [hset, SortedMap.get?_erase, h.get?]
    by_cases hj : j = k <;> simp [hj]
  · rw [hset]
    exact h.revision
  · rw [hset, SortedMap.get?_erase] at hj
    split at hj
    · cases hj
    · rename_i hjk
      intro x hx
      rw [htable, he.frame hon x]
      · exact h.table hon j b hj x hx
      · intro hx'
        have heq := hord.unique hj hget' hx.1 hx.2 hx'.1 hx'.2
        have hkey := hord.key j b hj
        rw [heq, hord.key k a hget'] at hkey
        exact hjk hkey.symm

theorem commitSelected_spec (h : Consistent c.set) {selected : List Nat} {err : ε → Call F B E R → Prop}
    (hnodup : selected.Nodup) (hadm : ∀ k ∈ selected, Admitted backend c k) :
    Ensures (commitSelected backend selected : Act (Call F B E R) ε (UnmapRetirement F B R)) c
      (fun _ d => Consistent d.set ∧ (d.set.areas = c.set.areas ∧ d.set.revision = c.set.revision ∨
        d.set.revision = (c.set.revision + 1) % 2 ^ 64))
      err (¬ Honest backend) := by
  refine Ensures.bind (ensures_each (I := fun gone rest d => gone ++ rest = selected ∧ Retired backend c gone d) _
    ⟨rfl, h, by simp, rfl, fun _ _ _ _ _ _ => rfl⟩ ?_) ?_
  · rintro gone k rest d ⟨hlist, hd⟩
    have hk : k ∉ gone := by
      intro hmem
      rw [← hlist] at hnodup
      exact (List.nodup_append.mp hnodup).2.2 k hmem k (by simp) rfl
    exact (retireSelected_spec hd hk (hadm k (by simp [← hlist]))).mono
      (fun _ e he => ⟨by simp [hlist], he⟩) (fun _ _ => id) id
  · rintro - d ⟨-, hd⟩
    split
    · rename_i hempty
      refine ensures_of_eq modeFinish_apply ⟨hd.consistent, .inl ⟨SortedMap.ext fun k => ?_, hd.revision⟩⟩
      rw [hd.get?, hempty, if_neg List.not_mem_nil]
    · refine ensures_bind_of_eq (modify_apply _ _) (ensures_of_eq modeFinish_apply ⟨?_, .inr ?_⟩)
      · exact hd.consistent.recover hd.consistent.ordered fun _ => Iff.rfl
      · simp only [hd.revision]

theorem preflightWhole_spec (areas : List (Area F B)) :
    Ensures (preflightWhole backend areas) c
      (fun _ d => d = c ∧ ∀ a ∈ areas, backend.preflightUnmap a.backend a.start a.size c.table = true)
      (fun _ d => d = c) panic := by
  refine ensures_get_bind ?_
  split
  · rename_i hall
    exact ensures_pure ⟨rfl, List.all_eq_true.mp hall⟩
  · exact ensures_fail rfl

theorem unmapMatchingDeferredWithLimit_spec (h : Consistent c.set) (shouldUnmap : B → Bool) :
    Ensures (unmapMatchingDeferredWithLimit backend memory shouldUnmap maxAreas) c
      (fun _ d => Consistent d.set ∧ (d.set.areas = c.set.areas ∧ d.set.revision = c.set.revision ∨
        d.set.revision = (c.set.revision + 1) % 2 ^ 64))
      (fun _ d => d = c) (¬ Honest backend) := by
  refine ensures_get_bind ((checkAreaLimit_spec _).bind ?_)
  rintro - _ ⟨rfl, -⟩
  refine (tryReserve_spec _ _).bind ?_
  rintro - _ rfl
  refine (modeReserve_spec _ _ _).bind ?_
  rintro - _ rfl
  refine (preflightWhole_spec _).bind ?_
  rintro - d ⟨rfl, hpre⟩
  have hnodup : ((d.set.areas.entries.filter (fun e => shouldUnmap e.2.backend)).map (·.1)).Nodup :=
    List.Pairwise.map _ (fun e e' hlt => hlt.ne) (d.set.areas.sorted.filter _)
  refine commitSelected_spec h hnodup fun k hk => ?_
  obtain ⟨⟨k, a⟩, hmem, rfl⟩ := List.mem_map.mp hk
  exact ⟨a, SortedMap.mem_entries.mp (List.mem_filter.mp hmem).1, hpre a (List.mem_map.mpr ⟨(k, a), hmem, rfl⟩)⟩

theorem nodup_of_strictlyIncreasing {xs : List Nat} (h : strictlyIncreasing xs = true) : xs.Nodup := by
  suffices hsorted : xs.Pairwise (· < ·) from hsorted.imp ne_of_lt
  induction xs with
  | nil => exact .nil
  | cons a xs ih =>
      cases xs with
      | nil => exact List.pairwise_singleton _ _
      | cons b xs =>
          rw [strictlyIncreasing, Bool.and_eq_true, decide_eq_true_eq] at h
          have hrest := ih h.2
          refine List.pairwise_cons.mpr ⟨fun x hx => ?_, hrest⟩
          rcases List.mem_cons.mp hx with rfl | hx
          · exact h.1
          · exact h.1.trans (List.rel_of_pairwise_cons hrest hx)

theorem unmapSelectedDeferredWithLimit_spec (h : Consistent c.set) (selected : List Nat) (shouldUnmap : B → Bool) :
    Ensures (unmapSelectedDeferredWithLimit backend memory selected shouldUnmap maxAreas) c
      (fun _ d => Consistent d.set ∧ (d.set.areas = c.set.areas ∧ d.set.revision = c.set.revision ∨
        d.set.revision = (c.set.revision + 1) % 2 ^ 64))
      (fun _ d => d = c) (¬ Honest backend) := by
  refine ensures_get_bind ((checkAreaLimit_spec _).bind ?_)
  rintro - d ⟨rfl, -⟩
  split
  · rename_i hinc
    refine (modeReserve_spec _ _ _).bind ?_
    rintro - d rfl
    split
    · rename_i hall
      refine commitSelected_spec h (nodup_of_strictlyIncreasing hinc) fun k hk => ?_
      have hsel := List.all_eq_true.mp hall k hk
      rw [selectable] at hsel
      split at hsel
      · cases hsel
      · rename_i a hget
        exact ⟨a, hget, (Bool.and_eq_true _ _ ▸ hsel).2⟩
    · exact ensures_fail rfl
  · exact ensures_fail rfl

theorem clearInner_spec (h : Consistent c.set) :
    Ensures (clearInner backend mode memory) c
      (fun _ d => d.set = ⟨SortedMap.empty, GapIndex.new, (c.set.revision + 1) % 2 ^ 64⟩)
      (fun _ d => d = c) (¬ Honest backend) := by
  refine ensures_get_bind ((modeReserve_spec _ _ _).bind ?_)
  rintro - _ rfl
  refine (preflightWhole_spec _).bind ?_
  rintro - d ⟨rfl, hpre⟩
  have hmem (a : Area F B) (ha : a ∈ d.set.areas.entries.map (·.2)) : ∃ k, d.set.areas.get? k = some a := by
    obtain ⟨⟨k, b⟩, hb, rfl⟩ := List.mem_map.mp ha
    exact ⟨k, SortedMap.mem_entries.mp hb⟩
  have happart : (d.set.areas.entries.map (·.2)).Pairwise (fun a b => a.stop ≤ b.start) := by
    refine List.Pairwise.map _ (fun e e' he => he) (d.set.areas.sorted.imp_of_mem ?_)
    rintro ⟨k, a⟩ ⟨k', a'⟩ ha ha' hlt
    rw [SortedMap.mem_entries] at ha ha'
    have := h.ordered.apart k a k' a' ha ha' hlt
    rwa [← h.ordered.key k' a' ha'] at this
  refine Ensures.bind (ensures_each (I := fun gone rest e => gone ++ rest = d.set.areas.entries.map (·.2) ∧
    e.set = d.set ∧
    (Honest backend → ∀ a ∈ rest, Agree a.range d.table e.table)) _ ⟨rfl, rfl, fun _ _ _ _ _ => rfl⟩ ?_) ?_
  · rintro gone a rest e ⟨hlist, hset, hagree⟩
    have ha : a ∈ d.set.areas.entries.map (·.2) := by simp [← hlist]
    obtain ⟨k, hget⟩ := hmem a ha
    refine (modeUnmap_spec (Nat.le_of_lt (h.ordered.nonempty k a hget)) (hpre a ha)
      (fun hon => hagree hon a (by simp))).mono ?_ (fun _ _ => False.elim) id
    intro _ f hf
    refine ⟨by simp [hlist], hf.set.trans hset, fun hon b hb x hx => ?_⟩
    rw [hf.frame hon x]
    · exact hagree hon b (by simp [hb]) x hx
    · intro hx'
      rw [← hlist] at happart
      have hle := List.rel_of_pairwise_cons (List.pairwise_append.mp happart).2.1 hb
      have hlow : b.start ≤ x := hx.1
      have hhigh : x < a.stop := hx'.2
      omega
  · rintro - e ⟨-, hset, -⟩
    refine ensures_bind_of_eq (putAreas_apply _) ?_
    refine Ensures.bind (ensures_each (I := fun _ _ f => f.set = { d.set with areas := SortedMap.empty }) _
      (by rw [← hset]; rfl) ?_) ?_
    · intro _ a _ f hf
      exact (retireArea_spec a).mono (fun _ g hg => hg.1.trans hf) (fun _ _ => False.elim) id
    · intro _ f hf
      refine ensures_bind_of_eq (modify_apply _ _) (ensures_bind_of_eq (modify_apply _ _)
        (ensures_of_eq modeFinish_apply ?_))
      simp only [hf]

end Unmap

section Map

variable [DecidableEq F]

/-- What `makeRoom` leaves: a free range, and room for one more area. -/
structure Room (ℓ : B → Nat → L) (range : Range) (unmapOverlap : Bool) (maxAreas : Nat) (c d : Call F B E R) :
    Prop where
  consistent : Consistent d.set
  free : ∀ x, InRange range x → find d.set.areas x = none
  view : ∀ x, view ℓ d.set.areas x = if range.1 ≤ x ∧ x < range.2 then none else view ℓ c.set.areas x
  keep : unmapOverlap = false → d = c
  size : d.set.areas.size + 1 ≤ maxAreas
  peak : d.peak ≤ max c.peak maxAreas
  revision : d.set = c.set ∨ d.set.revision = (c.set.revision + 1) % 2 ^ 64

theorem makeRoom_spec (range : Range) (h : Consistent c.set) (hloc : Interchangeable backend ℓ)
    (hlt : range.1 < range.2) (unmapOverlap : Bool) :
    Ensures (makeRoom backend memory range unmapOverlap maxAreas) c
      (fun _ d => Room ℓ range unmapOverlap maxAreas c d) (fun _ d => d = c) (¬ Honest backend) := by
  refine ensures_get_bind ?_
  split
  · split
    · rename_i hoverlap
      refine (fragmentCountAfterUnmap_spec range).bind ?_
      rintro n _ ⟨rfl, rfl⟩
      refine (addOrNoMemory_spec _ 1).bind ?_
      rintro n _ ⟨rfl, rfl⟩
      refine (checkAreaLimit_spec _).bind ?_
      rintro - d ⟨rfl, hmax⟩
      refine (unmapWithLimitInner_spec h hloc range.1 (range.2 - range.1)).bind ?_
      rintro - e ⟨-, hd⟩
      rcases hd with ⟨hzero, -⟩ | ⟨-, hun, hcons, -⟩
      · omega
      · have hrange : (range.1, range.1 + (range.2 - range.1)) = range :=
          Prod.ext rfl (by dsimp only; omega)
        rw [hrange] at hun
        have hsize := hun.size
        have hpeak := hun.peak
        refine ensures_pure ⟨hcons, fun x hx => ?_, hun.view, ?_, by omega, by omega, .inr hun.revision⟩
        · rw [← view_eq_none (ℓ := ℓ), hun.view]
          exact if_pos hx
        · intro hfalse
          rw [hoverlap] at hfalse
          cases hfalse
    · exact ensures_fail rfl
  · rename_i hover
    refine (addOrNoMemory_spec _ 1).bind ?_
    rintro n _ ⟨rfl, rfl⟩
    refine (checkAreaLimit_spec _).mono ?_ (fun _ _ => id) id
    rintro - d ⟨rfl, hmax⟩
    have hnone : ∀ k a, d.set.areas.get? k = some a → a.overlaps range = false := by
      intro k a hget
      by_contra hnot
      exact hover (h.ordered.overlapsAny_iff.mpr ⟨k, a, hget, by simpa using hnot⟩)
    have hfree := (h.ordered.free_iff hlt).mpr hnone
    refine ⟨h, hfree, fun x => ?_, fun _ => rfl, hmax, Nat.le_max_left _ _, .inl rfl⟩
    split
    · rename_i hx
      exact view_eq_none.mpr (hfree x hx)
    · rfl

structure Mapped (ℓ : B → Nat → L) (area : Area F B) (unmapOverlap : Bool) (maxAreas : Nat) (c d : Call F B E R) :
    Prop where
  consistent : Consistent d.set
  view : ∀ x, view ℓ d.set.areas x =
    if area.start ≤ x ∧ x < area.stop then some (area.cell ℓ x) else view ℓ c.set.areas x
  vacant : unmapOverlap = false → ∀ x, area.start ≤ x → x < area.stop → MemorySet.view ℓ c.set.areas x = none
  peak : d.peak ≤ max c.peak maxAreas
  revision : d.set.revision = (c.set.revision + 1) % 2 ^ 64 ∨ d.set.revision = (c.set.revision + 2) % 2 ^ 64

/-- How a map fails: without a change, or, once the range is free, with what
the backend's `map` left of the table when it failed. -/
structure MapFailed (backend : MappingBackend F B E R) (ℓ : B → Nat → L) (area : Area F B) (unmapOverlap : Bool)
    (maxAreas : Nat) (c : Call F B E R) (e : MappingError) (d : Call F B E R) : Prop where
  consistent : Consistent d.set
  peak : d.peak ≤ max c.peak maxAreas
  revision : d.set = c.set ∨ d.set.revision = (c.set.revision + 1) % 2 ^ 64
  keep : unmapOverlap = false → d = c ∨ e = .badState ∧
    (backend.map area.backend area.start area.size area.flags c.table).1 = false ∧
    d = { c with table := (backend.map area.backend area.start area.size area.flags c.table).2 }

theorem mapWithLimit_spec (h : Consistent c.set) (hloc : Interchangeable backend ℓ) {area : Area F B}
    (hbound : area.stop ≤ usizeMax) (unmapOverlap : Bool) :
    Ensures (mapWithLimit backend memory area unmapOverlap maxAreas) c
      (fun _ d => area.start < area.stop ∧ Mapped ℓ area unmapOverlap maxAreas c d)
      (fun e d => MapFailed backend ℓ area unmapOverlap maxAreas c e d) (¬ Honest backend) := by
  have hsame (e : MappingError) : MapFailed backend ℓ area unmapOverlap maxAreas c e c :=
    ⟨h, Nat.le_max_left _ _, .inl rfl, fun _ => .inl rfl⟩
  rw [mapWithLimit]
  split
  · exact ensures_fail (hsame _)
  · rename_i hlt
    have hlt' : area.start < area.stop := by omega
    refine Ensures.bind ((makeRoom_spec (ℓ := ℓ) area.range h hloc hlt' unmapOverlap).mono
      (fun _ _ => id) (fun e d hd => hd ▸ hsame e) id) fun _ d hd => ?_
    refine Ensures.bind (p := fun _ e => e = { d with
      table := (backend.map area.backend area.start area.size area.flags d.table).2 }) ?_ ?_
    · rw [Ensures, mapArea]
      cases hres : (backend.map area.backend area.start area.size area.flags d.table).1 with
      | true => rfl
      | false =>
          refine ⟨hd.consistent, hd.peak, hd.revision, fun hkeep => ?_⟩
          have hsame := hd.keep hkeep
          rw [hsame] at hres
          rw [hsame]
          exact .inr ⟨rfl, hres, rfl⟩
    · rintro - e rfl
      have hord := hd.consistent.ordered
      have hfree (x : Nat) (hx : area.start ≤ x) (hx' : x < area.stop) : find d.set.areas x = none :=
        hd.free x ⟨hx, hx'⟩
      obtain ⟨gaps, hgaps, hcons⟩ := hd.consistent.occupy (ε := MappingError) area.range hlt' hd.free
        (hord.insert hlt' hbound hfree) (fun x => by
          rw [hord.find_insert hlt' hbound hfree]
          by_cases hx : area.start ≤ x ∧ x < area.stop
          · rw [if_pos hx]
            exact ⟨(by simp), fun hout => absurd hx hout.2⟩
          · rw [if_neg hx]
            exact ⟨fun hnone => ⟨hnone, hx⟩, And.left⟩)
      have hnone := hord.get?_of_free (hfree area.start (Nat.le_refl _) hlt')
      have hsize := SortedMap.size_insert_of_none (v := area) hnone
      refine ensures_bind_of_eq (a := ()) (t := { d with
        set := { d.set with gaps := gaps }
        table := (backend.map area.backend area.start area.size area.flags d.table).2 }) ?_ ?_
      · rw [occupyGap, get_bind]
        dsimp only
        rw [hgaps]
        rfl
      · refine ensures_bind_of_eq (insertArea_apply hnone) ?_
        refine (mergeAdjacentAt_spec (ℓ := ℓ) area.start (hord.insert hlt' hbound hfree) hloc).bind fun _ e he => ?_
        have hmerge := he.view
        have hpeak := he.peak
        have hroom := hd.size
        have hroom' := hd.peak
        simp only [Call.withAreas_areas, Call.withAreas_peak] at hmerge hpeak
        refine ensures_modify ⟨hlt', ?_, fun x => ?_, fun hkeep x hx hx' => ?_, ?_, ?_⟩
        · refine ⟨he.ordered, ?_⟩
          obtain ⟨m, hm, hfm⟩ := (hcons 0).tracked
          refine ⟨m, ?_, fun x => ?_⟩
          · rw [he.gaps]
            exact hm
          · rw [he.gaps, ← view_eq_none (ℓ := ℓ), hmerge x, view_eq_none]
            exact hfm x
        · simp only
          rw [hmerge, hord.view_insert hlt' hbound hfree, hd.view]
          split
          · rfl
          · rename_i hx
            exact if_neg hx
        · rw [view_eq_none, ← hd.keep hkeep]
          exact hfree x hx hx'
        · simp only
          omega
        · simp only
          rw [he.revision]
          simp only [Call.withAreas_revision]
          rcases hd.revision with hrev | hrev
          · rw [hrev]
            exact .inl rfl
          · rw [hrev]
            right
            omega

end Map

end TheKernel.MemorySet
