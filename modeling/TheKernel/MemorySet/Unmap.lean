import TheKernel.MemorySet.Merge

namespace TheKernel.MemorySet

open Act

variable {F B E R L ε : Type}

def Agree (range : Range) (t t' : Table E) : Prop := ∀ x, InRange range x → t' x = t x

/-- What the backend traits ask of an implementation: an operation whose
preflight returned true does not fail while the table is unchanged on its
range, and it touches nothing outside its range. -/
structure Honest (backend : MappingBackend F B E R) : Prop where
  unmap : ∀ b start size t t', backend.preflightUnmap b start size t = true → Agree (start, start + size) t t' →
    (backend.unmap b start size t').1 = true
  unmap_frame : ∀ b start size t x, ¬ InRange (start, start + size) x → (backend.unmap b start size t).2 x = t x
  unmapDeferred : ∀ b start size t t', backend.preflightUnmap b start size t = true → Agree (start, start + size) t t' →
    (backend.unmapDeferred b start size t').1.isSome
  unmapDeferred_frame : ∀ b start size t x, ¬ InRange (start, start + size) x →
    (backend.unmapDeferred b start size t).2 x = t x
  protect : ∀ b start size flags t t', backend.preflightProtect b start size flags t = true →
    Agree (start, start + size) t t' → (backend.protect b start size flags t').1 = true
  protect_frame : ∀ b start size flags t x, ¬ InRange (start, start + size) x →
    (backend.protect b start size flags t).2 x = t x

/-- A backend call that changes the table inside a range and nothing else but
the retirement. -/
structure Touches (backend : MappingBackend F B E R) (range : Range) (c d : Call F B E R) : Prop where
  set : d.set = c.set
  peak : d.peak = c.peak
  frame : Honest backend → ∀ x, ¬ InRange range x → d.table x = c.table x

variable {backend : MappingBackend F B E R} {mode : UnmapMode} {ℓ : B → Nat → L} {range : Range} {c : Call F B E R}
  {err : ε → Call F B E R → Prop}

theorem modeUnmap_spec {b : B} {start stop : Nat} {t : Table E} (hlt : start ≤ stop)
    (hpre : backend.preflightUnmap b start (stop - start) t = true)
    (hagree : Honest backend → Agree (start, stop) t c.table) :
    Ensures (modeUnmap backend mode b start (stop - start) : Act (Call F B E R) ε Unit) c
      (fun _ d => Touches backend (start, stop) c d) err (¬ Honest backend) := by
  have hstop : start + (stop - start) = stop := by omega
  rw [Ensures, modeUnmap.eq_def]
  cases mode with
  | immediate =>
      dsimp only
      by_cases hres : (backend.unmap b start (stop - start) c.table).1 = true
      · rw [if_pos hres]
        refine ⟨rfl, rfl, fun h x hx => h.unmap_frame _ _ _ _ _ ?_⟩
        rwa [hstop]
      · rw [if_neg hres]
        intro h
        exact hres (h.unmap _ _ _ _ _ hpre (by rw [hstop]; exact hagree h))
  | deferred =>
      dsimp only
      cases hres : backend.unmapDeferred b start (stop - start) c.table with
      | mk token table =>
          cases token with
          | some token =>
              refine ⟨rfl, rfl, fun h x hx => ?_⟩
              have hframe := h.unmapDeferred_frame b start (stop - start) c.table x (by rwa [hstop])
              rwa [hres] at hframe
          | none =>
              intro h
              have hsome := h.unmapDeferred _ _ _ _ _ hpre (by rw [hstop]; exact hagree h)
              rw [hres] at hsome
              cases hsome

theorem retireArea_spec (a : Area F B) {panic : Prop} : Ensures (retireArea mode a : Act (Call F B E R) ε Unit) c
    (fun _ d => d.set = c.set ∧ d.peak = c.peak ∧ d.table = c.table) err panic := by
  cases mode
  · exact ensures_pure ⟨rfl, rfl, rfl⟩
  · exact ensures_modify ⟨rfl, rfl, rfl⟩

/-- The areas that still reach into the range are admitted, and the table is
untouched where they do. -/
def Pending (backend : MappingBackend F B E R) (range : Range) (t : Table E) (d : Call F B E R) : Prop :=
  ∀ k a, d.set.areas.get? k = some a → a.overlaps range = true →
    backend.preflightUnmap a.backend (clip range a).1 ((clip range a).2 - (clip range a).1) t = true ∧
      (Honest backend → Agree (clip range a) t d.table)

structure Clearing (backend : MappingBackend F B E R) (ℓ : B → Nat → L) (range : Range) (c d : Call F B E R) :
    Prop where
  ordered : Ordered d.set.areas
  outside : ∀ x, ¬ InRange range x → view ℓ d.set.areas x = view ℓ c.set.areas x
  pending : Pending backend range c.table d
  gaps : d.set.gaps = c.set.gaps
  revision : d.set.revision = c.set.revision

theorem Pending.of_touches {t : Table E} {d e : Call F B E R} {a : Area F B} {k : Nat} (h : Pending backend range t d)
    (hord : Ordered d.set.areas) (hget : d.set.areas.get? k = some a) (htouch : Touches backend (clip range a) d e)
    {k' : Nat} {a' : Area F B} (hget' : d.set.areas.get? k' = some a') (hne : k' ≠ k)
    (hover : a'.overlaps range = true) :
    backend.preflightUnmap a'.backend (clip range a').1 ((clip range a').2 - (clip range a').1) t = true ∧
      (Honest backend → Agree (clip range a') t e.table) := by
  refine ⟨(h k' a' hget' hover).1, fun hon x hx => ?_⟩
  rw [htouch.frame hon x, (h k' a' hget' hover).2 hon x hx]
  intro hx'
  have h₁ := hx.1
  have h₂ := hx.2
  have h₃ := hx'.1
  have h₄ := hx'.2
  simp only [clip] at h₁ h₂ h₃ h₄
  have heq := hord.unique (x := x) hget' hget (by omega) (by omega) (by omega) (by omega)
  have hk := hord.key k a hget
  have hk' := hord.key k' a' hget'
  rw [heq] at hk'
  omega

/-- One area gives up what it has in the range, and no other one changes there. -/
theorem Clearing.step {d e f : Call F B E R} {a : Area F B} {k : Nat}
    (h : Clearing backend ℓ range c d) (areas : Areas F B) (hget : d.set.areas.get? k = some a)
    (htouch : Touches backend (clip range a) d e) (hset : f.set = { e.set with areas := areas })
    (htable : f.table = e.table)
    (hord : Ordered areas) (hview : ∀ x, ¬ InRange range x → view ℓ areas x = view ℓ d.set.areas x)
    (hsub : ∀ j b, areas.get? j = some b → b.overlaps range = true → j ≠ k ∧ d.set.areas.get? j = some b) :
    Clearing backend ℓ range c f where
  ordered := by
    rw [hset]
    exact hord
  outside x hx := by
    rw [hset]
    exact (hview x hx).trans (h.outside x hx)
  pending j b hj hb := by
    rw [hset] at hj
    obtain ⟨hne, hold⟩ := hsub j b hj hb
    rw [htable]
    exact h.pending.of_touches h.ordered hget htouch hold hne hb
  gaps := by
    rw [hset, ← h.gaps, ← htouch.set]
  revision := by
    rw [hset, ← h.revision, ← htouch.set]

section Steps

structure Removed (backend : MappingBackend F B E R) (ℓ : B → Nat → L) (range : Range) (c : Call F B E R)
    (gone : List Nat) (d : Call F B E R) : Prop where
  clearing : Clearing backend ℓ range c d
  get? : ∀ k, d.set.areas.get? k = if k ∈ gone then none else c.set.areas.get? k
  size : d.set.areas.size + gone.length = c.set.areas.size
  peak : d.peak ≤ max c.peak c.set.areas.size

theorem unmapWhole_spec {d : Call F B E R} {gone : List Nat} {k : Nat} (h : Removed backend ℓ range c gone d)
    (hk : k ∉ gone) (hin : ∃ a, c.set.areas.get? k = some a ∧ a.containedIn range = true) :
    Ensures (unmapWhole backend mode k : Act (Call F B E R) ε Unit) d
      (fun _ e => Removed backend ℓ range c (gone ++ [k]) e) err (¬ Honest backend) := by
  obtain ⟨a, hget, hin⟩ := hin
  have hget' : d.set.areas.get? k = some a := by
    rw [h.get?, if_neg hk]
    exact hget
  have hord := h.clearing.ordered
  have hne := hord.nonempty k a hget'
  rw [Area.containedIn_iff] at hin
  have hover : a.overlaps range = true := Area.overlaps_iff.mpr (by omega)
  have hclip : clip range a = (a.start, a.stop) := by
    simp only [clip, Prod.mk.injEq]
    omega
  obtain ⟨hpre, hagree⟩ := h.clearing.pending k a hget' hover
  rw [hclip] at hpre hagree
  refine ensures_bind_of_eq (areaAt_apply hget') ?_
  refine (modeUnmap_spec (Nat.le_of_lt hne) hpre hagree).bind fun _ e he => ?_
  have hgete : e.set.areas.get? k = some a := by
    rw [he.set]
    exact hget'
  refine ensures_bind_of_eq (removeArea_apply hgete) ?_
  refine (retireArea_spec a).mono ?_ (fun _ _ => id) id
  rintro - f ⟨hset, hpeak, htable⟩
  rw [he.set] at hset hpeak
  have hsize := SortedMap.size_erase hget'
  refine ⟨h.clearing.step (d.set.areas.erase k) hget' (hclip ▸ he) hset htable (hord.erase k) (fun x hx => ?_)
    (fun j b hj hb => ?_), fun j => ?_, ?_, ?_⟩
  · rw [hord.view_erase hget', if_neg]
    intro hx'
    exact hx ⟨by omega, by omega⟩
  · rw [SortedMap.get?_erase] at hj
    split at hj
    · cases hj
    · exact ⟨‹_›, hj⟩
  · rw [hset, Call.withAreas_areas, SortedMap.get?_erase, h.get?]
    by_cases hj : j = k <;> simp [hj]
  · rw [hset, Call.withAreas_areas, List.length_append, List.length_singleton]
    have := h.size
    omega
  · rw [hpeak, Call.withAreas_peak, he.peak]
    have := h.size
    have := h.peak
    omega

theorem unmapCovered_spec (hord : Ordered c.set.areas) (hpending : Pending backend range c.table c) :
    Ensures (each (unmapWhole backend mode) (fullyCovered c.set.areas range) : Act (Call F B E R) ε Unit) c
      (fun _ d => Removed backend ℓ range c (fullyCovered c.set.areas range) d) err (¬ Honest backend) := by
  refine (ensures_each (I := fun gone rest d => gone ++ rest = fullyCovered c.set.areas range ∧
    Removed backend ℓ range c gone d) _ ⟨rfl, ?_⟩ ?_).mono (fun _ d hd => hd.2) (fun _ _ => id) id
  · exact ⟨⟨hord, fun _ _ => rfl, hpending, rfl, rfl⟩, by simp, rfl, Nat.le_max_left _ _⟩
  · rintro gone k rest d ⟨hlist, hd⟩
    have hnodup : (fullyCovered c.set.areas range).Nodup := nodup_fullyCovered
    rw [← hlist] at hnodup
    have hk : k ∉ gone := by
      intro hmem
      exact (List.nodup_append.mp hnodup).2.2 k hmem k (by simp) rfl
    have hmem : k ∈ fullyCovered c.set.areas range := by simp [← hlist]
    exact (unmapWhole_spec hd hk (hord.mem_fullyCovered.mp hmem)).mono
      (fun _ e he => ⟨by simp [hlist], he⟩) (fun _ _ => id) id

structure ShrunkBefore (backend : MappingBackend F B E R) (ℓ : B → Nat → L) (range : Range) (c d : Call F B E R) :
    Prop where
  clearing : Clearing backend ℓ range c d
  crossing : ∀ k a, d.set.areas.get? k = some a → a.overlaps range = true → range.1 ≤ a.start ∧ range.2 < a.stop
  peak : d.peak ≤ max c.peak (max c.set.areas.size d.set.areas.size)
  size : d.set.areas.size + (fullyCovered c.set.areas range).length ≤ c.set.areas.size ∨
    d.set.areas.size + (fullyCovered c.set.areas range).length ≤ c.set.areas.size + 1 ∧
      ∃ k a, c.set.areas.get? k = some a ∧ a.start < range.1 ∧ range.2 < a.stop

/-- An area that survived the loop over the covered ones. -/
theorem Removed.survivor {d : Call F B E R} (hord : Ordered c.set.areas)
    (h : Removed backend ℓ range c (fullyCovered c.set.areas range) d) {k : Nat} {a : Area F B}
    (hget : d.set.areas.get? k = some a) : c.set.areas.get? k = some a ∧ (a.start < range.1 ∨ range.2 < a.stop) := by
  rw [h.get?] at hget
  split at hget
  · cases hget
  · rename_i hk
    refine ⟨hget, ?_⟩
    by_contra hin
    exact hk (hord.mem_fullyCovered.mpr ⟨a, hget, Area.containedIn_iff.mpr (by omega)⟩)

theorem shrinkBefore_spec {d : Call F B E R} (hord : Ordered c.set.areas) (hlt : range.1 < range.2)
    (h : Removed backend ℓ range c (fullyCovered c.set.areas range) d) :
    Ensures (shrinkBefore backend mode range : Act (Call F B E R) ε Unit) d
      (fun _ e => ShrunkBefore backend ℓ range c e) err (¬ Honest backend) := by
  have hordd := h.clearing.ordered
  have hsize := h.size
  have hpeak := h.peak
  refine ensures_get_bind ?_
  cases hlast : d.set.areas.lastBelow range.1 with
  | none =>
      rw [SortedMap.lastBelow_eq_none] at hlast
      refine ensures_pure ⟨h.clearing, fun k a hget hover => ?_, by omega, by omega⟩
      have := hlast k a hget
      have := hordd.key k a hget
      have := (h.survivor hord hget).2
      omega
  | some entry =>
      obtain ⟨k, a⟩ := entry
      obtain ⟨hget, hk, hmax⟩ := SortedMap.lastBelow_eq_some.mp hlast
      have hkey := hordd.key k a hget
      have hother (j : Nat) (b : Area F B) (hj : d.set.areas.get? j = some b) (hne : j ≠ k)
          (hover : b.overlaps range = true) : range.1 ≤ b.start ∧ range.2 < b.stop := by
        have hjk := hordd.key j b hj
        have hside := (h.survivor hord hj).2
        have hover' := Area.overlaps_iff.mp hover
        have : range.1 ≤ j := by
          by_contra hlow
          have := hmax j b hj (by omega)
          have := hordd.apart j b k a hj hget (by omega)
          omega
        omega
      simp only
      split
      · rename_i hcross
        have hover : a.overlaps range = true := Area.overlaps_iff.mpr (by omega)
        obtain ⟨hpre, hagree⟩ := h.clearing.pending k a hget hover
        split
        · rename_i hend
          have hclip : clip range a = (range.1, a.stop) := by
            simp only [clip, Prod.mk.injEq]
            omega
          rw [hclip] at hpre hagree
          refine (modeUnmap_spec (Nat.le_of_lt hcross) hpre hagree).bind fun _ e he => ?_
          obtain ⟨hord', hview⟩ := hordd.cutEnd (ℓ := ℓ) hget range.1 (by omega) (by omega)
          have hsize' := SortedMap.size_insert_of_some (v := a.setEnd range.1) hget
          have hsub (j : Nat) (b : Area F B) (hj : (d.set.areas.insert k (a.setEnd range.1)).get? j = some b)
              (hb : b.overlaps range = true) : j ≠ k ∧ d.set.areas.get? j = some b := by
            rw [SortedMap.get?_insert] at hj
            split at hj
            · cases hj
              have := Area.overlaps_iff.mp hb
              simp only [Area.setEnd_stop] at this
              omega
            · exact ⟨‹_›, hj⟩
          refine ensures_of_eq putArea_apply ⟨h.clearing.step _ hget (hclip ▸ he) rfl rfl (he.set ▸ hord')
            (fun x hx => ?_) (he.set ▸ hsub), fun j b hj hb => ?_, ?_, ?_⟩
          · rw [he.set, hview, if_neg]
            exact fun hx' => hx ⟨hx'.1, by omega⟩
          · rw [Call.withAreas_areas, he.set] at hj
            obtain ⟨hne, hj⟩ := hsub j b hj hb
            exact hother j b hj hne hb
          · rw [Call.withAreas_peak, Call.withAreas_areas, he.set, he.peak]
            omega
          · rw [Call.withAreas_areas, he.set]
            omega
        · rename_i hend
          have hclip : clip range a = range := by
            simp only [clip]
            exact Prod.ext (by dsimp only; omega) (by dsimp only; omega)
          rw [hclip] at hpre hagree
          refine (modeUnmap_spec (Nat.le_of_lt hlt) hpre hagree).bind fun _ e he => ?_
          obtain ⟨hord', hview⟩ := hordd.cutEnd (ℓ := ℓ) hget range.1 (by omega) (by omega)
          have hsize' := SortedMap.size_insert_of_some (v := a.setEnd range.1) hget
          have hfree (x : Nat) (hx : range.2 ≤ x) (hx' : x < a.stop) :
              find (d.set.areas.insert k (a.setEnd range.1)) x = none := by
            rw [← view_eq_none (ℓ := ℓ), hview, if_pos (by omega)]
          have hbound' := hordd.bounded k a hget
          have hord'' := hord'.insert (a := a.setStart range.2) (by exact Nat.not_le.mp hend) hbound' hfree
          have hview' := hord'.view_insert (ℓ := ℓ) (a := a.setStart range.2) (by exact Nat.not_le.mp hend)
              hbound' hfree
          have hsize'' := SortedMap.size_insert_of_none (v := a.setStart range.2)
            (hord'.get?_of_free (hfree range.2 (Nat.le_refl _) (Nat.not_le.mp hend)))
          simp only [Area.setStart_start, Area.setStart_stop] at hord'' hview'
          have hsub (j : Nat) (b : Area F B)
              (hj : ((d.set.areas.insert k (a.setEnd range.1)).insert range.2 (a.setStart range.2)).get? j = some b)
              (hb : b.overlaps range = true) : j ≠ k ∧ d.set.areas.get? j = some b := by
            have hb' := Area.overlaps_iff.mp hb
            rw [SortedMap.get?_insert] at hj
            split at hj
            · cases hj
              simp only [Area.setStart_start] at hb'
              omega
            · rw [SortedMap.get?_insert] at hj
              split at hj
              · cases hj
                simp only [Area.setEnd_stop] at hb'
                omega
              · exact ⟨‹_›, hj⟩
          refine ensures_bind_of_eq putArea_apply (ensures_of_eq putArea_apply ?_)
          have he' : Touches backend (clip range a) d e := by
            rw [hclip]
            exact he
          rw [Call.withAreas_areas, he.set]
          refine ⟨h.clearing.step _ hget he' rfl rfl hord'' (fun x hx => ?_) hsub, fun j b hj hb => ?_, ?_, ?_⟩
          · rw [hview', hview]
            by_cases hin : range.2 ≤ x ∧ x < a.stop
            · rw [if_pos hin, hordd.view_of_get? hget (by omega) hin.2]
              rfl
            · rw [if_neg hin, if_neg]
              intro hx'
              exact hx ⟨hx'.1, by omega⟩
          · obtain ⟨hne, hj⟩ := hsub j b hj hb
            exact hother j b hj hne hb
          · simp only [Call.withAreas_peak, Call.withAreas_areas, he.peak]
            omega
          · refine .inr ⟨?_, k, a, (h.survivor hord hget).1, by omega, by omega⟩
            rw [Call.withAreas_areas]
            omega
      · rename_i hcross
        refine ensures_pure ⟨h.clearing, fun j b hj hover => ?_, by omega, by omega⟩
        refine hother j b hj ?_ hover
        rintro rfl
        rw [hget, Option.some.injEq] at hj
        subst hj
        have := Area.overlaps_iff.mp hover
        omega

theorem shrinkAfter_spec {d : Call F B E R} (h : ShrunkBefore backend ℓ range c d) :
    Ensures (shrinkAfter backend mode range : Act (Call F B E R) ε Unit) d
      (fun _ e => Clearing backend ℓ range c e ∧ (∀ k a, e.set.areas.get? k = some a → a.overlaps range = false) ∧
        e.set.areas.size = d.set.areas.size ∧ e.peak ≤ max c.peak (max c.set.areas.size d.set.areas.size))
      err (¬ Honest backend) := by
  have hordd := h.clearing.ordered
  have hpeak := h.peak
  refine ensures_get_bind ?_
  cases hfirst : d.set.areas.firstFrom range.1 with
  | none =>
      rw [SortedMap.firstFrom_eq_none] at hfirst
      refine ensures_pure ⟨h.clearing, fun k a hget => ?_, rfl, h.peak⟩
      by_contra hover
      have := h.crossing k a hget (by simpa using hover)
      have := hfirst k a hget
      have := hordd.key k a hget
      omega
  | some entry =>
      obtain ⟨k, a⟩ := entry
      obtain ⟨hget, hk, hmin⟩ := SortedMap.firstFrom_eq_some.mp hfirst
      have hkey := hordd.key k a hget
      have hne := hordd.nonempty k a hget
      have hother (j : Nat) (b : Area F B) (hj : d.set.areas.get? j = some b) (hneq : j ≠ k) : b.overlaps range =
          false := by
        by_contra hover
        have hcross := h.crossing j b hj (by simpa using hover)
        have hover' : b.start < range.2 ∧ range.1 < b.stop := by simpa using hover
        have hjk := hordd.key j b hj
        have := hmin j b hj (by omega)
        have := hordd.apart k a j b hget hj (by omega)
        have hcross' := h.crossing k a hget (Area.overlaps_iff.mpr (by omega))
        omega
      simp only
      split
      · rename_i hreach
        have hover : a.overlaps range = true := Area.overlaps_iff.mpr (by omega)
        have hcross := h.crossing k a hget hover
        obtain ⟨hpre, hagree⟩ := h.clearing.pending k a hget hover
        have hclip : clip range a = (k, range.2) := by
          simp only [clip, Prod.mk.injEq]
          omega
        rw [hclip] at hpre hagree
        refine (modeUnmap_spec (Nat.le_of_lt hreach) hpre hagree).bind fun _ e he => ?_
        have he' : Touches backend (clip range a) d e := by
          rw [hclip]
          exact he
        have hgete : e.set.areas.get? k = some a := by
          rw [he.set]
          exact hget
        obtain ⟨hord', hview⟩ := hordd.cutStart (ℓ := ℓ) hget range.2 (by omega) hcross.2
        have hsize := SortedMap.size_erase hget
        have hfree : (d.set.areas.erase k).get? range.2 = none := by
          apply (hordd.erase k).get?_of_free
          rw [hordd.find_erase hget, if_pos (by omega)]
        have hsize' := SortedMap.size_insert_of_none (v := a.setStart range.2) hfree
        have hnone (j : Nat) (b : Area F B)
            (hj : ((d.set.areas.erase k).insert range.2 (a.setStart range.2)).get? j = some b) : b.overlaps range =
              false := by
          rw [SortedMap.get?_insert] at hj
          split at hj
          · cases hj
            simp [Area.overlaps]
          · rw [SortedMap.get?_erase] at hj
            split at hj
            · cases hj
            · exact hother j b hj ‹_›
        refine ensures_bind_of_eq (removeArea_apply hgete) (ensures_of_eq putArea_apply ?_)
        rw [Call.withAreas_areas, he.set]
        refine ⟨h.clearing.step _ hget he' rfl rfl hord' (fun x hx => ?_) (fun j b hj hb => ?_), hnone, ?_, ?_⟩
        · rw [hview, if_neg]
          exact fun hx' => hx ⟨by omega, hx'.2⟩
        · rw [hnone j b hj] at hb
          cases hb
        · rw [Call.withAreas_areas]
          omega
        · simp only [Call.withAreas_peak, he.peak]
          omega
      · rename_i hreach
        refine ensures_pure ⟨h.clearing, fun j b hj => ?_, rfl, h.peak⟩
        by_cases hjk : j = k
        · subst hjk
          rw [hget, Option.some.injEq] at hj
          subst hj
          simp [Area.overlaps]
          omega
        · exact hother j b hj hjk

end Steps

structure Unmapped (ℓ : B → Nat → L) (range : Range) (c d : Call F B E R) : Prop where
  ordered : Ordered d.set.areas
  view : ∀ x, view ℓ d.set.areas x = if range.1 ≤ x ∧ x < range.2 then none else view ℓ c.set.areas x
  gaps : d.set.gaps = GapIndex.release range c.set.gaps
  revision : d.set.revision = (c.set.revision + 1) % 2 ^ 64
  size : d.set.areas.size ≤ c.set.areas.size - (iterOverlapping c.set.areas range).length +
    ((iterOverlapping c.set.areas range).map (fragments range)).sum
  peak : d.peak ≤ max c.peak (max c.set.areas.size (c.set.areas.size - (iterOverlapping c.set.areas range).length +
    ((iterOverlapping c.set.areas range).map (fragments range)).sum))

theorem commitUnmap_spec [DecidableEq F] (hord : Ordered c.set.areas) (hloc : Interchangeable backend ℓ)
    (hlt : range.1 < range.2) (hpending : Pending backend range c.table c) :
    Ensures (commitUnmap backend mode range (fullyCovered c.set.areas range) : Act (Call F B E R) ε Unit) c
      (fun _ d => Unmapped ℓ range c d) err (¬ Honest backend) := by
  refine (unmapCovered_spec (ℓ := ℓ) hord hpending).bind fun _ c₁ h₁ => ?_
  refine (shrinkBefore_spec hord hlt h₁).bind fun _ c₂ h₂ => ?_
  refine (shrinkAfter_spec h₂).bind fun _ c₃ h₃ => ?_
  obtain ⟨hclear, hnone, hsize₃, hpeak₃⟩ := h₃
  refine (mergeAdjacentAt_spec range.1 hclear.ordered hloc).bind fun _ c₄ h₄ => ?_
  refine (mergeAdjacentAt_spec range.2 h₄.ordered hloc).bind fun _ c₅ h₅ => ?_
  have hmerged := h₄.trans h₅
  have hcount : c₂.set.areas.size ≤ c.set.areas.size - (iterOverlapping c.set.areas range).length +
      ((iterOverlapping c.set.areas range).map (fragments range)).sum := by
    rcases h₂.size with hsize | ⟨hsize, hsplit⟩
    · have := hord.fragments_le hlt False False.elim
      rw [if_neg not_false] at this
      omega
    · have := hord.fragments_le hlt True (fun _ => hsplit)
      rw [if_pos trivial] at this
      omega
  refine ensures_bind_of_eq (modify_apply _ _) (ensures_modify ⟨hmerged.ordered, fun x => ?_, ?_, ?_, ?_, ?_⟩)
  · rw [hmerged.view]
    split
    · rename_i hx
      rw [view_eq_none]
      exact (hclear.ordered.free_iff hlt).mpr hnone x hx
    · rename_i hx
      exact hclear.outside x hx
  · simp only
    rw [hmerged.gaps, hclear.gaps]
  · simp only
    rw [hmerged.revision, hclear.revision]
  · have := hmerged.size
    simp only
    omega
  · have := hmerged.peak
    simp only
    omega

end TheKernel.MemorySet
