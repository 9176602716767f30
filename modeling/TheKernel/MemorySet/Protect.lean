import TheKernel.MemorySet.Operation

namespace TheKernel.MemorySet

open Act

variable {F B E R L ε : Type} {backend : MappingBackend F B E R} {ℓ : B → Nat → L} {range : Range}
  {c : Call F B E R} {memory : Nat → Bool} {maxAreas : Nat} {panic : Prop} {err : ε → Call F B E R → Prop}

section Split

structure Split (ℓ : B → Nat → L) (a : Area F B) (start stop : Nat) (middleFlags : F) (c d : Call F B E R) : Prop where
  ordered : Ordered d.set.areas
  middle : d.set.areas.get? start =
    some ⟨start, stop, if a.start < start then middleFlags else a.flags, a.backend, a.lineage⟩
  view : ∀ x, ¬ (start ≤ x ∧ x < stop) → view ℓ d.set.areas x = view ℓ c.set.areas x
  get? : ∀ j, j < a.start ∨ a.stop ≤ j → d.set.areas.get? j = c.set.areas.get? j
  size : d.set.areas.size = c.set.areas.size + additional a.start start stop a.stop
  peak : d.peak ≤ max c.peak d.set.areas.size
  gaps : d.set.gaps = c.set.gaps
  revision : d.set.revision = c.set.revision
  table : d.table = c.table

structure Added (ℓ : B → Nat → L) (wanted : Bool) (b : Area F B) (c d : Call F B E R) : Prop where
  ordered : Ordered d.set.areas
  view : ∀ x, view ℓ d.set.areas x =
    if wanted = true ∧ b.start ≤ x ∧ x < b.stop then some (b.cell ℓ x) else view ℓ c.set.areas x
  get? : ∀ j, d.set.areas.get? j = if wanted = true ∧ j = b.start then some b else c.set.areas.get? j
  size : d.set.areas.size = c.set.areas.size + if wanted then 1 else 0
  peak : d.peak ≤ max c.peak d.set.areas.size
  gaps : d.set.gaps = c.set.gaps
  revision : d.set.revision = c.set.revision
  table : d.table = c.table

theorem insertIf_spec {wanted : Bool} {b : Area F B} (hord : Ordered c.set.areas)
    (hwanted : wanted = true → b.start < b.stop ∧ b.stop ≤ usizeMax ∧
      ∀ x, b.start ≤ x → x < b.stop → find c.set.areas x = none) :
    Ensures (insertIf wanted b : Act (Call F B E R) ε Unit) c (fun _ d => Added ℓ wanted b c d) err panic := by
  rw [insertIf]
  cases wanted with
  | true =>
      obtain ⟨hlt, hbound, hfree⟩ := hwanted rfl
      have hnone := hord.get?_of_free (hfree b.start (Nat.le_refl _) hlt)
      refine ensures_of_eq (insertArea_apply hnone) ⟨hord.insert hlt hbound hfree, fun x => ?_, fun j => ?_,
        ?_, ?_, rfl, rfl, rfl⟩
      · rw [Call.withAreas_areas, hord.view_insert hlt hbound hfree]
        simp
      · simp
      · simp [SortedMap.size_insert_of_none hnone]
      · simp
  | false => exact ensures_pure ⟨hord, by simp, by simp, rfl, Nat.le_max_left _ _, rfl, rfl, rfl⟩

theorem splitArea_spec {a : Area F B} {k start stop : Nat} (middleFlags : F) (hord : Ordered c.set.areas)
    (hget : c.set.areas.get? k = some a) (hstart : k ≤ start) (hlt : start < stop) (hstop : stop ≤ a.stop) :
    Ensures (splitArea k start stop a.stop middleFlags a.flags a.lineage : Act (Call F B E R) ε Unit) c
      (fun _ d => Split ℓ a start stop middleFlags c d) err panic := by
  have hkey := hord.key k a hget
  have hbound := hord.bounded k a hget
  refine ensures_bind_of_eq (areaAt_apply hget) (ensures_bind_of_eq (updateArea_apply hget _) ?_)
  have hcut : a.start < (if k < start then start else stop) ∧ (if k < start then start else stop) ≤ a.stop := by
    split <;> omega
  obtain ⟨hord₁, hview₁⟩ := hord.cutEnd (ℓ := ℓ) hget _ hcut.1 hcut.2
  have hsize₁ := SortedMap.size_insert_of_some (v := a.setEnd (if k < start then start else stop)) hget
  have hfree₁ (x : Nat) (hx : (if k < start then start else stop) ≤ x) (hx' : x < a.stop) :
      find (c.set.areas.insert k (a.setEnd (if k < start then start else stop))) x = none := by
    rw [← view_eq_none (ℓ := ℓ), hview₁, if_pos ⟨hx, hx'⟩]
  refine (insertIf_spec (ℓ := ℓ) (by exact hord₁) fun hleft => ?_).bind fun _ c₂ h₂ => ?_
  · rw [decide_eq_true_eq] at hleft
    refine ⟨hlt, by dsimp only; omega, fun x hx hx' => hfree₁ x ?_ ?_⟩
    · rw [if_pos hleft]
      exact hx
    · exact Nat.lt_of_lt_of_le hx' hstop
  · have hsize₂ := h₂.size
    have hpeak₂ := h₂.peak
    refine (insertIf_spec (ℓ := ℓ) h₂.ordered fun hright => ?_).mono ?_ (fun _ _ => id) id
    · rw [decide_eq_true_eq] at hright
      refine ⟨hright, hbound, fun x hx hx' => ?_⟩
      dsimp only at hx hx'
      rw [← view_eq_none (ℓ := ℓ), h₂.view, if_neg (by dsimp only; omega), view_eq_none]
      exact hfree₁ x (by split <;> omega) hx'
    · intro _ d h₃
      have hsize₃ := h₃.size
      have hpeak₃ := h₃.peak
      simp only [Call.withAreas_areas, Call.withAreas_peak, hsize₁] at hsize₂ hpeak₂
      refine ⟨h₃.ordered, ?_, fun x hx => ?_, fun j hj => ?_, ?_, ?_, ?_, ?_, ?_⟩
      · rw [h₃.get?, if_neg (by simp; omega), h₂.get?]
        by_cases hleft : k < start
        · simp [hleft, hkey]
        · have hks : k = start := by omega
          subst hks
          simp [Area.setEnd, hkey]
      · rw [h₃.view, h₂.view, Call.withAreas_areas, hview₁]
        simp only [decide_eq_true_eq]
        by_cases hin : stop ≤ x ∧ x < a.stop
        · rw [if_pos ⟨by omega, hin⟩, hord.view_of_get? hget (by omega) hin.2]
          rfl
        · rw [if_neg (fun h => hin h.2), if_neg (fun h => hx h.2), if_neg]
          intro hcutx
          split at hcutx <;> omega
      · rw [h₃.get?, if_neg (by simp; omega), h₂.get?, if_neg (by simp; omega), Call.withAreas_areas,
          SortedMap.get?_insert, if_neg (by omega)]
      · rw [hsize₃, hsize₂, additional, hkey]
        simp
        omega
      · omega
      · rw [h₃.gaps, h₂.gaps, Call.withAreas_gaps]
      · rw [h₃.revision, h₂.revision, Call.withAreas_revision]
      · rw [h₃.table, h₂.table, Call.withAreas_table]

end Split

section Actions

/-- The actions of a call, in order, each cut out of an area of its own. -/
structure Planned (areas : Areas F B) (actions : List (ProtectAction F)) : Prop where
  area : ∀ p ∈ actions, ∃ a, areas.get? p.areaStart = some a ∧ p.areaStart ≤ p.start ∧ p.start < p.stop ∧
    p.stop ≤ p.oldStop ∧ p.oldStop = a.stop ∧ p.oldFlags = a.flags ∧ p.lineage = a.lineage
  apart : actions.Pairwise (fun p q => p.oldStop ≤ q.areaStart)

theorem protectAction_eq_some {updateFlags : Nat → F → Option F} {a : Area F B} {p : ProtectAction F} :
    protectAction range updateFlags a = some p ↔ range.1 < a.stop ∧
      ∃ newFlags, updateFlags (max a.start range.1) a.flags = some newFlags ∧
        p = ⟨a.start, max a.start range.1, min a.stop range.2, a.stop, a.flags, newFlags, a.lineage⟩ := by
  rw [protectAction]
  split
  · rename_i hlt
    rw [Option.map_eq_some_iff]
    constructor
    · rintro ⟨newFlags, hflags, rfl⟩
      exact ⟨hlt, newFlags, hflags, rfl⟩
    · rintro ⟨-, newFlags, hflags, rfl⟩
      exact ⟨newFlags, hflags, rfl⟩
  · rename_i hlt
    constructor
    · intro h
      cases h
    · rintro ⟨h, -⟩
      exact absurd h hlt

/-- There is one action for each area of the range that `update_flags` answers. -/
theorem Ordered.mem_protectActions {areas : Areas F B} (h : Ordered areas)
    {updateFlags : Nat → F → Option F} {p : ProtectAction F} :
    p ∈ protectActions areas range updateFlags ↔ ∃ k a, areas.get? k = some a ∧ a.overlaps range = true ∧
      protectAction range updateFlags a = some p := by
  rw [protectActions, List.mem_filterMap]
  constructor
  · rintro ⟨a, hmem, hp⟩
    obtain ⟨⟨k, b⟩, hb, rfl⟩ := List.mem_map.mp hmem
    obtain ⟨hget, -, hk⟩ := SortedMap.mem_range.mp hb
    refine ⟨k, b, hget, Area.overlaps_iff.mpr ⟨?_, (protectAction_eq_some.mp hp).1⟩, hp⟩
    rw [h.key k b hget]
    exact hk
  · rintro ⟨k, a, hget, hover, hp⟩
    rw [Area.overlaps_iff, h.key k a hget] at hover
    exact ⟨a, List.mem_map.mpr ⟨(k, a), SortedMap.mem_range.mpr ⟨hget, h.firstStart_le_key hget hover.2, hover.1⟩,
      rfl⟩, hp⟩

theorem Ordered.planned {areas : Areas F B} (h : Ordered areas) (range : Range) (hlt : range.1 < range.2)
    (updateFlags : Nat → F → Option F) : Planned areas (protectActions areas range updateFlags) := by
  constructor
  · intro p hp
    obtain ⟨k, a, hget, hover, hp⟩ := h.mem_protectActions.mp hp
    obtain ⟨-, newFlags, -, rfl⟩ := protectAction_eq_some.mp hp
    have hkey := h.key k a hget
    have hne := h.nonempty k a hget
    rw [Area.overlaps_iff] at hover
    refine ⟨a, ?_, Nat.le_max_left _ _, ?_, Nat.min_le_left _ _, rfl, rfl, rfl⟩
    · dsimp only
      rw [hkey]
      exact hget
    · dsimp only
      omega
  · have hsorted : ((areas.range (firstStart areas range.1) range.2).map (·.2)).Pairwise
      (fun a b => a.stop ≤ b.start) := by
      refine List.Pairwise.map _ (fun e e' he => he) ((areas.sorted.filter _).imp_of_mem ?_)
      rintro ⟨k, a⟩ ⟨k', a'⟩ ha ha' hlt
      have hget := SortedMap.mem_entries.mp (List.mem_of_mem_filter ha)
      have hget' := SortedMap.mem_entries.mp (List.mem_of_mem_filter ha')
      have := h.apart k a k' a' hget hget' hlt
      rwa [← h.key k' a' hget'] at this
    refine List.Pairwise.filterMap _ ?_ hsorted
    intro a b hab p hp q hq
    obtain ⟨-, -, -, rfl⟩ := protectAction_eq_some.mp hp
    obtain ⟨-, -, -, rfl⟩ := protectAction_eq_some.mp hq
    exact hab

variable {actions : List (ProtectAction F)}

theorem Planned.disjoint {areas : Areas F B} (h : Planned areas actions) {p q : ProtectAction F} (hp : p ∈ actions)
    (hq : q ∈ actions) (hne : p ≠ q) : p.oldStop ≤ q.areaStart ∨ q.oldStop ≤ p.areaStart := by
  have hsym : actions.Pairwise (fun p q => p.oldStop ≤ q.areaStart ∨ q.oldStop ≤ p.areaStart) := h.apart.imp .inl
  have : Std.Symm (fun p q : ProtectAction F => p.oldStop ≤ q.areaStart ∨ q.oldStop ≤ p.areaStart) :=
    ⟨fun _ _ => Or.symm⟩
  exact hsym.forall hp hq hne

/-- What the loop that sets the areas of the actions apart has done. -/
structure Splitting (ℓ : B → Nat → L) (c : Call F B E R) (done rest : List (ProtectAction F)) (d : Call F B E R) :
    Prop where
  ordered : Ordered d.set.areas
  finished : ∀ p ∈ done, ∃ a f, c.set.areas.get? p.areaStart = some a ∧
    d.set.areas.get? p.start = some ⟨p.start, p.stop, f, a.backend, a.lineage⟩
  waiting : ∀ p ∈ rest, d.set.areas.get? p.areaStart = c.set.areas.get? p.areaStart
  view : ∀ x, (∀ p ∈ done, ¬ (p.start ≤ x ∧ x < p.stop)) → view ℓ d.set.areas x = view ℓ c.set.areas x
  size : d.set.areas.size = c.set.areas.size + (done.map ProtectAction.extra).sum
  peak : d.peak ≤ max c.peak d.set.areas.size
  gaps : d.set.gaps = c.set.gaps
  revision : d.set.revision = c.set.revision
  table : d.table = c.table

theorem splitActions_spec (hord : Ordered c.set.areas) (hplan : Planned c.set.areas actions) :
    Ensures (each (fun p => p.split) actions : Act (Call F B E R) ε Unit) c
      (fun _ d => Splitting ℓ c actions [] d) err panic := by
  refine (ensures_each (I := fun done rest d => done ++ rest = actions ∧ Splitting ℓ c done rest d) actions
    ⟨rfl, ?_⟩ ?_).mono (fun _ d hd => hd.2) (fun _ _ => id) id
  · exact ⟨hord, by simp, fun _ _ => rfl, fun _ _ => rfl, by simp, Nat.le_max_left _ _, rfl, rfl, rfl⟩
  · rintro done p rest d ⟨hlist, hd⟩
    obtain ⟨a, hget, h₁, h₂, h₃, h₄, h₅, h₆⟩ := hplan.area p (by simp [← hlist])
    have hget' : d.set.areas.get? p.areaStart = some a := by
      rw [hd.waiting p (by simp)]
      exact hget
    have hkey := hd.ordered.key _ _ hget'
    have happart := hplan.apart
    rw [← hlist] at happart
    have hbefore (q : ProtectAction F) (hq : q ∈ done) : q.oldStop ≤ p.areaStart :=
      (List.pairwise_append.mp happart).2.2 q hq p (by simp)
    have hafter (q : ProtectAction F) (hq : q ∈ rest) : p.oldStop ≤ q.areaStart :=
      List.rel_of_pairwise_cons (List.pairwise_append.mp happart).2.1 hq
    rw [ProtectAction.split, h₄, h₅, h₆]
    refine (splitArea_spec (ℓ := ℓ) _ hd.ordered hget' h₁ h₂ (by omega)).mono ?_ (fun _ _ => id) id
    intro _ e he
    refine ⟨by simp [hlist], he.ordered, fun q hq => ?_, fun q hq => ?_, fun x hx => ?_, ?_, ?_, ?_, ?_, ?_⟩
    · rcases List.mem_append.mp hq with hq | hq
      · obtain ⟨b, f, hb, hq'⟩ := hd.finished q hq
        refine ⟨b, f, hb, ?_⟩
        obtain ⟨-, -, g₁, g₂, g₃, -⟩ := hplan.area q (by simp [← hlist, hq])
        have := hbefore q hq
        rw [he.get? q.start (by omega)]
        exact hq'
      · rw [List.mem_singleton.mp hq]
        exact ⟨a, _, hget, he.middle⟩
    · rw [he.get? q.areaStart (.inr (h₄ ▸ hafter q hq))]
      exact hd.waiting q (by simp [hq])
    · rw [he.view x (hx p (by simp))]
      exact hd.view x fun q hq => hx q (by simp [hq])
    · rw [he.size, hd.size, List.map_append, List.sum_append, List.map_singleton, List.sum_singleton,
        ProtectAction.extra, hkey, h₄]
      omega
    · have := he.peak
      have := hd.peak
      have := he.size
      omega
    · rw [he.gaps, hd.gaps]
    · rw [he.revision, hd.revision]
    · rw [he.table, hd.table]

/-- The backend calls of the actions change nothing but the table. -/
theorem commitActions_spec {d : Call F B E R} (hplan : Planned c.set.areas actions) (hd : Splitting ℓ c actions [] d)
    (hpre : ∀ p ∈ actions, ∀ a, c.set.areas.get? p.areaStart = some a →
      backend.preflightProtect a.backend p.start (p.stop - p.start) p.newFlags c.table = true) :
    Ensures (each (fun p => p.commit backend) actions : Act (Call F B E R) ε Unit) d
      (fun _ e => e.set = d.set ∧ e.peak = d.peak) err (¬ Honest backend) := by
  refine (ensures_each (I := fun done rest e => done ++ rest = actions ∧ e.set = d.set ∧ e.peak = d.peak ∧
    (Honest backend → ∀ p ∈ rest, Agree (p.start, p.stop) c.table e.table)) actions ⟨rfl, rfl, rfl, ?_⟩ ?_).mono
    (fun _ e he => ⟨he.2.1, he.2.2.1⟩) (fun _ _ => id) id
  · intro _ p _ x _
    rw [hd.table]
  · rintro done p rest e ⟨hlist, hset, hpeak, hagree⟩
    have hp : p ∈ actions := by simp [← hlist]
    obtain ⟨a, f, hget, hmid⟩ := hd.finished p hp
    obtain ⟨-, -, -, hlt, -⟩ := hplan.area p hp
    have hstop : p.start + (p.stop - p.start) = p.stop := by omega
    rw [← hset] at hmid
    refine ensures_bind_of_eq (areaAt_apply hmid) ?_
    rw [Ensures, protectPages]
    by_cases hres : (backend.protect a.backend p.start (p.stop - p.start) p.newFlags e.table).1 = true
    · rw [if_pos hres]
      refine ⟨by simp [hlist], hset, hpeak, fun hon q hq x hx => ?_⟩
      dsimp only
      rw [hon.protect_frame]
      · exact hagree hon q (by simp [hq]) x hx
      · rw [hstop]
        intro hx'
        have happart := hplan.apart
        rw [← hlist] at happart
        have hpq := List.rel_of_pairwise_cons (List.pairwise_append.mp happart).2.1 hq
        obtain ⟨-, -, g₁, -⟩ := hplan.area q (by simp [← hlist, hq])
        obtain ⟨-, -, -, -, g₂, -⟩ := hplan.area p hp
        have := hx.1
        have := hx'.2
        dsimp only at *
        omega
    · rw [if_neg hres]
      intro hon
      refine hres (hon.protect _ _ _ _ _ _ (hpre p hp a hget) ?_)
      rw [hstop]
      exact hagree hon p (by simp)

structure Relabelling (ℓ : B → Nat → L) (c : Call F B E R) (actions done : List (ProtectAction F))
    (d e : Call F B E R) : Prop where
  ordered : Ordered e.set.areas
  middle : ∀ p ∈ actions, ∃ a f, c.set.areas.get? p.areaStart = some a ∧
    e.set.areas.get? p.start = some ⟨p.start, p.stop, f, a.backend, a.lineage⟩ ∧ (p ∈ done → f = p.newFlags)
  view : ∀ x, (∀ p ∈ actions, ¬ (p.start ≤ x ∧ x < p.stop)) → view ℓ e.set.areas x = view ℓ d.set.areas x
  size : e.set.areas.size = d.set.areas.size
  peak : e.peak ≤ max d.peak d.set.areas.size
  gaps : e.set.gaps = d.set.gaps
  revision : e.set.revision = d.set.revision

theorem relabelActions_spec {d : Call F B E R} (hplan : Planned c.set.areas actions)
    (h : Relabelling ℓ c actions [] d d) :
    Ensures (each (fun p => p.relabel) actions : Act (Call F B E R) ε Unit) d
      (fun _ e => Relabelling ℓ c actions actions d e) err panic := by
  refine (ensures_each (I := fun done rest e => done ++ rest = actions ∧ Relabelling ℓ c actions done d e) actions
    ⟨rfl, h⟩ ?_).mono (fun _ e he => he.2) (fun _ _ => id) id
  rintro done p rest e ⟨hlist, he⟩
  have hp : p ∈ actions := by simp [← hlist]
  obtain ⟨a, f, hget, hmid, -⟩ := he.middle p hp
  obtain ⟨-, -, h₁, h₂, h₃, -⟩ := hplan.area p hp
  obtain ⟨hord, hfind⟩ := he.ordered.replace (a := ⟨p.start, p.stop, p.newFlags, a.backend, a.lineage⟩) hmid rfl h₂
    (show p.stop ≤ usizeMax from he.ordered.bounded _ _ hmid) (fun x hx hx' => .inr ⟨hx, hx'⟩)
  refine ensures_of_eq (updateArea_apply hmid _) ⟨by simp [hlist], hord, fun q hq => ?_, fun x hx => ?_,
    ?_, ?_, he.gaps, he.revision⟩
  · by_cases hqp : q = p
    · subst hqp
      exact ⟨a, q.newFlags, hget, by simp [Area.setFlags], fun _ => rfl⟩
    · obtain ⟨b, g, hb, hq', hdone⟩ := he.middle q hq
      refine ⟨b, g, hb, ?_, fun hmem => hdone ?_⟩
      · have hsep := hplan.disjoint hq hp hqp
        obtain ⟨-, -, g₁, g₂, g₃, -⟩ := hplan.area q hq
        rw [Call.withAreas_areas, SortedMap.get?_insert, if_neg (by omega)]
        exact hq'
      · simpa [hqp] using hmem
  · rw [← he.view x hx, MemorySet.view, MemorySet.view]
    have hout := hx p hp
    have hfx := hfind x
    rw [if_neg (by exact hout), if_neg (by exact hout)] at hfx
    exact congrArg _ hfx
  · rw [← he.size]
    exact SortedMap.size_insert_of_some hmid
  · have hsize := SortedMap.size_insert_of_some (v := Area.setFlags ⟨p.start, p.stop, f, a.backend,
      a.lineage⟩ p.newFlags) hmid
    have := he.peak
    have := he.size
    rw [Call.withAreas_peak, hsize]
    omega

theorem mergeActions_spec [DecidableEq F] {d : Call F B E R} (hord : Ordered d.set.areas)
    (hloc : Interchangeable backend ℓ) :
    Ensures (each (fun p => p.merge backend) actions : Act (Call F B E R) ε Unit) d
      (fun _ e => Merged backend ℓ d e) err panic := by
  refine ensures_each (I := fun _ _ e => Merged backend ℓ d e) actions (.refl hord) ?_
  intro _ p _ e he
  refine (mergeAdjacentAt_spec p.start he.ordered hloc).bind fun _ f hf => ?_
  exact (mergeAdjacentAt_spec p.stop hf.ordered hloc).mono (fun _ g hg => he.trans (hf.trans hg)) (fun _ _ => id) id

end Actions

section Protect

/-- What an address shows once the flags of a range have been changed. -/
def protectedView (ℓ : B → Nat → L) (range : Range) (updateFlags : Nat → F → Option F) (areas : Areas F B) (x : Nat) :
    Option (Cell F L) :=
  (find areas x).map fun a =>
    if range.1 ≤ x ∧ x < range.2 then
      { a.cell ℓ x with flags := (updateFlags (max a.start range.1) a.flags).getD a.flags }
    else a.cell ℓ x

structure Protected (ℓ : B → Nat → L) (range : Range) (updateFlags : Nat → F → Option F) (maxAreas : Nat)
    (c d : Call F B E R) : Prop where
  consistent : Consistent d.set
  view : ∀ x, view ℓ d.set.areas x = protectedView ℓ range updateFlags c.set.areas x
  peak : d.peak ≤ max c.peak maxAreas
  revision : d.set.revision = (c.set.revision + 1) % 2 ^ 64

theorem preflightActions_spec (actions : List (ProtectAction F)) (hplan : Planned c.set.areas actions) :
    Ensures (each (fun p => p.preflight backend) actions) c
      (fun _ d => d = c ∧ ∀ p ∈ actions, ∀ a, c.set.areas.get? p.areaStart = some a →
        backend.preflightProtect a.backend p.start (p.stop - p.start) p.newFlags c.table = true)
      (fun _ d => d = c) panic := by
  refine (ensures_each (I := fun done rest d => done ++ rest = actions ∧ d = c ∧ ∀ p ∈ done, ∀ a,
    c.set.areas.get? p.areaStart = some a →
      backend.preflightProtect a.backend p.start (p.stop - p.start) p.newFlags c.table = true) actions
    ⟨rfl, rfl, by simp⟩ ?_).mono (fun _ d hd => hd.2) (fun _ _ => id) id
  rintro done p rest d ⟨hlist, rfl, hdone⟩
  obtain ⟨a, hget, -⟩ := hplan.area p (by simp [← hlist])
  refine ensures_bind_of_eq (areaAt_apply hget) (ensures_get_bind ?_)
  split
  · rename_i hpre
    refine ensures_pure ⟨by simp [hlist], rfl, fun q hq b hb => ?_⟩
    rcases List.mem_append.mp hq with hq | hq
    · exact hdone q hq b hb
    · rw [List.mem_singleton] at hq
      subst hq
      rw [hget, Option.some.injEq] at hb
      rw [← hb]
      exact hpre
  · exact ensures_fail rfl

theorem commitProtect_spec [DecidableEq F] {updateFlags : Nat → F → Option F} (h : Consistent c.set)
    (hloc : Interchangeable backend ℓ) (hlt : range.1 < range.2)
    (hmax : c.set.areas.size + ((protectActions c.set.areas range updateFlags).map ProtectAction.extra).sum ≤ maxAreas)
    (hpre : ∀ p ∈ protectActions c.set.areas range updateFlags, ∀ a, c.set.areas.get? p.areaStart = some a →
      backend.preflightProtect a.backend p.start (p.stop - p.start) p.newFlags c.table = true) :
    Ensures (commitProtect backend (protectActions c.set.areas range updateFlags) : Act (Call F B E R) ε Unit) c
      (fun _ d => Protected ℓ range updateFlags maxAreas c d) err (¬ Honest backend) := by
  have hord := h.ordered
  have hplan := hord.planned _ hlt updateFlags
  refine (splitActions_spec (ℓ := ℓ) hord hplan).bind fun _ c₁ h₁ => ?_
  refine (commitActions_spec hplan h₁ hpre).bind ?_
  rintro - c₂ ⟨hset₂, hpeak₂⟩
  have hrel : Relabelling ℓ c (protectActions c.set.areas range updateFlags) [] c₂ c₂ := by
    refine ⟨hset₂ ▸ h₁.ordered, fun p hp => ?_, fun _ _ => rfl, rfl, Nat.le_max_left _ _, rfl, rfl⟩
    obtain ⟨a, f, ha, hmid⟩ := h₁.finished p hp
    exact ⟨a, f, ha, hset₂ ▸ hmid, fun hnil => by cases hnil⟩
  refine (relabelActions_spec hplan hrel).bind fun _ c₃ h₃ => ?_
  refine (mergeActions_spec h₃.ordered hloc).bind fun _ c₄ h₄ => ?_
  have hview (x : Nat) : view ℓ c₄.set.areas x = protectedView ℓ range updateFlags c.set.areas x := by
    rw [h₄.view]
    by_cases hact : ∃ p ∈ protectActions c.set.areas range updateFlags, p.start ≤ x ∧ x < p.stop
    · obtain ⟨p, hp, hx, hx'⟩ := hact
      obtain ⟨a, f, ha, hmid, hf⟩ := h₃.middle p hp
      rw [h₃.ordered.view_of_get? hmid hx hx']
      obtain ⟨k, b, hb, hover, hpb⟩ := hord.mem_protectActions.mp hp
      obtain ⟨-, newFlags, hflags, rfl⟩ := protectAction_eq_some.mp hpb
      have hab : a = b := by
        rw [hord.key k b hb, hb, Option.some.injEq] at ha
        exact ha.symm
      subst hab
      dsimp only at hx hx' hf ⊢
      rw [protectedView, hord.find_of_get? hb (by omega) (by omega), Option.map_some, if_pos (by omega), hflags, hf hp]
      rfl
    · have hnone : ∀ p ∈ protectActions c.set.areas range updateFlags, ¬ (p.start ≤ x ∧ x < p.stop) :=
        fun p hp hx => hact ⟨p, hp, hx⟩
      rw [h₃.view x hnone, hset₂, h₁.view x hnone, protectedView, MemorySet.view]
      cases hfind : find c.set.areas x with
      | none => rfl
      | some a =>
          obtain ⟨hget, hax, hax'⟩ := hord.find_eq_some.mp hfind
          rw [Option.map_some, Option.map_some]
          split
          · rename_i hin
            cases hup : updateFlags (max a.start range.1) a.flags with
            | none => rfl
            | some newFlags =>
                refine absurd ?_ hact
                refine ⟨_, hord.mem_protectActions.mpr ⟨_, a, hget, Area.overlaps_iff.mpr (by omega),
                  protectAction_eq_some.mpr ⟨by omega, newFlags, hup, rfl⟩⟩, ?_⟩
                dsimp only
                omega
          · rfl
  refine ensures_modify ⟨?_, hview, ?_, ?_⟩
  · obtain ⟨m, hm, hfree⟩ := h.tracked
    have hgaps : c₄.set.gaps = c.set.gaps := by
      rw [h₄.gaps, h₃.gaps, hset₂, h₁.gaps]
    refine ⟨h₄.ordered, m, ?_, fun x => ?_⟩
    · simp only [hgaps]
      exact hm
    · simp only [hgaps]
      have hcover : find c₄.set.areas x = none ↔ find c.set.areas x = none := by
        rw [← view_eq_none (ℓ := ℓ), hview, protectedView, Option.map_eq_none_iff]
      exact (hfree x).trans hcover.symm
  · have := h₄.peak
    have := h₃.peak
    have := h₃.size
    have := h₁.peak
    have := h₁.size
    rw [hset₂] at *
    simp only
    omega
  · simp only
    rw [h₄.revision, h₃.revision, hset₂, h₁.revision]

theorem protectWithLimit_spec [DecidableEq F] (h : Consistent c.set) (hloc : Interchangeable backend ℓ)
    (start size : Nat) (updateFlags : Nat → F → Option F) :
    Ensures (protectWithLimit backend memory start size updateFlags maxAreas) c
      (fun _ d => start + size ≤ usizeMax ∧ (size = 0 ∧ d = c ∨
        0 < size ∧ Protected ℓ (start, start + size) updateFlags maxAreas c d))
      (fun _ d => d = c) (¬ Honest backend) := by
  refine (rangeFrom_spec start size).bind ?_
  rintro r c' ⟨rfl, rfl, hbound⟩
  dsimp only
  split
  · exact ensures_pure ⟨hbound, .inl ⟨by omega, rfl⟩⟩
  · have hlt : start < start + size := by omega
    refine ensures_get_bind ?_
    have hplan := h.ordered.planned (start, start + size) hlt updateFlags
    refine Ensures.bind (p := fun _ d => d = c' ∧
      c'.set.areas.size + ((protectActions c'.set.areas (start, start + size) updateFlags).map
        ProtectAction.extra).sum ≤ maxAreas ∧
      ∀ p ∈ protectActions c'.set.areas (start, start + size) updateFlags, ∀ a, c'.set.areas.get? p.areaStart = some a →
        backend.preflightProtect a.backend p.start (p.stop - p.start) p.newFlags c'.table = true) ?_ ?_
    · refine (ensures_each (I := fun _ _ d => d = c') _ rfl ?_).bind ?_
      · rintro - site - d rfl
        exact tryReserve_spec site 1
      · rintro - d rfl
        refine ensures_get_bind ((addOrNoMemory_spec _ _).bind ?_)
        rintro n d ⟨rfl, rfl⟩
        refine (checkAreaLimit_spec _).bind ?_
        rintro - d ⟨rfl, hmax⟩
        exact (preflightActions_spec _ hplan).mono (fun _ d hd => ⟨hd.1, hmax, hd.2⟩) (fun _ _ => id) id
    · rintro - d ⟨rfl, hmax, hpre⟩
      exact (commitProtect_spec h hloc hlt hmax hpre).mono
        (fun _ e he => ⟨hbound, .inr ⟨by omega, he⟩⟩) (fun _ _ => False.elim) id

end Protect

end TheKernel.MemorySet
