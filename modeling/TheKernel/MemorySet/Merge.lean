import TheKernel.MemorySet.Set

namespace TheKernel.MemorySet

open Act

section

variable {F B E R L ε : Type}

/-- What an address shows: the flags, the place its backend serves it from,
and the lineage. -/
structure Cell (F L : Type) where
  flags : F
  place : L
  lineage : Nat
  deriving DecidableEq

def Area.cell (ℓ : B → Nat → L) (a : Area F B) (x : Nat) : Cell F L := ⟨a.flags, ℓ a.backend x, a.lineage⟩

def view (ℓ : B → Nat → L) (areas : Areas F B) (x : Nat) : Option (Cell F L) :=
  (find areas x).map (fun a => a.cell ℓ x)

/-- Backends that can merge serve every address from the same place. -/
def Interchangeable (backend : MappingBackend F B E R) (ℓ : B → Nat → L) : Prop :=
  ∀ b b' x, backend.canMerge b b' = true → ℓ b x = ℓ b' x

theorem view_eq_none {ℓ : B → Nat → L} {areas : Areas F B} {x : Nat} :
    view ℓ areas x = none ↔ find areas x = none := by
  rw [view, Option.map_eq_none_iff]

namespace Ordered

variable {ℓ : B → Nat → L} {areas : Areas F B} {a : Area F B} {k x : Nat}

theorem view_of_get? (h : Ordered areas) (hget : areas.get? k = some a) (hx : a.start ≤ x) (hx' : x < a.stop) :
    view ℓ areas x = some (a.cell ℓ x) := by
  rw [view, h.find_of_get? hget hx hx']
  rfl

theorem view_erase (h : Ordered areas) (hget : areas.get? k = some a) (x : Nat) :
    view ℓ (areas.erase k) x = if a.start ≤ x ∧ x < a.stop then none else view ℓ areas x := by
  rw [view, h.find_erase hget]
  split <;> rfl

theorem view_insert (h : Ordered areas) (hlt : a.start < a.stop) (hbound : a.stop ≤ usizeMax)
    (hfree : ∀ x, a.start ≤ x → x < a.stop → find areas x = none) (x : Nat) :
    view ℓ (areas.insert a.start a) x =
      if a.start ≤ x ∧ x < a.stop then some (a.cell ℓ x)
      else view ℓ areas x := by
  rw [view, h.find_insert hlt hbound hfree]
  split <;> rfl

theorem cutEnd (h : Ordered areas) (hget : areas.get? k = some a) (stop : Nat) (hlt : a.start < stop)
    (hle : stop ≤ a.stop) :
    Ordered (areas.insert k (a.setEnd stop)) ∧ ∀ x, view ℓ (areas.insert k (a.setEnd stop)) x =
      if stop ≤ x ∧ x < a.stop then none else view ℓ areas x := by
  have hkey := h.key k a hget
  have hbound := h.bounded k a hget
  obtain ⟨hord, hfind⟩ := h.replace (a := a.setEnd stop) hget hkey hlt (show stop ≤ usizeMax by omega)
    (fun x hx hx' => .inr ⟨hx, Nat.lt_of_lt_of_le hx' hle⟩)
  refine ⟨hord, fun x => ?_⟩
  rw [view, hfind x]
  simp only [Area.setEnd_start, Area.setEnd_stop]
  by_cases hin : a.start ≤ x ∧ x < a.stop
  · rw [h.view_of_get? hget hin.1 hin.2]
    by_cases hlow : x < stop
    · rw [if_pos ⟨hin.1, hlow⟩, if_neg (by omega)]
      rfl
    · rw [if_neg (by omega), if_pos hin, if_pos (by omega)]
      rfl
  · rw [if_neg (by omega), if_neg hin, if_neg (by omega)]
    rfl

/-- An area loses its beginning, and moves to the key of its new start. -/
theorem cutStart (h : Ordered areas) (hget : areas.get? k = some a) (start : Nat) (hle : a.start ≤ start)
    (hlt : start < a.stop) : Ordered ((areas.erase k).insert start (a.setStart start)) ∧
      ∀ x, view ℓ ((areas.erase k).insert start (a.setStart start)) x =
        if a.start ≤ x ∧ x < start then none else view ℓ areas x := by
  have hfree (x : Nat) (hx : start ≤ x) (hx' : x < a.stop) : find (areas.erase k) x = none := by
    rw [h.find_erase hget, if_pos ⟨Nat.le_trans hle hx, hx'⟩]
  refine ⟨(h.erase k).insert (a := a.setStart start) hlt (h.bounded k a hget) hfree, fun x => ?_⟩
  have hview := (h.erase k).view_insert (ℓ := ℓ) (a := a.setStart start) hlt (h.bounded k a hget) hfree x
  simp only [Area.setStart_start, Area.setStart_stop] at hview
  rw [hview, h.view_erase hget]
  by_cases hin : a.start ≤ x ∧ x < a.stop
  · rw [h.view_of_get? hget hin.1 hin.2, if_pos hin]
    by_cases hlow : x < start
    · rw [if_neg (by omega), if_pos (by omega)]
    · rw [if_pos (by omega), if_neg (by omega)]
      rfl
  · rw [if_neg (by omega), if_neg hin, if_neg (by omega)]

end Ordered

section Primitives

variable {c : Call F B E R} {start : Nat} {a : Area F B}

def Call.withAreas (c : Call F B E R) (areas : Areas F B) : Call F B E R :=
  { c with set := { c.set with areas := areas }, peak := max c.peak areas.size }

@[simp] theorem Call.withAreas_areas (c : Call F B E R) (areas : Areas F B) : (c.withAreas areas).set.areas = areas :=
  rfl

@[simp] theorem Call.withAreas_gaps (c : Call F B E R) (areas : Areas F B) :
    (c.withAreas areas).set.gaps = c.set.gaps := rfl

@[simp] theorem Call.withAreas_revision (c : Call F B E R) (areas : Areas F B) :
    (c.withAreas areas).set.revision = c.set.revision := rfl

@[simp] theorem Call.withAreas_table (c : Call F B E R) (areas : Areas F B) : (c.withAreas areas).table = c.table := rfl

@[simp] theorem Call.withAreas_retirement (c : Call F B E R) (areas : Areas F B) :
    (c.withAreas areas).retirement = c.retirement := rfl

@[simp] theorem Call.withAreas_peak (c : Call F B E R) (areas : Areas F B) :
    (c.withAreas areas).peak = max c.peak areas.size := rfl

theorem putAreas_apply (areas : Areas F B) :
    (putAreas areas : Act (Call F B E R) ε Unit) c = (.ok (), c.withAreas areas) := rfl

theorem putArea_apply :
    (putArea start a : Act (Call F B E R) ε Unit) c = (.ok (), c.withAreas (c.set.areas.insert start a)) := rfl

theorem areaAt_apply (hget : c.set.areas.get? start = some a) :
    (areaAt start : Act (Call F B E R) ε (Area F B)) c = (.ok a, c) := by
  rw [areaAt, get_bind, hget, expect_some]

theorem updateArea_apply (hget : c.set.areas.get? start = some a) (f : Area F B → Area F B) :
    (updateArea start f : Act (Call F B E R) ε Unit) c = (.ok (), c.withAreas (c.set.areas.insert start (f a))) := by
  rw [updateArea, bind_apply, areaAt_apply hget]
  rfl

theorem removeArea_apply (hget : c.set.areas.get? start = some a) :
    (removeArea start : Act (Call F B E R) ε (Area F B)) c = (.ok a, c.withAreas (c.set.areas.erase start)) := by
  rw [removeArea, get_bind, bind_apply, areaAt_apply hget]
  rfl

theorem insertArea_apply (hget : c.set.areas.get? a.start = none) :
    (insertArea a : Act (Call F B E R) ε Unit) c = (.ok (), c.withAreas (c.set.areas.insert a.start a)) := by
  rw [insertArea, get_bind, hget]
  rfl

end Primitives

def Joined (areas : Areas F B) (x y : Nat) : Prop := ∃ a, find areas x = some a ∧ find areas y = some a

def Engages (backend : MappingBackend F B E R) (b : B) : Prop :=
  ∃ b', backend.canMerge b b' = true ∨ backend.canMerge b' b = true

/-- What joining areas can do to a call: fewer areas, the same contents, and
no area joined whose backend cannot be merged. -/
structure Merged (backend : MappingBackend F B E R) (ℓ : B → Nat → L) (c d : Call F B E R) : Prop where
  ordered : Ordered d.set.areas
  view : ∀ x, view ℓ d.set.areas x = view ℓ c.set.areas x
  joined : ∀ x y, Joined c.set.areas x y → Joined d.set.areas x y
  parted : ∀ x y a, Joined d.set.areas x y → find c.set.areas x = some a →
    Joined c.set.areas x y ∨ Engages backend a.backend
  engages : ∀ x a b, find c.set.areas x = some a → find d.set.areas x = some b → Engages backend b.backend →
    Engages backend a.backend
  size : d.set.areas.size ≤ c.set.areas.size
  peak : d.peak ≤ max c.peak c.set.areas.size
  gaps : d.set.gaps = c.set.gaps
  revision : d.set.revision = c.set.revision
  table : d.table = c.table
  retirement : d.retirement = c.retirement

namespace Merged

variable {backend : MappingBackend F B E R} {ℓ : B → Nat → L} {c d e : Call F B E R}

theorem refl (h : Ordered c.set.areas) : Merged backend ℓ c c where
  ordered := h
  view _ := rfl
  joined _ _ := id
  parted _ _ _ hj _ := .inl hj
  engages x a b ha hb := by
    rw [ha, Option.some.injEq] at hb
    rw [hb]
    exact id
  size := Nat.le_refl _
  peak := Nat.le_max_left _ _
  gaps := rfl
  revision := rfl
  table := rfl
  retirement := rfl

theorem find_isSome (h : Merged backend ℓ c d) {x : Nat} {a : Area F B} (ha : find c.set.areas x = some a) :
    ∃ b, find d.set.areas x = some b := by
  rw [← Option.ne_none_iff_exists', ne_eq, ← view_eq_none (ℓ := ℓ), h.view, view_eq_none, ha]
  simp

theorem trans (h : Merged backend ℓ c d) (h' : Merged backend ℓ d e) : Merged backend ℓ c e where
  ordered := h'.ordered
  view x := (h'.view x).trans (h.view x)
  joined x y hj := h'.joined x y (h.joined x y hj)
  parted x y a hj ha := by
    obtain ⟨b, hb⟩ := h.find_isSome ha
    rcases h'.parted x y b hj hb with hj | heng
    · exact h.parted x y a hj ha
    · exact .inr (h.engages x a b ha hb heng)
  engages x a q ha hq heng := by
    obtain ⟨b, hb⟩ := h.find_isSome ha
    exact h.engages x a b ha hb (h'.engages x b q hb hq heng)
  size := Nat.le_trans h'.size h.size
  peak := by
    have := h.size
    have := h.peak
    have := h'.peak
    omega
  gaps := h'.gaps.trans h.gaps
  revision := h'.revision.trans h.revision
  table := h'.table.trans h.table
  retirement := h'.retirement.trans h.retirement

end Merged

section Merge

variable [DecidableEq F] {backend : MappingBackend F B E R} {ℓ : B → Nat → L} {c : Call F B E R}

theorem absorbNext_spec {start next : Nat} {a b : Area F B} (h : Ordered c.set.areas)
    (hloc : Interchangeable backend ℓ) (ha : c.set.areas.get? start = some a) (hb : c.set.areas.get? next = some b)
    (hmerge : canMergeAreas backend a b = true) {err : ε → Call F B E R → Prop} {panic : Prop} :
    Ensures (absorbNext start next : Act (Call F B E R) ε Unit) c
      (fun _ d => Merged backend ℓ c d ∧ (d.set.areas.get? start).isSome ∧
        ∀ x y, a.start ≤ x → x < b.stop → a.start ≤ y → y < b.stop → Joined d.set.areas x y) err panic := by
  simp only [canMergeAreas, decide_eq_true_eq] at hmerge
  obtain ⟨htouch, hflags, hlineage, hcan⟩ := hmerge
  have hka := h.key _ _ ha
  have hkb := h.key _ _ hb
  have hna := h.nonempty _ _ ha
  have hnb := h.nonempty _ _ hb
  have hne : start ≠ next := by omega
  refine ensures_bind_of_eq (removeArea_apply hb) ?_
  have ha' : (c.set.areas.erase next).get? start = some a := by
    rw [SortedMap.get?_erase, if_neg hne]
    exact ha
  have hfind := h.find_erase hb
  obtain ⟨hord, hfind'⟩ := (h.erase next).replace (a := a.setEnd b.stop) ha' (by exact hka)
    (show a.start < b.stop by omega) (show b.stop ≤ usizeMax from h.bounded _ _ hb) (fun x hx hx' => by
      by_cases hin : x < a.stop
      · exact .inr ⟨hx, hin⟩
      · refine .inl ?_
        rw [hfind, if_pos]
        exact ⟨by omega, hx'⟩)
  have hsize := SortedMap.size_erase hb
  have hsize' := SortedMap.size_insert_of_some (v := a.setEnd b.stop) ha'
  have hin (x : Nat) (hx : a.start ≤ x) (hx' : x < b.stop) :
      find ((c.set.areas.erase next).insert start (a.setEnd b.stop)) x = some (a.setEnd b.stop) := by
    rw [hfind' x]
    exact if_pos ⟨hx, hx'⟩
  have hout (x : Nat) (hx : ¬ (a.start ≤ x ∧ x < b.stop)) :
      find ((c.set.areas.erase next).insert start (a.setEnd b.stop)) x = find c.set.areas x := by
    rw [hfind' x, if_neg (by simpa using hx), if_neg (by omega), hfind x, if_neg (by omega)]
  have hengages (x : Nat) (e : Area F B) (he : find c.set.areas x = some e) (hx : a.start ≤ x ∧ x < b.stop) :
      Engages backend e.backend := by
    by_cases hleft : x < a.stop
    · rw [h.find_of_get? ha hx.1 hleft, Option.some.injEq] at he
      exact he ▸ ⟨b.backend, .inl hcan⟩
    · rw [h.find_of_get? hb (by omega) hx.2, Option.some.injEq] at he
      exact he ▸ ⟨a.backend, .inr hcan⟩
  refine ensures_of_eq (updateArea_apply ha' _) ⟨⟨hord, fun x => ?_, ?_, fun x y e hj he => ?_,
    fun x e f he hf heng => ?_,
    ?_, ?_, rfl, rfl, rfl, rfl⟩, ?_, fun x y hx hx' hy hy' => ⟨a.setEnd b.stop, hin x hx hx', hin y hy hy'⟩⟩
  · simp only [MemorySet.view, Call.withAreas_areas, hfind' x, hfind x, Area.setEnd_start, Area.setEnd_stop]
    by_cases hin : a.start ≤ x ∧ x < a.stop
    · rw [if_pos ⟨hin.1, show x < b.stop by omega⟩, h.find_of_get? ha hin.1 hin.2]
      rfl
    · by_cases hin' : b.start ≤ x ∧ x < b.stop
      · rw [if_pos ⟨show a.start ≤ x by omega, hin'.2⟩, h.find_of_get? hb hin'.1 hin'.2]
        simp only [Option.map_some, Area.cell, Area.setEnd, hflags, hlineage, hloc _ _ x hcan]
      · rw [if_neg (show ¬ (a.start ≤ x ∧ x < b.stop) by omega), if_neg hin, if_neg hin']
  · rintro x y ⟨e, hx, hy⟩
    obtain ⟨hget, hx⟩ := h.find_eq_some.mp hx
    obtain ⟨-, hy⟩ := h.find_eq_some.mp hy
    have hcross : e = a ∨ e = b ∨ (e.stop ≤ a.start ∨ b.stop ≤ e.start) := by
      rcases Nat.lt_trichotomy e.start a.start with hlt | heq | hgt
      · have := h.apart _ _ _ _ hget ha (by omega)
        omega
      · rw [heq, hka, ha, Option.some.injEq] at hget
        exact .inl hget.symm
      · rcases Nat.lt_trichotomy e.start b.start with hlt | heq | hgt'
        · have := h.apart _ _ _ _ ha hget (by omega)
          omega
        · rw [heq, hkb, hb, Option.some.injEq] at hget
          exact .inr (.inl hget.symm)
        · have := h.apart _ _ _ _ hb hget (by omega)
          omega
    rcases hcross with rfl | rfl | hapart
    · exact ⟨_, hin x hx.1 (by omega), hin y hy.1 (by omega)⟩
    · exact ⟨_, hin x (by omega) hx.2, hin y (by omega) hy.2⟩
    · refine ⟨e, ?_, ?_⟩
      · exact (hout x (by omega)).trans (h.find_of_get? hget hx.1 hx.2)
      · exact (hout y (by omega)).trans (h.find_of_get? hget hy.1 hy.2)
  · by_cases hx : a.start ≤ x ∧ x < b.stop
    · exact .inr (hengages x e he hx)
    · left
      obtain ⟨f, hfx, hfy⟩ := hj
      obtain rfl : e = f := Option.some.inj (he.symm.trans ((hout x hx).symm.trans hfx))
      refine ⟨e, he, (hout y fun hy => ?_).symm.trans hfy⟩
      -- the joined area would hold the first address too
      have hsame := Option.some.inj ((hin y hy.1 hy.2).symm.trans hfy)
      obtain ⟨-, hex, hex'⟩ := h.find_eq_some.mp he
      rw [← hsame] at hex hex'
      exact hx ⟨hex, hex'⟩
  · by_cases hx : a.start ≤ x ∧ x < b.stop
    · exact hengages x e he hx
    · have hsame := Option.some.inj (he.symm.trans ((hout x hx).symm.trans hf))
      exact hsame ▸ heng
  · simp only [Call.withAreas_areas]
    omega
  · simp only [Call.withAreas_areas, Call.withAreas_peak]
    omega
  · simp

theorem mergePrevInto_spec {current : Nat} (h : Ordered c.set.areas) (hloc : Interchangeable backend ℓ)
    (hcur : (c.set.areas.get? current).isSome) {err : ε → Call F B E R → Prop} {panic : Prop} :
    Ensures (mergePrevInto backend current : Act (Call F B E R) ε Nat) c
      (fun start d => Merged backend ℓ c d ∧ (d.set.areas.get? start).isSome) err panic := by
  obtain ⟨a, ha⟩ := Option.isSome_iff_exists.mp hcur
  refine ensures_get_bind ?_
  cases hprev : c.set.areas.lastBelow current with
  | none => exact ensures_pure ⟨.refl h, hcur⟩
  | some e =>
      obtain ⟨k, b⟩ := e
      have hb := (SortedMap.lastBelow_eq_some.mp hprev).1
      refine ensures_bind_of_eq (areaAt_apply hb) (ensures_bind_of_eq (areaAt_apply ha) ?_)
      split
      · exact (absorbNext_spec h hloc hb ha ‹_›).bind fun _ d hd => ensures_pure ⟨hd.1, hd.2.1⟩
      · exact ensures_pure ⟨.refl h, hcur⟩

theorem mergeNextInto_spec {current : Nat} (h : Ordered c.set.areas) (hloc : Interchangeable backend ℓ)
    (hcur : (c.set.areas.get? current).isSome) {err : ε → Call F B E R → Prop} {panic : Prop} :
    Ensures (mergeNextInto backend current : Act (Call F B E R) ε Bool) c
      (fun _ d => Merged backend ℓ c d ∧ (d.set.areas.get? current).isSome) err panic := by
  obtain ⟨a, ha⟩ := Option.isSome_iff_exists.mp hcur
  refine ensures_get_bind ?_
  cases hnext : c.set.areas.firstAfter current with
  | none => exact ensures_pure ⟨.refl h, hcur⟩
  | some e =>
      obtain ⟨k, b⟩ := e
      have hb := (SortedMap.firstAfter_eq_some.mp hnext).1
      refine ensures_bind_of_eq (areaAt_apply ha) (ensures_bind_of_eq (areaAt_apply hb) ?_)
      split
      · exact (absorbNext_spec h hloc ha hb ‹_›).bind fun _ d hd => ensures_pure ⟨hd.1, hd.2.1⟩
      · exact ensures_pure ⟨.refl h, hcur⟩

theorem mergePrevLoop_spec {current : Nat} (fuel : Nat) (h : Ordered c.set.areas) (hloc : Interchangeable backend ℓ)
    (hcur : (c.set.areas.get? current).isSome) {err : ε → Call F B E R → Prop} {panic : Prop} :
    Ensures (mergePrevLoop backend fuel current : Act (Call F B E R) ε Nat) c
      (fun start d => Merged backend ℓ c d ∧ (d.set.areas.get? start).isSome) err panic := by
  induction fuel generalizing c current with
  | zero => exact ensures_pure ⟨.refl h, hcur⟩
  | succ fuel ih =>
      refine (mergePrevInto_spec h hloc hcur).bind fun merged d hd => ?_
      split
      · rename_i heq
        exact ensures_pure (heq ▸ hd)
      · exact (ih hd.1.ordered hd.2).mono (fun start e he => ⟨hd.1.trans he.1, he.2⟩) (fun _ _ => id) id

theorem mergeNextLoop_spec {current : Nat} (fuel : Nat) (h : Ordered c.set.areas) (hloc : Interchangeable backend ℓ)
    (hcur : (c.set.areas.get? current).isSome) {err : ε → Call F B E R → Prop} {panic : Prop} :
    Ensures (mergeNextLoop backend fuel current : Act (Call F B E R) ε Unit) c (fun _ d => Merged backend ℓ c d)
      err panic := by
  induction fuel generalizing c with
  | zero => exact ensures_pure (.refl h)
  | succ fuel ih =>
      refine (mergeNextInto_spec h hloc hcur).bind fun merged d hd => ?_
      split
      · exact (ih hd.1.ordered hd.2).mono (fun _ e he => hd.1.trans he) (fun _ _ => id) id
      · exact ensures_pure hd.1

theorem mergeAdjacentAt_spec (anchor : Nat) (h : Ordered c.set.areas) (hloc : Interchangeable backend ℓ)
    {q : ε → Call F B E R → Prop} {r : Prop} :
    Ensures (mergeAdjacentAt backend anchor : Act (Call F B E R) ε Unit) c (fun _ d => Merged backend ℓ c d) q r := by
  refine ensures_get_bind ?_
  cases hanchor : mergeAnchor c.set.areas anchor with
  | none => exact ensures_pure (.refl h)
  | some start =>
      have hstart : (c.set.areas.get? start).isSome := by
        rw [mergeAnchor] at hanchor
        split at hanchor
        · cases hanchor
          assumption
        · split at hanchor
          · rename_i hlast
            split at hanchor
            · cases hanchor
              rw [(SortedMap.lastUpTo_eq_some.mp hlast).1]
              rfl
            · cases hanchor
          · cases hanchor
      refine (mergePrevLoop_spec _ h hloc hstart).bind fun current d hd => ?_
      exact (mergeNextLoop_spec _ hd.1.ordered hloc hd.2).mono (fun _ e he => hd.1.trans he) (fun _ _ => id) id

end Merge

end

variable {F B : Type} {areas : Areas F B} {range : Range}

theorem firstStart_le (start : Nat) : firstStart areas start ≤ start := by
  rw [firstStart]
  split
  · rename_i hlast
    have := (SortedMap.lastUpTo_eq_some.mp hlast).2.1
    split <;> omega
  · exact Nat.le_refl _

/-- The walk from `first_start` meets every area that reaches into the range. -/
theorem Ordered.firstStart_le_key (h : Ordered areas) {k start : Nat} {a : Area F B} (hget : areas.get? k = some a)
    (hreach : start < a.stop) : firstStart areas start ≤ k := by
  rcases Nat.lt_or_ge start k with hlt | hge
  · exact Nat.le_trans (firstStart_le start) (Nat.le_of_lt hlt)
  · have hlast : areas.lastUpTo start = some (k, a) := by
      rw [SortedMap.lastUpTo_eq_some]
      refine ⟨hget, hge, fun i w hi hle => ?_⟩
      by_contra hlt
      have := h.apart k a i w hget hi (by omega)
      omega
    rw [firstStart, hlast]
    simp only [if_pos hreach, Nat.le_refl]

theorem Ordered.iterOverlapping_eq (h : Ordered areas) (range : Range) :
    iterOverlapping areas range = (areas.entries.filter (fun e => e.2.overlaps range)).map (·.2) := by
  rw [iterOverlapping, SortedMap.range, List.filter_map, List.filter_filter]
  congr 1
  apply List.filter_congr
  rintro ⟨k, a⟩ hmem
  have hget := SortedMap.mem_entries.mp hmem
  have hkey := h.key k a hget
  by_cases hover : a.overlaps range = true
  · have hfirst := h.firstStart_le_key hget (Area.overlaps_iff.mp hover).2
    have hlt := (Area.overlaps_iff.mp hover).1
    simp only [Function.comp_apply, hover, Bool.true_and, decide_eq_true_eq]
    omega
  · simp only [Function.comp_apply, Bool.eq_false_of_not_eq_true hover, Bool.false_and]

theorem Ordered.mem_iterOverlapping (h : Ordered areas) {a : Area F B} :
    a ∈ iterOverlapping areas range ↔ areas.get? a.start = some a ∧ a.overlaps range = true := by
  rw [h.iterOverlapping_eq, List.mem_map]
  constructor
  · rintro ⟨⟨k, b⟩, hmem, rfl⟩
    rw [List.mem_filter, SortedMap.mem_entries] at hmem
    rw [h.key k b hmem.1]
    exact hmem
  · rintro ⟨hget, hover⟩
    exact ⟨(a.start, a), List.mem_filter.mpr ⟨SortedMap.mem_entries.mpr hget, hover⟩, rfl⟩

theorem Ordered.overlapsAny_iff (h : Ordered areas) :
    overlapsAny areas range = true ↔ ∃ k a, areas.get? k = some a ∧ a.overlaps range = true := by
  rw [overlapsAny, Bool.or_eq_true, Option.any_eq_true, Option.any_eq_true]
  constructor
  · rintro (⟨⟨k, a⟩, hlast, hover⟩ | ⟨⟨k, a⟩, hfirst, hover⟩)
    · exact ⟨k, a, (SortedMap.lastBelow_eq_some.mp hlast).1, hover⟩
    · exact ⟨k, a, (SortedMap.firstFrom_eq_some.mp hfirst).1, hover⟩
  · rintro ⟨k, a, hget, hover⟩
    have hkey := h.key k a hget
    obtain ⟨hover₁, hover₂⟩ := Area.overlaps_iff.mp hover
    rcases Nat.lt_or_ge k range.1 with hbelow | hfrom
    · refine .inl ⟨(k, a), SortedMap.lastBelow_eq_some.mpr ⟨hget, hbelow, fun i w hi hi' => ?_⟩, hover⟩
      by_contra hki
      have := h.apart k a i w hget hi (by omega)
      omega
    · right
      cases hfirst : areas.firstFrom range.1 with
      | none =>
          have := SortedMap.firstFrom_eq_none.mp hfirst k a hget
          omega
      | some e =>
          obtain ⟨j, b⟩ := e
          obtain ⟨hb, hj, hmin⟩ := SortedMap.firstFrom_eq_some.mp hfirst
          refine ⟨(j, b), rfl, Area.overlaps_iff.mpr ?_⟩
          have hjk := hmin k a hget hfrom
          have := h.key j b hb
          have := h.nonempty j b hb
          dsimp only
          omega

/-- No area meets the range exactly when every address of it is free. -/
theorem Ordered.free_iff (h : Ordered areas) (hlt : range.1 < range.2) :
    (∀ x, InRange range x → find areas x = none) ↔ ∀ k a, areas.get? k = some a → a.overlaps range = false := by
  constructor
  · intro hfree k a hget
    by_contra hover
    obtain ⟨h₁, h₂⟩ := Area.overlaps_iff.mp (by simpa using hover)
    have := h.nonempty k a hget
    have hnone := hfree (max a.start range.1) ⟨by omega, by omega⟩
    exact h.find_eq_none.mp hnone k a hget (by omega)
  · intro hnone x hx
    rw [h.find_eq_none]
    intro k a hget hin
    have hover : a.overlaps range = true := by
      rw [Area.overlaps_iff]
      have := hx.1
      have := hx.2
      omega
    rw [hnone k a hget] at hover
    cases hover

theorem Ordered.mem_fullyCovered (h : Ordered areas) {k : Nat} :
    k ∈ fullyCovered areas range ↔ ∃ a, areas.get? k = some a ∧ a.containedIn range = true := by
  rw [fullyCovered, List.mem_map]
  constructor
  · rintro ⟨⟨k, a⟩, hmem, rfl⟩
    rw [List.mem_filter, SortedMap.mem_range] at hmem
    exact ⟨a, hmem.1.1, hmem.2⟩
  · rintro ⟨a, hget, hin⟩
    have hkey := h.key k a hget
    have hne := h.nonempty k a hget
    refine ⟨(k, a), List.mem_filter.mpr ⟨SortedMap.mem_range.mpr ⟨hget, ?_⟩, hin⟩, rfl⟩
    rw [Area.containedIn_iff] at hin
    dsimp only
    omega

theorem nodup_fullyCovered : (fullyCovered areas range).Nodup := by
  rw [fullyCovered, SortedMap.range, List.filter_filter]
  refine List.Pairwise.map _ ?_ (areas.sorted.filter _)
  exact fun e e' hlt => hlt.ne

/-- A range leaves at least as many fragments as it leaves areas, and one more
if it falls inside an area. -/
theorem Ordered.fragments_le (h : Ordered areas) (hlt : range.1 < range.2) (split : Prop) [Decidable split]
    (hsplit : split → ∃ k a, areas.get? k = some a ∧ a.start < range.1 ∧ range.2 < a.stop) :
    areas.size + (if split then 1 else 0) ≤
      areas.size - (iterOverlapping areas range).length + ((iterOverlapping areas range).map (fragments range)).sum +
        (fullyCovered areas range).length := by
  have hcovered : (fullyCovered areas range).length =
      ((iterOverlapping areas range).filter (fun a => a.containedIn range)).length := by
    rw [h.iterOverlapping_eq, fullyCovered, List.length_map, List.filter_map, List.length_map, SortedMap.range,
      List.filter_filter, List.filter_filter]
    congr 1
    apply List.filter_congr
    rintro ⟨k, a⟩ hmem
    have hget := SortedMap.mem_entries.mp hmem
    have hkey := h.key k a hget
    have hne := h.nonempty k a hget
    by_cases hin : a.containedIn range = true
    · have hin' := Area.containedIn_iff.mp hin
      have hover : a.overlaps range = true := Area.overlaps_iff.mpr (by omega)
      simp only [hin, hover, Function.comp_apply, Bool.true_and, decide_eq_true_eq]
      omega
    · simp only [Function.comp_apply, Bool.eq_false_of_not_eq_true hin, Bool.false_and]
  have hcount : ∀ xs : List (Area F B), (∀ a ∈ xs, a.overlaps range = true) →
      xs.length + (if ∃ a ∈ xs, a.start < range.1 ∧ range.2 < a.stop then 1 else 0) ≤
        (xs.map (fragments range)).sum + (xs.filter (fun a => a.containedIn range)).length := by
    intro xs
    induction xs with
    | nil => simp
    | cons a xs ih =>
        intro hover
        have hxs := ih fun b hb => hover b (by simp [hb])
        have ha : 1 + (if a.start < range.1 ∧ range.2 < a.stop then 1 else 0) ≤
            fragments range a + (if a.containedIn range then 1 else 0) := by
          simp only [fragments, Area.containedIn_iff]
          split_ifs <;> omega
        rw [List.length_cons, List.map_cons, List.sum_cons, List.filter_cons]
        by_cases hin : a.containedIn range = true <;> simp only [hin, if_true, List.length_cons] at ha ⊢ <;>
          by_cases hmid : a.start < range.1 ∧ range.2 < a.stop <;> simp only [List.mem_cons, exists_eq_or_imp,
            hmid, true_or, false_or, if_true, if_false, and_self] at ha ⊢ <;> split_ifs at * <;> omega
  have hmain := hcount (iterOverlapping areas range) fun a ha => (h.mem_iterOverlapping.mp ha).2
  have hle : (iterOverlapping areas range).length ≤ areas.size := by
    rw [h.iterOverlapping_eq, List.length_map, SortedMap.size]
    exact List.length_filter_le _ _
  have hif : (if split then 1 else 0) ≤ (if ∃ a ∈ iterOverlapping areas range, a.start < range.1 ∧
      range.2 < a.stop then 1 else 0) := by
    by_cases hs : split
    · obtain ⟨k, a, hget, ha⟩ := hsplit hs
      have hmem : a ∈ iterOverlapping areas range := by
        rw [h.mem_iterOverlapping, Area.overlaps_iff, h.key k a hget]
        have := h.key k a hget
        exact ⟨hget, by omega⟩
      rw [if_pos hs, if_pos ⟨a, hmem, ha⟩]
    · rw [if_neg hs]
      exact Nat.zero_le _
  omega

end TheKernel.MemorySet
