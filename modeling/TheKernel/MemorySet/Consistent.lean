import TheKernel.MemorySet.Set

namespace TheKernel.MemorySet

section

variable {F B : Type}

/-- The areas are in order, and the gap index tracks the addresses that no
area contains. -/
structure Consistent (set : MemorySet F B) : Prop where
  ordered : Ordered set.areas
  tracked : ∃ m, Tracks set.gaps.root set.gaps.tailStart m ∧
    ∀ x, Free m set.gaps.tailStart x ↔ find set.areas x = none

theorem consistent_new : Consistent (new : MemorySet F B) := by
  refine ⟨.empty, SortedMap.empty, .nil, fun x => ?_⟩
  constructor
  · intro _
    exact Ordered.empty.find_eq_none.mpr (by simp)
  · intro _
    exact .inl (Nat.zero_le _)

/-- The free intervals an index stands for: its gaps and its tail. -/
def GapIndex.intervals (g : GapIndex) : List Range :=
  g.root.toList ++ if g.tailStart < usizeMax then [(g.tailStart, usizeMax)] else []

/-- A free interval that no larger one of the address space contains. -/
structure MaximalFree (areas : Areas F B) (range : Range) : Prop where
  nonempty : range.1 < range.2
  bounded : range.2 ≤ usizeMax
  free : ∀ x, range.1 ≤ x → x < range.2 → find areas x = none
  left : range.1 = 0 ∨ find areas (range.1 - 1) ≠ none
  right : range.2 = usizeMax ∨ find areas range.2 ≠ none

namespace Tracks

variable {root : GapNode} {tail : Nat} {m : SortedMap Nat Nat} {a b : Nat}

theorem not_free_end (h : Tracks root tail m) (hab : m.get? a = some b) : ¬ Free m tail b := by
  have := h.tail a b hab
  rintro (htail | ⟨c, d, hcd, hc, hd⟩)
  · omega
  · rcases Nat.lt_trichotomy a c with hlt | rfl | hgt
    · have := h.apart a b c d hab hcd hlt
      omega
    · rw [hab, Option.some.injEq] at hcd
      omega
    · have := h.apart c d a b hcd hab hgt
      have := h.nonempty a b hab
      omega

theorem not_free_before (h : Tracks root tail m) (hab : m.get? a = some b) (ha : a ≠ 0) : ¬ Free m tail (a - 1) := by
  have := h.tail a b hab
  have := h.nonempty a b hab
  rintro (htail | ⟨c, d, hcd, hc, hd⟩)
  · omega
  · have := h.apart c d a b hcd hab (by omega)
    omega

theorem not_free_before_tail (h : Tracks root tail m) (htail : tail ≠ 0) : ¬ Free m tail (tail - 1) := by
  rintro (hle | ⟨c, d, hcd, hc, hd⟩)
  · omega
  · have := h.tail c d hcd
    omega

theorem mem_toList (h : Tracks root tail m) {range : Range} : range ∈ root.toList ↔ m.get? range.1 = some range.2 := by
  rw [h.entries]
  exact SortedMap.mem_entries

end Tracks

theorem Consistent.tail_le {set : MemorySet F B} (h : Consistent set) : set.gaps.tailStart ≤ usizeMax := by
  obtain ⟨m, hm, hfree⟩ := h.tracked
  by_contra hlt
  rcases (hfree usizeMax).mpr (h.ordered.find_ge (Nat.le_refl _)) with htail | ⟨a, b, hab, ha, hb⟩
  · omega
  · exact hm.not_free_end hab ((hfree b).mpr (h.ordered.find_ge (Nat.le_of_lt hb)))

theorem Consistent.mem_intervals {set : MemorySet F B} (h : Consistent set) (range : Range) :
    range ∈ set.gaps.intervals ↔ MaximalFree set.areas range := by
  have htail := h.tail_le
  obtain ⟨m, hm, hfree⟩ := h.tracked
  obtain ⟨a, b⟩ := range
  rw [GapIndex.intervals, List.mem_append, hm.mem_toList]
  constructor
  · rintro (hab | hab)
    · dsimp only at hab
      have hlt := hm.tail a b hab
      refine ⟨hm.nonempty a b hab, by dsimp only; omega, fun x hx hx' => ?_, ?_, .inr ?_⟩
      · exact (hfree x).mp (.inr ⟨a, b, hab, hx, hx'⟩)
      · by_cases ha : a = 0
        · exact .inl ha
        · exact .inr fun hnone => hm.not_free_before hab ha ((hfree _).mpr hnone)
      · exact fun hnone => hm.not_free_end hab ((hfree _).mpr hnone)
    · split at hab
      · rw [List.mem_singleton, Prod.mk.injEq] at hab
        obtain ⟨rfl, rfl⟩ := hab
        refine ⟨‹_›, Nat.le_refl _, fun x hx _ => (hfree x).mp (.inl hx), ?_, .inl rfl⟩
        by_cases ha : set.gaps.tailStart = 0
        · exact .inl ha
        · exact .inr fun hnone => hm.not_free_before_tail ha ((hfree _).mpr hnone)
      · cases hab
  · rintro ⟨hlt, hbound, hall, hleft, hright⟩
    dsimp only at hlt hbound hall hleft hright
    rcases (hfree a).mpr (hall a (Nat.le_refl _) hlt) with ha | ⟨c, d, hcd, hc, hd⟩
    · right
      have hstart : a = set.gaps.tailStart := by
        by_contra hne
        rcases hleft with hzero | hcover
        · omega
        · exact hcover ((hfree _).mp (.inl (by omega)))
      have hend : b = usizeMax := by
        rcases hright with hmax | hcover
        · exact hmax
        · exact absurd ((hfree b).mp (.inl (by omega))) hcover
      rw [if_pos (by omega), List.mem_singleton, hstart, hend]
    · left
      have hdt := hm.tail c d hcd
      have hstart : a = c := by
        by_contra hne
        rcases hleft with hzero | hcover
        · omega
        · exact hcover ((hfree _).mp (.inr ⟨c, d, hcd, by omega, by omega⟩))
      have hend : b = d := by
        rcases Nat.lt_trichotomy b d with hbd | rfl | hdb
        · rcases hright with hmax | hcover
          · omega
          · exact absurd ((hfree b).mp (.inr ⟨c, d, hcd, by omega, hbd⟩)) hcover
        · rfl
        · exact absurd ((hfree d).mpr (hall d (by omega) hdb)) (hm.not_free_end hcd)
      rw [hstart, hend]
      exact hcd

/-- The intervals of the index, in address order, never touch. -/
theorem Consistent.intervals_apart {set : MemorySet F B} (h : Consistent set) :
    set.gaps.intervals.Pairwise (fun r r' => r.2 < r'.1) := by
  obtain ⟨m, hm, -⟩ := h.tracked
  rw [GapIndex.intervals, List.pairwise_append]
  refine ⟨?_, ?_, fun r hr r' hr' => ?_⟩
  · rw [hm.entries]
    refine m.sorted.imp_of_mem fun {r r'} hr hr' hlt => ?_
    exact hm.apart r.1 r.2 r'.1 r'.2 (SortedMap.mem_entries.mp hr) (SortedMap.mem_entries.mp hr') hlt
  · split
    · exact List.pairwise_singleton _ _
    · exact .nil
  · split at hr'
    · rw [List.mem_singleton.mp hr']
      exact hm.tail r.1 r.2 (hm.mem_toList.mp hr)
    · cases hr'

theorem Consistent.valid {set : MemorySet F B} (h : Consistent set) : set.gaps.root.Valid := by
  obtain ⟨m, hm, -⟩ := h.tracked
  exact hm.valid

/-- A range given back to the index, once no area uses it. -/
theorem Consistent.release {set : MemorySet F B} (h : Consistent set) {areas : Areas F B} {range : Range}
    {revision : Nat} (hord : Ordered areas) (hlt : range.1 < range.2)
    (hfind : ∀ x, find areas x = none ↔ find set.areas x = none ∨ InRange range x) :
    Consistent ⟨areas, GapIndex.release range set.gaps, revision⟩ := by
  obtain ⟨m, hm, hfree⟩ := h.tracked
  obtain ⟨m', hm', hfree'⟩ := hm.release hlt
  refine ⟨hord, m', hm', fun x => ?_⟩
  rw [hfree' x, hfree x, hfind x]

/-- A free range taken from the index, as an area begins to use it. -/
theorem Consistent.occupy {ε : Type} {set : MemorySet F B} (h : Consistent set) {areas : Areas F B} (range : Range)
    (hlt : range.1 < range.2) (hfree : ∀ x, InRange range x → find set.areas x = none)
    (hord : Ordered areas) (hfind : ∀ x, find areas x = none ↔ find set.areas x = none ∧ ¬ InRange range x) :
    ∃ gaps, (GapIndex.occupy range set.gaps : Outcome ε GapIndex) = .ok gaps ∧
      ∀ revision, Consistent ⟨areas, gaps, revision⟩ := by
  obtain ⟨m, hm, hgaps⟩ := h.tracked
  obtain ⟨g, m', hg, hm', hfree'⟩ := hm.occupy (ε := ε) range hlt (fun x hx => (hgaps x).mpr (hfree x hx))
  refine ⟨g, hg, fun revision => ⟨hord, m', hm', fun x => ?_⟩⟩
  rw [hfree' x, hgaps x, hfind x]

theorem Consistent.recover {set : MemorySet F B} (h : Consistent set) {areas : Areas F B} {revision : Nat}
    (hord : Ordered areas) (hfind : ∀ x, find areas x = none ↔ find set.areas x = none) :
    Consistent ⟨areas, set.gaps, revision⟩ := by
  obtain ⟨m, hm, hfree⟩ := h.tracked
  exact ⟨hord, m, hm, fun x => (hfree x).trans (hfind x).symm⟩

end

variable {F B ε : Type}

/-- `assert!(tree.insert(area.start(), area).is_none())`. -/
def insertNew (tree : Areas F B) (area : Area F B) : Outcome ε (Areas F B) :=
  if (tree.get? area.start).isNone then .ok (tree.insert area.start area) else .panic

/-- The loops that build a replacement tree insert its areas one by one. -/
def insertAll : List (Area F B) → Areas F B → Outcome ε (Areas F B)
  | [], tree => .ok tree
  | a :: rest, tree => insertNew tree a >>= insertAll rest

/-- A list of areas that an ordered tree can hold, in address order. -/
structure Sequential (areas : List (Area F B)) : Prop where
  nonempty : ∀ a ∈ areas, a.start < a.stop
  bounded : ∀ a ∈ areas, a.stop ≤ usizeMax
  apart : areas.Pairwise (fun a b => a.stop ≤ b.start)

namespace Sequential

variable {areas rest : List (Area F B)} {a : Area F B}

theorem nil : Sequential ([] : List (Area F B)) := ⟨by simp, by simp, .nil⟩

theorem cons_iff : Sequential (a :: rest) ↔
    a.start < a.stop ∧ a.stop ≤ usizeMax ∧ (∀ b ∈ rest, a.stop ≤ b.start) ∧ Sequential rest := by
  constructor
  · intro h
    refine ⟨h.nonempty a (by simp), h.bounded a (by simp), (List.pairwise_cons.mp h.apart).1, ?_⟩
    exact ⟨fun b hb => h.nonempty b (by simp [hb]), fun b hb => h.bounded b (by simp [hb]),
      (List.pairwise_cons.mp h.apart).2⟩
  · rintro ⟨hlt, hbound, hle, hrest⟩
    refine ⟨fun b hb => ?_, fun b hb => ?_, List.pairwise_cons.mpr ⟨hle, hrest.apart⟩⟩
    · rcases List.mem_cons.mp hb with rfl | hb
      · exact hlt
      · exact hrest.nonempty b hb
    · rcases List.mem_cons.mp hb with rfl | hb
      · exact hbound
      · exact hrest.bounded b hb

theorem append {left right : List (Area F B)} (hl : Sequential left) (hr : Sequential right)
    (h : ∀ a ∈ left, ∀ b ∈ right, a.stop ≤ b.start) : Sequential (left ++ right) := by
  refine ⟨fun b hb => ?_, fun b hb => ?_, List.pairwise_append.mpr ⟨hl.apart, hr.apart, h⟩⟩
  · rcases List.mem_append.mp hb with hb | hb
    · exact hl.nonempty b hb
    · exact hr.nonempty b hb
  · rcases List.mem_append.mp hb with hb | hb
    · exact hl.bounded b hb
    · exact hr.bounded b hb

theorem flatMap {f : Area F B → List (Area F B)} (h : Sequential areas)
    (hf : ∀ a ∈ areas, Sequential (f a) ∧ ∀ p ∈ f a, a.start ≤ p.start ∧ p.stop ≤ a.stop) :
    Sequential (areas.flatMap f) := by
  induction areas with
  | nil => exact .nil
  | cons a rest ih =>
      obtain ⟨-, -, hle, hrest⟩ := cons_iff.mp h
      rw [List.flatMap_cons]
      refine (hf a (by simp)).1.append (ih hrest fun b hb => hf b (by simp [hb])) fun p hp q hq => ?_
      obtain ⟨b, hb, hq⟩ := List.mem_flatMap.mp hq
      have := (hf a (by simp)).2 p hp
      have := (hf b (by simp [hb])).2 q hq
      have := hle b hb
      omega

end Sequential

theorem Ordered.sequential {areas : Areas F B} (h : Ordered areas) : Sequential (areas.entries.map (·.2)) := by
  have hget {a : Area F B} (ha : a ∈ areas.entries.map (·.2)) : ∃ k, areas.get? k = some a := by
    obtain ⟨⟨k, b⟩, hb, rfl⟩ := List.mem_map.mp ha
    exact ⟨k, SortedMap.mem_entries.mp hb⟩
  refine ⟨fun a ha => ?_, fun a ha => ?_, ?_⟩
  · obtain ⟨k, hk⟩ := hget ha
    exact h.nonempty k a hk
  · obtain ⟨k, hk⟩ := hget ha
    exact h.bounded k a hk
  · refine List.Pairwise.map _ (fun e e' he => he) (areas.sorted.imp_of_mem ?_)
    rintro ⟨k, a⟩ ⟨k', a'⟩ ha ha' hlt
    rw [SortedMap.mem_entries] at ha ha'
    have := h.apart k a k' a' ha ha' hlt
    rwa [← h.key k' a' ha'] at this

/-- Inserting a sequence after everything a tree holds never collides. -/
theorem insertAll_spec {areas : List (Area F B)} {tree : Areas F B} (htree : Ordered tree) (h : Sequential areas)
    (hafter : ∀ k b, tree.get? k = some b → ∀ a ∈ areas, b.stop ≤ a.start) :
    ∃ tree', (insertAll areas tree : Outcome ε (Areas F B)) = .ok tree' ∧ Ordered tree' ∧
      ∀ k a, tree'.get? k = some a ↔ tree.get? k = some a ∨ a ∈ areas ∧ a.start = k := by
  induction areas generalizing tree with
  | nil => exact ⟨tree, rfl, htree, by simp⟩
  | cons a rest ih =>
      obtain ⟨hlt, hbound, hle, hrest⟩ := Sequential.cons_iff.mp h
      have hfree (x : Nat) (hx : a.start ≤ x) (_ : x < a.stop) : find tree x = none := by
        rw [htree.find_eq_none]
        intro k b hb hin
        have := hafter k b hb a (by simp)
        omega
      have hnone := htree.get?_of_free (hfree a.start (Nat.le_refl _) hlt)
      have hget (k : Nat) (b : Area F B) :
          (tree.insert a.start a).get? k = some b ↔ tree.get? k = some b ∨ b = a ∧ a.start = k := by
        rw [SortedMap.get?_insert]
        split
        · rename_i hk
          subst hk
          simp [hnone, eq_comm]
        · rename_i hk
          simp [Ne.symm hk]
      obtain ⟨tree', htree', hord', hget'⟩ := ih (htree.insert hlt hbound hfree) hrest (fun k b hb d hd => by
        rcases (hget k b).mp hb with hb | ⟨rfl, -⟩
        · exact hafter k b hb d (by simp [hd])
        · exact hle d hd)
      refine ⟨tree', ?_, hord', fun k b => ?_⟩
      · rw [insertAll, insertNew, hnone]
        exact htree'
      · rw [hget' k b, hget k b]
        constructor
        · rintro ((hb | ⟨rfl, hk⟩) | ⟨hb, hk⟩)
          · exact .inl hb
          · exact .inr ⟨by simp, hk⟩
          · exact .inr ⟨by simp [hb], hk⟩
        · rintro (hb | ⟨hb, hk⟩)
          · exact .inl (.inl hb)
          · rcases List.mem_cons.mp hb with rfl | hb
            · exact .inl (.inr ⟨rfl, hk⟩)
            · exact .inr ⟨hb, hk⟩

theorem insertAll_empty {areas : List (Area F B)} (h : Sequential areas) :
    ∃ tree, (insertAll areas SortedMap.empty : Outcome ε (Areas F B)) = .ok tree ∧ Ordered tree ∧
      (∀ k a, tree.get? k = some a ↔ a ∈ areas ∧ a.start = k) ∧
      ∀ x a, find tree x = some a ↔ a ∈ areas ∧ a.start ≤ x ∧ x < a.stop := by
  obtain ⟨tree, htree, hord, hget⟩ := insertAll_spec (ε := ε) .empty h (by simp)
  have hget' (k : Nat) (a : Area F B) : tree.get? k = some a ↔ a ∈ areas ∧ a.start = k := by
    rw [hget]
    simp
  refine ⟨tree, htree, hord, hget', fun x a => ?_⟩
  rw [hord.find_eq_some, hget']
  simp

/-- An index built from the ranges of a sequence of areas tracks the addresses
outside them. -/
theorem fromAreas_spec {areas : List (Area F B)} (h : Sequential areas) :
    ∃ g m, (GapIndex.fromAreas (areas.map Area.range) : Outcome ε GapIndex) = .ok g ∧ Tracks g.root g.tailStart m ∧
      ∀ x, Free m g.tailStart x ↔ ∀ a ∈ areas, ¬ (a.start ≤ x ∧ x < a.stop) := by
  suffices hrun : ∀ (rest : List (Area F B)) (g : GapIndex) (m : SortedMap Nat Nat) (i : Nat),
      Tracks g.root g.tailStart m →
      Sequential rest → (∀ a ∈ rest, ∀ x, InRange a.range x → Free m g.tailStart x) →
      ∃ g' m', (Outcome.forEnum (fun _ range g => GapIndex.occupy range g) i (rest.map Area.range)
        g : Outcome ε GapIndex) = .ok g' ∧ Tracks g'.root g'.tailStart m' ∧
        ∀ x, Free m' g'.tailStart x ↔ Free m g.tailStart x ∧ ∀ a ∈ rest, ¬ InRange a.range x by
    obtain ⟨g, m, hg, hm, hfree⟩ := hrun areas GapIndex.new SortedMap.empty 0 .nil h (fun _ _ x _ => .inl
        (Nat.zero_le x))
    refine ⟨g, m, hg, hm, fun x => (hfree x).trans ⟨And.right, fun hout => ⟨.inl (Nat.zero_le x), hout⟩⟩⟩
  intro rest
  induction rest with
  | nil => exact fun g m i hm _ _ => ⟨g, m, rfl, hm, by simp⟩
  | cons a rest ih =>
      intro g m i hm hseq hfree
      obtain ⟨hlt, -, hle, hrest⟩ := Sequential.cons_iff.mp hseq
      obtain ⟨g₁, m₁, hg₁, hm₁, hfree₁⟩ := hm.occupy (ε := ε) a.range hlt (hfree a (by simp))
      obtain ⟨g₂, m₂, hg₂, hm₂, hfree₂⟩ := ih g₁ m₁ (i + 1) hm₁ hrest (fun b hb x hx => by
        rw [hfree₁]
        refine ⟨hfree b (by simp [hb]) x hx, fun hx' => ?_⟩
        have := hle b hb
        have h₁ : b.start ≤ x := hx.1
        have h₂ : x < a.stop := hx'.2
        omega)
      refine ⟨g₂, m₂, ?_, hm₂, fun x => ?_⟩
      · rw [List.map_cons, Outcome.forEnum_cons, hg₁, Outcome.ok_bind]
        exact hg₂
      · rw [hfree₂, hfree₁, List.forall_mem_cons, and_assoc]

end TheKernel.MemorySet
