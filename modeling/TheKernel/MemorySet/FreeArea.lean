import Mathlib.Order.Bounds.Basic
import TheKernel.MemorySet.Run

namespace TheKernel.MemorySet

structure GapSearch where
  lower : Nat
  upper : Nat
  size : Nat
  align : Nat

namespace GapSearch

def new (lower upper size align : Nat) : Option GapSearch :=
  if size = 0 ∨ ¬ align.isPowerOfTwo ∨ ¬ align ∣ size then none
  else match checkedAdd lower size with
    | none => none
    | some stop => if upper < stop then none else some ⟨lower, upper, size, align⟩

/-- `x & !(align - 1)`. -/
def maskDown (x align : Nat) : Nat := x &&& (usizeMax - (align - 1))

def inGap (s : GapSearch) (range : Range) : Option Nat :=
  match checkedAdd (max range.1 s.lower) (s.align - 1) with
  | none => none
  | some padded => match checkedAdd (maskDown padded s.align) s.size with
    | none => none
    | some stop => if stop ≤ min range.2 s.upper then some (maskDown padded s.align) else none

def inTree (s : GapSearch) : GapNode → Option Nat
  | .nil => none
  | .node range left right maxLength _ =>
      if maxLength < s.size then none
      else if range.2 ≤ s.lower then s.inTree right
      else if s.upper ≤ range.1 then s.inTree left
      else ((s.inTree left).or (s.inGap range)).or (s.inTree right)

end GapSearch

def GapIndex.find (g : GapIndex) (lower upper size align : Nat) : Option Nat :=
  match GapSearch.new lower upper size align with
  | none => none
  | some s => (s.inTree g.root).or (s.inGap (g.tailStart, usizeMax))

def findFreeArea {F B : Type} (set : MemorySet F B) (hint size : Nat) (limit : Range) (align : Nat) : Option Nat :=
  set.gaps.find (max hint limit.1) limit.2 size align

namespace GapSearch

/-- A search that `new` returns. -/
structure WellFormed (s : GapSearch) : Prop where
  size_pos : 0 < s.size
  align : s.align.isPowerOfTwo
  dvd : s.align ∣ s.size
  size_le : s.size ≤ usizeMax
  upper : s.upper ≤ usizeMax

/-- The addresses at which the search may place its area inside a range. -/
def Candidate (s : GapSearch) (range : Range) (a : Nat) : Prop :=
  s.align ∣ a ∧ max range.1 s.lower ≤ a ∧ a + s.size ≤ min range.2 s.upper

theorem maskDown_eq {x k : Nat} (hx : x ≤ usizeMax) (hk : 2 ^ k ≤ usizeMax) :
    maskDown x (2 ^ k) = 2 ^ k * (x / 2 ^ k) := by
  have hpos := Nat.two_pow_pos k
  have hmask : usizeMax - (2 ^ k - 1) = 2 ^ 64 - (2 ^ k - 1 + 1) := by
    unfold usizeMax
    omega
  have hk64 : 2 ^ k - 1 < 2 ^ 64 := by
    unfold usizeMax at hk
    omega
  apply Nat.eq_of_testBit_eq
  intro i
  rw [maskDown, Nat.testBit_and, hmask, Nat.testBit_two_pow_sub_succ hk64, Nat.testBit_two_pow_mul,
    Nat.testBit_div_two_pow, Nat.testBit_two_pow_sub_one]
  by_cases hki : k ≤ i
  · have hlt : x < 2 ^ 64 := by
      unfold usizeMax at hx
      omega
    have hadd : i - k + k = i := by omega
    rw [hadd]
    by_cases hi : i < 64
    · simp [hki, hi]
    · have hzero : x.testBit i = false :=
        Nat.testBit_lt_two_pow (hlt.trans_le (Nat.pow_le_pow_right (by omega) (by omega)))
      simp [hzero]
  · have hlt : i < k := by omega
    simp [hki, hlt]

variable {s : GapSearch}

theorem WellFormed.align_le (h : s.WellFormed) : s.align ≤ s.size := Nat.le_of_dvd h.size_pos h.dvd

/-- The first multiple of `align` from `x` on. -/
def roundUp (x align : Nat) : Nat := align * ((x + (align - 1)) / align)

theorem le_roundUp {x align : Nat} (h : 0 < align) : x ≤ roundUp x align := by
  have hdiv := Nat.div_add_mod (x + (align - 1)) align
  have hmod := Nat.mod_lt (x + (align - 1)) h
  rw [roundUp]
  omega

theorem roundUp_le {x align a : Nat} (h : 0 < align) (hd : align ∣ a) (hx : x ≤ a) : roundUp x align ≤ a := by
  obtain ⟨c, rfl⟩ := hd
  apply Nat.mul_le_mul_left
  apply Nat.le_of_lt_succ
  rw [Nat.div_lt_iff_lt_mul h, Nat.succ_mul, Nat.mul_comm c align]
  omega

theorem inGap_eq (h : s.WellFormed) (range : Range) :
    s.inGap range = if roundUp (max range.1 s.lower) s.align + s.size ≤ min range.2 s.upper
      then some (roundUp (max range.1 s.lower) s.align) else none := by
  obtain ⟨k, hk⟩ := h.align
  have hpos : 0 < s.align := by
    rw [hk]
    exact Nat.two_pow_pos k
  have hsize := h.align_le
  have hupper := h.upper
  have hround := le_roundUp (x := max range.1 s.lower) hpos
  simp only [inGap, checkedAdd]
  by_cases hpad : max range.1 s.lower + (s.align - 1) ≤ usizeMax
  · have hmask : maskDown (max range.1 s.lower + (s.align - 1)) s.align = roundUp (max range.1 s.lower) s.align := by
      have hle := hsize.trans h.size_le
      rw [roundUp, hk]
      rw [hk] at hle hpad
      exact maskDown_eq hpad hle
    rw [if_pos hpad]
    dsimp only
    rw [hmask]
    by_cases hstop : roundUp (max range.1 s.lower) s.align + s.size ≤ usizeMax
    · rw [if_pos hstop]
    · rw [if_neg hstop, if_neg]
      omega
  · rw [if_neg hpad, if_neg]
    omega

/-- Rounding up finds the first candidate of a range, if there is one. -/
theorem inGap_eq_some (h : s.WellFormed) {range : Range} {a : Nat} :
    s.inGap range = some a ↔ IsLeast {b | s.Candidate range b} a := by
  have hpos : 0 < s.align := Nat.pos_of_isPowerOfTwo h.align
  have hround := le_roundUp (x := max range.1 s.lower) hpos
  rw [inGap_eq h, Option.ite_none_right_eq_some, Option.some.injEq]
  constructor
  · rintro ⟨hfit, rfl⟩
    exact ⟨⟨Nat.dvd_mul_right _ _, hround, hfit⟩, fun b hb => roundUp_le hpos hb.1 hb.2.1⟩
  · rintro ⟨⟨hd, hlow, hfit⟩, hleast⟩
    have hle := roundUp_le hpos hd hlow
    have hfit' : roundUp (max range.1 s.lower) s.align + s.size ≤ min range.2 s.upper := by omega
    exact ⟨hfit', Nat.le_antisymm hle (hleast ⟨Nat.dvd_mul_right _ _, hround, hfit'⟩)⟩

theorem inGap_eq_none (h : s.WellFormed) {range : Range} : s.inGap range = none ↔ ∀ a, ¬ s.Candidate range a := by
  have hpos : 0 < s.align := Nat.pos_of_isPowerOfTwo h.align
  have hround := le_roundUp (x := max range.1 s.lower) hpos
  rw [inGap_eq h]
  split
  case isTrue hfit => simpa using ⟨_, Nat.dvd_mul_right _ _, hround, hfit⟩
  case isFalse hfit =>
      simp only [true_iff]
      rintro a ⟨hd, hlow, hle⟩
      have := roundUp_le hpos hd hlow
      omega

theorem Candidate.bounds (h : s.WellFormed) {r : Range} {a : Nat} (hc : s.Candidate r a) :
    s.size ≤ r.2 - r.1 ∧ s.lower < r.2 ∧ r.1 < s.upper := by
  have := hc.2
  have := h.size_pos
  omega

theorem length_le_longest {t : GapNode} {r : Range} (h : r ∈ t.toList) : r.2 - r.1 ≤ t.longest := by
  induction t with
  | nil => simp [GapNode.toList] at h
  | node range left right _ _ ihl ihr =>
      rw [GapNode.toList, List.mem_append, List.mem_cons] at h
      rw [GapNode.longest]
      rcases h with h | rfl | h
      · have := ihl h
        omega
      · omega
      · have := ihr h
        omega

theorem inTree_eq (h : s.WellFormed) {t : GapNode} (hv : t.Valid) (hne : ∀ r ∈ t.toList, r.1 < r.2)
    (hsort : t.toList.Pairwise (fun r r' => r.2 < r'.1)) : s.inTree t = t.toList.findSome? s.inGap := by
  have hnone (rs : List Range) (hc : ∀ r ∈ rs, ¬ (s.size ≤ r.2 - r.1 ∧ s.lower < r.2 ∧ r.1 < s.upper)) :
      rs.findSome? s.inGap = none := by
    rw [List.findSome?_eq_none_iff]
    exact fun r hr => (inGap_eq_none h).mpr fun a ha => hc r hr (ha.bounds h)
  induction t with
  | nil => rfl
  | node range left right maxLength height ihl ihr =>
      obtain ⟨hl, hr, -, hmax, -, -⟩ := hv
      have hlongest (r : Range) (hmem : r ∈ (GapNode.node range left right maxLength height).toList) :
          r.2 - r.1 ≤ maxLength := by
        rw [hmax]
        exact length_le_longest hmem
      simp only [GapNode.toList, List.pairwise_append, List.pairwise_cons, List.mem_append, List.mem_cons] at hsort hne
      obtain ⟨hsl, ⟨hgt, hsr⟩, hlt⟩ := hsort
      have ihl := ihl hl (fun r hr => hne r (.inl hr)) hsl
      have ihr := ihr hr (fun r hr => hne r (.inr (.inr hr))) hsr
      have hrange := hne range (.inr (.inl rfl))
      rw [inTree]
      split
      case isTrue hprune =>
          symm
          apply hnone
          intro r hmem
          have := hlongest r hmem
          omega
      case isFalse =>
          rw [GapNode.toList, List.findSome?_append, List.findSome?_cons]
          split
          case isTrue hbefore =>
              have hleft := hnone left.toList fun r hmem => by
                have := hlt r hmem range (.inl rfl)
                omega
              have hroot := hnone [range] fun r hmem => by
                rw [List.mem_singleton.mp hmem]
                omega
              rw [List.findSome?_cons, List.findSome?_nil] at hroot
              rw [hleft, ihr, Option.none_or]
              cases hgap : s.inGap range with
              | none => rfl
              | some a => simp [hgap] at hroot
          case isFalse =>
              split
              case isTrue hafter =>
                  have hright := hnone (range :: right.toList) fun r hmem => by
                    rcases List.mem_cons.mp hmem with rfl | hmem
                    · omega
                    · have := hgt r hmem
                      omega
                  rw [List.findSome?_cons] at hright
                  rw [hright, ihl, Option.or_none]
              case isFalse =>
                  rw [ihl, ihr, Option.or_assoc]
                  cases s.inGap range <;> rfl

theorem new_eq_some {lower upper size align : Nat} :
    new lower upper size align = some s ↔
      (0 < size ∧ align.isPowerOfTwo ∧ align ∣ size) ∧ lower + size ≤ usizeMax ∧ lower + size ≤ upper ∧
        s = ⟨lower, upper, size, align⟩ := by
  rw [new]
  split
  case isTrue hbad =>
      constructor
      · intro e
        cases e
      · rintro ⟨⟨h1, h2, h3⟩, -⟩
        rcases hbad with hz | hp | hd
        · omega
        · exact absurd h2 hp
        · exact absurd h3 hd
  case isFalse hgood =>
      simp only [not_or, not_not] at hgood
      rw [checkedAdd]
      by_cases hle : lower + size ≤ usizeMax
      · rw [if_pos hle]
        dsimp only
        by_cases hup : upper < lower + size
        · rw [if_pos hup]
          simp
          omega
        · rw [if_neg hup, Option.some.injEq, eq_comm]
          exact ⟨fun e => ⟨⟨by omega, hgood.2⟩, hle, by omega, e⟩, fun e => e.2.2.2⟩
      · rw [if_neg hle]
        simp [hle]

end GapSearch

/-- An address at which an area of `size` bytes fits among the areas. -/
structure Fits {F B : Type} (areas : Areas F B) (hint size : Nat) (limit : Range) (align a : Nat) : Prop where
  aligned : align ∣ a
  hint : max hint limit.1 ≤ a
  limit : a + size ≤ limit.2
  disjoint : ∀ k area, areas.get? k = some area → a + size ≤ area.start ∨ area.stop ≤ a

section FindFreeArea

variable {F B : Type} {set : MemorySet F B} {hint size align : Nat} {limit : Range}

def GapIndex.searched (g : GapIndex) : List Range := g.root.toList ++ [(g.tailStart, usizeMax)]

theorem Consistent.fits_iff (h : Consistent set) (hsize : 0 < size) (hlimit : limit.2 ≤ usizeMax) {a : Nat} :
    Fits set.areas hint size limit align a ↔
      ∃ gap ∈ set.gaps.searched, GapSearch.Candidate ⟨max hint limit.1, limit.2, size, align⟩ gap a := by
  obtain ⟨m, hm, hfree⟩ := h.tracked
  constructor
  · intro hf
    have hnone (x : Nat) (hx : InRange (a, a + size) x) : Free m set.gaps.tailStart x := by
      rw [hfree, h.ordered.find_eq_none]
      intro k area hget hin
      have := hf.disjoint k area hget
      have := hx.1
      have := hx.2
      omega
    have hlow := hf.hint
    have hhigh := hf.limit
    by_cases htail : set.gaps.tailStart ≤ a
    · refine ⟨(set.gaps.tailStart, usizeMax), by simp [GapIndex.searched], hf.aligned, ?_, ?_⟩
      · exact max_le htail hlow
      · exact le_min (hhigh.trans hlimit) hhigh
    · obtain ⟨c, d, hcd, hc, hd⟩ := hm.gap_of_free (by omega) (by omega) hnone
      refine ⟨(c, d), ?_, hf.aligned, max_le hc hlow, le_min hd hhigh⟩
      rw [GapIndex.searched, List.mem_append]
      exact .inl (hm.mem_toList.mpr hcd)
  · rintro ⟨gap, hmem, hal, hlow, hhigh⟩
    dsimp only at hlow hhigh
    have hin (x : Nat) (hx : a ≤ x) (hx' : x < a + size) : find set.areas x = none := by
      rw [← hfree]
      rw [GapIndex.searched, List.mem_append, List.mem_singleton] at hmem
      rcases hmem with hmem | rfl
      · exact .inr ⟨gap.1, gap.2, hm.mem_toList.mp hmem, by omega, by omega⟩
      · exact .inl (by omega)
    refine ⟨hal, by omega, by omega, fun k area hget => ?_⟩
    by_contra hcross
    have hpos := h.ordered.nonempty k area hget
    exact h.ordered.find_eq_none.mp (hin (max a area.start) (by omega) (by omega)) k area hget (by omega)

theorem Consistent.searched_apart (h : Consistent set) :
    (∀ r ∈ set.gaps.root.toList, r.1 < r.2) ∧ set.gaps.searched.Pairwise (fun r r' => r.2 < r'.1) := by
  obtain ⟨m, hm, -⟩ := h.tracked
  have hsort : set.gaps.root.toList.Pairwise (fun r r' => r.2 < r'.1) := by
    have hkeys := m.sorted
    rw [← hm.entries] at hkeys
    exact hkeys.imp_of_mem fun hr hr' hlt => hm.apart _ _ _ _ (hm.mem_toList.mp hr) (hm.mem_toList.mp hr') hlt
  refine ⟨fun r hr => hm.nonempty _ _ (hm.mem_toList.mp hr), ?_⟩
  rw [GapIndex.searched, List.pairwise_append]
  refine ⟨hsort, List.pairwise_singleton _ _, fun r hr r' hr' => ?_⟩
  rw [List.mem_singleton.mp hr']
  exact hm.tail _ _ (hm.mem_toList.mp hr)

/-- The search returns the first candidate of the first gap that has one. -/
theorem Consistent.find_eq (h : Consistent set) {s : GapSearch} (hs : s.WellFormed) :
    (s.inTree set.gaps.root).or (s.inGap (set.gaps.tailStart, usizeMax)) = set.gaps.searched.findSome? s.inGap := by
  obtain ⟨hne, hsort⟩ := h.searched_apart
  rw [GapIndex.searched, List.pairwise_append] at hsort
  rw [GapSearch.inTree_eq hs h.valid hne hsort.1, GapIndex.searched, List.findSome?_append, List.findSome?_cons]
  cases s.inGap (set.gaps.tailStart, usizeMax) <;> rfl

/-- In gaps that are apart and in order, the first candidate of the first gap
is the least one. -/
theorem findSome_least {s : GapSearch} (hs : s.WellFormed) {gaps : List Range}
    (hsort : gaps.Pairwise (fun r r' => r.2 < r'.1)) {a : Nat} (h : gaps.findSome? s.inGap = some a) :
    IsLeast {b | ∃ gap ∈ gaps, s.Candidate gap b} a := by
  obtain ⟨before, gap, after, rfl, hgap, hnone⟩ := List.findSome?_eq_some_iff.mp h
  obtain ⟨hc, hleast⟩ := (GapSearch.inGap_eq_some hs).mp hgap
  refine ⟨⟨gap, by simp, hc⟩, ?_⟩
  rintro b ⟨gap', hmem, hb⟩
  rw [List.mem_append, List.mem_cons] at hmem
  rcases hmem with hmem | rfl | hmem
  · exact absurd hb ((GapSearch.inGap_eq_none hs).mp (hnone gap' hmem) b)
  · exact hleast hb
  · have hafter : gap.2 < gap'.1 := by
      rw [List.pairwise_append, List.pairwise_cons] at hsort
      exact hsort.2.1.1 gap' hmem
    have := hc.2
    have := hb.2
    omega

theorem Consistent.findFreeArea_spec (h : Consistent set) (hsize : 0 < size) (halign : align.isPowerOfTwo)
    (hdvd : align ∣ size) (hlimit : limit.2 ≤ usizeMax) :
    ((findFreeArea set hint size limit align).isSome ↔ ∃ a, Fits set.areas hint size limit align a) ∧
    ∀ a, findFreeArea set hint size limit align = some a →
      IsLeast {b | Fits set.areas hint size limit align b} a := by
  have hset : {b | Fits set.areas hint size limit align b} =
      {b | ∃ gap ∈ set.gaps.searched, GapSearch.Candidate ⟨max hint limit.1, limit.2, size, align⟩ gap b} := by
    ext b
    exact h.fits_iff hsize hlimit
  by_cases hroom : max hint limit.1 + size ≤ limit.2
  · have hs : GapSearch.WellFormed ⟨max hint limit.1, limit.2, size, align⟩ :=
      ⟨hsize, halign, hdvd, by dsimp only; omega, hlimit⟩
    have hfind : findFreeArea set hint size limit align = set.gaps.searched.findSome?
        (GapSearch.inGap ⟨max hint limit.1, limit.2, size, align⟩) := by
      rw [findFreeArea, GapIndex.find, GapSearch.new_eq_some.mpr ⟨⟨hsize, halign, hdvd⟩, by omega, hroom, rfl⟩]
      exact h.find_eq hs
    rw [hfind, hset]
    refine ⟨?_, fun a => findSome_least hs h.searched_apart.2⟩
    simp only [h.fits_iff hsize hlimit]
    rw [List.findSome?_isSome_iff]
    constructor
    · rintro ⟨gap, hmem, hsome⟩
      obtain ⟨a, ha⟩ := Option.isSome_iff_exists.mp hsome
      exact ⟨a, gap, hmem, ((GapSearch.inGap_eq_some hs).mp ha).1⟩
    · rintro ⟨a, gap, hmem, hc⟩
      refine ⟨gap, hmem, ?_⟩
      rw [Option.isSome_iff_ne_none]
      intro hnone
      exact (GapSearch.inGap_eq_none hs).mp hnone a hc
  · have hnone : findFreeArea set hint size limit align = none := by
      rw [findFreeArea, GapIndex.find]
      cases hnew : GapSearch.new (max hint limit.1) limit.2 size align with
      | none => rfl
      | some s => exact absurd (GapSearch.new_eq_some.mp hnew).2.2.1 hroom
    rw [hnone]
    refine ⟨⟨by simp, ?_⟩, by simp⟩
    rintro ⟨a, hf⟩
    have := hf.hint
    have := hf.limit
    omega

end FindFreeArea

variable {F B E R : Type} [DecidableEq F] {backend : MappingBackend F B E R}

/-- In every state that calls can reach, the search finds the least address
that fits, and finds one whenever there is one. -/
theorem findFreeArea_least {s : System F B E R} (h : Reachable backend s) {hint size align : Nat} {limit : Range}
    (hsize : 0 < size) (halign : align.isPowerOfTwo) (hdvd : align ∣ size) (hlimit : limit.2 ≤ usizeMax) :
    ((findFreeArea s.set hint size limit align).isSome ↔ ∃ a, Fits s.set.areas hint size limit align a) ∧
    ∀ a, findFreeArea s.set hint size limit align = some a →
      IsLeast {b | Fits s.set.areas hint size limit align b} a :=
  h.inv.set.findFreeArea_spec hsize halign hdvd hlimit

/-- Beside an area at 16 to 24 eight bytes fit from 24 on. -/
theorem findFreeArea_least_mapped :
    findFreeArea FlagTable.mapped.set 10 8 (0, 64) 8 = some 24 ∧
    IsLeast {b | Fits FlagTable.mapped.set.areas 10 8 (0, 64) 8 b} 24 := by
  have hfind : findFreeArea FlagTable.mapped.set 10 8 (0, 64) 8 = some 24 := by decide +kernel
  exact ⟨hfind, (findFreeArea_least FlagTable.mapped_reachable (by decide) (by decide) (by decide)
    (by decide)).2 24 hfind⟩

end TheKernel.MemorySet
