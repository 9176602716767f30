import TheKernel.MemorySet.GapTree
import TheKernel.Lib.Outcome
import TheKernel.Lib.Machine

namespace TheKernel.MemorySet

open Outcome

/-- The free-range index of `gaps/mod.rs`: the gaps below `tailStart`, and
everything from there on. -/
structure GapIndex where
  root : GapNode
  tailStart : Nat

namespace GapIndex

def new : GapIndex := ⟨.nil, 0⟩

def insertRange (root : GapNode) (range : Range) : GapNode := if range.1 < range.2 then root.insert range else root

/-- `occupy`, with its `expect` and `assert!`. -/
def occupy {ε : Type} (range : Range) (g : GapIndex) : Outcome ε GapIndex :=
  if g.tailStart ≤ range.1 then .ok ⟨insertRange g.root (g.tailStart, range.1), range.2⟩
  else match g.root.predecessor range.1 with
    | none => .panic
    | some gap =>
        if range.2 ≤ gap.2 then
          .ok ⟨insertRange (insertRange (g.root.remove gap.1) (gap.1, range.1)) (range.2, gap.2), g.tailStart⟩
        else .panic

/-- The loop of `release` that takes in the gaps that `range` touches. Every
turn removes a gap, so as many turns as there are gaps suffice. -/
def absorb : Nat → GapNode → Range → GapNode × Range
  | 0, root, range => (root, range)
  | fuel + 1, root, range => match root.successor range.1 with
    | none => (root, range)
    | some next =>
        if range.2 < next.1 then (root, range)
        else absorb fuel (root.remove next.1) (range.1, max range.2 next.2)

/-- The part of `release` that looks at the gap before the range. -/
def absorbPrevious (root : GapNode) (range : Range) : GapNode × Range :=
  match root.predecessor range.1 with
  | none => (root, range)
  | some previous =>
      if range.1 ≤ previous.2 then (root.remove previous.1, (previous.1, max range.2 previous.2)) else (root, range)

def release (range : Range) (g : GapIndex) : GapIndex :=
  let range := if g.tailStart ≤ range.2 then (min range.1 g.tailStart, range.2) else range
  let (root, range) := absorbPrevious g.root range
  let (root, range) := absorb root.toList.length root range
  if g.tailStart ≤ range.2 then ⟨root, range.1⟩ else ⟨insertRange root range, g.tailStart⟩

def fromAreas {ε : Type} (ranges : List Range) : Outcome ε GapIndex :=
  forEnum (fun _ range g => occupy range g) 0 ranges new

end GapIndex

/-- The tree holds the gaps of `m`, in an AVL tree; no gap is empty, meets or
touches another one, or touches the tail. -/
structure Tracks (root : GapNode) (tail : Nat) (m : SortedMap Nat Nat) : Prop where
  entries : root.toList = m.entries
  valid : root.Valid
  nonempty : ∀ a b, m.get? a = some b → a < b
  apart : ∀ a b a' b', m.get? a = some b → m.get? a' = some b' → a < a' → b < a'
  tail : ∀ a b, m.get? a = some b → b < tail

def Free (m : SortedMap Nat Nat) (tail x : Nat) : Prop := tail ≤ x ∨ ∃ a b, m.get? a = some b ∧ a ≤ x ∧ x < b

def InRange (range : Range) (x : Nat) : Prop := range.1 ≤ x ∧ x < range.2

instance (range : Range) (x : Nat) : Decidable (InRange range x) := inferInstanceAs (Decidable (_ ∧ _))

namespace Tracks

variable {root : GapNode} {tail : Nat} {m : SortedMap Nat Nat}

theorem nil : Tracks .nil 0 SortedMap.empty :=
  ⟨rfl, trivial, by simp, by simp, by simp⟩

theorem remove (h : Tracks root tail m) {a b : Nat} (hab : m.get? a = some b) :
    Tracks (root.remove a) tail (m.erase a) ∧ ∀ x, Free (m.erase a) tail x ↔ Free m tail x ∧ ¬ InRange (a, b) x := by
  have hget (c d : Nat) (hcd : (m.erase a).get? c = some d) : c ≠ a ∧ m.get? c = some d := by
    rw [SortedMap.get?_erase] at hcd
    split at hcd
    · cases hcd
    · exact ⟨‹_›, hcd⟩
  refine ⟨⟨GapNode.remove_entries h.entries a, (GapNode.remove_valid h.valid a).1, ?_, ?_, ?_⟩, ?_⟩
  · exact fun c d hcd => h.nonempty c d (hget c d hcd).2
  · exact fun c d c' d' hcd hcd' => h.apart c d c' d' (hget c d hcd).2 (hget c' d' hcd').2
  · exact fun c d hcd => h.tail c d (hget c d hcd).2
  · intro x
    constructor
    · rintro (htail | ⟨c, d, hcd, hc, hd⟩)
      · refine ⟨.inl htail, fun hx => ?_⟩
        have := h.tail a b hab
        have := hx.2
        omega
      · obtain ⟨hne, hcd⟩ := hget c d hcd
        refine ⟨.inr ⟨c, d, hcd, hc, hd⟩, fun hx => ?_⟩
        obtain ⟨hx1, hx2⟩ : a ≤ x ∧ x < b := hx
        rcases Nat.lt_or_gt_of_ne hne with hlt | hgt
        · have := h.apart c d a b hcd hab hlt
          omega
        · have := h.apart a b c d hab hcd hgt
          omega
    · rintro ⟨htail | ⟨c, d, hcd, hc, hd⟩, hx⟩
      · exact .inl htail
      · refine .inr ⟨c, d, ?_, hc, hd⟩
        rw [SortedMap.get?_erase, if_neg]
        · exact hcd
        · rintro rfl
          rw [hab, Option.some.injEq] at hcd
          subst hcd
          exact hx ⟨hc, hd⟩

theorem insert (h : Tracks root tail m) {a b : Nat}
    (hsep : a < b → b < tail ∧ ∀ c d, m.get? c = some d → d < a ∨ b < c) :
    ∃ m', Tracks (GapIndex.insertRange root (a, b)) tail m' ∧
      (∀ c d, m'.get? c = some d → c = a ∧ d = b ∨ m.get? c = some d) ∧
      ∀ x, Free m' tail x ↔ Free m tail x ∨ InRange (a, b) x := by
  by_cases hlt : a < b
  · obtain ⟨htail, hsep⟩ := hsep hlt
    rw [GapIndex.insertRange, if_pos hlt]
    have hget (c d : Nat) : (m.insert a b).get? c = some d ↔ c = a ∧ d = b ∨ c ≠ a ∧ m.get? c = some d := by
      rw [SortedMap.get?_insert]
      by_cases hc : c = a <;> simp [hc, eq_comm]
    refine ⟨m.insert a b, ⟨GapNode.insert_entries h.entries (a, b), (GapNode.insert_valid h.valid (a, b)).1,
      ?_, ?_, ?_⟩,
      fun c d hcd => ((hget c d).mp hcd).imp_right And.right, ?_⟩
    · intro c d hcd
      rcases (hget c d).mp hcd with ⟨rfl, rfl⟩ | ⟨-, hcd⟩
      · exact hlt
      · exact h.nonempty c d hcd
    · intro c d c' d' hcd hcd' hcc'
      rcases (hget c d).mp hcd with ⟨rfl, rfl⟩ | ⟨-, hold⟩ <;> rcases (hget c' d').mp hcd' with ⟨rfl, rfl⟩ | ⟨-, hold'⟩
      · omega
      · have := hsep c' d' hold'
        have := h.nonempty c' d' hold'
        omega
      · have := hsep c d hold
        omega
      · exact h.apart c d c' d' hold hold' hcc'
    · intro c d hcd
      rcases (hget c d).mp hcd with ⟨rfl, rfl⟩ | ⟨-, hcd⟩
      · exact htail
      · exact h.tail c d hcd
    · intro x
      constructor
      · rintro (hx | ⟨c, d, hcd, hc, hd⟩)
        · exact .inl (.inl hx)
        · rcases (hget c d).mp hcd with ⟨rfl, rfl⟩ | ⟨-, hcd⟩
          · exact .inr ⟨hc, hd⟩
          · exact .inl (.inr ⟨c, d, hcd, hc, hd⟩)
      · rintro ((hx | ⟨c, d, hcd, hc, hd⟩) | hx)
        · exact .inl hx
        · refine .inr ⟨c, d, (hget c d).mpr (.inr ⟨?_, hcd⟩), hc, hd⟩
          rintro rfl
          have := hsep c d hcd
          omega
        · exact .inr ⟨a, b, (hget a b).mpr (.inl ⟨rfl, rfl⟩), hx⟩
  · rw [GapIndex.insertRange, if_neg hlt]
    refine ⟨m, h, fun c d => .inr, fun x => ⟨.inl, ?_⟩⟩
    rintro (hx | hx)
    · exact hx
    · have := hx.1
      have := hx.2
      omega

/-- A later tail, when everything up to it is taken away from the tail. -/
theorem setTail (h : Tracks root tail m) {tail' : Nat} (hlt : ∀ a b, m.get? a = some b → b < tail') :
    Tracks root tail' m :=
  ⟨h.entries, h.valid, h.nonempty, h.apart, hlt⟩

/-- A range of free addresses below the tail lies inside one gap. -/
theorem gap_of_free (h : Tracks root tail m) {range : Range} (hlt : range.1 < range.2) (hbelow : range.1 < tail)
    (hfree : ∀ x, InRange range x → Free m tail x) :
    ∃ a b, m.get? a = some b ∧ a ≤ range.1 ∧ range.2 ≤ b := by
  rcases hfree range.1 ⟨Nat.le_refl _, hlt⟩ with htail | ⟨a, b, hab, ha, hb⟩
  · omega
  · refine ⟨a, b, hab, ha, ?_⟩
    by_contra hcross
    have htail := h.tail a b hab
    rcases hfree b ⟨by omega, by omega⟩ with hb' | ⟨c, d, hcd, hc, hd⟩
    · omega
    · rcases Nat.lt_trichotomy a c with hac | rfl | hca
      · have := h.apart a b c d hab hcd hac
        omega
      · rw [hab, Option.some.injEq] at hcd
        omega
      · have := h.apart c d a b hcd hab hca
        omega

theorem occupy {ε : Type} {g : GapIndex} (h : Tracks g.root g.tailStart m) (range : Range) (hlt : range.1 < range.2)
    (hfree : ∀ x, InRange range x → Free m g.tailStart x) :
    ∃ g' m', (GapIndex.occupy range g : Outcome ε GapIndex) = .ok g' ∧ Tracks g'.root g'.tailStart m' ∧
      ∀ x, Free m' g'.tailStart x ↔ Free m g.tailStart x ∧ ¬ InRange range x := by
  rw [GapIndex.occupy]
  by_cases htail : g.tailStart ≤ range.1
  · rw [if_pos htail]
    have hwide : Tracks g.root range.2 m := h.setTail fun a b hab => by
      have := h.tail a b hab
      omega
    obtain ⟨m', hm', -, hfree'⟩ :=
      hwide.insert (a := g.tailStart) (b := range.1) (fun _ => ⟨hlt, fun c d hcd => .inl (h.tail c d hcd)⟩)
    refine ⟨_, m', rfl, hm', fun x => ?_⟩
    rw [hfree' x]
    constructor
    · rintro ((hx | ⟨a, b, hab, ha, hb⟩) | ⟨hx, hx'⟩)
      · exact ⟨.inl (by omega), fun hin => by have := hin.2; omega⟩
      · have := h.tail a b hab
        exact ⟨.inr ⟨a, b, hab, ha, hb⟩, fun hin => by have := hin.1; omega⟩
      · exact ⟨.inl hx, fun hin => by have := hin.1; omega⟩
    · rintro ⟨hx | hx, hout⟩
      · by_cases hlow : x < range.1
        · exact .inr ⟨hx, hlow⟩
        · refine .inl (.inl ?_)
          by_contra hin
          exact hout ⟨by omega, by omega⟩
      · exact .inl (.inr hx)
  · rw [if_neg htail]
    obtain ⟨a, b, hab, ha, hb⟩ := h.gap_of_free hlt (by omega) hfree
    have hpred : g.root.predecessor range.1 = some (a, b) := by
      rw [GapNode.predecessor_eq h.entries, SortedMap.lastUpTo_eq_some]
      refine ⟨hab, ha, fun i w hi hle => ?_⟩
      by_contra hai
      have := h.apart a b i w hab hi (by omega)
      omega
    simp only [hpred, if_pos hb]
    obtain ⟨hrem, hfree₁⟩ := h.remove hab
    have hother (c d : Nat) (hcd : (m.erase a).get? c = some d) : d < a ∨ b < c := by
      rw [SortedMap.get?_erase] at hcd
      split at hcd
      · cases hcd
      · rename_i hne
        rcases Nat.lt_or_gt_of_ne hne with hlt | hgt
        · exact .inl (h.apart c d a b hcd hab hlt)
        · exact .inr (h.apart a b c d hab hcd hgt)
    have hbt := h.tail a b hab
    obtain ⟨m₁, hm₁, hentries, hfree₂⟩ := hrem.insert (a := a) (b := range.1) (fun _ => ⟨by omega, fun c d hcd => by
      have := hother c d hcd
      omega⟩)
    obtain ⟨m₂, hm₂, -, hfree₃⟩ := hm₁.insert (a := range.2) (b := b) (fun hgap => ⟨hbt, fun c d hcd => by
      rcases hentries c d hcd with ⟨rfl, rfl⟩ | hold
      · omega
      · have := hother c d hold
        omega⟩)
    refine ⟨_, m₂, rfl, hm₂, fun x => ?_⟩
    rw [hfree₃ x, hfree₂ x, hfree₁ x]
    constructor
    · rintro ((⟨hx, hout⟩ | ⟨hx, hx'⟩) | ⟨hx, hx'⟩)
      · exact ⟨hx, fun hin => hout ⟨Nat.le_trans ha hin.1, Nat.lt_of_lt_of_le hin.2 hb⟩⟩
      · exact ⟨.inr ⟨a, b, hab, hx, by omega⟩, fun hin => by have := hin.1; omega⟩
      · exact ⟨.inr ⟨a, b, hab, by omega, hx'⟩, fun hin => by have := hin.2; omega⟩
    · rintro ⟨hx, hout⟩
      by_cases hin : InRange (a, b) x
      · obtain ⟨hax, hxb⟩ := hin
        by_cases hlow : x < range.1
        · exact .inl (.inr ⟨hax, hlow⟩)
        · refine .inr ⟨?_, hxb⟩
          by_contra hcross
          exact hout ⟨by omega, by omega⟩
      · exact .inl (.inl ⟨hx, hin⟩)

/-- The part of a range under release that has absorbed gaps: no gap left
before it touches it, and it reaches the tail only from below. -/
structure Growing (m : SortedMap Nat Nat) (tail : Nat) (range : Range) : Prop where
  lt : range.1 < range.2
  before : ∀ a b, m.get? a = some b → a < range.1 → b < range.1
  tail : tail ≤ range.2 → range.1 ≤ tail

theorem absorb {range : Range} (fuel : Nat) (h : Tracks root tail m) (hg : Growing m tail range)
    (hfuel : m.size ≤ fuel) : ∃ m', Tracks (GapIndex.absorb fuel root range).1 tail m' ∧
      Growing m' tail (GapIndex.absorb fuel root range).2 ∧
      (∀ a b, m'.get? a = some b → (GapIndex.absorb fuel root range).2.1 ≤ a → (GapIndex.absorb fuel root range).2.2 <
        a) ∧
      ∀ x, Free m' tail x ∨ InRange (GapIndex.absorb fuel root range).2 x ↔ Free m tail x ∨ InRange range x := by
  induction fuel generalizing root m range with
  | zero =>
      have hnone := SortedMap.size_eq_zero.mp (Nat.le_zero.mp hfuel)
      exact ⟨m, h, hg, fun a b hab => by simp [hnone a] at hab, fun x => Iff.rfl⟩
  | succ fuel ih =>
      rw [GapIndex.absorb]
      cases hnext : root.successor range.1 with
      | none =>
          rw [GapNode.successor_eq h.entries, SortedMap.firstFrom_eq_none] at hnext
          exact ⟨m, h, hg, fun a b hab ha => absurd ha (Nat.not_le.mpr (hnext a b hab)), fun x => Iff.rfl⟩
      | some next =>
          rw [GapNode.successor_eq h.entries, SortedMap.firstFrom_eq_some] at hnext
          obtain ⟨hget, hle, hfirst⟩ := hnext
          by_cases hbeyond : range.2 < next.1
          · simp only [if_pos hbeyond]
            exact ⟨m, h, hg, fun a b hab ha => Nat.lt_of_lt_of_le hbeyond (hfirst a b hab ha), fun x => Iff.rfl⟩
          · simp only [if_neg hbeyond]
            obtain ⟨hrem, hfree⟩ := h.remove hget
            have hsize := SortedMap.size_erase hget
            have hlt := h.nonempty _ _ hget
            have htail := h.tail _ _ hget
            have hgrow : Growing (m.erase next.1) tail (range.1, max range.2 next.2) := by
              refine ⟨?_, ?_, ?_⟩
              · exact Nat.lt_of_lt_of_le hg.lt (Nat.le_max_left _ _)
              · intro a b hab ha
                rw [SortedMap.get?_erase] at hab
                split at hab
                · cases hab
                · exact hg.before a b hab ha
              · intro hreach
                refine hg.tail ?_
                simp only at hreach
                omega
            obtain ⟨m', hm', hg', hafter, hfree'⟩ := ih hrem hgrow (by omega)
            refine ⟨m', hm', hg', hafter, fun x => ?_⟩
            rw [hfree' x, hfree x]
            constructor
            · rintro (⟨hx, -⟩ | ⟨hx, hx'⟩)
              · exact .inl hx
              · by_cases hin : x < range.2
                · exact .inr ⟨hx, hin⟩
                · simp only at hx'
                  exact .inl (.inr ⟨next.1, next.2, hget, by omega, by omega⟩)
            · rintro (hx | ⟨hx, hx'⟩)
              · by_cases hin : InRange (next.1, next.2) x
                · refine .inr ⟨?_, ?_⟩
                  · exact Nat.le_trans hle hin.1
                  · exact Nat.lt_of_lt_of_le hin.2 (Nat.le_max_right _ _)
                · exact .inl ⟨hx, hin⟩
              · exact .inr ⟨hx, Nat.lt_of_lt_of_le hx' (Nat.le_max_left _ _)⟩

theorem absorbPrevious {range : Range} (h : Tracks root tail m) (hlt : range.1 < range.2)
    (htail : tail ≤ range.2 → range.1 ≤ tail) :
    ∃ m', Tracks (GapIndex.absorbPrevious root range).1 tail m' ∧
      Growing m' tail (GapIndex.absorbPrevious root range).2 ∧
      ∀ x, Free m' tail x ∨ InRange (GapIndex.absorbPrevious root range).2 x ↔ Free m tail x ∨ InRange range x := by
  rw [GapIndex.absorbPrevious]
  cases hprev : root.predecessor range.1 with
  | none =>
      rw [GapNode.predecessor_eq h.entries, SortedMap.lastUpTo_eq_none] at hprev
      exact ⟨m, h, ⟨hlt, fun a b hab ha => absurd (hprev a b hab) (Nat.not_lt.mpr (Nat.le_of_lt ha)), htail⟩,
        fun x => Iff.rfl⟩
  | some previous =>
      rw [GapNode.predecessor_eq h.entries, SortedMap.lastUpTo_eq_some] at hprev
      obtain ⟨hget, hle, hlast⟩ := hprev
      have hpt := h.tail _ _ hget
      by_cases htouch : range.1 ≤ previous.2
      · simp only [if_pos htouch]
        obtain ⟨hrem, hfree⟩ := h.remove hget
        refine ⟨_, hrem, ⟨?_, ?_, ?_⟩, fun x => ?_⟩
        · exact Nat.lt_of_le_of_lt hle (Nat.lt_of_lt_of_le hlt (Nat.le_max_left _ _))
        · intro a b hab ha
          rw [SortedMap.get?_erase] at hab
          split at hab
          · cases hab
          · exact h.apart a b _ _ hab hget ha
        · intro hreach
          simp only at hreach ⊢
          omega
        · rw [hfree x]
          constructor
          · rintro (⟨hx, -⟩ | ⟨hx, hx'⟩)
            · exact .inl hx
            · by_cases hin : range.1 ≤ x ∧ x < range.2
              · exact .inr hin
              · simp only at hx hx'
                exact .inl (.inr ⟨previous.1, previous.2, hget, hx, by omega⟩)
          · rintro (hx | ⟨hx, hx'⟩)
            · by_cases hin : InRange (previous.1, previous.2) x
              · exact .inr ⟨hin.1, Nat.lt_of_lt_of_le hin.2 (Nat.le_max_right _ _)⟩
              · exact .inl ⟨hx, hin⟩
            · exact .inr ⟨Nat.le_trans hle hx, Nat.lt_of_lt_of_le hx' (Nat.le_max_left _ _)⟩
      · simp only [if_neg htouch]
        refine ⟨m, h, ⟨hlt, fun a b hab ha => ?_, htail⟩, fun x => Iff.rfl⟩
        have hap := hlast a b hab (by omega)
        rcases Nat.lt_or_eq_of_le hap with hap | rfl
        · have := h.apart a b _ _ hab hget hap
          omega
        · rw [hget, Option.some.injEq] at hab
          omega

theorem release {g : GapIndex} (h : Tracks g.root g.tailStart m) {range : Range} (hlt : range.1 < range.2) :
    ∃ m', Tracks (GapIndex.release range g).root (GapIndex.release range g).tailStart m' ∧
      ∀ x, Free m' (GapIndex.release range g).tailStart x ↔ Free m g.tailStart x ∨ InRange range x := by
  have hstart : ∃ r : Range, (if g.tailStart ≤ range.2 then (min range.1 g.tailStart, range.2) else range) = r ∧
      r.1 < r.2 ∧ (g.tailStart ≤ r.2 → r.1 ≤ g.tailStart) ∧
      ∀ x, Free m g.tailStart x ∨ InRange r x ↔ Free m g.tailStart x ∨ InRange range x := by
    by_cases hreach : g.tailStart ≤ range.2
    · rw [if_pos hreach]
      refine ⟨_, rfl, ?_, ?_, fun x => ?_⟩
      · exact Nat.lt_of_le_of_lt (Nat.min_le_left _ _) hlt
      · exact fun _ => Nat.min_le_right _ _
      · constructor
        · rintro (hx | ⟨hx, hx'⟩)
          · exact .inl hx
          · by_cases hin : range.1 ≤ x
            · exact .inr ⟨hin, hx'⟩
            · simp only at hx
              exact .inl (.inl (by omega))
        · rintro (hx | ⟨hx, hx'⟩)
          · exact .inl hx
          · exact .inr ⟨Nat.le_trans (Nat.min_le_left _ _) hx, hx'⟩
    · rw [if_neg hreach]
      exact ⟨range, rfl, hlt, fun hle => absurd hle hreach, fun x => Iff.rfl⟩
  obtain ⟨r, hr, hlt', htail', hsame⟩ := hstart
  obtain ⟨m₁, hm₁, hg₁, hfree₁⟩ := h.absorbPrevious hlt' htail'
  obtain ⟨m₂, hm₂, hg₂, hafter, hfree₂⟩ := hm₁.absorb (GapIndex.absorbPrevious g.root r).1.toList.length hg₁
    (by rw [hm₁.entries]; exact Nat.le_refl _)
  simp only [GapIndex.release, hr]
  generalize GapIndex.absorb (GapIndex.absorbPrevious g.root r).1.toList.length (GapIndex.absorbPrevious g.root r).1
    (GapIndex.absorbPrevious g.root r).2 = result at hm₂ hg₂ hafter hfree₂ ⊢
  obtain ⟨root, span⟩ := result
  simp only at hm₂ hg₂ hafter hfree₂ ⊢
  have hbefore (a b : Nat) (hab : m₂.get? a = some b) : b < span.1 ∨ span.2 < a := by
    by_cases ha : a < span.1
    · exact .inl (hg₂.before a b hab ha)
    · exact .inr (hafter a b hab (by omega))
  by_cases hreach : g.tailStart ≤ span.2
  · rw [if_pos hreach]
    have hlow := hg₂.tail hreach
    refine ⟨m₂, hm₂.setTail fun a b hab => ?_, fun x => ?_⟩
    · have := hm₂.tail a b hab
      have := hm₂.nonempty a b hab
      rcases hbefore a b hab with hb | hb
      · exact hb
      · omega
    · rw [← hsame x, ← hfree₁ x, ← hfree₂ x]
      constructor
      · rintro (hx | hx)
        · by_cases hin : x < span.2
          · exact .inr ⟨hx, hin⟩
          · exact .inl (.inl (by omega))
        · exact .inl (.inr hx)
      · rintro ((hx | hx) | hx)
        · exact .inl (Nat.le_trans hlow hx)
        · exact .inr hx
        · exact .inl hx.1
  · rw [if_neg hreach]
    obtain ⟨m₃, hm₃, -, hfree₃⟩ := hm₂.insert (a := span.1) (b := span.2) (fun _ => ⟨by omega, hbefore⟩)
    refine ⟨m₃, hm₃, fun x => ?_⟩
    rw [hfree₃ x, ← hsame x, ← hfree₁ x, ← hfree₂ x]

end Tracks

end TheKernel.MemorySet
