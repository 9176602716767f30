import Mathlib.Logic.Relation
import TheKernel.MemorySet.Run

namespace TheKernel.MemorySet

open Act

variable {F B E R M ε : Type} {backend : MappingBackend F B E R} {c d : Call F B E R} {range : Range}
  {shouldUpdate : B → Bool} {update : B → B} {ℓ : B → M} {p : M → Bool} {u : M → M}

abbrev metadata (ℓ : B → M) (areas : Areas F B) : Nat → Option (Cell F M) := view (fun b _ => ℓ b) areas

/-- What one update of every selected address of the range makes of a cell. -/
def updatedCell (range : Range) (p : M → Bool) (u : M → M) (x : Nat) (cell : Cell F M) : Cell F M :=
  if InRange range x ∧ p cell.place = true then { cell with place := u cell.place } else cell

/-- What the callbacks of an update see of a backend: merging keeps it, the
predicate reads it, and the update acts on it. -/
structure Observes (backend : MappingBackend F B E R) (shouldUpdate : B → Bool) (update : B → B) (ℓ : B → M)
    (p : M → Bool) (u : M → M) : Prop where
  merge : ∀ b b', backend.canMerge b b' = true → ℓ b = ℓ b'
  should : ∀ b, shouldUpdate b = p (ℓ b)
  update : ∀ b, ℓ (update b) = u (ℓ b)

theorem Observes.interchangeable (h : Observes backend shouldUpdate update ℓ p u) :
    Interchangeable backend (fun b _ => ℓ b) := fun b b' _ hm => h.merge b b' hm

theorem metadata_of_find {areas : Areas F B} {x : Nat} {a : Area F B} (h : find areas x = some a) :
    metadata ℓ areas x = some ⟨a.flags, ℓ a.backend, a.lineage⟩ := by
  rw [metadata, view, h]
  rfl

theorem find_of_metadata {areas : Areas F B} {x : Nat} {cell : Cell F M} (h : metadata ℓ areas x = some cell) :
    ∃ a, find areas x = some a ∧ cell = ⟨a.flags, ℓ a.backend, a.lineage⟩ := by
  obtain ⟨a, ha, rfl⟩ := Option.map_eq_some_iff.mp h
  exact ⟨a, ha, rfl⟩

/-- Backends that can be merged form classes, and the update keeps them together. -/
structure Coherent (backend : MappingBackend F B E R) (update : B → B) : Prop where
  symm : ∀ b b', backend.canMerge b b' = true → backend.canMerge b' b = true
  trans : ∀ b b' b'', backend.canMerge b b' = true → backend.canMerge b' b'' = true → backend.canMerge b b'' = true
  update : ∀ b b', backend.canMerge b b' = true → backend.canMerge (update b) (update b') = true

def kin (backend : MappingBackend F B E R) (b : B) : Set B := {b' | b = b' ∨ backend.canMerge b b' = true}

section Kin

variable {b b' : B}

theorem eq_or_canMerge_of_kin (h : kin backend b = kin backend b') : b = b' ∨ backend.canMerge b b' = true := by
  have hmem : b' ∈ kin backend b' := .inl rfl
  rwa [← h] at hmem

theorem Observes.eq_of_kin (hobs : Observes backend shouldUpdate update ℓ p u) (h : kin backend b = kin backend b') :
    ℓ b = ℓ b' := by
  rcases eq_or_canMerge_of_kin h with rfl | hm
  · rfl
  · exact hobs.merge b b' hm

namespace Coherent

theorem kin_eq (h : Coherent backend update) (hm : backend.canMerge b b' = true) : kin backend b = kin backend b' := by
  ext e
  constructor
  · rintro (rfl | he)
    · exact .inr (h.symm _ _ hm)
    · exact .inr (h.trans _ _ _ (h.symm _ _ hm) he)
  · rintro (rfl | he)
    · exact .inr hm
    · exact .inr (h.trans _ _ _ hm he)

theorem kin_update (h : Coherent backend update) (hk : kin backend b = kin backend b') :
    kin backend (update b) = kin backend (update b') := by
  rcases eq_or_canMerge_of_kin hk with rfl | hm
  · rfl
  · exact h.kin_eq (h.update b b' hm)

/-- A backend that can be merged at all can be merged with all its kin. -/
theorem canMerge_of_kin (h : Coherent backend update) (hk : kin backend b = kin backend b') (he : Engages backend b) :
    backend.canMerge b b' = true := by
  rcases eq_or_canMerge_of_kin hk with rfl | hm
  · obtain ⟨e, he | he⟩ := he
    · exact h.trans _ _ _ he (h.symm _ _ he)
    · exact h.trans _ _ _ (h.symm _ _ he) he
  · exact hm

theorem interchangeable (h : Coherent backend update) : Interchangeable backend (fun b _ => kin backend b) :=
  fun _ _ _ hm => h.kin_eq hm

end Coherent

end Kin

section Areas

variable {areas : Areas F B} {a b : Area F B} {x : Nat}

theorem Ordered.touching (h : Ordered areas) (hx : 0 < x) (ha : find areas (x - 1) = some a)
    (hb : find areas x = some b)
    (hne : a ≠ b) : areas.get? a.start = some a ∧ areas.get? b.start = some b ∧ a.stop = x ∧ b.start = x := by
  obtain ⟨hgeta, ha1, ha2⟩ := h.find_eq_some.mp ha
  obtain ⟨hgetb, hb1, hb2⟩ := h.find_eq_some.mp hb
  have hlt : a.start < b.start := by
    rcases Nat.lt_trichotomy a.start b.start with hlt | heq | hgt
    · exact hlt
    · rw [heq, hgetb, Option.some.injEq] at hgeta
      exact absurd hgeta.symm hne
    · have := h.apart _ _ _ _ hgetb hgeta hgt
      omega
  have hstop := h.apart _ _ _ _ hgeta hgetb hlt
  exact ⟨hgeta, hgetb, by omega, by omega⟩

/-- Of two selected areas that touch inside the range, the update of the first
meets the second only if the update leaves the second as it is. -/
def UpdateSettles (meets : B → B → Prop) (ℓ : B → M) (range : Range) (shouldUpdate : B → Bool) (update : B → B)
    (areas : Areas F B) : Prop :=
  ∀ a b, areas.get? a.start = some a → areas.get? b.start = some b → a.stop = b.start → range.1 < b.start →
    b.start < range.2 → a.flags = b.flags → a.lineage = b.lineage → shouldUpdate a.backend = true →
    shouldUpdate b.backend = true → meets (update a.backend) b.backend → ℓ (update b.backend) = ℓ b.backend

theorem UpdateSettles.fixed {meets : B → B → Prop} (hset : UpdateSettles meets ℓ range shouldUpdate update areas)
    (h : Ordered areas) (hlow : range.1 < x) (hhigh : x < range.2) (ha : find areas (x - 1) = some a)
    (hb : find areas x = some b) (hflags : a.flags = b.flags) (hlineage : a.lineage = b.lineage)
    (hsa : shouldUpdate a.backend = true) (hsb : shouldUpdate b.backend = true)
    (hmeets : meets (update a.backend) b.backend) (hshown : ℓ (update a.backend) = ℓ b.backend) :
    ℓ (update b.backend) = ℓ b.backend := by
  by_cases hab : a = b
  · subst hab
    exact hshown
  · obtain ⟨hgeta, hgetb, hstop, hstart⟩ := h.touching (by omega) ha hb hab
    exact hset a b hgeta hgetb (hstop.trans hstart.symm) (by omega) (by omega) hflags hlineage hsa hsb hmeets

end Areas

section Merging

variable [DecidableEq F]

/-- Merging at an address leaves no boundary there that could be merged away. -/
theorem mergeAdjacentAt_joined {anchor : Nat} {a b : Area F B} (h : Ordered c.set.areas) (hpos : 0 < anchor)
    (ha : find c.set.areas (anchor - 1) = some a) (hb : find c.set.areas anchor = some b)
    (hflags : a.flags = b.flags) (hlineage : a.lineage = b.lineage) (hcan : backend.canMerge a.backend b.backend = true)
    {q : ε → Call F B E R → Prop} {r : Prop} :
    Ensures (mergeAdjacentAt backend anchor : Act (Call F B E R) ε Unit) c
      (fun _ d => Joined d.set.areas (anchor - 1) anchor) q r := by
  have hunit := interchangeable_unit backend
  by_cases hsame : a = b
  · -- the addresses were in one area before
    subst hsame
    have hspec := mergeAdjacentAt_spec (ε := ε) (q := q) (r := r) anchor h hunit
    exact hspec.mono (fun _ d hd => hd.joined _ _ ⟨a, ha, hb⟩) (fun _ _ => id) id
  · obtain ⟨hgeta, hgetb, hstop, hstart⟩ := h.touching hpos ha hb hsame
    obtain ⟨-, ha1, ha2⟩ := h.find_eq_some.mp ha
    obtain ⟨-, hb1, hb2⟩ := h.find_eq_some.mp hb
    have hprev : c.set.areas.lastBelow anchor = some (a.start, a) := by
      rw [SortedMap.lastBelow_eq_some]
      refine ⟨hgeta, by omega, fun i w hi hle => ?_⟩
      by_contra hgt
      have := h.apart _ _ _ _ hgeta hi (by omega)
      omega
    have hareas : canMergeAreas backend a b = true := by
      simp only [canMergeAreas, decide_eq_true_eq]
      exact ⟨by omega, hflags, hlineage, hcan⟩
    have hanchor : mergeAnchor c.set.areas anchor = some anchor := by
      rw [mergeAnchor, ← hstart, hgetb]
      rfl
    obtain ⟨n, hn⟩ : ∃ n, c.set.areas.size = n + 1 := ⟨_, (SortedMap.size_erase hgetb).symm⟩
    rw [hstart] at hgetb
    refine ensures_get_bind ?_
    rw [hanchor, hn]
    dsimp only
    have hinto : Ensures (mergePrevInto backend anchor : Act (Call F B E R) ε Nat) c
        (fun start d => Merged backend (fun _ _ => ()) c d ∧ (d.set.areas.get? start).isSome ∧
          Joined d.set.areas (anchor - 1) anchor) q r := by
      refine ensures_get_bind ?_
      rw [hprev]
      refine ensures_bind_of_eq (areaAt_apply hgeta) (ensures_bind_of_eq (areaAt_apply hgetb) ?_)
      rw [if_pos hareas]
      exact (absorbNext_spec h hunit hgeta hgetb hareas).bind fun _ d hd =>
        ensures_pure ⟨hd.1, hd.2.1, hd.2.2 _ _ ha1 (by omega) (by omega) hb2⟩
    have hloop : Ensures (mergePrevLoop backend (n + 1) anchor : Act (Call F B E R) ε Nat) c
        (fun start d => Merged backend (fun _ _ => ()) c d ∧ (d.set.areas.get? start).isSome ∧
          Joined d.set.areas (anchor - 1) anchor) q r := by
      refine hinto.bind fun merged d hd => ?_
      split
      case isTrue heq => exact ensures_pure (heq ▸ hd)
      case isFalse =>
          exact (mergePrevLoop_spec n hd.1.ordered hunit hd.2.1).mono
            (fun start e he => ⟨hd.1.trans he.1, he.2, he.1.joined _ _ hd.2.2⟩) (fun _ _ => id) id
    refine hloop.bind fun current d hd => ?_
    exact (mergeNextLoop_spec (n + 1) hd.1.ordered hunit hd.2.1).mono
      (fun _ e he => he.joined _ _ hd.2.2) (fun _ _ => id) id

structure PartUpdated (backend : MappingBackend F B E R) (ℓ : B → M) (update : B → B) (range : Range) (a : Area F B)
    (c d : Call F B E R) : Prop where
  ordered : Ordered d.set.areas
  metadata : ∀ x, metadata ℓ d.set.areas x = if max a.start range.1 ≤ x ∧ x < min a.stop range.2
    then some ⟨a.flags, ℓ (update a.backend), a.lineage⟩ else metadata ℓ c.set.areas x
  joined : ∀ x y, InRange range x → InRange range y → Joined c.set.areas x y → Joined d.set.areas x y
  parted : a.stop < range.2 → Joined d.set.areas (a.stop - 1) a.stop → Engages backend (update a.backend)

/-- The state between the update of the part and the merges. -/
theorem updatePart_eq {k : Nat} {a : Area F B} (h : Ordered c.set.areas) (hget : c.set.areas.get? k = some a)
    (hlt : max a.start range.1 < min a.stop range.2) :
    ∃ e, PartUpdated backend ℓ update range a c e ∧
      find e.set.areas (min a.stop range.2 - 1) =
        some ⟨max a.start range.1, min a.stop range.2, a.flags, update a.backend, a.lineage⟩ ∧
      (updatePart backend update k a (max k range.1) (min a.stop range.2) : Act (Call F B E R) ε Unit) c =
        (mergeAdjacentAt backend (max a.start range.1) >>= fun _ => mergeAdjacentAt backend (min a.stop range.2))
          e := by
  have hkey := h.key k a hget
  subst hkey
  obtain ⟨_, d, hsplit, hd⟩ := (splitArea_spec (ℓ := fun b (_ : Nat) => ℓ b) (ε := ε)
    a.flags h hget (Nat.le_max_left _ range.1) hlt (Nat.min_le_left _ _)).returns
  have hmid := hd.middle
  rw [ite_self] at hmid
  obtain ⟨hord, hfind⟩ := hd.ordered.replace
    (a := Area.setBackend ⟨max a.start range.1, min a.stop range.2, a.flags, a.backend, a.lineage⟩
      (update a.backend)) hmid rfl hlt
    (show min a.stop range.2 ≤ usizeMax from hd.ordered.bounded _ _ hmid) (fun x hx hx' => .inr ⟨hx, hx'⟩)
  simp only [Area.setBackend_start, Area.setBackend_stop] at hfind
  have hin (x : Nat) (hx : max a.start range.1 ≤ x ∧ x < min a.stop range.2) := (hfind x).trans (if_pos hx)
  have hout (x : Nat) (hx : ¬ (max a.start range.1 ≤ x ∧ x < min a.stop range.2)) :=
    (hfind x).trans ((if_neg hx).trans (if_neg hx))
  refine ⟨d.withAreas (d.set.areas.insert (max a.start range.1) (Area.setBackend
    ⟨max a.start range.1, min a.stop range.2, a.flags, a.backend, a.lineage⟩ (update a.backend))),
    ⟨hord, fun x => ?_, fun x y hx hy hj => ?_, fun hstop hj => ?_⟩, hin _ (by omega), ?_⟩
  · split
    case isTrue hx => exact metadata_of_find (hin x hx)
    case isFalse hx =>
        refine Eq.trans ?_ (hd.view x hx)
        exact congrArg (Option.map _) (hout x hx)
  · obtain ⟨e, hex, hey⟩ := hj
    obtain ⟨hgete, hx'⟩ := h.find_eq_some.mp hex
    obtain ⟨-, hy'⟩ := h.find_eq_some.mp hey
    obtain ⟨hx1, hx2⟩ := hx
    obtain ⟨hy1, hy2⟩ := hy
    by_cases hea : e = a
    · subst hea
      exact ⟨_, hin x (by omega), hin y (by omega)⟩
    · have hapart : e.stop ≤ a.start ∨ a.stop ≤ e.start := by
        rcases Nat.lt_trichotomy e.start a.start with hlt' | heq | hgt
        · exact .inl (h.apart _ _ _ _ hgete hget hlt')
        · rw [heq, hget, Option.some.injEq] at hgete
          exact absurd hgete.symm hea
        · exact .inr (h.apart _ _ _ _ hget hgete hgt)
      have hgetd : d.set.areas.get? e.start = some e := by
        rw [hd.get? e.start (by omega)]
        exact hgete
      exact ⟨e, (hout x (by omega)).trans (hd.ordered.find_of_get? hgetd hx'.1 hx'.2),
        (hout y (by omega)).trans (hd.ordered.find_of_get? hgetd hy'.1 hy'.2)⟩
  · -- the part ends where the area ended
    obtain ⟨e, hex, hey⟩ := hj
    have he := (hin (a.stop - 1) (by omega)).symm.trans hex
    rw [Option.some.injEq] at he
    obtain ⟨-, -, hlt'⟩ := hord.find_eq_some.mp hey
    rw [← he, Area.setBackend_stop] at hlt'
    dsimp only at hlt'
    omega
  · rw [updatePart, bind_apply, hsplit]
    dsimp only
    rw [bind_apply, updateArea_apply hmid]

theorem updatePart_updated {k : Nat} {a : Area F B} (h : Ordered c.set.areas)
    (hloc : Interchangeable backend (fun b _ => ℓ b)) (hget : c.set.areas.get? k = some a)
    (hlt : max a.start range.1 < min a.stop range.2)
    (hrun : (updatePart backend update k a (max k range.1) (min a.stop range.2) : Act (Call F B E R) ε Unit) c =
    (.ok (), d)) : PartUpdated backend ℓ update range a c d := by
  obtain ⟨e, he, hlast, heq⟩ := updatePart_eq (ε := ε) (ℓ := ℓ) h hget hlt
  obtain ⟨_, f, h₁, h₂⟩ := bind_eq_ok.mp (heq.symm.trans hrun)
  have hf := (mergeAdjacentAt_spec (q := fun _ _ => True) (r := True) _ he.ordered hloc).ok_of h₁
  have hd := hf.trans ((mergeAdjacentAt_spec (q := fun _ _ => True) (r := True) _ hf.ordered hloc).ok_of h₂)
  refine ⟨hd.ordered, fun x => (hd.view x).trans (he.metadata x), fun x y hx hy hj => hd.joined x y
    (he.joined x y hx hy hj),
    fun hstop hj => ?_⟩
  have hmin : min a.stop range.2 = a.stop := by omega
  rw [hmin] at hlast
  rcases hd.parted _ _ _ hj hlast with hj | heng
  · exact he.parted hstop hj
  · exact heng

/-- The part and what follows it end up in one area when they can be merged. -/
theorem updatePart_joined {k : Nat} {a b : Area F B} (h : Ordered c.set.areas) (hcoh : Coherent backend update)
    (hget : c.set.areas.get? k = some a) (hlt : max a.start range.1 < a.stop) (hstop : a.stop < range.2)
    (hnext : find c.set.areas a.stop = some b) (hflags : a.flags = b.flags) (hlineage : a.lineage = b.lineage)
    (hcan : backend.canMerge (update a.backend) b.backend = true)
    (hrun : (updatePart backend update k a (max k range.1) (min a.stop range.2) : Act (Call F B E R) ε Unit) c =
    (.ok (), d)) : Joined d.set.areas (a.stop - 1) a.stop := by
  have hmin : min a.stop range.2 = a.stop := by omega
  have hlt' : max a.start range.1 < min a.stop range.2 := by omega
  obtain ⟨e, he, -, heq⟩ := updatePart_eq (ε := ε) (ℓ := kin backend) h hget hlt'
  obtain ⟨_, f, h₁, h₂⟩ := bind_eq_ok.mp (heq.symm.trans hrun)
  have hf := (mergeAdjacentAt_spec (q := fun _ _ => True) (r := True) _ he.ordered hcoh.interchangeable).ok_of h₁
  have hmeta (x : Nat) := (hf.view x).trans (he.metadata x)
  rw [hmin] at h₂
  -- after the first merges both sides still hold kin of what they held
  have hbefore : metadata (kin backend) f.set.areas (a.stop - 1) = some ⟨a.flags, kin backend (update a.backend),
      a.lineage⟩ := by
    rw [metadata, hmeta, if_pos (by omega)]
  have hat : metadata (kin backend) f.set.areas a.stop = some ⟨b.flags, kin backend b.backend, b.lineage⟩ := by
    rw [metadata, hmeta, if_neg (by omega)]
    exact metadata_of_find hnext
  obtain ⟨q, hq, hcell⟩ := find_of_metadata hbefore
  obtain ⟨q', hq', hcell'⟩ := find_of_metadata hat
  rw [Cell.mk.injEq] at hcell hcell'
  have hkin : kin backend q.backend = kin backend q'.backend := by
    rw [← hcell.2.1, hcoh.kin_eq hcan, hcell'.2.1]
  have heng : Engages backend q.backend := by
    rcases eq_or_canMerge_of_kin hcell.2.1 with heq | hm
    · exact ⟨b.backend, .inl (heq ▸ hcan)⟩
    · exact ⟨_, .inr hm⟩
  refine (mergeAdjacentAt_joined hf.ordered (by omega) hq hq' ?_ ?_ (hcoh.canMerge_of_kin hkin heng)
    (q := fun _ _ => True) (r := True)).ok_of h₂
  · rw [← hcell.1, hflags, hcell'.1]
  · rw [← hcell.2.2, hlineage, hcell'.2.2]

/-- One turn of the loop that goes on: the area at or after the cursor. -/
structure LoopTurn (backend : MappingBackend F B E R) (range : Range) (shouldUpdate : B → Bool) (update : B → B)
    (s t : Nat × Call F B E R) : Prop where
  below : s.1 < range.2
  turn : ∃ a, s.2.set.areas.get? a.start = some a ∧ s.1 < a.stop ∧ a.start < range.2 ∧
    (∀ x, s.1 ≤ x → x < a.start → find s.2.set.areas x = none) ∧ t.1 = min a.stop range.2 ∧
    (shouldUpdate a.backend = false ∧ t.2 = s.2 ∨ shouldUpdate a.backend = true ∧
      (updatePart backend update a.start a (max a.start range.1) (min a.stop range.2) :
        Act (Call F B E R) MetadataUpdateError Unit) s.2 = (.ok (), t.2))

def LoopDone (range : Range) (s : Nat × Call F B E R) : Prop :=
  ∀ x, s.1 ≤ x → x < range.2 → find s.2.set.areas x = none

/-- Where the loop stands while it has updated each selected address below the
cursor once. -/
structure OnceBelow (ℓ : B → M) (range : Range) (p : M → Bool) (u : M → M) (c : Call F B E R)
    (s : Nat × Call F B E R) : Prop where
  ordered : Ordered s.2.set.areas
  lower : range.1 ≤ s.1
  upper : s.1 ≤ range.2
  below : ∀ x, x < s.1 → metadata ℓ s.2.set.areas x = (metadata ℓ c.set.areas x).map (updatedCell range p u x)
  above : ∀ x, s.1 ≤ x → metadata ℓ s.2.set.areas x = metadata ℓ c.set.areas x

/-- If an area holds the cursor and what lies before it in the range, a further
update leaves its metadata alone. -/
def Harmless (ℓ : B → M) (range : Range) (shouldUpdate : B → Bool) (u : M → M) (s : Nat × Call F B E R) : Prop :=
  ∀ q, range.1 < s.1 → find s.2.set.areas (s.1 - 1) = some q → find s.2.set.areas s.1 = some q →
    shouldUpdate q.backend = true → u (ℓ q.backend) = ℓ q.backend

theorem OnceBelow.turn {s t : Nat × Call F B E R} (hs : OnceBelow ℓ range p u c s)
    (hobs : Observes backend shouldUpdate update ℓ p u) (hharmless : Harmless ℓ range shouldUpdate u s)
    (ht : LoopTurn backend range shouldUpdate update s t) : OnceBelow ℓ range p u c t := by
  obtain ⟨hbelow, a, hget, hreach, hinside, hhole, hcursor, hturn⟩ := ht
  have hlower := hs.lower
  have hne := hs.ordered.nonempty _ _ hget
  have hfind (x : Nat) (hx : a.start ≤ x) (hx' : x < a.stop) := hs.ordered.find_of_get? hget hx hx'
  have hcell (x : Nat) (hx : a.start ≤ x) (hx' : x < a.stop) :
      metadata ℓ s.2.set.areas x = some ⟨a.flags, ℓ a.backend, a.lineage⟩ := metadata_of_find (hfind x hx hx')
  have hempty (x : Nat) (hx : s.1 ≤ x) (hx' : x < a.start) : metadata ℓ c.set.areas x = none := by
    rw [← hs.above x hx]
    exact view_eq_none.mpr (hhole x hx hx')
  rcases hturn with ⟨hskip, hsame⟩ | ⟨hselected, hpart⟩
  · rw [hobs.should] at hskip
    refine ⟨by rw [hsame]; exact hs.ordered, by omega, by omega, fun x hx => ?_, fun x hx => ?_⟩
    · rw [hsame]
      by_cases hlow : x < s.1
      · exact hs.below x hlow
      · rw [hs.above x (by omega)]
        by_cases hin : a.start ≤ x
        · rw [← hs.above x (by omega), hcell x hin (by omega)]
          simp [updatedCell, hskip]
        · rw [hempty x (by omega) (by omega)]
          rfl
    · rw [hsame]
      exact hs.above x (by omega)
  · have hupd := updatePart_updated hs.ordered hobs.interchangeable hget (by omega) hpart
    refine ⟨hupd.ordered, by omega, by omega, fun x hx => ?_, fun x hx => ?_⟩
    · rw [hupd.metadata x, hobs.update]
      by_cases hin : max a.start range.1 ≤ x ∧ x < min a.stop range.2
      · rw [if_pos hin]
        have hrange : InRange range x := ⟨by omega, by omega⟩
        by_cases hlow : x < s.1
        · -- the area has swallowed what was visited before it
          have hfix := hharmless a (by omega) (hfind _ (by omega) (by omega)) (hfind _ (by omega) hreach) hselected
          rw [← hs.below x hlow, hcell x (by omega) (by omega), hfix]
        · rw [hobs.should] at hselected
          rw [← hs.above x (by omega), hcell x (by omega) (by omega)]
          simp [updatedCell, hrange, hselected]
      · rw [if_neg hin]
        by_cases hlow : x < s.1
        · exact hs.below x hlow
        · rw [hs.above x (by omega), hempty x (by omega) (by omega)]
          rfl
    · rw [hupd.metadata x, if_neg (by omega)]
      exact hs.above x (by omega)

structure Unvisited (backend : MappingBackend F B E R) (range : Range) (c : Call F B E R) (s : Nat × Call F B E R) :
    Prop where
  ordered : Ordered s.2.set.areas
  lower : range.1 ≤ s.1
  above : ∀ x, s.1 ≤ x → metadata (kin backend) s.2.set.areas x = metadata (kin backend) c.set.areas x

theorem Unvisited.turn {s t : Nat × Call F B E R} (hs : Unvisited backend range c s) (hcoh : Coherent backend update)
    (ht : LoopTurn backend range shouldUpdate update s t) : Unvisited backend range c t := by
  obtain ⟨hbelow, a, hget, hreach, hinside, hhole, hcursor, ⟨-, hsame⟩ | ⟨-, hpart⟩⟩ := ht
  · have := hs.lower
    exact ⟨hsame ▸ hs.ordered, by omega, fun x hx => hsame ▸ hs.above x (by omega)⟩
  · have := hs.lower
    have hne := hs.ordered.nonempty _ _ hget
    have hupd := updatePart_updated hs.ordered hcoh.interchangeable hget (by omega) hpart
    refine ⟨hupd.ordered, by omega, fun x hx => ?_⟩
    rw [hupd.metadata x, if_neg (by omega)]
    exact hs.above x (by omega)

omit [DecidableEq F] in
/-- The area that held an unvisited address, and how it compares with the one
that does now. -/
theorem Unvisited.origin {s : Nat × Call F B E R} (hs : Unvisited backend range c s) {x : Nat} {a : Area F B}
    (hx : s.1 ≤ x)
    (ha : find s.2.set.areas x = some a) : ∃ a', find c.set.areas x = some a' ∧ a'.flags = a.flags ∧
      kin backend a'.backend = kin backend a.backend ∧ a'.lineage = a.lineage := by
  obtain ⟨a', ha', hcell⟩ := find_of_metadata ((hs.above x hx).symm.trans (metadata_of_find (ℓ := kin backend) ha))
  rw [Cell.mk.injEq] at hcell
  exact ⟨a', ha', hcell.1.symm, hcell.2.1.symm, hcell.2.2.symm⟩

/-- The loop cannot avoid to join two selected areas that touch when the update
of the first can be merged with the second. -/
theorem Unvisited.joined {s t : Nat × Call F B E R} {z : Nat} {a₀ b₀ : Area F B} (hs : Unvisited backend range c s)
    (hj : s.1 < z ∨ Joined s.2.set.areas (z - 1) z) (hobs : Observes backend shouldUpdate update ℓ p u)
    (hcoh : Coherent backend update) (hz : range.1 < z) (hz' : z < range.2) (ha₀ : find c.set.areas (z - 1) = some a₀)
    (hb₀ : find c.set.areas z = some b₀) (hflags : a₀.flags = b₀.flags) (hlineage : a₀.lineage = b₀.lineage)
    (hsa : shouldUpdate a₀.backend = true) (hcan : backend.canMerge (update a₀.backend) b₀.backend = true)
    (ht : LoopTurn backend range shouldUpdate update s t) : t.1 < z ∨ Joined t.2.set.areas (z - 1) z := by
  obtain ⟨hbelow, a, hget, hreach, hinside, hhole, hcursor, hturn⟩ := ht
  have hlower := hs.lower
  have hne := hs.ordered.nonempty _ _ hget
  have hrange : InRange range (z - 1) ∧ InRange range z := ⟨⟨by omega, by omega⟩, ⟨by omega, by omega⟩⟩
  -- what is joined stays joined
  have hkeep (hj : Joined s.2.set.areas (z - 1) z) : Joined t.2.set.areas (z - 1) z := by
    rcases hturn with ⟨-, hsame⟩ | ⟨-, hpart⟩
    · rw [hsame]
      exact hj
    · exact (updatePart_updated hs.ordered hcoh.interchangeable hget (by omega) hpart).joined _ _ hrange.1 hrange.2 hj
  rcases hj with hlt | hj
  · have hstart : a.start ≤ z - 1 := by
      by_contra hgt
      have hnone := view_eq_none (ℓ := fun b _ => kin backend b) |>.mpr (hhole (z - 1) (by omega) (by omega))
      rw [← metadata, hs.above (z - 1) (by omega), metadata_of_find ha₀] at hnone
      cases hnone
    rcases Nat.lt_trichotomy a.stop z with hend | hend | hend
    · exact .inl (by omega)
    · right
      subst hend
      have hlast := hs.ordered.find_of_get? hget hstart (by omega)
      obtain ⟨a', ha', haf, hak, hal⟩ := hs.origin (by omega) hlast
      obtain rfl : a' = a₀ := Option.some.inj (ha'.symm.trans ha₀)
      obtain ⟨b, hb, hcell⟩ := find_of_metadata ((hs.above a.stop (by omega)).trans (metadata_of_find hb₀))
      rw [Cell.mk.injEq] at hcell
      rcases hturn with ⟨hskip, -⟩ | ⟨-, hpart⟩
      · rw [hobs.should, ← hobs.eq_of_kin hak, ← hobs.should, hsa] at hskip
        cases hskip
      · have hkin : kin backend (update a.backend) = kin backend b.backend := by
          rw [← hcoh.kin_update hak, hcoh.kin_eq hcan, hcell.2.1]
        have heng : Engages backend (update a.backend) := by
          rcases eq_or_canMerge_of_kin (hcoh.kin_update hak) with heq | hm
          · exact ⟨_, .inl (heq ▸ hcan)⟩
          · exact ⟨_, .inr hm⟩
        refine updatePart_joined hs.ordered hcoh hget (by omega) hz' hb ?_ ?_ (hcoh.canMerge_of_kin hkin heng) hpart
        · rw [← haf, hflags, hcell.1]
        · rw [← hal, hlineage, hcell.2.2]
    · exact .inr (hkeep ⟨a, hs.ordered.find_of_get? hget hstart (by omega), hs.ordered.find_of_get? hget
        (by omega) hend⟩)
  · exact .inr (hkeep hj)

omit [DecidableEq F] in
theorem map_updatedCell_outside {x : Nat} (hx : ¬ InRange range x) (o : Option (Cell F M)) :
    o.map (updatedCell range p u x) = o := by
  cases o with
  | none => rfl
  | some cell => simp [updatedCell, hx]

omit [DecidableEq F] in
theorem OnceBelow.start (h : Ordered c.set.areas) (hle : range.1 ≤ range.2) : OnceBelow ℓ range p u c (range.1, c) :=
  ⟨h, Nat.le_refl _, hle, fun _ hx => (map_updatedCell_outside (fun hin => absurd hin.1 (Nat.not_le.mpr hx)) _).symm,
    fun _ _ => rfl⟩

omit [DecidableEq F] in
theorem OnceBelow.done {s : Nat × Call F B E R} (hs : OnceBelow ℓ range p u c s) (hdone : LoopDone range s) (x : Nat) :
    metadata ℓ s.2.set.areas x = (metadata ℓ c.set.areas x).map (updatedCell range p u x) := by
  by_cases hlow : x < s.1
  · exact hs.below x hlow
  · rw [← hs.above x (by omega)]
    by_cases hin : x < range.2
    · have hnone : metadata ℓ s.2.set.areas x = none := view_eq_none.mpr (hdone x (by omega) hin)
      rw [hnone]
      rfl
    · exact (map_updatedCell_outside (fun h => hin h.2) _).symm

section Turns

variable {t : Nat × Call F B E R} (h : Ordered c.set.areas) (hobs : Observes backend shouldUpdate update ℓ p u)
  (hle : range.1 ≤ range.2) (ht : Relation.ReflTransGen (LoopTurn backend range shouldUpdate update) (range.1, c) t)

include h hobs hle ht

end Turns

end Merging

end TheKernel.MemorySet
