import Mathlib.Tactic.Ring
import TheKernel.Mm.Range

namespace TheKernel.Mm

structure AffineRelocation where
  origin : Nat
  backingAdvance : Nat

def relocateAffineOrigin (origin oldStart newStart : Nat) : Outcome MmError AffineRelocation :=
  if oldStart ≤ origin then
    let leadingGap := origin - oldStart
    if newStart + leadingGap ≤ wordMax then .ok ⟨newStart + leadingGap, 0⟩ else .err .overflow
  else
    let consumedPrefix := oldStart - origin
    if consumedPrefix ≤ newStart then .ok ⟨newStart - consumedPrefix, 0⟩ else .ok ⟨newStart, consumedPrefix⟩

/-- The pages of the source that have a place in the destination are moved. -/
structure RemapGeometry where
  oldRange : PageRange
  newRange : PageRange
  movedSource : PageRange
  newSize : newRange.pageSize = oldRange.pageSize
  movedSize : movedSource.pageSize = oldRange.pageSize
  movedStart : movedSource.start = oldRange.start
  movedLen : movedSource.len = min oldRange.len newRange.len
  deriving DecidableEq

structure RemapSegmentGeometry where
  source : PageRange
  destination : PageRange
  backendOldStart : Nat
  backendNewStart : Nat

namespace RemapGeometry

def new (oldRange : PageRange) (newStart newLength : Nat) : Outcome MmError RemapGeometry :=
  match hnew : PageRange.withPageSize newStart newLength oldRange.pageSize with
  | .err e => .err e
  | .panic => .panic
  | .ok newRange =>
      match hmoved : PageRange.withPageSize oldRange.start (min oldRange.len newRange.len) oldRange.pageSize with
      | .err e => .err e
      | .panic => .panic
      | .ok movedSource => .ok ⟨oldRange, newRange, movedSource, (PageRange.withPageSize_eq_ok hnew).2.2,
          (PageRange.withPageSize_eq_ok hmoved).2.2, (PageRange.withPageSize_eq_ok hmoved).1,
          (PageRange.withPageSize_eq_ok hmoved).2.1⟩

def grows (g : RemapGeometry) : Bool := g.oldRange.len < g.newRange.len

def growthTail (g : RemapGeometry) : Outcome MmError (Option PageRange) :=
  if !g.grows then .ok none
  else if wordMax < g.newRange.start + g.oldRange.len then .err .overflow
  else do
    let tail ← PageRange.withPageSize (g.newRange.start + g.oldRange.len) (g.newRange.len - g.oldRange.len)
      g.newRange.pageSize
    pure (some tail)

def segment (g : RemapGeometry) (sourceSegment : PageRange) : Outcome MmError RemapSegmentGeometry :=
  if !g.movedSource.contains sourceSegment then .err .invalidRemap
  else if sourceSegment.start < g.oldRange.start then .err .invalidRemap
  else
    let offset := sourceSegment.start - g.oldRange.start
    if wordMax < g.newRange.start + offset then .err .overflow
    else do
      let destination ← PageRange.withPageSize (g.newRange.start + offset) sourceSegment.len g.newRange.pageSize
      if !g.newRange.contains destination then .err .invalidRemap
      else .ok ⟨sourceSegment, destination, g.oldRange.start, g.newRange.start⟩

end RemapGeometry

structure Partition (range : PageRange) (fragments : List PageRange) : Prop where
  pageSize : ∀ f ∈ fragments, f.pageSize = range.pageSize
  apart : fragments.Pairwise fun a b => ∀ address, a.range.Has address → ¬b.range.Has address
  covers : ∀ address, range.range.Has address ↔ ∃ f ∈ fragments, f.range.Has address

theorem PageRange.stop_eq (r : PageRange) : r.stop = r.start + r.len := by
  have := r.range.nonempty
  rw [stop, start, len, UserRange.len]
  omega

theorem PageSize.isAligned_iff (size : PageSize) (value : Nat) : size.isAligned value = true ↔ size.bytes ∣ value := by
  rw [isAligned, decide_eq_true_eq, Nat.dvd_iff_mod_eq_zero]

theorem PageRange.withPageSize_ok {start length : Nat} {pageSize : PageSize} (hstart : pageSize.bytes ∣ start)
    (hlength : pageSize.bytes ∣ length) (hpos : 0 < length) (hbound : start + length ≤ wordMax) :
    ∃ pages, withPageSize start length pageSize = .ok pages := by
  rw [withPageSize, dif_pos ⟨(pageSize.isAligned_iff _).mpr hstart, (pageSize.isAligned_iff _).mpr hlength⟩,
    dif_neg (by omega), dif_pos hbound]
  exact ⟨_, rfl⟩

theorem PageRange.len_pos (r : PageRange) : 0 < r.len := by
  have := r.range.nonempty
  rw [len, UserRange.len]
  omega

theorem PageRange.stop_le (r : PageRange) : r.start + r.len ≤ wordMax := by
  rw [← r.stop_eq]
  exact r.range.bounded

theorem PageRange.dvd_start (r : PageRange) : r.pageSize.bytes ∣ r.start :=
  (r.pageSize.isAligned_iff _).mp r.startAligned

theorem PageRange.dvd_len (r : PageRange) : r.pageSize.bytes ∣ r.len := (r.pageSize.isAligned_iff _).mp r.lengthAligned

theorem PageRange.contains_iff {r f : PageRange} :
    r.contains f = true ↔ r.pageSize.bytes = f.pageSize.bytes ∧ r.start ≤ f.start ∧ f.start + f.len ≤
      r.start + r.len := by
  rw [contains, Bool.and_eq_true, decide_eq_true_eq, UserRange.contains, decide_eq_true_eq, ← r.stop_eq, ← f.stop_eq]
  exact Iff.rfl

theorem PageRange.contains_of_has {r f : PageRange} (hsize : f.pageSize = r.pageSize)
    (h : ∀ address, f.range.Has address → r.range.Has address) : r.contains f = true := by
  have hpos := f.range.nonempty
  have hfirst := h f.range.start ⟨Nat.le_refl _, hpos⟩
  have hlast := h (f.range.stop - 1) ⟨by omega, by omega⟩
  rw [contains, Bool.and_eq_true, decide_eq_true_eq, UserRange.contains, decide_eq_true_eq]
  exact ⟨by rw [hsize], hfirst.1, by have := hlast.2; omega⟩

theorem PageRange.has_iff (r : PageRange) (address : Nat) :
    r.range.Has address ↔ r.start ≤ address ∧ address < r.start + r.len := by
  rw [← r.stop_eq]
  exact Iff.rfl

section Segments

variable (g : RemapGeometry)

/-- A fragment of the moved source goes to the same offset of the new range. -/
theorem RemapGeometry.segment_spec {f : PageRange} (hsize : f.pageSize = g.movedSource.pageSize)
    (hwithin : ∀ address, f.range.Has address → g.movedSource.range.Has address) :
    ∃ s, g.segment f = .ok s ∧ s.source = f ∧ s.destination.pageSize = g.newRange.pageSize ∧
      s.destination.start + g.oldRange.start = f.start + g.newRange.start ∧ s.destination.len = f.len := by
  have hcontains := PageRange.contains_of_has hsize hwithin
  obtain ⟨-, hlo, hhi⟩ := PageRange.contains_iff.mp hcontains
  rw [g.movedStart, g.movedLen] at hhi
  rw [g.movedStart] at hlo
  have hfpos := f.len_pos
  have hbound := g.newRange.stop_le
  have hfsize : f.pageSize = g.oldRange.pageSize := hsize.trans g.movedSize
  have hnew : g.oldRange.pageSize.bytes ∣ g.newRange.start := by
    rw [← g.newSize]
    exact g.newRange.dvd_start
  have hstart : g.newRange.pageSize.bytes ∣ g.newRange.start + (f.start - g.oldRange.start) := by
    rw [g.newSize]
    refine Nat.dvd_add hnew (Nat.dvd_sub ?_ g.oldRange.dvd_start)
    rw [← hfsize]
    exact f.dvd_start
  have hlen : g.newRange.pageSize.bytes ∣ f.len := by
    rw [g.newSize, ← hfsize]
    exact f.dvd_len
  obtain ⟨d, hd⟩ := PageRange.withPageSize_ok hstart hlen hfpos (by omega)
  obtain ⟨hds, hdl, hdp⟩ := PageRange.withPageSize_eq_ok hd
  have hds' : d.start = g.newRange.start + (f.start - g.oldRange.start) := hds
  have hdl' : d.len = f.len := hdl
  have hdin : g.newRange.contains d = true := by
    rw [PageRange.contains_iff, hdp, hds', hdl']
    exact ⟨rfl, by omega, by omega⟩
  refine ⟨⟨f, d, g.oldRange.start, g.newRange.start⟩, ?_, rfl, hdp, ?_, hdl'⟩
  · rw [RemapGeometry.segment, hcontains, if_neg (by decide), if_neg (by omega)]
    dsimp only
    rw [if_neg (by omega), hd, Outcome.ok_bind, hdin, if_neg (by decide)]
  · rw [hds']
    omega

theorem RemapGeometry.growthTail_spec : ∃ tail, g.growthTail = .ok tail ∧
    (∀ t ∈ tail, t.pageSize = g.newRange.pageSize) ∧
    ∀ address, (∃ t ∈ tail, t.range.Has address) ↔
      g.newRange.start + g.oldRange.len ≤ address ∧ address < g.newRange.start + g.newRange.len := by
  rw [RemapGeometry.growthTail]
  by_cases hgrows : g.grows = true
  · have hgt : g.oldRange.len < g.newRange.len := of_decide_eq_true hgrows
    have hbound := g.newRange.stop_le
    have hold : g.newRange.pageSize.bytes ∣ g.oldRange.len := by
      rw [g.newSize]
      exact g.oldRange.dvd_len
    obtain ⟨t, ht⟩ := PageRange.withPageSize_ok (Nat.dvd_add g.newRange.dvd_start hold)
      (Nat.dvd_sub g.newRange.dvd_len hold) (by omega) (by omega)
    obtain ⟨hts, htl, htp⟩ := PageRange.withPageSize_eq_ok ht
    have hts' : t.start = g.newRange.start + g.oldRange.len := hts
    have htl' : t.len = g.newRange.len - g.oldRange.len := htl
    rw [hgrows, if_neg (by decide), if_neg (by omega), ht, Outcome.ok_bind, Outcome.pure_eq]
    refine ⟨some t, rfl, ?_, ?_⟩
    · rintro t' ⟨⟩
      exact htp
    · intro address
      simp only [Option.mem_def, Option.some.injEq, exists_eq_left', PageRange.has_iff, hts', htl']
      omega
  · rw [Bool.not_eq_true] at hgrows
    have hle : g.newRange.len ≤ g.oldRange.len := Nat.le_of_not_lt (of_decide_eq_false hgrows)
    rw [hgrows, if_pos (by decide)]
    refine ⟨none, rfl, nofun, ?_⟩
    intro address
    constructor
    · rintro ⟨t, ⟨⟩, -⟩
    · rintro ⟨hlo, hhi⟩
      omega

/-- The destination of a fragment: the same offset and length in the new range. -/
structure Moved (f : PageRange) (s : RemapSegmentGeometry) : Prop where
  segment : g.segment f = .ok s
  source : s.source = f
  pageSize : s.destination.pageSize = g.newRange.pageSize
  offset : s.destination.start + g.oldRange.start = f.start + g.newRange.start
  len : s.destination.len = f.len

variable {g}

theorem Moved.has_iff {f : PageRange} {s : RemapSegmentGeometry} (h : Moved g f s) (hle : g.oldRange.start ≤ f.start)
    (address : Nat) : s.destination.range.Has address ↔
      g.newRange.start ≤ address ∧ f.range.Has (address - g.newRange.start + g.oldRange.start) := by
  have hoffset := h.offset
  rw [PageRange.has_iff, PageRange.has_iff, h.len]
  omega

theorem Partition.moved {fragments : List PageRange} (hp : Partition g.movedSource fragments) :
    ∃ segments, List.Forall₂ (Moved g) fragments segments := by
  have hone : ∀ f ∈ fragments, ∃ s, Moved g f s := by
    intro f hf
    obtain ⟨s, h₁, h₂, h₃, h₄, h₅⟩ := g.segment_spec (hp.pageSize f hf) fun address h =>
        (hp.covers address).mpr ⟨f, hf, h⟩
    exact ⟨s, h₁, h₂, h₃, h₄, h₅⟩
  clear hp
  induction fragments with
  | nil => exact ⟨[], .nil⟩
  | cons f rest ih =>
      obtain ⟨s, hs⟩ := hone f (List.mem_cons_self ..)
      obtain ⟨segments, hrest⟩ := ih fun f hf => hone f (List.mem_cons_of_mem _ hf)
      exact ⟨s :: segments, .cons hs hrest⟩

theorem Partition.start_le {fragments : List PageRange} (hp : Partition g.movedSource fragments) {f : PageRange}
    (hf : f ∈ fragments) : g.oldRange.start ≤ f.start := by
  have hin := (hp.covers f.range.start).mpr ⟨f, hf, Nat.le_refl _, f.range.nonempty⟩
  rw [← g.movedStart]
  exact hin.1

theorem Moved.of_mem {fragments : List PageRange} {segments : List RemapSegmentGeometry}
    (h : List.Forall₂ (Moved g) fragments segments) :
    (∀ f ∈ fragments, ∃ s ∈ segments, Moved g f s) ∧ ∀ s ∈ segments, ∃ f ∈ fragments, Moved g f s := by
  induction h with
  | nil => exact ⟨nofun, nofun⟩
  | cons hs _ ih =>
      refine ⟨List.forall_mem_cons.mpr ⟨⟨_, List.mem_cons_self .., hs⟩, ?_⟩, List.forall_mem_cons.mpr
        ⟨⟨_, List.mem_cons_self .., hs⟩, ?_⟩⟩
      · intro f hf
        obtain ⟨s, hmem, hmoved⟩ := ih.1 f hf
        exact ⟨s, List.mem_cons_of_mem _ hmem, hmoved⟩
      · intro s hs
        obtain ⟨f, hmem, hmoved⟩ := ih.2 s hs
        exact ⟨f, List.mem_cons_of_mem _ hmem, hmoved⟩

theorem Moved.apart {fragments : List PageRange} {segments : List RemapSegmentGeometry}
    (h : List.Forall₂ (Moved g) fragments segments) (hle : ∀ f ∈ fragments, g.oldRange.start ≤ f.start)
    (hapart : fragments.Pairwise fun a b => ∀ address, a.range.Has address → ¬b.range.Has address) :
    (segments.map RemapSegmentGeometry.destination).Pairwise fun a b => ∀ address, a.range.Has address →
      ¬b.range.Has address := by
  induction h with
  | nil => exact .nil
  | @cons f s fragments segments hs hrest ih =>
      rw [List.pairwise_cons] at hapart
      rw [List.map_cons, List.pairwise_cons]
      refine ⟨?_, ih (fun f hf => hle f (List.mem_cons_of_mem _ hf)) hapart.2⟩
      intro d hd address hs' hd'
      obtain ⟨s₂, hs₂, rfl⟩ := List.mem_map.mp hd
      obtain ⟨f₂, hf₂, hmoved⟩ := (Moved.of_mem hrest).2 s₂ hs₂
      rw [hs.has_iff (hle f (List.mem_cons_self ..))] at hs'
      rw [hmoved.has_iff (hle f₂ (List.mem_cons_of_mem _ hf₂))] at hd'
      exact hapart.1 f₂ hf₂ _ hs'.2 hd'.2

end Segments

def KeepsBacking (origin oldStart newStart : Nat) : Outcome MmError AffineRelocation → Prop
  | .ok r => r.origin ≤ wordMax ∧ ∀ address, oldStart ≤ address →
      ((newStart + (address - oldStart) : Nat) : Int) - r.origin + r.backingAdvance = (address : Int) - origin
  | .err e => e = .overflow ∧ oldStart ≤ origin ∧ wordMax < newStart + (origin - oldStart)
  | .panic => False

theorem relocateAffineOrigin_keeps {origin oldStart newStart : Nat} (hnew : newStart ≤ wordMax) :
    KeepsBacking origin oldStart newStart (relocateAffineOrigin origin oldStart newStart) := by
  rw [relocateAffineOrigin]
  split
  next hle =>
    dsimp only
    split
    next hbound =>
      refine ⟨hbound, ?_⟩
      intro address haddress
      dsimp only
      omega
    next hbound => exact ⟨rfl, hle, by omega⟩
  next hlt =>
    dsimp only
    split
    next hsub =>
      refine ⟨by dsimp only; omega, ?_⟩
      intro address haddress
      dsimp only
      omega
    next hsub =>
      refine ⟨hnew, ?_⟩
      intro address haddress
      dsimp only
      omega

/-- The fragments of a moved mapping go to the same offsets of the new range and
tile it together with the growth; an affine origin that moves along keeps the
backing of every address. -/
theorem remap_tiles (g : RemapGeometry) {fragments : List PageRange} (hp : Partition g.movedSource fragments) :
    (∃ (segments : List RemapSegmentGeometry) (tail : Option PageRange), fragments.map g.segment = segments.map .ok ∧
      g.growthTail = .ok tail ∧ segments.map RemapSegmentGeometry.source = fragments ∧
      (∀ s ∈ segments, s.destination.len = s.source.len ∧ g.oldRange.start ≤ s.source.start ∧
        s.destination.start = g.newRange.start + (s.source.start - g.oldRange.start)) ∧
      (segments.map RemapSegmentGeometry.destination).Pairwise
        (fun a b => ∀ address, a.range.Has address → ¬b.range.Has address) ∧
      Partition g.newRange (segments.map RemapSegmentGeometry.destination ++ tail.toList)) ∧
    ∀ origin oldStart newStart, newStart ≤ wordMax →
      KeepsBacking origin oldStart newStart (relocateAffineOrigin origin oldStart newStart) := by
  refine ⟨?_, fun _ _ _ hnew => relocateAffineOrigin_keeps hnew⟩
  obtain ⟨segments, hmoved⟩ := hp.moved
  obtain ⟨tail, htail, htailSize, htailHas⟩ := g.growthTail_spec
  have hle : ∀ f ∈ fragments, g.oldRange.start ≤ f.start := fun f hf => hp.start_le hf
  have hapart := Moved.apart hmoved hle hp.apart
  obtain ⟨hforward, hback⟩ := Moved.of_mem hmoved
  have hdest : ∀ address, (∃ d ∈ segments.map RemapSegmentGeometry.destination, d.range.Has address) ↔
      g.newRange.start ≤ address ∧ address < g.newRange.start + min g.oldRange.len g.newRange.len := by
    intro address
    have hsource := hp.covers (address - g.newRange.start + g.oldRange.start)
    rw [PageRange.has_iff, g.movedStart, g.movedLen] at hsource
    constructor
    · rintro ⟨d, hd, hhas⟩
      obtain ⟨s, hs, rfl⟩ := List.mem_map.mp hd
      obtain ⟨f, hf, hfs⟩ := hback s hs
      rw [hfs.has_iff (hle f hf)] at hhas
      have := hsource.mpr ⟨f, hf, hhas.2⟩
      omega
    · rintro ⟨hlo, hhi⟩
      obtain ⟨f, hf, hhas⟩ := hsource.mp (by omega)
      obtain ⟨s, hs, hfs⟩ := hforward f hf
      exact ⟨s.destination, List.mem_map_of_mem hs, (hfs.has_iff (hle f hf) address).mpr ⟨hlo, hhas⟩⟩
  refine ⟨segments, tail, ?_, htail, ?_, ?_, hapart, ?_, ?_, ?_⟩
  · clear hp hle hapart hforward hback hdest
    induction hmoved with
    | nil => rfl
    | cons hs _ ih => rw [List.map_cons, List.map_cons, hs.segment, ih]
  · clear hp hle hapart hforward hback hdest
    induction hmoved with
    | nil => rfl
    | cons hs _ ih => rw [List.map_cons, hs.source, ih]
  · intro s hs
    obtain ⟨f, hf, hfs⟩ := hback s hs
    have hoffset := hfs.offset
    have hstart := hle f hf
    rw [hfs.source]
    exact ⟨hfs.len, hstart, by omega⟩
  · intro d hd
    rcases List.mem_append.mp hd with hd | hd
    · obtain ⟨s, hs, rfl⟩ := List.mem_map.mp hd
      obtain ⟨f, hf, hfs⟩ := hback s hs
      exact hfs.pageSize
    · exact htailSize d (Option.mem_toList.mp hd)
  · rw [List.pairwise_append]
    refine ⟨hapart, ?_, ?_⟩
    · cases tail with
      | none => exact .nil
      | some t => exact List.pairwise_singleton _ _
    · intro d hd t ht address hhas hhas'
      have hlow := (hdest address).mp ⟨d, hd, hhas⟩
      have hhigh := (htailHas address).mp ⟨t, Option.mem_toList.mp ht, hhas'⟩
      omega
  · intro address
    rw [PageRange.has_iff]
    constructor
    · rintro ⟨hlo, hhi⟩
      by_cases hin : address < g.newRange.start + min g.oldRange.len g.newRange.len
      · obtain ⟨d, hd, hhas⟩ := (hdest address).mpr ⟨hlo, hin⟩
        exact ⟨d, List.mem_append_left _ hd, hhas⟩
      · obtain ⟨t, ht, hhas⟩ := (htailHas address).mpr ⟨by omega, hhi⟩
        exact ⟨t, List.mem_append_right _ (Option.mem_toList.mpr ht), hhas⟩
    · rintro ⟨d, hd, hhas⟩
      rcases List.mem_append.mp hd with hd | hd
      · have := (hdest address).mp ⟨d, hd, hhas⟩
        omega
      · have := (htailHas address).mp ⟨d, Option.mem_toList.mp hd, hhas⟩
        omega

def growingRemap : RemapGeometry :=
  ⟨pages 4096 12288 (by decide), pages 40960 53248 (by decide), pages 4096 12288 (by decide), rfl, rfl, rfl, by decide⟩

theorem remap_tiles_growing : RemapGeometry.new (pages 4096 12288 (by decide)) 40960 12288 = .ok growingRemap ∧
    ∃ (segments : List RemapSegmentGeometry) (tail : Option PageRange), [pages 8192 12288 (by decide),
      pages 4096 8192 (by decide)].map growingRemap.segment = segments.map .ok ∧
      growingRemap.growthTail = .ok tail ∧
      Partition growingRemap.newRange (segments.map RemapSegmentGeometry.destination ++ tail.toList) := by
  refine ⟨by decide +kernel, ?_⟩
  have hp : Partition growingRemap.movedSource [pages 8192 12288 (by decide), pages 4096 8192 (by decide)] := by
    refine ⟨?_, ?_, ?_⟩
    · simp [pages, growingRemap]
    · rw [List.pairwise_pair]
      rintro address ⟨hlo, -⟩ ⟨-, hhi⟩
      simp only [pages] at hlo hhi
      omega
    · intro address
      simp only [List.mem_cons, List.not_mem_nil, or_false, exists_eq_or_imp, exists_eq_left, UserRange.Has,
        pages, growingRemap]
      omega
  obtain ⟨⟨segments, tail, hsegments, htail, -, -, -, hpart⟩, -⟩ := remap_tiles growingRemap hp
  exact ⟨segments, tail, hsegments, htail, hpart⟩

end TheKernel.Mm
