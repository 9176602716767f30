import TheKernel.MemorySet.Metadata

namespace TheKernel.MemorySet

open Act

variable {F B E R L : Type}

structure FixedReplacementRestore (B : Type) where
  start : Nat
  size : Nat
  backend : B

def FixedReplacementRestore.range (r : FixedReplacementRestore B) : Range := (r.start, r.start + r.size)

structure PreparedFixedReplacement (F B R : Type) where
  revision : Nat
  replacementStart : Nat
  replacementSize : Nat
  replacementFlags : F
  incomingMap : R
  replacementTree : Areas F B
  replacementGaps : GapIndex
  restores : List (FixedReplacementRestore B)
  retirement : UnmapRetirement F B R

structure CommittedFixedReplacement (F B R : Type) where
  replacementStart : Nat
  replacementSize : Nat
  replacementFlags : F
  incomingMap : Option R
  restores : List (FixedReplacementRestore B)
  oldAreas : Option (Areas F B)
  oldGaps : Option GapIndex
  retirement : Option (UnmapRetirement F B R)
  installed : Bool

structure FixedReplacementRetirement (F B R : Type) where
  retirement : UnmapRetirement F B R
  oldAreas : Areas F B

section Definitions

variable (backend : MappingBackend F B E R)

def admitRestore (table : Table E) (range : Range) (area : Area F B) :
    Outcome MappingError (FixedReplacementRestore B × R) :=
  let part := clip range area
  let size := part.2 - part.1
  if backend.preflightUnmap area.backend part.1 size table &&
    backend.preflightRestoreDeferred area.backend part.1 size table then
    match backend.prepareDeferredUnmap area.backend part.1 size table with
    | some token => .ok (⟨part.1, size, area.backend⟩, token)
    | none => .err .badState
  else .err .badState

def admitRestores (table : Table E) (range : Range) :
    List (Area F B) → Outcome MappingError (List (FixedReplacementRestore B × R))
  | [] => .ok []
  | a :: rest => do
      let restore ← admitRestore backend table range a
      let restores ← admitRestores table range rest
      .ok (restore :: restores)

def replacementPieces (range : Range) (area : Area F B) : List (Area F B) :=
  if area.overlaps range then
    (if area.start < range.1 then [⟨area.start, range.1, area.flags, area.backend, area.lineage⟩] else []) ++
      (if range.2 < area.stop then [⟨range.2, area.stop, area.flags, area.backend, area.lineage⟩] else [])
  else [cloneWith area area.backend]

def buildReplacement {ε : Type} (areas : Areas F B) (replacement : Area F B) : Outcome ε (Areas F B) := do
  let tree ← insertAll ((areas.entries.map (·.2)).flatMap (replacementPieces replacement.range)) SortedMap.empty
  insertNew tree replacement

/-- An allocation by the backend that fails with `BadState`. -/
def orBadState {α : Type} : Option α → Outcome MappingError α
  | some a => .ok a
  | none => .err .badState

def prepareFixedReplacementWithLimit (memory : Nat → Bool) (replacement : Area F B) (maxAreas : Nat) :
    Act (Call F B E R) MappingError (PreparedFixedReplacement F B R) := do
  let range := replacement.range
  if range.2 ≤ range.1 then fail .invalidParam
  else do
    let c ← get
    let afterUnmap ← lift (fragmentCountAfterUnmap c.set.areas range)
    let projected ← lift (addOrNoMemory afterUnmap 1)
    checkAreaLimit (max c.set.areas.size projected) maxAreas
    let incomingMap ← lift (orBadState
      (backend.prepareFixedMap replacement.backend replacement.start replacement.size replacement.flags c.table))
    tryReserve memory 0 c.set.areas.size
    let overlapping := iterOverlapping c.set.areas range
    tryReserve memory 1 overlapping.length
    let admitted ← lift (admitRestores backend c.table range overlapping)
    let tree ← lift (buildReplacement c.set.areas replacement)
    let gaps ← lift (GapIndex.fromAreas ((tree.entries.map (·.2)).map Area.range))
    pure ⟨c.set.revision, replacement.start, replacement.size, replacement.flags, incomingMap, tree, gaps,
      admitted.map (·.1), ⟨admitted.map (·.2), []⟩⟩

section Commit

variable {ε : Type}

/-- `unmap_deferred_prepared`, which turns the token into a snapshot, with the
fail-stop on its failure. -/
def withdraw (restore : FixedReplacementRestore B) (token : R) : Act (Call F B E R) ε R := fun c =>
  let result := backend.unmapDeferredPrepared restore.backend token restore.start restore.size c.table
  (if result.1 then .ok result.2.1 else .panic, { c with table := result.2.2 })

def withdrawAll : List (FixedReplacementRestore B) → List R → Act (Call F B E R) ε (List R)
  | restore :: restores, token :: tokens => do
      let token ← withdraw backend restore token
      let tokens ← withdrawAll restores tokens
      pure (token :: tokens)
  | _, tokens => pure tokens

def commitFixed (prepared : PreparedFixedReplacement F B R) :
    Act (Call F B E R) MappingError (CommittedFixedReplacement F B R) := do
  let c ← get
  if prepared.revision = c.set.revision then do
    expect (if prepared.retirement.backendRetirements.length = prepared.restores.length then some () else none)
    let tokens ← withdrawAll backend prepared.restores prepared.retirement.backendRetirements
    putAreas prepared.replacementTree
    putGaps prepared.replacementGaps
    bumpRevision
    pure ⟨prepared.replacementStart, prepared.replacementSize, prepared.replacementFlags, some prepared.incomingMap,
      prepared.restores, some c.set.areas, some c.set.gaps,
        some { prepared.retirement with backendRetirements := tokens }, false⟩
  else fail .badState

/-- `map_fixed_prepared` on the live area, if that is still the prepared one. -/
def mapFixed [DecidableEq F] (committed : CommittedFixedReplacement F B R) (area : Area F B) (token : R) :
    Act (Call F B E R) ε Unit := fun c =>
  if area.start = committed.replacementStart ∧ area.size = committed.replacementSize ∧
    area.flags = committed.replacementFlags then
    let result := backend.mapFixedPrepared area.backend token committed.replacementStart committed.replacementSize
      committed.replacementFlags c.table
    (if result.1 then .ok () else .panic, { c with table := result.2 })
  else (.panic, c)

def install [DecidableEq F] (committed : CommittedFixedReplacement F B R) :
    Act (Call F B E R) ε (CommittedFixedReplacement F B R) := do
  expect (if committed.installed then none else some ())
  let token ← expect committed.incomingMap
  let area ← areaAt committed.replacementStart
  mapFixed backend committed area token
  pure { committed with incomingMap := none, installed := true }

def finishFixed (committed : CommittedFixedReplacement F B R) :
    Act (Call F B E R) ε (FixedReplacementRetirement F B R) := do
  expect (if committed.installed then some () else none)
  let retirement ← expect committed.retirement
  let oldAreas ← expect committed.oldAreas
  pure ⟨retirement, oldAreas⟩

def uninstall (committed : CommittedFixedReplacement F B R) : Act (Call F B E R) ε Unit :=
  if committed.installed then do
    let area ← areaAt committed.replacementStart
    modeUnmap backend .immediate area.backend committed.replacementStart committed.replacementSize
  else pure ()

def restoreOne (restore : FixedReplacementRestore B) (token : R) : Act (Call F B E R) ε Unit := fun c =>
  let result := backend.restoreDeferred restore.backend token restore.start restore.size c.table
  (if result.1 then .ok () else .panic, { c with table := result.2 })

def restoreAll : List (FixedReplacementRestore B) → List R → Act (Call F B E R) ε Unit
  | [], _ => pure ()
  | _ :: _, [] => expect none
  | restore :: restores, token :: tokens => do
      restoreOne backend restore token
      restoreAll restores tokens

/-- `rollback_inner`, which returns the withdrawn replacement tree. -/
def rollbackFixed (committed : CommittedFixedReplacement F B R) : Act (Call F B E R) ε (Areas F B) := do
  let oldAreas ← expect committed.oldAreas
  let oldGaps ← expect committed.oldGaps
  uninstall backend committed
  let retirement ← expect committed.retirement
  expect (if retirement.backendRetirements.length = committed.restores.length then some () else none)
  restoreAll backend committed.restores retirement.backendRetirements
  let c ← get
  putAreas oldAreas
  putGaps oldGaps
  bumpRevision
  pure c.set.areas

end Commit

end Definitions

variable {backend : MappingBackend F B E R} {ℓ : B → Nat → L} {c : Call F B E R} {range : Range} {memory : Nat → Bool}
  {maxAreas : Nat} {panic : Prop}

section Tree

variable {a p : Area F B}

theorem mem_replacementPieces (hlt : a.start < a.stop) : p ∈ replacementPieces range a ↔
    a.overlaps range = true ∧ (a.start < range.1 ∧ p = ⟨a.start, range.1, a.flags, a.backend, a.lineage⟩ ∨
      range.2 < a.stop ∧ p = ⟨range.2, a.stop, a.flags, a.backend, a.lineage⟩) ∨
    a.overlaps range = false ∧ p = a := by
  have hclone : cloneWith a a.backend = a := by
    simp only [cloneWith, Area.size, show a.start + (a.stop - a.start) = a.stop by omega]
  rw [replacementPieces]
  split
  · rename_i hover
    simp [hover]
  · rename_i hover
    simp [Bool.eq_false_of_not_eq_true hover, hclone]

theorem replacementPieces_sequential (hlt : a.start < a.stop) (hbound : a.stop ≤ usizeMax)
    (hrange : range.1 < range.2) :
    Sequential (replacementPieces range a) ∧ ∀ p ∈ replacementPieces range a, a.start ≤ p.start ∧ p.stop ≤ a.stop := by
  constructor
  · rw [replacementPieces]
    split
    · rename_i hover
      rw [Area.overlaps_iff] at hover
      refine Sequential.append ?_ ?_ fun p hp q hq => ?_
      · split
        · exact Sequential.cons_iff.mpr ⟨‹_›, by dsimp only; omega, by simp, .nil⟩
        · exact .nil
      · split
        · exact Sequential.cons_iff.mpr ⟨‹_›, hbound, by simp, .nil⟩
        · exact .nil
      · split at hp
        · split at hq
          · rw [List.mem_singleton] at hp hq
            subst hp
            subst hq
            exact Nat.le_of_lt hrange
          · cases hq
        · cases hp
    · exact (Tiles.clone hlt hbound a.backend).sequential
  · intro p hp
    rcases (mem_replacementPieces hlt).mp hp with ⟨hover, ⟨hleft, rfl⟩ | ⟨hright, rfl⟩⟩ | ⟨-, rfl⟩
    · rw [Area.overlaps_iff] at hover
      dsimp only
      omega
    · rw [Area.overlaps_iff] at hover
      dsimp only
      omega
    · exact ⟨Nat.le_refl _, Nat.le_refl _⟩

/-- The tree of a fixed replacement shows the new area in its range and what
the old one showed elsewhere. -/
theorem buildReplacement_spec {ε : Type} {areas : Areas F B} (h : Ordered areas) {replacement : Area F B}
    (hlt : replacement.start < replacement.stop) (hbound : replacement.stop ≤ usizeMax) :
    ∃ tree, (buildReplacement areas replacement : Outcome ε (Areas F B)) = .ok tree ∧ Ordered tree ∧
      tree.get? replacement.start = some replacement ∧
      ∀ x, view ℓ tree x =
        if replacement.start ≤ x ∧ x < replacement.stop then some (replacement.cell ℓ x)
        else view ℓ areas x := by
  have hmem {a : Area F B} (ha : a ∈ areas.entries.map (·.2)) : ∃ k, areas.get? k = some a := by
    obtain ⟨⟨k, b⟩, hb, rfl⟩ := List.mem_map.mp ha
    exact ⟨k, SortedMap.mem_entries.mp hb⟩
  have hseq : Sequential ((areas.entries.map (·.2)).flatMap (replacementPieces replacement.range)) := by
    refine h.sequential.flatMap fun a ha => ?_
    obtain ⟨k, hget⟩ := hmem ha
    exact replacementPieces_sequential (h.nonempty k a hget) (h.bounded k a hget) hlt
  obtain ⟨tree, htree, hord, -, hfind⟩ := insertAll_empty (ε := ε) hseq
  have hfree (x : Nat) (hx : replacement.start ≤ x) (hx' : x < replacement.stop) : find tree x = none := by
    cases hres : find tree x with
    | none => rfl
    | some p =>
        obtain ⟨hp, hin⟩ := (hfind x p).mp hres
        obtain ⟨a, ha, hp⟩ := List.mem_flatMap.mp hp
        obtain ⟨k, hget⟩ := hmem ha
        rcases (mem_replacementPieces (h.nonempty k a hget)).mp hp with ⟨-, ⟨-, rfl⟩ | ⟨-, rfl⟩⟩ | ⟨hover, rfl⟩
        · simp only [Area.range] at hin
          omega
        · simp only [Area.range] at hin
          omega
        · have : p.overlaps replacement.range = true :=
            Area.overlaps_iff.mpr ⟨by simp only [Area.range]; omega, by simp only [Area.range]; omega⟩
          rw [hover] at this
          cases this
  have hnone := hord.get?_of_free (hfree replacement.start (Nat.le_refl _) hlt)
  refine ⟨tree.insert replacement.start replacement, ?_, hord.insert hlt hbound hfree, by simp, fun x => ?_⟩
  · rw [buildReplacement, htree, Outcome.ok_bind, insertNew, hnone]
    rfl
  · rw [hord.view_insert hlt hbound hfree]
    split
    · rfl
    · rename_i hout
      rw [MemorySet.view, MemorySet.view]
      cases hold : find areas x with
      | none =>
          cases hres : find tree x with
          | none => rfl
          | some p =>
              obtain ⟨hp, hin⟩ := (hfind x p).mp hres
              obtain ⟨a, ha, hp⟩ := List.mem_flatMap.mp hp
              obtain ⟨k, hget⟩ := hmem ha
              have hpa := (replacementPieces_sequential (h.nonempty k a hget) (h.bounded k a hget) hlt).2 p hp
              exact absurd (show a.start ≤ x ∧ x < a.stop by omega) (h.find_eq_none.mp hold k a hget)
      | some a =>
          obtain ⟨hget, hax, hax'⟩ := h.find_eq_some.mp hold
          have ha : a ∈ areas.entries.map (·.2) := List.mem_map.mpr ⟨(a.start, a), SortedMap.mem_entries.mpr hget, rfl⟩
          have hpiece : ∃ p ∈ replacementPieces replacement.range a, p.start ≤ x ∧ x < p.stop ∧
              p.cell ℓ x = a.cell ℓ x := by
            by_cases hover : a.overlaps replacement.range = true
            · by_cases hleft : x < replacement.start
              · exact ⟨_, (mem_replacementPieces (h.nonempty _ a hget)).mpr
                  (.inl ⟨hover, .inl ⟨by simp only [Area.range]; omega, rfl⟩⟩), hax, hleft, rfl⟩
              · exact ⟨_, (mem_replacementPieces (h.nonempty _ a hget)).mpr
                  (.inl ⟨hover, .inr ⟨by simp only [Area.range]; omega, rfl⟩⟩),
                  by simp only [Area.range]; omega, hax', rfl⟩
            · exact ⟨a, (mem_replacementPieces (h.nonempty _ a hget)).mpr (.inr ⟨Bool.eq_false_of_not_eq_true hover,
                rfl⟩), hax, hax', rfl⟩
          obtain ⟨p, hp, hpx, hpx', hcell⟩ := hpiece
          rw [(hfind x p).mpr ⟨List.mem_flatMap.mpr ⟨a, ha, hp⟩, hpx, hpx'⟩, Option.map_some, Option.map_some, hcell]

end Tree

section Prepare

structure Reserved (backend : MappingBackend F B E R) (table : Table E) (restore : FixedReplacementRestore B)
    (token : R) : Prop where
  unmappable : backend.preflightUnmap restore.backend restore.start restore.size table = true
  restorable : backend.preflightRestoreDeferred restore.backend restore.start restore.size table = true
  prepared : backend.prepareDeferredUnmap restore.backend restore.start restore.size table = some token

theorem admitRestore_spec {table : Table E} {a : Area F B} {e : FixedReplacementRestore B × R}
    (h : admitRestore backend table range a = .ok e) :
    e.1 = ⟨(clip range a).1, (clip range a).2 - (clip range a).1, a.backend⟩ ∧ Reserved backend table e.1 e.2 := by
  simp only [admitRestore] at h
  split at h
  · rename_i hpre
    rw [Bool.and_eq_true] at hpre
    split at h
    · rename_i token htoken
      cases h
      exact ⟨rfl, hpre.1, hpre.2, htoken⟩
    · cases h
  · cases h

theorem admitRestores_spec {table : Table E} {areas : List (Area F B)} {es : List (FixedReplacementRestore B × R)}
    (h : admitRestores backend table range areas = .ok es) :
    es.map (·.1) = areas.map (fun a => ⟨(clip range a).1, (clip range a).2 - (clip range a).1, a.backend⟩) ∧
      ∀ e ∈ es, Reserved backend table e.1 e.2 := by
  induction areas generalizing es with
  | nil =>
      cases h
      exact ⟨rfl, by simp⟩
  | cons a rest ih =>
      rw [admitRestores, Outcome.bind_eq_ok] at h
      obtain ⟨e, he, h⟩ := h
      rw [Outcome.bind_eq_ok] at h
      obtain ⟨es', hes', h⟩ := h
      cases h
      obtain ⟨hmap, hres⟩ := ih hes'
      obtain ⟨hfst, hsnd⟩ := admitRestore_spec he
      refine ⟨by rw [List.map_cons, List.map_cons, hmap, hfst], fun e' he' => ?_⟩
      rcases List.mem_cons.mp he' with rfl | he'
      · exact hsnd
      · exact hres e' he'

theorem admitRestores_ne_panic {table : Table E} {areas : List (Area F B)} :
    (admitRestores backend table range areas : Outcome MappingError (List (FixedReplacementRestore B × R))) ≠
    .panic := by
  induction areas with
  | nil =>
      intro h
      cases h
  | cons a rest ih =>
      have hone : admitRestore backend table range a ≠ .panic := by
        intro h
        simp only [admitRestore] at h
        split at h
        · split at h <;> cases h
        · cases h
      intro h
      rw [admitRestores] at h
      cases hres : admitRestore backend table range a with
      | ok e =>
          rw [hres, Outcome.ok_bind] at h
          cases hrest : (admitRestores backend table range rest : Outcome MappingError
            (List (FixedReplacementRestore B × R))) with
          | ok es =>
              rw [hrest] at h
              cases h
          | err e =>
              rw [hrest] at h
              cases h
          | panic => exact ih hrest
      | err e =>
          rw [hres] at h
          cases h
      | panic => exact hone hres

/-- What a prepared replacement promises about the call it was prepared in. -/
structure PreparedFor (backend : MappingBackend F B E R) (ℓ : B → Nat → L) (c : Call F B E R) (replacement : Area F B)
    (p : PreparedFixedReplacement F B R) : Prop where
  revision : p.revision = c.set.revision
  nonempty : replacement.start < replacement.stop
  start : p.replacementStart = replacement.start
  size : p.replacementSize = replacement.size
  flags : p.replacementFlags = replacement.flags
  consistent : ∀ revision, Consistent ⟨p.replacementTree, p.replacementGaps, revision⟩
  live : p.replacementTree.get? replacement.start = some replacement
  view : ∀ x, view ℓ p.replacementTree x =
    if replacement.start ≤ x ∧ x < replacement.stop then some (replacement.cell ℓ x) else view ℓ c.set.areas x
  incoming : backend.prepareFixedMap replacement.backend replacement.start replacement.size replacement.flags c.table =
    some p.incomingMap
  length : p.retirement.backendRetirements.length = p.restores.length
  reserved : ∀ e ∈ p.restores.zip p.retirement.backendRetirements, Reserved backend c.table e.1 e.2
  inside : ∀ r ∈ p.restores, replacement.start ≤ r.start ∧ r.start + r.size ≤ replacement.stop
  covers : ∀ x, InRange replacement.range x → find c.set.areas x ≠ none → ∃ r ∈ p.restores, InRange r.range x
  apart : p.restores.Pairwise (fun r r' => r.start + r.size ≤ r'.start)

theorem prepareFixedReplacementWithLimit_spec (h : Consistent c.set) {replacement : Area F B}
    (hbound : replacement.stop ≤ usizeMax) :
    Ensures (prepareFixedReplacementWithLimit backend memory replacement maxAreas) c
      (fun p d => d = c ∧ PreparedFor backend ℓ c replacement p) (fun _ d => d = c) False := by
  rw [prepareFixedReplacementWithLimit]
  dsimp only
  split
  · exact ensures_fail rfl
  · rename_i hempty
    have hlt : replacement.start < replacement.stop := Nat.not_le.mp hempty
    refine ensures_get_bind ((fragmentCountAfterUnmap_spec _).bind ?_)
    rintro n d ⟨rfl, -⟩
    refine (addOrNoMemory_spec _ _).bind ?_
    rintro m d ⟨rfl, -⟩
    refine (checkAreaLimit_spec _).bind ?_
    rintro - d ⟨rfl, -⟩
    refine Ensures.bind (p := fun token e => e = d ∧
      backend.prepareFixedMap replacement.backend replacement.start replacement.size replacement.flags d.table =
        some token)
      (ensures_lift (fun token htoken => ⟨rfl, ?_⟩) (fun _ _ => rfl) (fun hp => ?_)) ?_
    · rw [orBadState.eq_def] at htoken
      split at htoken
      · cases htoken
        assumption
      · cases htoken
    · rw [orBadState.eq_def] at hp
      split at hp <;> cases hp
    rintro token e ⟨rfl, htoken⟩
    refine (tryReserve_spec _ _).bind ?_
    rintro - d rfl
    refine (tryReserve_spec _ _).bind ?_
    rintro - e rfl
    refine Ensures.bind (p := fun es d => d = e ∧
      admitRestores backend e.table replacement.range (iterOverlapping e.set.areas replacement.range) = .ok es)
      (ensures_lift (fun es hes => ⟨rfl, hes⟩) (fun _ _ => rfl) admitRestores_ne_panic) ?_
    rintro es d ⟨rfl, hes⟩
    obtain ⟨tree, htree, hord, hlive, hview⟩ := buildReplacement_spec (ε := MappingError) (ℓ := ℓ) h.ordered hlt hbound
    refine ensures_bind_of_eq (a := tree) (t := d) (by rw [htree]; rfl) ?_
    obtain ⟨gaps, m, hgaps, hm, hfree⟩ := fromAreas_spec (ε := MappingError) hord.sequential
    refine ensures_bind_of_eq (a := gaps) (t := d) (by rw [hgaps]; rfl) ?_
    obtain ⟨hmap, hreserved⟩ := admitRestores_spec hes
    have hoverlap (a : Area F B) (ha : a ∈ iterOverlapping d.set.areas replacement.range) :
        (clip replacement.range a).1 < (clip replacement.range a).2 := by
      obtain ⟨hget, hover⟩ := h.ordered.mem_iterOverlapping.mp ha
      have := h.ordered.nonempty _ _ hget
      rw [Area.overlaps_iff] at hover
      simp only [clip, Area.range] at hover ⊢
      omega
    refine ensures_pure ⟨rfl, rfl, hlt, rfl, rfl, rfl, fun revision => ⟨hord, m, hm, fun x => ?_⟩, hlive,
      hview, htoken, by simp,
      fun e he => ?_, fun r hr => ?_, fun x hx hcov => ?_, ?_⟩
    · rw [hfree, hord.find_eq_none]
      constructor
      · intro hno k a hget hx
        exact hno a (List.mem_map.mpr ⟨(k, a), SortedMap.mem_entries.mpr hget, rfl⟩) hx
      · rintro hno a ha hx
        obtain ⟨⟨k, b⟩, hb, rfl⟩ := List.mem_map.mp ha
        exact hno k b (SortedMap.mem_entries.mp hb) hx
    · simp only [List.zip_map', List.mem_map] at he
      obtain ⟨e', he', rfl⟩ := he
      exact hreserved e' he'
    · dsimp only at hr
      rw [hmap, List.mem_map] at hr
      obtain ⟨a, ha, rfl⟩ := hr
      have := hoverlap a ha
      simp only [clip, Area.range] at this ⊢
      omega
    · obtain ⟨a, ha⟩ := Option.ne_none_iff_exists'.mp hcov
      obtain ⟨hget, hax, hax'⟩ := h.ordered.find_eq_some.mp ha
      have hx₁ : replacement.start ≤ x := hx.1
      have hx₂ : x < replacement.stop := hx.2
      have hover : a.overlaps replacement.range = true :=
        Area.overlaps_iff.mpr ⟨by simp only [Area.range]; omega, by simp only [Area.range]; omega⟩
      have hmem := h.ordered.mem_iterOverlapping.mpr ⟨hget, hover⟩
      have hlt := hoverlap a hmem
      refine ⟨_, by dsimp only; rw [hmap]; exact List.mem_map.mpr ⟨a, hmem, rfl⟩, ?_⟩
      simp only [clip, Area.range] at hlt
      exact ⟨by simp only [FixedReplacementRestore.range, clip, Area.range]; omega,
        by simp only [FixedReplacementRestore.range, clip, Area.range]; omega⟩
    · dsimp only
      rw [hmap]
      have hseq : (iterOverlapping d.set.areas replacement.range).Pairwise (fun a b => a.stop ≤ b.start) := by
        rw [h.ordered.iterOverlapping_eq]
        exact h.ordered.sequential.apart.sublist (List.filter_sublist.map _)
      refine List.Pairwise.map _ (fun a b hab => hab) (hseq.imp_of_mem fun {a b} ha hb hab => ?_)
      have := hoverlap a ha
      have := hoverlap b hb
      simp only [clip, Area.range] at *
      omega

end Prepare

section Transaction

/-- A token that brings the leaves of its range back to what `old` has there,
on every table that has there what `new` has. -/
def Restorable (backend : MappingBackend F B E R) (old new : Table E) (r : FixedReplacementRestore B) (token : R) :
    Prop :=
  ∀ u, Agree r.range new u → (backend.restoreDeferred r.backend token r.start r.size u).1 = true ∧
    (∀ x, ¬ InRange r.range x → (backend.restoreDeferred r.backend token r.start r.size u).2 x = u x) ∧
    Agree r.range old (backend.restoreDeferred r.backend token r.start r.size u).2

/-- What the trait asks of a backend that supports fixed replacement: a
prepared withdrawal succeeds, leaves its range vacant, and its token restores
the exact leaves; a prepared map into a vacant range succeeds, and the unmap of
it takes away what it installed; none of them touches anything outside its
range. -/
structure Reversible (backend : MappingBackend F B E R) (vacant : E) : Prop where
  withdraw : ∀ r token t t', Reserved backend t r token → Agree r.range t t' →
    (backend.unmapDeferredPrepared r.backend token r.start r.size t').1 = true ∧
      (∀ x, ¬ InRange r.range x → (backend.unmapDeferredPrepared r.backend token r.start r.size t').2.2 x = t' x) ∧
      (∀ x, InRange r.range x → (backend.unmapDeferredPrepared r.backend token r.start r.size t').2.2 x = vacant) ∧
      Restorable backend t (backend.unmapDeferredPrepared r.backend token r.start r.size t').2.2 r
        (backend.unmapDeferredPrepared r.backend token r.start r.size t').2.1
  install : ∀ b start size flags token t t', backend.prepareFixedMap b start size flags t = some token →
    (∀ x, ¬ InRange (start, start + size) x → t' x = t x) → (∀ x, InRange (start, start + size) x → t' x = vacant) →
    (backend.mapFixedPrepared b token start size flags t').1 = true ∧
      backend.unmap b start size (backend.mapFixedPrepared b token start size flags t').2 = (true, t')

variable {ε : Type} {err : ε → Call F B E R → Prop}

theorem withdrawAll_set (restores : List (FixedReplacementRestore B)) (tokens : List R) :
    Ensures (withdrawAll backend restores tokens : Act (Call F B E R) ε (List R)) c (fun _ d => d.set = c.set ∧
      d.peak = c.peak) err True := by
  induction restores generalizing tokens c with
  | nil => exact ensures_pure ⟨rfl, rfl⟩
  | cons r restores ih =>
      cases tokens with
      | nil => exact ensures_pure ⟨rfl, rfl⟩
      | cons token tokens =>
          refine Ensures.bind (p := fun _ d => d.set = c.set ∧ d.peak = c.peak) ?_ fun token' d hd => ?_
          · rw [Ensures, withdraw]
            cases (backend.unmapDeferredPrepared r.backend token r.start r.size c.table).1
            · trivial
            · exact ⟨rfl, rfl⟩
          · refine Ensures.bind (ih (c := d) tokens) fun tokens' e he => ?_
            exact ensures_pure ⟨he.1.trans hd.1, he.2.trans hd.2⟩

theorem withdrawAll_spec {vacant : E} (hrev : Reversible backend vacant) {restores : List (FixedReplacementRestore B)}
    {tokens : List R} {t : Table E}
    (hlength : tokens.length = restores.length) (hres : ∀ e ∈ restores.zip tokens, Reserved backend t e.1 e.2)
    (hapart : restores.Pairwise (fun r r' => r.start + r.size ≤ r'.start))
    (hagree : ∀ r ∈ restores, Agree r.range t c.table) :
    Ensures (withdrawAll backend restores tokens : Act (Call F B E R) ε (List R)) c
      (fun tokens' d => tokens'.length = restores.length ∧ d.set = c.set ∧
        (∀ x, (∀ r ∈ restores, ¬ InRange r.range x) → d.table x = c.table x) ∧
        (∀ r ∈ restores, ∀ x, InRange r.range x → d.table x = vacant) ∧
        ∀ e ∈ restores.zip tokens', Restorable backend t d.table e.1 e.2) err False := by
  induction restores generalizing tokens c with
  | nil =>
      cases tokens with
      | nil => exact ensures_pure ⟨rfl, rfl, fun _ _ => rfl, by simp, by simp⟩
      | cons token tokens => cases hlength
  | cons r restores ih =>
      cases tokens with
      | nil => cases hlength
      | cons token tokens =>
          obtain ⟨hsucc, hframe, hvacant, hrestore⟩ :=
            hrev.withdraw r token t c.table (hres (r, token) (by simp)) (hagree r (by simp))
          obtain ⟨hafter, hapart'⟩ := List.pairwise_cons.mp hapart
          have hout {r' : FixedReplacementRestore B} (hr' : r' ∈ restores) {x : Nat}
              (hx : InRange r.range x) : ¬ InRange r'.range x := by
            intro hx'
            have h₁ : x < r.start + r.size := hx.2
            have h₂ : r'.start ≤ x := hx'.1
            have := hafter r' hr'
            omega
          refine ensures_bind_of_eq (a := (backend.unmapDeferredPrepared r.backend token r.start r.size c.table).2.1)
            (t := { c with table := (backend.unmapDeferredPrepared r.backend token r.start r.size c.table).2.2 }) ?_ ?_
          · rw [withdraw]
            simp only [hsucc, if_true]
          · refine (ih (c := { c with table := (backend.unmapDeferredPrepared r.backend token r.start r.size
              c.table).2.2 })
              (Nat.succ.inj hlength) (fun e he => hres e (by simp [he])) hapart' (fun r' hr' x hx => ?_)).bind ?_
            · dsimp only
              rw [hframe x fun hxr => hout hr' hxr hx]
              exact hagree r' (by simp [hr']) x hx
            · rintro tokens' d ⟨hlen, hset, hkeep, hgone, hall⟩
              refine ensures_pure ⟨by simp [hlen], hset, fun x hx => ?_, fun r' hr' x hx => ?_, fun e he => ?_⟩
              · rw [hkeep x fun r' hr' => hx r' (by simp [hr'])]
                exact hframe x (hx r (by simp))
              · rcases List.mem_cons.mp hr' with rfl | hr'
                · rw [hkeep x fun r'' hr'' => hout hr'' hx]
                  exact hvacant x hx
                · exact hgone r' hr' x hx
              · rw [List.zip_cons_cons] at he
                rcases List.mem_cons.mp he with rfl | he
                · intro u hu
                  refine hrestore u fun x hx => ?_
                  rw [hu x hx]
                  exact hkeep x fun r' hr' => hout hr' hx
                · exact hall e he

theorem restoreAll_set (restores : List (FixedReplacementRestore B)) (tokens : List R) :
    Ensures (restoreAll backend restores tokens : Act (Call F B E R) ε Unit) c (fun _ d => d.set = c.set) err True := by
  induction restores generalizing tokens c with
  | nil => exact ensures_pure rfl
  | cons r restores ih =>
      cases tokens with
      | nil => exact trivial
      | cons token tokens =>
          refine Ensures.bind (p := fun _ d => d.set = c.set) ?_ fun _ d hd => ?_
          · rw [Ensures, restoreOne]
            cases (backend.restoreDeferred r.backend token r.start r.size c.table).1
            · trivial
            · rfl
          · exact (ih (c := d) tokens).mono (fun _ e he => he.trans hd) (fun _ _ => id) id

theorem restoreAll_spec {restores : List (FixedReplacementRestore B)} {tokens : List R} {old new : Table E}
    (hlength : tokens.length = restores.length) (hres : ∀ e ∈ restores.zip tokens, Restorable backend old new e.1 e.2)
    (hapart : restores.Pairwise (fun r r' => r.start + r.size ≤ r'.start))
    (hagree : ∀ r ∈ restores, Agree r.range new c.table) :
    Ensures (restoreAll backend restores tokens : Act (Call F B E R) ε Unit) c
      (fun _ d => d.set = c.set ∧ (∀ x, (∀ r ∈ restores, ¬ InRange r.range x) → d.table x = c.table x) ∧
        ∀ r ∈ restores, Agree r.range old d.table) err False := by
  induction restores generalizing tokens c with
  | nil => exact ensures_pure ⟨rfl, fun _ _ => rfl, by simp⟩
  | cons r restores ih =>
      cases tokens with
      | nil => cases hlength
      | cons token tokens =>
          obtain ⟨hsucc, hframe, hback⟩ := hres (r, token) (by simp) c.table (hagree r (by simp))
          dsimp only at hsucc hframe hback
          obtain ⟨hafter, hapart'⟩ := List.pairwise_cons.mp hapart
          have hout {r' : FixedReplacementRestore B} (hr' : r' ∈ restores) {x : Nat}
              (hx : InRange r.range x) : ¬ InRange r'.range x := by
            intro hx'
            have h₁ : x < r.start + r.size := hx.2
            have h₂ : r'.start ≤ x := hx'.1
            have := hafter r' hr'
            omega
          refine ensures_bind_of_eq (a := ())
            (t := { c with table := (backend.restoreDeferred r.backend token r.start r.size c.table).2 }) ?_ ?_
          · rw [restoreOne]
            simp only [hsucc, if_true]
          · refine (ih (c := { c with table := (backend.restoreDeferred r.backend token r.start r.size c.table).2 })
              (Nat.succ.inj hlength) (fun e he => hres e (by simp [he])) hapart' (fun r' hr' x hx => ?_)).mono ?_
                (fun _ _ => id) id
            · dsimp only
              rw [hframe x fun hxr => hout hr' hxr hx]
              exact hagree r' (by simp [hr']) x hx
            · rintro - d ⟨hset, hkeep, hall⟩
              refine ⟨hset, fun x hx => ?_, fun r' hr' => ?_⟩
              · rw [hkeep x fun r' hr' => hx r' (by simp [hr'])]
                exact hframe x (hx r (by simp))
              · rcases List.mem_cons.mp hr' with rfl | hr'
                · intro x hx
                  rw [hkeep x fun r'' hr'' => hout hr'' hx]
                  exact hback x hx
                · exact hall r' hr'

section Commit

variable {replacement : Area F B} {p : PreparedFixedReplacement F B R}

/-- A committed replacement before it is finished or rolled back, for the call
`c` in which it was prepared. -/
structure CommittedFor (backend : MappingBackend F B E R) (ℓ : B → Nat → L) (c : Call F B E R) (replacement : Area F B)
    (g : CommittedFixedReplacement F B R) (d : Call F B E R) : Prop where
  start : g.replacementStart = replacement.start
  size : g.replacementSize = replacement.size
  flags : g.replacementFlags = replacement.flags
  areas : g.oldAreas = some c.set.areas
  gaps : g.oldGaps = some c.set.gaps
  live : d.set.areas.get? replacement.start = some replacement
  view : ∀ x, view ℓ d.set.areas x =
    if replacement.start ≤ x ∧ x < replacement.stop then some (replacement.cell ℓ x) else view ℓ c.set.areas x
  apart : g.restores.Pairwise (fun r r' => r.start + r.size ≤ r'.start)
  tokens : ∃ retirement, g.retirement = some retirement ∧ retirement.backendRetirements.length = g.restores.length ∧
    ∃ table, (∀ x, (∀ r ∈ g.restores, ¬ InRange r.range x) → table x = c.table x) ∧
      (∀ e ∈ g.restores.zip retirement.backendRetirements, Restorable backend c.table table e.1 e.2) ∧
      (g.installed = false ∧ d.table = table ∨
        g.installed = true ∧ backend.unmap replacement.backend replacement.start replacement.size d.table =
          (true, table))

theorem commitFixed_spec {vacant : E} (hrev : Reversible backend vacant) (hp : PreparedFor backend ℓ c replacement p)
    (hvacant : ∀ x, InRange replacement.range x → find c.set.areas x = none → c.table x = vacant) :
    Ensures (commitFixed backend p) c
      (fun g d => CommittedFor backend ℓ c replacement g d ∧ g.installed = false ∧ g.incomingMap = some p.incomingMap ∧
        ∀ x, d.table x = if InRange replacement.range x then vacant else c.table x)
      (fun _ _ => False) False := by
  refine ensures_get_bind ?_
  rw [if_pos hp.revision, if_pos hp.length]
  refine ensures_bind_of_eq (expect_some () c) ?_
  refine (withdrawAll_spec hrev hp.length hp.reserved hp.apart (fun _ _ _ _ => rfl)).bind ?_
  rintro tokens d ⟨hlen, -, hkeep, hgone, hall⟩
  refine ensures_of_eq rfl ⟨⟨hp.start, hp.size, hp.flags, rfl, rfl, hp.live, hp.view, hp.apart, _, rfl,
    hlen, d.table, hkeep, hall, .inl ⟨rfl, rfl⟩⟩, rfl, rfl, fun x => ?_⟩
  show d.table x = _
  by_cases hin : ∃ r ∈ p.restores, InRange r.range x
  · obtain ⟨r, hr, hx⟩ := hin
    have hinside := hp.inside r hr
    have h₁ : r.start ≤ x := hx.1
    have h₂ : x < r.start + r.size := hx.2
    have hrange : InRange replacement.range x :=
      ⟨by simp only [Area.range]; omega, by simp only [Area.range]; omega⟩
    rw [if_pos hrange]
    exact hgone r hr x hx
  · rw [hkeep x fun r hr hx => hin ⟨r, hr, hx⟩]
    split
    · rename_i hrange
      refine hvacant x hrange ?_
      by_contra hcov
      exact hin (hp.covers x hrange hcov)
    · rfl

theorem install_spec [DecidableEq F] {vacant : E} (hrev : Reversible backend vacant)
    (hp : PreparedFor backend ℓ c replacement p) {g : CommittedFixedReplacement F B R}
    {d : Call F B E R} (hg : CommittedFor backend ℓ c replacement g d) (hfresh : g.installed = false)
    (htoken : g.incomingMap = some p.incomingMap)
    (htable : ∀ x, d.table x = if InRange replacement.range x then vacant else c.table x) :
    Ensures (install backend g : Act (Call F B E R) ε (CommittedFixedReplacement F B R)) d
      (fun g' e => CommittedFor backend ℓ c replacement g' e ∧ g'.installed = true ∧ e.set = d.set) err False := by
  rw [install, hfresh, htoken]
  refine ensures_bind_of_eq (expect_some () d) (ensures_bind_of_eq (expect_some _ d) ?_)
  refine ensures_bind_of_eq (areaAt_apply (hg.start ▸ hg.live)) ?_
  have hrange : (replacement.start, replacement.start + replacement.size) = replacement.range := by
    have := hp.nonempty
    simp only [Area.range, Area.size, Prod.mk.injEq, true_and]
    omega
  obtain ⟨hsucc, hback⟩ := hrev.install _ _ _ _ _ _ d.table hp.incoming
    (fun x hx => by rw [htable, if_neg (hrange ▸ hx)]) (fun x hx => by rw [htable, if_pos (hrange ▸ hx)])
  refine ensures_bind_of_eq (a := ()) (t := { d with
    table := (backend.mapFixedPrepared replacement.backend p.incomingMap replacement.start replacement.size
      replacement.flags d.table).2 }) ?_ ?_
  · rw [mapFixed, if_pos ⟨hg.start.symm, hg.size.symm, hg.flags.symm⟩, hg.start, hg.size, hg.flags]
    simp only [hsucc, if_true]
  · obtain ⟨retirement, hret, hlen, table, hkeep, hall, hstate⟩ := hg.tokens
    have htab : d.table = table := by
      rcases hstate with ⟨-, htab⟩ | ⟨htrue, -⟩
      · exact htab
      · rw [hfresh] at htrue
        cases htrue
    refine ensures_pure ⟨⟨hg.start, hg.size, hg.flags, hg.areas, hg.gaps, hg.live, hg.view, hg.apart,
      retirement, hret, hlen, table, hkeep, hall, .inr ⟨rfl, ?_⟩⟩, rfl, rfl⟩
    rw [← htab]
    exact hback

theorem rollbackFixed_spec {g : CommittedFixedReplacement F B R} {d : Call F B E R}
    (hg : CommittedFor backend ℓ c replacement g d) :
    Ensures (rollbackFixed backend g : Act (Call F B E R) ε (Areas F B)) d
      (fun _ e => e.set.areas = c.set.areas ∧ e.set.gaps = c.set.gaps ∧ e.table = c.table) err False := by
  obtain ⟨retirement, hret, hlen, table, hkeep, hall, hstate⟩ := hg.tokens
  rw [rollbackFixed, hg.areas, hg.gaps, hret]
  refine ensures_bind_of_eq (expect_some _ d) (ensures_bind_of_eq (expect_some _ d) ?_)
  refine ensures_bind_of_eq (a := ()) (t := { d with table := table }) ?_ ?_
  · rw [uninstall]
    rcases hstate with ⟨hfresh, htab⟩ | ⟨hinst, hunmap⟩
    · rw [hfresh, ← htab]
      rfl
    · rw [if_pos hinst, bind_apply, areaAt_apply (hg.start ▸ hg.live)]
      dsimp only
      rw [modeUnmap.eq_def, hg.start, hg.size, hunmap]
      rfl
  · refine ensures_bind_of_eq (expect_some _ _) ?_
    rw [if_pos hlen]
    refine ensures_bind_of_eq (expect_some _ _) ?_
    refine (restoreAll_spec (c := { d with table := table }) hlen hall hg.apart (fun _ _ _ _ => rfl)).bind ?_
    rintro - e ⟨-, hframe, hback⟩
    refine ensures_of_eq rfl ⟨rfl, rfl, funext fun x => ?_⟩
    by_cases hx : ∃ r ∈ g.restores, InRange r.range x
    · obtain ⟨r, hr, hx⟩ := hx
      exact hback r hr x hx
    · have hno : ∀ r ∈ g.restores, ¬ InRange r.range x := fun r hr hin => hx ⟨r, hr, hin⟩
      exact (hframe x hno).trans (hkeep x hno)

theorem commitFixed_stale (h : p.revision ≠ c.set.revision) :
    commitFixed backend p c = (.err .badState, c) := by
  rw [commitFixed, get_bind, if_neg h]
  rfl

theorem finishFixed_apply {d : Call F B E R} {g : CommittedFixedReplacement F B R}
    (h : CommittedFor backend ℓ c replacement g d) (hinst : g.installed = true) :
    ∃ r, (finishFixed g : Act (Call F B E R) ε (FixedReplacementRetirement F B R)) d = (.ok r, d) := by
  obtain ⟨retirement, hret, -⟩ := h.tokens
  refine ⟨⟨retirement, c.set.areas⟩, ?_⟩
  rw [finishFixed, hinst, hret, h.areas]
  rfl

/-- What a commit does to the set, whatever the backend does. -/
theorem commitFixed_set : Ensures (commitFixed backend p) c
    (fun g d => d.set = ⟨p.replacementTree, p.replacementGaps, (c.set.revision + 1) % 2 ^ 64⟩ ∧
      g.oldAreas = some c.set.areas ∧ g.oldGaps = some c.set.gaps)
    (fun e d => e = .badState ∧ d = c ∧ p.revision ≠ c.set.revision) True := by
  refine ensures_get_bind ?_
  split
  · by_cases hlen : p.retirement.backendRetirements.length = p.restores.length
    · rw [if_pos hlen]
      refine ensures_bind_of_eq (expect_some () c) ((withdrawAll_set _ _).bind ?_)
      rintro tokens d ⟨hset, -⟩
      refine ensures_of_eq rfl ⟨?_, rfl, rfl⟩
      rw [← hset]
    · rw [if_neg hlen]
      trivial
  · rename_i hne
    exact ensures_fail ⟨rfl, rfl, hne⟩

theorem install_set [DecidableEq F] (err : ε → Call F B E R → Prop) {g : CommittedFixedReplacement F B R} :
    Ensures (install backend g : Act (Call F B E R) ε (CommittedFixedReplacement F B R)) c
      (fun g' d => d.set = c.set ∧ g'.oldAreas = g.oldAreas ∧ g'.oldGaps = g.oldGaps) err True := by
  rw [install]
  cases hinst : g.installed with
  | true => trivial
  | false =>
      refine ensures_bind_of_eq (expect_some () c) ?_
      cases htoken : g.incomingMap with
      | none => trivial
      | some token =>
          refine ensures_bind_of_eq (expect_some token c) ?_
          cases hget : c.set.areas.get? g.replacementStart with
          | none =>
              rw [Ensures, bind_apply, areaAt, get_bind, hget]
              trivial
          | some a =>
              refine ensures_bind_of_eq (areaAt_apply hget) ?_
              refine Ensures.bind (p := fun _ d => d.set = c.set) ?_ fun _ d hd => ensures_pure ⟨hd, rfl, rfl⟩
              rw [Ensures, mapFixed]
              split
              · rename_i hres
                split at hres
                · simp only [Prod.mk.injEq] at hres
                  rw [← hres.2]
                · cases hres
              · rename_i hres
                split at hres
                · simp only [Prod.mk.injEq] at hres
                  obtain ⟨hres, -⟩ := hres
                  split at hres <;> cases hres
                · cases hres
              · trivial

theorem rollbackFixed_set (err : ε → Call F B E R → Prop) {g : CommittedFixedReplacement F B R} :
    Ensures (rollbackFixed backend g : Act (Call F B E R) ε (Areas F B)) c
      (fun _ d => ∃ areas gaps, g.oldAreas = some areas ∧ g.oldGaps = some gaps ∧
        d.set = ⟨areas, gaps, (c.set.revision + 1) % 2 ^ 64⟩) err True := by
  rw [rollbackFixed]
  cases hareas : g.oldAreas with
  | none => trivial
  | some areas =>
      refine ensures_bind_of_eq (expect_some areas c) ?_
      cases hgaps : g.oldGaps with
      | none => trivial
      | some gaps =>
          refine ensures_bind_of_eq (expect_some gaps c) ?_
          refine Ensures.bind (p := fun _ d => d.set = c.set) ?_ fun _ d hd => ?_
          · rw [uninstall]
            split
            · cases hget : c.set.areas.get? g.replacementStart with
              | none =>
                  rw [Ensures, bind_apply, areaAt, get_bind, hget]
                  trivial
              | some a =>
                  refine ensures_bind_of_eq (areaAt_apply hget) ?_
                  rw [Ensures, modeUnmap.eq_def]
                  dsimp only
                  cases (backend.unmap a.backend g.replacementStart g.replacementSize c.table).1
                  · trivial
                  · rfl
            · exact ensures_pure rfl
          · cases hret : g.retirement with
            | none => trivial
            | some retirement =>
                refine ensures_bind_of_eq (expect_some retirement d) ?_
                by_cases hlen : retirement.backendRetirements.length = g.restores.length
                · rw [if_pos hlen]
                  refine ensures_bind_of_eq (expect_some () d) ((restoreAll_set _ _).bind fun _ e he => ?_)
                  refine ensures_of_eq rfl ⟨areas, gaps, rfl, rfl, ?_⟩
                  rw [← hd, ← he]
                · rw [if_neg hlen]
                  trivial

end Commit

end Transaction

end TheKernel.MemorySet
