import TheKernel.MemorySet.Protect
import TheKernel.MemorySet.Consistent

namespace TheKernel.MemorySet

open Act

variable {F B E R L : Type}

/-- How `update_metadata_with_limit` fails, and whether a prefix was changed. -/
structure MetadataUpdateError where
  error : MappingError
  changed : Bool
  deriving DecidableEq

structure PreparedMetadataAction where
  areaStart : Nat
  start : Nat
  stop : Nat

structure PreparedMetadataUpdate (F B : Type) where
  revision : Nat
  replacement : Areas F B
  replacementGaps : GapIndex
  changed : Bool

/-- The old tree that `CommittedMetadataUpdate` keeps for a rollback. -/
structure CommittedMetadataUpdate (F B : Type) where
  oldAreas : Areas F B
  oldGaps : GapIndex

section Definitions

variable [DecidableEq F] (backend : MappingBackend F B E R)

section InPlace

variable (range : Range) (shouldUpdate : B → Bool) (update : B → B) (maxAreas : Nat)

def metadataCandidate (areas : Areas F B) (cursor : Nat) : Option Nat :=
  match ((areas.lastUpTo cursor).filter (fun e => decide (cursor < e.2.stop))).map (·.1) with
  | some start => some start
  | none => (areas.firstFrom cursor).map (·.1)

/-- Sets the part of an area inside the range apart and updates its backend. -/
def updatePart {ε : Type} (areaStart : Nat) (area : Area F B) (start stop : Nat) : Act (Call F B E R) ε Unit := do
  splitArea areaStart start stop area.stop area.flags area.flags area.lineage
  updateArea start (fun a => a.setBackend (update a.backend))
  mergeAdjacentAt backend start
  mergeAdjacentAt backend stop

/-- The failure of one turn: the prefix stays and counts as a change. -/
def failMetadata (changed : Bool) : Act (Call F B E R) MetadataUpdateError Bool :=
  if changed then do
    bumpRevision
    fail ⟨.noMemory, true⟩
  else fail ⟨.noMemory, false⟩

/-- The loop of `update_metadata_with_limit`. Every turn moves the cursor
forward, so as many turns as the range has addresses suffice. -/
def updateLoop : Nat → Nat → Bool → Act (Call F B E R) MetadataUpdateError Bool
  | 0, _, changed => pure changed
  | fuel + 1, cursor, changed =>
      if cursor < range.2 then do
        let c ← get
        match metadataCandidate c.set.areas cursor with
        | none => pure changed
        | some areaStart => do
            let area ← areaAt areaStart
            if range.2 ≤ area.start then pure changed
            else
              let start := max areaStart range.1
              let stop := min area.stop range.2
              if shouldUpdate area.backend then
                let peak := c.set.areas.size + additional areaStart start stop area.stop
                if usizeMax < peak ∨ maxAreas < peak then failMetadata changed
                else do
                  updatePart backend update areaStart area start stop
                  updateLoop fuel stop true
              else updateLoop fuel stop changed
      else pure changed

def updateMetadataWithLimit (start size : Nat) : Act (Call F B E R) MetadataUpdateError Unit := do
  let range ← lift ((rangeFrom start size).mapErr (fun e => ⟨e, false⟩))
  if range.1 = range.2 then pure ()
  else do
    let changed ← updateLoop backend range shouldUpdate update maxAreas size range.1 false
    if changed then bumpRevision else pure ()

end InPlace

/-- The walk of `prepare_metadata_update_with_limit`: the actions, and the
address up to which the range is mapped. -/
def metadataWalk (range : Range) (shouldUpdate : B → Bool) :
    List (Area F B) → Nat → List PreparedMetadataAction → Outcome MappingError (List PreparedMetadataAction × Nat)
  | [], coveredUntil, actions => .ok (actions, coveredUntil)
  | a :: rest, coveredUntil, actions =>
      if a.stop ≤ coveredUntil then metadataWalk range shouldUpdate rest coveredUntil actions
      else if coveredUntil < max a.start range.1 then .err .invalidParam
      else if min a.stop range.2 ≤ max a.start range.1 then metadataWalk range shouldUpdate rest coveredUntil actions
      else
        let actions :=
          if shouldUpdate a.backend then actions ++ [⟨a.start, max a.start range.1, min a.stop range.2⟩]
          else actions
        if min a.stop range.2 = range.2 then .ok (actions, min a.stop range.2)
        else metadataWalk range shouldUpdate rest (min a.stop range.2) actions

def cloneWith (area : Area F B) (backend : B) : Area F B :=
  ⟨area.start, area.start + area.size, area.flags, backend, area.lineage⟩

def actionPieces (update : B → B) (area : Area F B) (action : PreparedMetadataAction) : List (Area F B) :=
  (if area.start < action.start then [⟨area.start, action.start, area.flags, area.backend, area.lineage⟩] else []) ++
    ⟨action.start, action.stop, area.flags, update area.backend, area.lineage⟩ ::
    (if action.stop < area.stop then [⟨action.stop, area.stop, area.flags, area.backend, area.lineage⟩] else [])

/-- The areas of the replacement tree, in the order of their insertion. -/
def metadataPieces (update : B → B) : List (Area F B) → List PreparedMetadataAction → List (Area F B)
  | [], _ => []
  | a :: rest, [] => cloneWith a a.backend :: metadataPieces update rest []
  | a :: rest, action :: actions =>
      if action.areaStart = a.start then actionPieces update a action ++ metadataPieces update rest actions
      else cloneWith a a.backend :: metadataPieces update rest (action :: actions)

def stagedMerge {ε : Type} (anchors : List Nat) (staged : MemorySet F B) : Act (Call F B E R) ε (MemorySet F B) := do
  let c ← get
  let d ← lift ((each (mergeAdjacentAt backend) anchors).onCopy { c with set := staged })
  pure d.set

def projectedCount (areas : Areas F B) : Nat → List PreparedMetadataAction → Outcome MappingError Nat
  | count, [] => .ok count
  | count, action :: actions => match areas.get? action.areaStart with
    | none => .panic
    | some area => do
        let count ← addOrNoMemory count (additional action.areaStart action.start action.stop area.stop)
        projectedCount areas count actions

/-- A `checked_mul(2)` whose overflow is reported as `NoMemory`. -/
def doubleOrNoMemory (n : Nat) : Outcome MappingError Nat :=
  match checkedMul n 2 with
  | some m => .ok m
  | none => .err .noMemory

def coveredActions (range : Range) (walked : List PreparedMetadataAction × Nat) :
    Outcome MappingError (List PreparedMetadataAction) :=
  if walked.2 = range.2 then .ok walked.1 else .err .invalidParam

def prepareMetadataUpdateWithLimit (memory : Nat → Bool) (start size : Nat) (shouldUpdate : B → Bool) (update : B → B)
    (maxAreas : Nat) : Act (Call F B E R) MappingError (PreparedMetadataUpdate F B) := do
  let range ← lift (rangeFrom start size)
  let c ← get
  tryReserve memory 0 c.set.areas.size
  let walked ← lift (metadataWalk range shouldUpdate
    ((c.set.areas.range (firstStart c.set.areas range.1) range.2).map (·.2)) range.1 [])
  let actions ← lift (coveredActions range walked)
  let projected ← lift (projectedCount c.set.areas c.set.areas.size actions)
  checkAreaLimit projected maxAreas
  let replacement ← lift (insertAll (metadataPieces update (c.set.areas.entries.map (·.2)) actions) SortedMap.empty)
  let capacity ← lift (doubleOrNoMemory actions.length)
  tryReserve memory 1 capacity
  let staged ← stagedMerge backend (actions.flatMap (fun a => [a.start, a.stop])) ⟨replacement, c.set.gaps,
    c.set.revision⟩
  pure ⟨c.set.revision, staged.areas, staged.gaps, !actions.isEmpty⟩

def prepareMatchingMetadataUpdateWithLimit (memory : Nat → Bool) (shouldUpdate : B → Bool) (update : B → B)
    (maxAreas : Nat) : Act (Call F B E R) MappingError (PreparedMetadataUpdate F B) := do
  let c ← get
  checkAreaLimit c.set.areas.size maxAreas
  let capacity ← lift (doubleOrNoMemory c.set.areas.size)
  tryReserve memory 0 capacity
  let areas := c.set.areas.entries.map (·.2)
  let chosen := areas.filter (fun a => shouldUpdate a.backend)
  let replacement ← lift (insertAll
    (areas.map fun a => cloneWith a (if shouldUpdate a.backend then update a.backend else a.backend)) SortedMap.empty)
  let staged ← stagedMerge backend (chosen.flatMap (fun a => [a.start, a.stop])) ⟨replacement, c.set.gaps,
    c.set.revision⟩
  pure ⟨c.set.revision, staged.areas, staged.gaps, !chosen.isEmpty⟩

omit [DecidableEq F] in
variable (F B E R) in
def commitMetadata (prepared : PreparedMetadataUpdate F B) :
    Act (Call F B E R) MappingError (CommittedMetadataUpdate F B) := do
  let c ← get
  if prepared.revision = c.set.revision then do
    putAreas prepared.replacement
    putGaps prepared.replacementGaps
    bumpRevision
    pure ⟨c.set.areas, c.set.gaps⟩
  else fail .badState

def rollbackMetadata {ε : Type} (committed : CommittedMetadataUpdate F B) : Act (Call F B E R) ε Unit := do
  putAreas committed.oldAreas
  putGaps committed.oldGaps
  bumpRevision

end Definitions

variable {backend : MappingBackend F B E R} {c : Call F B E R} {range : Range} {memory : Nat → Bool} {maxAreas : Nat}
  {shouldUpdate : B → Bool} {update : B → B} {panic : Prop}

/-- Metadata work keeps the order of the areas and the addresses they cover. -/
structure SameCover (c d : Call F B E R) : Prop where
  ordered : Ordered d.set.areas
  cover : ∀ x, find d.set.areas x = none ↔ find c.set.areas x = none
  gaps : d.set.gaps = c.set.gaps
  revision : d.set.revision = c.set.revision

namespace SameCover

variable {d e : Call F B E R}

theorem refl (h : Ordered c.set.areas) : SameCover c c := ⟨h, fun _ => Iff.rfl, rfl, rfl⟩

theorem trans (h : SameCover c d) (h' : SameCover d e) : SameCover c e :=
  ⟨h'.ordered, fun x => (h'.cover x).trans (h.cover x), h'.gaps.trans h.gaps, h'.revision.trans h.revision⟩

theorem of_merged {ℓ : B → Nat → L} (h : Merged backend ℓ c d) : SameCover c d :=
  ⟨h.ordered, fun x => by rw [← view_eq_none (ℓ := ℓ), h.view, view_eq_none], h.gaps, h.revision⟩

theorem consistent (h : SameCover c d) (hc : Consistent c.set) : Consistent d.set := by
  have : Consistent ⟨d.set.areas, c.set.gaps, d.set.revision⟩ := hc.recover h.ordered h.cover
  rwa [← h.gaps] at this

end SameCover

/-- Where every backend counts as the same place, all of them can be merged. -/
theorem interchangeable_unit (backend : MappingBackend F B E R) : Interchangeable backend (fun _ _ => ()) :=
  fun _ _ _ _ => rfl

theorem mergeAll_spec [DecidableEq F] {ε : Type} {err : ε → Call F B E R → Prop} (anchors : List Nat)
    (h : Ordered c.set.areas) :
    Ensures (each (mergeAdjacentAt backend) anchors : Act (Call F B E R) ε Unit) c (fun _ d => SameCover c d)
      err panic := by
  refine ensures_each (I := fun _ _ d => SameCover c d) anchors (.refl h) ?_
  intro _ anchor _ d hd
  exact (mergeAdjacentAt_spec anchor hd.ordered (interchangeable_unit backend)).mono
    (fun _ e he => hd.trans (.of_merged he)) (fun _ _ => id) id

theorem updatePart_spec [DecidableEq F] {ε : Type} {err : ε → Call F B E R → Prop} {a : Area F B} {k start stop : Nat}
    (h : Ordered c.set.areas) (hget : c.set.areas.get? k = some a) (hstart : k ≤ start) (hlt : start < stop)
    (hstop : stop ≤ a.stop) :
    Ensures (updatePart backend update k a start stop : Act (Call F B E R) ε Unit) c
      (fun _ d => SameCover c d) err panic := by
  have hkey := h.key k a hget
  refine (splitArea_spec (ℓ := fun _ _ => ()) _ h hget hstart hlt hstop).bind fun _ d hd => ?_
  have hcover (x : Nat) : find d.set.areas x = none ↔ find c.set.areas x = none := by
    by_cases hx : start ≤ x ∧ x < stop
    · rw [hd.ordered.find_of_get? hd.middle hx.1 hx.2, h.find_of_get? hget (by omega) (by omega)]
      simp
    · rw [← view_eq_none (ℓ := fun _ _ => ()), hd.view x hx, view_eq_none]
  have hmid := hd.middle
  obtain ⟨hord, hfind⟩ := hd.ordered.replace (a := Area.setBackend ⟨start, stop,
      if a.start < start then a.flags else a.flags, a.backend, a.lineage⟩
      (update a.backend)) hmid rfl hlt (show stop ≤ usizeMax from hd.ordered.bounded _ _ hmid) (fun x hx hx' =>
        .inr ⟨hx, hx'⟩)
  refine ensures_bind_of_eq (updateArea_apply hmid _) ?_
  have hmiddle : SameCover c (d.withAreas (d.set.areas.insert start (Area.setBackend
      ⟨start, stop, if a.start < start then a.flags else a.flags, a.backend, a.lineage⟩ (update a.backend)))) := by
    refine ⟨hord, fun x => ?_, hd.gaps, hd.revision⟩
    rw [← hcover x, Call.withAreas_areas, hfind x]
    simp only [Area.setBackend_start, Area.setBackend_stop]
    split
    · rename_i hx
      rw [hd.ordered.find_of_get? hd.middle hx.1 hx.2]
      simp
    · rfl
  refine (mergeAdjacentAt_spec start hord (interchangeable_unit backend)).bind fun _ e he => ?_
  exact (mergeAdjacentAt_spec stop he.ordered (interchangeable_unit backend)).mono
    (fun _ f hf => hmiddle.trans ((SameCover.of_merged he).trans (.of_merged hf))) (fun _ _ => id) id

theorem metadataCandidate_eq_some {areas : Areas F B} (h : Ordered areas) {cursor k : Nat}
    (hk : metadataCandidate areas cursor = some k) : ∃ a, areas.get? k = some a ∧ cursor < a.stop := by
  rw [metadataCandidate] at hk
  split at hk
  · rename_i start hlast
    rw [Option.some.injEq] at hk
    subst hk
    obtain ⟨⟨j, a⟩, hfilter, rfl⟩ := Option.map_eq_some_iff.mp hlast
    obtain ⟨hlast, hcross⟩ := Option.filter_eq_some_iff.mp hfilter
    exact ⟨a, (SortedMap.lastUpTo_eq_some.mp hlast).1, by simpa using hcross⟩
  · obtain ⟨⟨j, a⟩, hfirst, rfl⟩ := Option.map_eq_some_iff.mp hk
    obtain ⟨hget, hle, -⟩ := SortedMap.firstFrom_eq_some.mp hfirst
    have := h.key j a hget
    have := h.nonempty j a hget
    exact ⟨a, hget, by omega⟩

/-- What the update loop can leave: the cover it found, with a change of the
areas only if it says so. -/
theorem updateLoop_spec [DecidableEq F] (fuel cursor : Nat) (changed : Bool) (h : Ordered c.set.areas)
    (hcursor : range.1 ≤ cursor) :
    Ensures (updateLoop backend range shouldUpdate update maxAreas fuel cursor changed) c
      (fun changed' d => SameCover c d ∧ (changed' = false → changed = false ∧ d.set = c.set))
      (fun _ d => SameCover c d ∧ changed = false ∧ d.set = c.set ∨
        ∃ e, SameCover c e ∧ d.set = { e.set with revision := (e.set.revision + 1) % 2 ^ 64 }) False := by
  induction fuel generalizing c cursor changed with
  | zero => exact ensures_pure ⟨.refl h, fun hc => ⟨hc, rfl⟩⟩
  | succ fuel ih =>
      rw [updateLoop]
      split
      · rename_i hbelow
        refine ensures_get_bind ?_
        cases hcand : metadataCandidate c.set.areas cursor with
        | none => exact ensures_pure ⟨.refl h, fun hc => ⟨hc, rfl⟩⟩
        | some k =>
            obtain ⟨a, hget, hreach⟩ := metadataCandidate_eq_some h hcand
            have hkey := h.key k a hget
            have hne := h.nonempty k a hget
            refine ensures_bind_of_eq (areaAt_apply hget) ?_
            split
            · exact ensures_pure ⟨.refl h, fun hc => ⟨hc, rfl⟩⟩
            · rename_i hinside
              dsimp only
              split
              · split
                · cases changed with
                  | false => exact ensures_fail (.inl ⟨.refl h, rfl, rfl⟩)
                  | true => exact ensures_bind_of_eq (modify_apply _ _) (ensures_fail (.inr ⟨c, .refl h, rfl⟩))
                · refine (updatePart_spec h hget (Nat.le_max_left _ _) (by omega)
                    (Nat.min_le_left _ _)).bind fun _ d hd => ?_
                  refine (ih (min a.stop range.2) true hd.ordered (by omega)).mono ?_ ?_ id
                  · rintro changed' e ⟨he, hsame⟩
                    exact ⟨hd.trans he, fun hc => absurd (hsame hc).1 (by simp)⟩
                  · rintro _ e (⟨-, hfalse, -⟩ | ⟨f, hf, he⟩)
                    · cases hfalse
                    · exact .inr ⟨f, hd.trans hf, he⟩
              · exact ih (min a.stop range.2) changed h (by omega)
      · exact ensures_pure ⟨.refl h, fun hc => ⟨hc, rfl⟩⟩

theorem updateMetadataWithLimit_spec [DecidableEq F] (h : Consistent c.set) (start size : Nat) :
    Ensures (updateMetadataWithLimit backend shouldUpdate update maxAreas start size) c
      (fun _ d => Consistent d.set ∧ (d.set = c.set ∨ d.set.revision = (c.set.revision + 1) % 2 ^ 64))
      (fun _ d => Consistent d.set ∧ (d.set = c.set ∨ d.set.revision = (c.set.revision + 1) % 2 ^ 64)) False := by
  refine Ensures.bind (p := fun r d => d = c ∧ r = (start, start + size)) ?_ ?_
  · refine ensures_lift (fun r hr => ?_) (fun e _ => ⟨h, .inl rfl⟩) (fun hp => ?_)
    · rw [Outcome.mapErr_eq_ok, rangeFrom] at hr
      split at hr
      · rename_i hadd
        cases hr
        exact ⟨rfl, by rw [(checkedAdd_eq_some.mp hadd).1]⟩
      · cases hr
    · rw [rangeFrom] at hp
      split at hp <;> cases hp
  · rintro _ d ⟨rfl, rfl⟩
    split
    · exact ensures_pure ⟨h, .inl rfl⟩
    · refine Ensures.bind ((updateLoop_spec size start false h.ordered (Nat.le_refl _)).mono (fun _ _ => id) ?_ id) ?_
      · rintro _ e (⟨-, -, hset⟩ | ⟨f, hf, hset⟩)
        · exact ⟨hset ▸ h, .inl hset⟩
        · rw [hset]
          refine ⟨?_, .inr ?_⟩
          · exact (hf.consistent h).recover (hf.consistent h).ordered fun _ => Iff.rfl
          · simp only [hf.revision]
      · rintro changed e ⟨he, hsame⟩
        cases changed with
        | false =>
            obtain ⟨-, hset⟩ := hsame rfl
            exact ensures_pure ⟨hset ▸ h, .inl hset⟩
        | true =>
            refine ensures_modify ⟨?_, .inr ?_⟩
            · exact (he.consistent h).recover (he.consistent h).ordered fun _ => Iff.rfl
            · simp only [he.revision]

section Prepare

/-- A sequence of pieces that covers what a sequence of areas covers. -/
structure Tiles (pieces areas : List (Area F B)) : Prop where
  sequential : Sequential pieces
  inside : ∀ p ∈ pieces, ∃ a ∈ areas, a.start ≤ p.start ∧ p.stop ≤ a.stop
  cover : ∀ x, (∃ p ∈ pieces, p.start ≤ x ∧ x < p.stop) ↔ ∃ a ∈ areas, a.start ≤ x ∧ x < a.stop

namespace Tiles

variable {pieces rest : List (Area F B)} {a : Area F B} {areas : List (Area F B)}

theorem append (h : Tiles pieces [a]) (h' : Tiles rest areas) (hseq : Sequential (a :: areas)) :
    Tiles (pieces ++ rest) (a :: areas) := by
  obtain ⟨-, -, hle, -⟩ := Sequential.cons_iff.mp hseq
  refine ⟨h.sequential.append h'.sequential fun p hp q hq => ?_, fun p hp => ?_, fun x => ?_⟩
  · obtain ⟨a', ha', hpa⟩ := h.inside p hp
    rw [List.mem_singleton] at ha'
    subst ha'
    obtain ⟨b, hb, hqb⟩ := h'.inside q hq
    have := hle b hb
    omega
  · rcases List.mem_append.mp hp with hp | hp
    · obtain ⟨b, hb, hpb⟩ := h.inside p hp
      rw [List.mem_singleton] at hb
      exact ⟨b, by simp [hb], hpb⟩
    · obtain ⟨b, hb, hpb⟩ := h'.inside p hp
      exact ⟨b, by simp [hb], hpb⟩
  · have hx := h.cover x
    have hx' := h'.cover x
    simp only [List.mem_append, List.mem_cons, or_and_right, exists_or, List.not_mem_nil, or_false,
      exists_eq_left] at hx hx' ⊢
    rw [hx, hx']

theorem nil : Tiles ([] : List (Area F B)) [] := ⟨.nil, by simp, by simp⟩

theorem clone (hlt : a.start < a.stop) (hbound : a.stop ≤ usizeMax) (b : B) : Tiles [cloneWith a b] [a] := by
  have hstop : a.start + a.size = a.stop := by
    rw [Area.size]
    omega
  refine ⟨Sequential.cons_iff.mpr ⟨?_, ?_, by simp, .nil⟩, fun p hp => ?_, fun x => ?_⟩
  · simp only [cloneWith]
    omega
  · simp only [cloneWith]
    omega
  · rw [List.mem_singleton] at hp
    subst hp
    exact ⟨a, by simp, Nat.le_refl _, Nat.le_of_eq hstop⟩
  · simp [cloneWith, hstop]

theorem action (hbound : a.stop ≤ usizeMax) {action : PreparedMetadataAction} (h₁ : a.start ≤ action.start)
    (h₂ : action.start < action.stop)
    (h₃ : action.stop ≤ a.stop) : Tiles (actionPieces update a action) [a] := by
  have hmem (p : Area F B) : p ∈ actionPieces update a action ↔
      a.start < action.start ∧ p = ⟨a.start, action.start, a.flags, a.backend, a.lineage⟩ ∨
      p = ⟨action.start, action.stop, a.flags, update a.backend, a.lineage⟩ ∨
      action.stop < a.stop ∧ p = ⟨action.stop, a.stop, a.flags, a.backend, a.lineage⟩ := by
    simp [actionPieces]
  refine ⟨?_, fun p hp => ?_, fun x => ?_⟩
  · have hright : Sequential (if action.stop < a.stop then [(⟨action.stop, a.stop, a.flags, a.backend,
      a.lineage⟩ : Area F B)] else []) := by
      split
      · exact Sequential.cons_iff.mpr ⟨‹_›, hbound, by simp, .nil⟩
      · exact .nil
    have hmid : Sequential ((⟨action.start, action.stop, a.flags, update a.backend, a.lineage⟩ : Area F B) ::
        (if action.stop < a.stop then [⟨action.stop, a.stop, a.flags, a.backend, a.lineage⟩] else [])) := by
      refine Sequential.cons_iff.mpr ⟨h₂, Nat.le_trans h₃ hbound, fun b hb => ?_, hright⟩
      split at hb
      · rw [List.mem_singleton] at hb
        rw [hb]
      · cases hb
    rw [actionPieces]
    split
    · rename_i hleft
      refine Sequential.append (Sequential.cons_iff.mpr ⟨hleft, by dsimp only; omega, by simp, .nil⟩)
        hmid fun p hp q hq => ?_
      rw [List.mem_singleton] at hp
      subst hp
      rcases List.mem_cons.mp hq with rfl | hq
      · exact Nat.le_refl _
      · split at hq
        · rw [List.mem_singleton] at hq
          subst hq
          exact Nat.le_of_lt h₂
        · cases hq
    · exact hmid
  · refine ⟨a, by simp, ?_⟩
    rcases (hmem p).mp hp with ⟨hleft, rfl⟩ | rfl | ⟨hright, rfl⟩ <;> dsimp only <;> omega
  · constructor
    · rintro ⟨p, hp, hx, hx'⟩
      refine ⟨a, by simp, ?_⟩
      rcases (hmem p).mp hp with ⟨hleft, rfl⟩ | rfl | ⟨hright, rfl⟩ <;> dsimp only at hx hx' <;> omega
    · rintro ⟨b, hb, hx, hx'⟩
      rw [List.mem_singleton] at hb
      subst hb
      by_cases hleft : x < action.start
      · exact ⟨_, (hmem _).mpr (.inl ⟨by omega, rfl⟩), hx, hleft⟩
      · by_cases hmid : x < action.stop
        · exact ⟨_, (hmem _).mpr (.inr (.inl rfl)), by dsimp only; omega, hmid⟩
        · exact ⟨_, (hmem _).mpr (.inr (.inr ⟨by omega, rfl⟩)), by dsimp only; omega, hx'⟩

end Tiles

theorem metadataPieces_tiles {areas : List (Area F B)} {actions : List PreparedMetadataAction} (h : Sequential areas)
    (hact : ∀ p ∈ actions, ∀ a ∈ areas, p.areaStart = a.start → a.start ≤ p.start ∧ p.start < p.stop ∧
    p.stop ≤ a.stop) : Tiles (metadataPieces update areas actions) areas := by
  induction areas generalizing actions with
  | nil => exact .nil
  | cons a rest ih =>
      obtain ⟨hlt, hbound, -, hrest⟩ := Sequential.cons_iff.mp h
      cases actions with
      | nil =>
          rw [metadataPieces]
          exact (Tiles.clone hlt hbound a.backend).append (ih hrest (by simp)) h
      | cons action actions =>
          rw [metadataPieces]
          split
          · rename_i hstart
            obtain ⟨h₁, h₂, h₃⟩ := hact action (by simp) a (by simp) hstart
            exact (Tiles.action hbound h₁ h₂ h₃).append
              (ih hrest fun p hp b hb => hact p (by simp [hp]) b (by simp [hb])) h
          · exact (Tiles.clone hlt hbound a.backend).append
              (ih hrest fun p hp b hb => hact p hp b (by simp [hb])) h

/-- Every action of the walk is the part of an area inside the range. -/
theorem metadataWalk_actions {areas : List (Area F B)} {actions actions' : List PreparedMetadataAction} {n n' : Nat}
    (h : metadataWalk range shouldUpdate areas n actions = .ok (actions', n')) {p : PreparedMetadataAction}
    (hp : p ∈ actions') :
    p ∈ actions ∨ ∃ a ∈ areas, p = ⟨a.start, max a.start range.1, min a.stop range.2⟩ ∧
      max a.start range.1 < min a.stop range.2 := by
  induction areas generalizing actions n with
  | nil =>
      cases h
      exact .inl hp
  | cons a rest ih =>
      have hrest {n : Nat} {actions : List PreparedMetadataAction}
          (h : metadataWalk range shouldUpdate rest n actions = .ok (actions', n')) :
          p ∈ actions ∨ ∃ b ∈ a :: rest, p = ⟨b.start, max b.start range.1, min b.stop range.2⟩ ∧
            max b.start range.1 < min b.stop range.2 := by
        rcases ih h with hp | ⟨b, hb, hpb⟩
        · exact .inl hp
        · exact .inr ⟨b, by simp [hb], hpb⟩
      rw [metadataWalk] at h
      split at h
      · exact hrest h
      · split at h
        · cases h
        · split at h
          · exact hrest h
          · rename_i hsome
            have hpush (hp : p ∈ if shouldUpdate a.backend = true then
                actions ++ [⟨a.start, max a.start range.1, min a.stop range.2⟩] else actions) :
                p ∈ actions ∨ ∃ b ∈ a :: rest, p = ⟨b.start, max b.start range.1, min b.stop range.2⟩ ∧
                  max b.start range.1 < min b.stop range.2 := by
              split at hp
              · rcases List.mem_append.mp hp with hp | hp
                · exact .inl hp
                · rw [List.mem_singleton] at hp
                  exact .inr ⟨a, by simp, hp, by omega⟩
              · exact .inl hp
            dsimp only at h
            split at h
            · cases h
              exact hpush hp
            · rcases hrest h with hp | hp
              · exact hpush hp
              · exact .inr hp

theorem metadataWalk_ne_panic {areas : List (Area F B)} {actions : List PreparedMetadataAction} {n : Nat} :
    metadataWalk range shouldUpdate areas n actions ≠ .panic := by
  induction areas generalizing actions n with
  | nil =>
      intro h
      cases h
  | cons a rest ih =>
      rw [metadataWalk]
      split
      · exact ih
      · split
        · intro h
          cases h
        · split
          · exact ih
          · dsimp only
            split
            · intro h
              cases h
            · exact ih

theorem projectedCount_ne_panic {areas : Areas F B} {actions : List PreparedMetadataAction} {n : Nat}
    (h : ∀ p ∈ actions, (areas.get? p.areaStart).isSome) : projectedCount areas n actions ≠ .panic := by
  induction actions generalizing n with
  | nil =>
      intro hp
      cases hp
  | cons p actions ih =>
      obtain ⟨a, ha⟩ := Option.isSome_iff_exists.mp (h p (by simp))
      rw [projectedCount, ha]
      dsimp only
      rw [addOrNoMemory]
      split
      · exact ih fun q hq => h q (by simp [hq])
      · intro hp
        cases hp

theorem stagedMerge_spec [DecidableEq F] {ε : Type} {err : ε → Call F B E R → Prop} {anchors : List Nat}
    {staged : MemorySet F B} (h : Consistent staged) :
    Ensures (stagedMerge backend anchors staged : Act (Call F B E R) ε (MemorySet F B)) c
      (fun set d => d = c ∧ ∀ revision, Consistent ⟨set.areas, set.gaps, revision⟩) err panic := by
  have hmerge : Ensures (each (mergeAdjacentAt backend) anchors : Act (Call F B E R) ε Unit) { c with set := staged }
      (fun _ d => SameCover { c with set := staged } d) (fun _ _ => False) False := mergeAll_spec anchors h.ordered
  refine ensures_get_bind ?_
  rw [onCopy]
  rw [Ensures] at hmerge
  split at hmerge
  · rename_i d hres
    have hcons := hmerge.consistent h
    exact ensures_of_eq (a := d.set) (t := c) rfl ⟨rfl, fun _ => hcons.recover hcons.ordered fun _ => Iff.rfl⟩
  · exact hmerge.elim
  · exact hmerge.elim

/-- A tree built over the addresses of a consistent set is one, too. -/
theorem Consistent.tiled {set : MemorySet F B} (h : Consistent set) {pieces : List (Area F B)} {ε : Type}
    (htiles : Tiles pieces (set.areas.entries.map (·.2))) :
    ∃ tree, (insertAll pieces SortedMap.empty : Outcome ε (Areas F B)) = .ok tree ∧ Consistent ⟨tree,
      set.gaps, set.revision⟩ := by
  obtain ⟨tree, htree, hord, -, hfind⟩ := insertAll_empty (ε := ε) htiles.sequential
  refine ⟨tree, htree, h.recover hord fun x => ?_⟩
  have hnone : find tree x = none ↔ ¬ ∃ p ∈ pieces, p.start ≤ x ∧ x < p.stop := by
    constructor
    · rintro hnone ⟨p, hp⟩
      rw [(hfind x p).mpr hp] at hnone
      cases hnone
    · intro hno
      cases hres : find tree x with
      | none => rfl
      | some p => exact absurd ⟨p, (hfind x p).mp hres⟩ hno
  rw [hnone, htiles.cover x, h.ordered.find_eq_none]
  constructor
  · intro hno k a hget hx
    exact hno ⟨a, List.mem_map.mpr ⟨(k, a), SortedMap.mem_entries.mpr hget, rfl⟩, hx⟩
  · rintro hno ⟨a, ha, hx⟩
    obtain ⟨⟨k, b⟩, hb, rfl⟩ := List.mem_map.mp ha
    exact hno k b (SortedMap.mem_entries.mp hb) hx

theorem doubleOrNoMemory_spec (n : Nat) :
    Ensures (lift (doubleOrNoMemory n)) c (fun _ d => d = c) (fun _ d => d = c) panic := by
  refine ensures_lift (fun _ _ => rfl) (fun _ _ => rfl) (fun h => ?_)
  rw [doubleOrNoMemory] at h
  split at h <;> cases h

/-- A prepared update is a consistent set at the revision it was prepared for. -/
structure PreparedMetadataUpdate.Sound (prepared : PreparedMetadataUpdate F B) : Prop where
  consistent : ∀ revision, Consistent ⟨prepared.replacement, prepared.replacementGaps, revision⟩

theorem prepareMetadataUpdateWithLimit_spec [DecidableEq F] (h : Consistent c.set) (start size : Nat) :
    Ensures (prepareMetadataUpdateWithLimit backend memory start size shouldUpdate update maxAreas) c
      (fun p d => d = c ∧ p.Sound ∧ p.revision = c.set.revision) (fun _ d => d = c) False := by
  refine (rangeFrom_spec start size).bind ?_
  rintro _ d ⟨rfl, rfl, -⟩
  refine ensures_get_bind ((tryReserve_spec _ _).bind ?_)
  rintro - d rfl
  refine Ensures.bind (p := fun walked e => e = d ∧ metadataWalk (start, start + size) shouldUpdate
    ((d.set.areas.range (firstStart d.set.areas start) (start + size)).map (·.2)) start [] = .ok walked)
    (ensures_lift (fun w hw => ⟨rfl, hw⟩) (fun _ _ => rfl) metadataWalk_ne_panic) ?_
  rintro ⟨actions, n⟩ e ⟨rfl, hwalk⟩
  have hact (p : PreparedMetadataAction) (hp : p ∈ actions) : ∃ k a, e.set.areas.get? k = some a ∧
      p = ⟨a.start, max a.start start, min a.stop (start + size)⟩ ∧ max a.start start < min a.stop (start + size) := by
    rcases metadataWalk_actions hwalk hp with hnil | ⟨a, ha, hpa⟩
    · cases hnil
    · obtain ⟨⟨k, b⟩, hb, rfl⟩ := List.mem_map.mp ha
      exact ⟨k, b, (SortedMap.mem_range.mp hb).1, hpa⟩
  refine Ensures.bind (p := fun acts e' => e' = e ∧ acts = actions) (ensures_lift (fun acts hacts => ?_)
    (fun _ _ => rfl) ?_) ?_
  · rw [coveredActions] at hacts
    split at hacts
    · cases hacts
      exact ⟨rfl, rfl⟩
    · cases hacts
  · intro hp
    rw [coveredActions] at hp
    split at hp <;> cases hp
  rintro acts f ⟨rfl, hacts⟩
  subst hacts
  refine Ensures.bind (p := fun _ g => g = f) (ensures_lift (fun _ _ => rfl) (fun _ _ => rfl)
    (projectedCount_ne_panic fun p hp => ?_)) ?_
  · obtain ⟨k, a, hget, rfl, -⟩ := hact p hp
    simp only
    rw [h.ordered.key k a hget, hget]
    rfl
  rintro - g rfl
  refine (checkAreaLimit_spec _).bind ?_
  rintro - f ⟨rfl, -⟩
  have htiles : Tiles (metadataPieces update (f.set.areas.entries.map (·.2)) acts) (f.set.areas.entries.map (·.2)) := by
    refine metadataPieces_tiles h.ordered.sequential fun p hp a ha hstart => ?_
    obtain ⟨k, b, hget, rfl, hlt⟩ := hact p hp
    obtain ⟨⟨j, a'⟩, hj, rfl⟩ := List.mem_map.mp ha
    have hget' := SortedMap.mem_entries.mp hj
    have hab : b = a' := by
      have hk := h.ordered.key k b hget
      have hk' := h.ordered.key j a' hget'
      dsimp only at hstart hk'
      rw [← hk, hstart, hk', hget', Option.some.injEq] at hget
      exact hget.symm
    subst hab
    dsimp only
    omega
  obtain ⟨tree, htree, hcons⟩ := h.tiled (ε := MappingError) htiles
  refine ensures_bind_of_eq (a := tree) (t := f) (by rw [htree]; rfl) ?_
  refine (doubleOrNoMemory_spec _).bind ?_
  rintro capacity g rfl
  refine (tryReserve_spec _ _).bind ?_
  rintro - f rfl
  refine (stagedMerge_spec hcons).bind ?_
  rintro staged g ⟨rfl, hstaged⟩
  exact ensures_pure ⟨rfl, ⟨hstaged⟩, rfl⟩

theorem cloneAll_tiles {areas : List (Area F B)} (f : Area F B → B) (h : Sequential areas) :
    Tiles (areas.map fun a => cloneWith a (f a)) areas := by
  induction areas with
  | nil => exact .nil
  | cons a rest ih =>
      obtain ⟨hlt, hbound, -, hrest⟩ := Sequential.cons_iff.mp h
      exact (Tiles.clone hlt hbound (f a)).append (ih hrest) h

theorem prepareMatchingMetadataUpdateWithLimit_spec [DecidableEq F] (h : Consistent c.set) :
    Ensures (prepareMatchingMetadataUpdateWithLimit backend memory shouldUpdate update maxAreas) c
      (fun p d => d = c ∧ p.Sound ∧ p.revision = c.set.revision) (fun _ d => d = c) False := by
  refine ensures_get_bind ((checkAreaLimit_spec _).bind ?_)
  rintro - d ⟨rfl, -⟩
  refine (doubleOrNoMemory_spec _).bind ?_
  rintro capacity c rfl
  refine (tryReserve_spec _ _).bind ?_
  rintro - d rfl
  obtain ⟨tree, htree, hcons⟩ := h.tiled (ε := MappingError)
    (cloneAll_tiles (fun a => if shouldUpdate a.backend then update a.backend else a.backend) h.ordered.sequential)
  refine ensures_bind_of_eq (a := tree) (t := d) (by rw [htree]; rfl) ?_
  refine (stagedMerge_spec hcons).bind ?_
  rintro staged e ⟨rfl, hstaged⟩
  exact ensures_pure ⟨rfl, ⟨hstaged⟩, rfl⟩

theorem commitMetadata_spec {prepared : PreparedMetadataUpdate F B} (hp : prepared.Sound) :
    Ensures (commitMetadata F B E R prepared) c
      (fun old d => Consistent d.set ∧ d.set.revision = (c.set.revision + 1) % 2 ^ 64 ∧ d.table = c.table ∧
        old = ⟨c.set.areas, c.set.gaps⟩)
      (fun e d => d = c ∧ e = .badState ∧ prepared.revision ≠ c.set.revision) False := by
  refine ensures_get_bind ?_
  split
  · exact ensures_of_eq rfl ⟨hp.consistent _, rfl, rfl, rfl⟩
  · rename_i hne
    exact ensures_fail ⟨rfl, rfl, hne⟩

theorem rollbackMetadata_spec {ε : Type} (err : ε → Call F B E R → Prop) (panic : Prop)
    {committed : CommittedMetadataUpdate F B}
    (h : ∀ revision, Consistent ⟨committed.oldAreas, committed.oldGaps, revision⟩) :
    Ensures (rollbackMetadata committed : Act (Call F B E R) ε Unit) c
      (fun _ d => Consistent d.set ∧ d.set.revision = (c.set.revision + 1) % 2 ^ 64 ∧ d.set.areas = committed.oldAreas ∧
        d.set.gaps = committed.oldGaps) err panic :=
  ensures_of_eq rfl ⟨h _, rfl, rfl, rfl⟩

end Prepare

end TheKernel.MemorySet
