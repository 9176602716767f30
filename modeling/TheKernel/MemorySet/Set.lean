import TheKernel.MemorySet.Area
import TheKernel.Lib.Action

namespace TheKernel

structure MemorySet (F B : Type) where
  areas : MemorySet.Areas F B
  gaps : MemorySet.GapIndex
  revision : Nat

namespace MemorySet

open Act

inductive MappingError where
  | invalidParam
  | noMemory
  | alreadyExists
  | badState
  deriving DecidableEq

/-- The page table, as the state of the leaf that serves each address. -/
abbrev Table (E : Type) := Nat → E

/-- The methods of the traits `MappingBackend` and `DeferredUnmapBackend`, for
flags `F`, a backend type `B`, leaf states `E` and retirement tokens `R`. -/
structure MappingBackend (F B E R : Type) where
  map : B → Nat → Nat → F → Table E → Bool × Table E
  preflightUnmap : B → Nat → Nat → Table E → Bool
  unmap : B → Nat → Nat → Table E → Bool × Table E
  preflightProtect : B → Nat → Nat → F → Table E → Bool
  protect : B → Nat → Nat → F → Table E → Bool × Table E
  canMerge : B → B → Bool
  unmapDeferred : B → Nat → Nat → Table E → Option R × Table E
  prepareDeferredUnmap : B → Nat → Nat → Table E → Option R
  unmapDeferredPrepared : B → R → Nat → Nat → Table E → Bool × R × Table E
  prepareFixedMap : B → Nat → Nat → F → Table E → Option R
  mapFixedPrepared : B → R → Nat → Nat → F → Table E → Bool × Table E
  preflightRestoreDeferred : B → Nat → Nat → Table E → Bool
  restoreDeferred : B → R → Nat → Nat → Table E → Bool × Table E

def new {F B : Type} : MemorySet F B := ⟨SortedMap.empty, GapIndex.new, 0⟩

structure UnmapRetirement (F B R : Type) where
  backendRetirements : List R
  retiredAreas : List (Area F B)

/-- What a method works on: the set, the page table, the retirement its mode
collects, and the largest number of areas the set has held since the call
began. -/
structure Call (F B E R : Type) where
  set : MemorySet F B
  table : Table E
  retirement : UnmapRetirement F B R
  peak : Nat

inductive UnmapMode where
  | immediate
  | deferred

section Container

variable {F B E R ε : Type}

def putAreas (areas : Areas F B) : Act (Call F B E R) ε Unit :=
  modify fun c => { c with set := { c.set with areas := areas }, peak := max c.peak areas.size }

/-- `areas.get(&start).unwrap()`. -/
def areaAt (start : Nat) : Act (Call F B E R) ε (Area F B) := do
  let c ← get
  expect (c.set.areas.get? start)

/-- `areas.insert(start, area)`, whatever was there. -/
def putArea (start : Nat) (area : Area F B) : Act (Call F B E R) ε Unit := do
  let c ← get
  putAreas (c.set.areas.insert start area)

/-- `assert!(areas.insert(area.start(), area).is_none())`. -/
def insertArea (area : Area F B) : Act (Call F B E R) ε Unit := do
  let c ← get
  expect (if (c.set.areas.get? area.start).isNone then some () else none)
  putArea area.start area

/-- `areas.remove(&start).unwrap()`. -/
def removeArea (start : Nat) : Act (Call F B E R) ε (Area F B) := do
  let c ← get
  let area ← areaAt start
  putAreas (c.set.areas.erase start)
  pure area

/-- `areas.get_mut(&start).unwrap()`, changed in place. -/
def updateArea (start : Nat) (f : Area F B → Area F B) : Act (Call F B E R) ε Unit := do
  let area ← areaAt start
  putArea start (f area)

def bumpRevision : Act (Call F B E R) ε Unit :=
  modify fun c => { c with set := { c.set with revision := (c.set.revision + 1) % 2 ^ 64 } }

def putGaps (gaps : GapIndex) : Act (Call F B E R) ε Unit :=
  modify fun c => { c with set := { c.set with gaps := gaps } }

def occupyGap (range : Range) : Act (Call F B E R) ε Unit := do
  let c ← get
  let gaps ← lift (GapIndex.occupy range c.set.gaps)
  putGaps gaps

def releaseGap (range : Range) : Act (Call F B E R) ε Unit :=
  modify fun c => { c with set := { c.set with gaps := GapIndex.release range c.set.gaps } }

/-- `Vec::try_reserve`, as the allocator answers at this point of the call; a
reservation of nothing always succeeds. -/
def tryReserve (memory : Nat → Bool) (site count : Nat) : Act (Call F B E R) MappingError Unit :=
  if count = 0 ∨ memory site = true then pure () else fail .noMemory

def checkAreaLimit (count maxAreas : Nat) : Act (Call F B E R) MappingError Unit :=
  if maxAreas < count then fail .noMemory else pure ()

/-- A `checked_add` whose overflow is reported as `NoMemory`. -/
def addOrNoMemory (a b : Nat) : Outcome MappingError Nat :=
  match checkedAdd a b with
  | some c => .ok c
  | none => .err .noMemory

/-- `AddrRange::try_from_start_size`, or `start.checked_add(size)`. -/
def rangeFrom (start size : Nat) : Outcome MappingError Range :=
  match checkedAdd start size with
  | some stop => .ok (start, stop)
  | none => .err .invalidParam

/-- The key at which a walk over the areas of a range begins: the area that
crosses the lower boundary, if there is one. -/
def firstStart (areas : Areas F B) (start : Nat) : Nat :=
  match areas.lastUpTo start with
  | some (k, area) => if start < area.stop then k else start
  | none => start

def iterOverlapping (areas : Areas F B) (range : Range) : List (Area F B) :=
  ((areas.range (firstStart areas range.1) range.2).map (·.2)).filter (fun a => a.overlaps range)

def overlapsAny (areas : Areas F B) (range : Range) : Bool :=
  ((areas.lastBelow range.1).any (fun e => e.2.overlaps range)) ||
    ((areas.firstFrom range.1).any (fun e => e.2.overlaps range))

def fragments (range : Range) (area : Area F B) : Nat :=
  (if area.start < range.1 then 1 else 0) + (if range.2 < area.stop then 1 else 0)

/-- `fragment_count_after_unmap`; its checked additions of ones fail just when
the sum does not fit. -/
def fragmentCountAfterUnmap (areas : Areas F B) (range : Range) : Outcome MappingError Nat :=
  let overlapping := iterOverlapping areas range
  let pieces := (overlapping.map (fragments range)).sum
  if usizeMax < pieces then .err .noMemory else addOrNoMemory (areas.size - overlapping.length) pieces

end Container

section Operations

variable {F B E R : Type} [DecidableEq F] (backend : MappingBackend F B E R)

def canMergeAreas (prev next : Area F B) : Bool :=
  prev.stop = next.start ∧ prev.flags = next.flags ∧ prev.lineage = next.lineage ∧
    backend.canMerge prev.backend next.backend = true

section Merge

variable {ε : Type}

/-- `remove` of the later area and `set_end` of the earlier one. -/
def absorbNext (start next : Nat) : Act (Call F B E R) ε Unit := do
  let removed ← removeArea next
  updateArea start (fun a => a.setEnd removed.stop)

def mergePrevInto (current : Nat) : Act (Call F B E R) ε Nat := do
  let c ← get
  match c.set.areas.lastBelow current with
  | none => pure current
  | some (prevStart, _) => do
      let prev ← areaAt prevStart
      let curr ← areaAt current
      if canMergeAreas backend prev curr then do
        absorbNext prevStart current
        pure prevStart
      else pure current

def mergeNextInto (current : Nat) : Act (Call F B E R) ε Bool := do
  let c ← get
  match c.set.areas.firstAfter current with
  | none => pure false
  | some (nextStart, _) => do
      let curr ← areaAt current
      let next ← areaAt nextStart
      if canMergeAreas backend curr next then do
        absorbNext current nextStart
        pure true
      else pure false

/-- Every turn that goes on removes an area, so as many turns as there are
areas suffice. -/
def mergePrevLoop : Nat → Nat → Act (Call F B E R) ε Nat
  | 0, current => pure current
  | fuel + 1, current => do
      let merged ← mergePrevInto backend current
      if merged = current then pure current else mergePrevLoop fuel merged

def mergeNextLoop : Nat → Nat → Act (Call F B E R) ε Unit
  | 0, _ => pure ()
  | fuel + 1, current => do
      let merged ← mergeNextInto backend current
      if merged then mergeNextLoop fuel current else pure ()

def mergeAnchor (areas : Areas F B) (anchor : Nat) : Option Nat :=
  if (areas.get? anchor).isSome then some anchor
  else match areas.lastUpTo anchor with
    | some (start, area) => if area.stop = anchor ∨ area.contains anchor then some start else none
    | none => none

def mergeAdjacentAt (anchor : Nat) : Act (Call F B E R) ε Unit := do
  let c ← get
  match mergeAnchor c.set.areas anchor with
  | none => pure ()
  | some start => do
      let current ← mergePrevLoop backend c.set.areas.size start
      mergeNextLoop backend c.set.areas.size current

end Merge

section Unmap

variable (mode : UnmapMode)

def modeReserve (memory : Nat → Bool) (site unmaps completeAreas : Nat) : Act (Call F B E R) MappingError Unit :=
  match mode with
  | .immediate => pure ()
  | .deferred => do
      tryReserve memory site unmaps
      tryReserve memory (site + 1) completeAreas

def modeUnmap {ε : Type} (owner : B) (start size : Nat) : Act (Call F B E R) ε Unit := fun c =>
  match mode with
  | .immediate =>
      let result := backend.unmap owner start size c.table
      (if result.1 then .ok () else .panic, { c with table := result.2 })
  | .deferred =>
      match backend.unmapDeferred owner start size c.table with
      | (some token, table) => (.ok (), { c with
          table := table
          retirement := { c.retirement with backendRetirements := c.retirement.backendRetirements ++ [token] } })
      | (none, table) => (.panic, { c with table := table })

def retireArea {ε : Type} (area : Area F B) : Act (Call F B E R) ε Unit :=
  match mode with
  | .immediate => pure ()
  | .deferred => modify fun c => { c with
      retirement := { c.retirement with retiredAreas := c.retirement.retiredAreas ++ [area] } }

/-- The part of an area inside a range, as `preflight_unmap` clips it. -/
def clip (range : Range) (area : Area F B) : Range := (max area.start range.1, min area.stop range.2)

def preflightUnmapArea (range : Range) (table : Table E) (area : Area F B) : Bool :=
  let part := clip range area
  ¬ part.1 < part.2 ∨ backend.preflightUnmap area.backend part.1 (part.2 - part.1) table = true

def preflightUnmap (range : Range) : Act (Call F B E R) MappingError Unit := do
  let c ← get
  if ((c.set.areas.range (firstStart c.set.areas range.1) range.2).map (·.2)).all
      (preflightUnmapArea backend range c.table) then pure ()
  else fail .badState

def unmapWhole {ε : Type} (start : Nat) : Act (Call F B E R) ε Unit := do
  let area ← areaAt start
  modeUnmap backend mode area.backend area.start area.size
  let area ← removeArea start
  retireArea mode area

def shrinkBefore {ε : Type} (range : Range) : Act (Call F B E R) ε Unit := do
  let c ← get
  match c.set.areas.lastBelow range.1 with
  | none => pure ()
  | some (beforeStart, before) =>
      if range.1 < before.stop then
        if before.stop ≤ range.2 then do
          modeUnmap backend mode before.backend range.1 (before.stop - range.1)
          putArea beforeStart (before.setEnd range.1)
        else do
          modeUnmap backend mode before.backend range.1 (range.2 - range.1)
          putArea beforeStart (before.setEnd range.1)
          putArea range.2 (before.setStart range.2)
      else pure ()

def shrinkAfter {ε : Type} (range : Range) : Act (Call F B E R) ε Unit := do
  let c ← get
  match c.set.areas.firstFrom range.1 with
  | none => pure ()
  | some (afterStart, after) =>
      if afterStart < range.2 then do
        modeUnmap backend mode after.backend afterStart (range.2 - afterStart)
        let _ ← removeArea afterStart
        putArea range.2 (after.setStart range.2)
      else pure ()

def fullyCovered (areas : Areas F B) (range : Range) : List Nat :=
  ((areas.range range.1 range.2).filter (fun e => e.2.containedIn range)).map (·.1)

/-- The checks of `unmap_with_limit_inner`, none of which changes anything. -/
def admitUnmap (memory : Nat → Bool) (range : Range) (maxAreas : Nat) : Act (Call F B E R) MappingError Unit := do
  let c ← get
  let remaining ← lift (fragmentCountAfterUnmap c.set.areas range)
  checkAreaLimit (max c.set.areas.size remaining) maxAreas
  let overlapping := iterOverlapping c.set.areas range
  let covered := (overlapping.filter (fun a => a.containedIn range)).length
  tryReserve memory 0 covered
  modeReserve mode memory 1 overlapping.length covered
  preflightUnmap backend range

def commitUnmap {ε : Type} (range : Range) (covered : List Nat) : Act (Call F B E R) ε Unit := do
  each (unmapWhole backend mode) covered
  shrinkBefore backend mode range
  shrinkAfter backend mode range
  mergeAdjacentAt backend range.1
  mergeAdjacentAt backend range.2
  releaseGap range
  bumpRevision

def modeFinish {ε : Type} : Act (Call F B E R) ε (UnmapRetirement F B R) := do
  let c ← get
  pure c.retirement

def unmapWithLimitInner (memory : Nat → Bool) (start size maxAreas : Nat) :
    Act (Call F B E R) MappingError (UnmapRetirement F B R) := do
  let range ← lift (rangeFrom start size)
  if range.2 ≤ range.1 then modeFinish
  else do
    admitUnmap backend mode memory range maxAreas
    let c ← get
    commitUnmap backend mode range (fullyCovered c.set.areas range)
    modeFinish

def preflightWhole (areas : List (Area F B)) : Act (Call F B E R) MappingError Unit := do
  let c ← get
  if areas.all (fun a => backend.preflightUnmap a.backend a.start a.size c.table) then pure () else fail .badState

def clearInner (memory : Nat → Bool) : Act (Call F B E R) MappingError (UnmapRetirement F B R) := do
  let c ← get
  let areas := c.set.areas.entries.map (·.2)
  modeReserve mode memory 0 areas.length areas.length
  preflightWhole backend areas
  each (fun a => modeUnmap backend mode a.backend a.start a.size) areas
  putAreas SortedMap.empty
  each (retireArea mode) areas
  putGaps GapIndex.new
  bumpRevision
  modeFinish

/-- One turn of the commit loop of `unmap_matching_deferred_with_limit` and of
`unmap_selected_deferred_with_limit`. -/
def retireSelected {ε : Type} (start : Nat) : Act (Call F B E R) ε Unit := do
  let area ← areaAt start
  modeUnmap backend .deferred area.backend area.start area.size
  let removed ← removeArea start
  releaseGap area.range
  retireArea .deferred removed

/-- The commit of the two, which counts as a change if anything was selected. -/
def commitSelected {ε : Type} (selected : List Nat) : Act (Call F B E R) ε (UnmapRetirement F B R) := do
  each (retireSelected backend) selected
  if selected = [] then modeFinish
  else do
    bumpRevision
    modeFinish

def unmapMatchingDeferredWithLimit (memory : Nat → Bool) (shouldUnmap : B → Bool) (maxAreas : Nat) :
    Act (Call F B E R) MappingError (UnmapRetirement F B R) := do
  let c ← get
  checkAreaLimit c.set.areas.size maxAreas
  let chosen := c.set.areas.entries.filter (fun e => shouldUnmap e.2.backend)
  tryReserve memory 0 chosen.length
  modeReserve .deferred memory 1 chosen.length chosen.length
  preflightWhole backend (chosen.map (·.2))
  commitSelected backend (chosen.map (·.1))

def strictlyIncreasing : List Nat → Bool
  | a :: b :: rest => a < b && strictlyIncreasing (b :: rest)
  | _ => true

def selectable (areas : Areas F B) (shouldUnmap : B → Bool) (table : Table E) (start : Nat) : Bool :=
  match areas.get? start with
  | none => false
  | some a => shouldUnmap a.backend && backend.preflightUnmap a.backend a.start a.size table

def unmapSelectedDeferredWithLimit (memory : Nat → Bool) (selected : List Nat) (shouldUnmap : B → Bool)
    (maxAreas : Nat) : Act (Call F B E R) MappingError (UnmapRetirement F B R) := do
  let c ← get
  checkAreaLimit c.set.areas.size maxAreas
  if strictlyIncreasing selected then do
    modeReserve .deferred memory 0 selected.length selected.length
    if selected.all (selectable backend c.set.areas shouldUnmap c.table) then commitSelected backend selected
    else fail .badState
  else fail .invalidParam

end Unmap

section Map

/-- The checks of `map_with_limit` and, if asked for, the removal of what the
new area overlaps. -/
def makeRoom (memory : Nat → Bool) (range : Range) (unmapOverlap : Bool) (maxAreas : Nat) :
    Act (Call F B E R) MappingError Unit := do
  let c ← get
  if overlapsAny c.set.areas range then
    if unmapOverlap then do
      let remaining ← lift (fragmentCountAfterUnmap c.set.areas range)
      let peak ← lift (addOrNoMemory remaining 1)
      checkAreaLimit (max c.set.areas.size peak) maxAreas
      let _ ← unmapWithLimitInner backend .immediate memory range.1 (range.2 - range.1) maxAreas
      pure ()
    else fail .alreadyExists
  else do
    let peak ← lift (addOrNoMemory c.set.areas.size 1)
    checkAreaLimit peak maxAreas

def mapArea (area : Area F B) : Act (Call F B E R) MappingError Unit := fun c =>
  let result := backend.map area.backend area.start area.size area.flags c.table
  (if result.1 then .ok () else .err .badState, { c with table := result.2 })

def mapWithLimit (memory : Nat → Bool) (area : Area F B) (unmapOverlap : Bool) (maxAreas : Nat) :
    Act (Call F B E R) MappingError Unit := do
  if area.stop ≤ area.start then fail .invalidParam
  else do
    makeRoom backend memory area.range unmapOverlap maxAreas
    mapArea backend area
    occupyGap area.range
    insertArea area
    mergeAdjacentAt backend area.start
    bumpRevision

end Map

section Split

variable {ε : Type}

/-- The pieces that setting an area apart from `start` to `stop` adds. -/
def additional (areaStart start stop oldStop : Nat) : Nat :=
  (if areaStart < start then 1 else 0) + (if stop < oldStop then 1 else 0)

def insertIf (wanted : Bool) (area : Area F B) : Act (Call F B E R) ε Unit :=
  if wanted then insertArea area
  else pure ()

/-- Cuts the area at `areaStart` so that one area holds exactly `start..stop`.
The area keeps its beginning; what follows it is inserted anew. -/
def splitArea (areaStart start stop oldStop : Nat) (middleFlags rightFlags : F) (lineage : Nat) :
    Act (Call F B E R) ε Unit := do
  let area ← areaAt areaStart
  updateArea areaStart (fun a => a.setEnd (if areaStart < start then start else stop))
  insertIf (areaStart < start) ⟨start, stop, middleFlags, area.backend, lineage⟩
  insertIf (stop < oldStop) ⟨stop, oldStop, rightFlags, area.backend, lineage⟩

end Split

section Protect

structure ProtectAction (F : Type) where
  areaStart : Nat
  start : Nat
  stop : Nat
  oldStop : Nat
  oldFlags : F
  newFlags : F
  lineage : Nat

def protectAction (range : Range) (updateFlags : Nat → F → Option F) (area : Area F B) : Option (ProtectAction F) :=
  if range.1 < area.stop then
    (updateFlags (max area.start range.1) area.flags).map fun newFlags =>
      ⟨area.start, max area.start range.1, min area.stop range.2, area.stop, area.flags, newFlags, area.lineage⟩
  else none

/-- `update_flags` is pure, so that the reservations of the loop can follow it. -/
def protectActions (areas : Areas F B) (range : Range) (updateFlags : Nat → F → Option F) : List (ProtectAction F) :=
  ((areas.range (firstStart areas range.1) range.2).map (·.2)).filterMap (protectAction range updateFlags)

/-- `backend.protect(..)` with its `expect`. -/
def protectPages {ε : Type} (owner : B) (start size : Nat) (newFlags : F) : Act (Call F B E R) ε Unit := fun c =>
  let result := backend.protect owner start size newFlags c.table
  (if result.1 then .ok () else .panic, { c with table := result.2 })

namespace ProtectAction

variable (action : ProtectAction F)

def extra : Nat := additional action.areaStart action.start action.stop action.oldStop

def preflight : Act (Call F B E R) MappingError Unit := do
  let area ← areaAt action.areaStart
  let c ← get
  if backend.preflightProtect area.backend action.start (action.stop - action.start) action.newFlags c.table then
    pure ()
  else fail .badState

def split {ε : Type} : Act (Call F B E R) ε Unit :=
  splitArea action.areaStart action.start action.stop action.oldStop action.newFlags action.oldFlags action.lineage

def commit {ε : Type} : Act (Call F B E R) ε Unit := do
  let area ← areaAt action.start
  protectPages backend area.backend action.start (action.stop - action.start) action.newFlags

def relabel {ε : Type} : Act (Call F B E R) ε Unit := updateArea action.start (fun a => a.setFlags action.newFlags)

def merge {ε : Type} : Act (Call F B E R) ε Unit := do
  mergeAdjacentAt backend action.start
  mergeAdjacentAt backend action.stop

end ProtectAction

/-- The checks of `protect_with_limit`, none of which changes anything. -/
def admitProtect (memory : Nat → Bool) (actions : List (ProtectAction F)) (maxAreas : Nat) :
    Act (Call F B E R) MappingError Unit := do
  each (fun site => tryReserve memory site 1) (List.range actions.length)
  let c ← get
  let peak ← lift (addOrNoMemory c.set.areas.size (actions.map ProtectAction.extra).sum)
  checkAreaLimit peak maxAreas
  each (fun action => action.preflight backend) actions

def commitProtect {ε : Type} (actions : List (ProtectAction F)) : Act (Call F B E R) ε Unit := do
  each (fun action => action.split) actions
  each (fun action => action.commit backend) actions
  each (fun action => action.relabel) actions
  each (fun action => action.merge backend) actions
  bumpRevision

def protectWithLimit (memory : Nat → Bool) (start size : Nat) (updateFlags : Nat → F → Option F) (maxAreas : Nat) :
    Act (Call F B E R) MappingError Unit := do
  let range ← lift (rangeFrom start size)
  if range.1 = range.2 then pure ()
  else do
    let c ← get
    let actions := protectActions c.set.areas range updateFlags
    admitProtect backend memory actions maxAreas
    commitProtect backend actions

end Protect

end Operations

end MemorySet

end TheKernel
