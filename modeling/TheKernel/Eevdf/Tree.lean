import Mathlib.Logic.Function.Basic
import TheKernel.Lib.RedBlack

-- The intrusive tree of `eevdf_tree.rs`. Nodes are named by the numbers that
-- stand for their addresses; a dereferenced null pointer and a loop that runs out
-- of turns are `none`.

namespace TheKernel.Eevdf

open RedBlack (Color Side)

abbrev NodeId := Nat

structure NodeState (K ε : Type) where
  key : K
  eligibleAt : ε
  parent : Option NodeId
  left : Option NodeId
  right : Option NodeId
  color : Color
  subtreeMin : ε
  linked : Bool

inductive EevdfTreeError where
  | alreadyLinked | duplicateKey | foreignNode

variable {K ε : Type}

namespace NodeState

def newUnlinked (key : K) (eligibleAt : ε) : NodeState K ε :=
  ⟨key, eligibleAt, none, none, none, .black, eligibleAt, false⟩

def stageUnlinked (key : K) (eligibleAt : ε) (n : NodeState K ε) : NodeState K ε :=
  { n with key, eligibleAt, subtreeMin := eligibleAt }

def child (s : Side) (n : NodeState K ε) : Option NodeId :=
  match s with
  | .left => n.left
  | .right => n.right

def setChild (s : Side) (p : Option NodeId) (n : NodeState K ε) : NodeState K ε :=
  match s with
  | .left => { n with left := p }
  | .right => { n with right := p }

def setParent (p : Option NodeId) (n : NodeState K ε) : NodeState K ε := { n with parent := p }

def setColor (c : Color) (n : NodeState K ε) : NodeState K ε := { n with color := c }

def setMin (m : ε) (n : NodeState K ε) : NodeState K ε := { n with subtreeMin := m }

end NodeState

structure EevdfTree (K ε : Type) where
  nodes : NodeId → NodeState K ε
  root : Option NodeId
  len : Nat

namespace EevdfTree

variable (t : EevdfTree K ε)

def modify (p : NodeId) (f : NodeState K ε → NodeState K ε) : EevdfTree K ε :=
  { t with nodes := Function.update t.nodes p (f (t.nodes p)) }

def setParent (p : NodeId) (q : Option NodeId) : EevdfTree K ε := t.modify p (·.setParent q)

def setChild (s : Side) (p : NodeId) (q : Option NodeId) : EevdfTree K ε := t.modify p (·.setChild s q)

/-- `if !p.is_null() { (*p).parent = q }`. -/
def setParentOf (p q : Option NodeId) : EevdfTree K ε :=
  match p with
  | none => t
  | some p => t.setParent p q

def color (p : Option NodeId) : Color :=
  match p with
  | none => .black
  | some p => (t.nodes p).color

def setColor (p : Option NodeId) (c : Color) : EevdfTree K ε :=
  match p with
  | none => t
  | some p => t.modify p (·.setColor c)

/-- The turns a walk can take: there are at most `len` nodes on a path. -/
def turns : Nat := t.len + 2

def minimumLoop : Nat → NodeId → Option NodeId
  | 0, _ => none
  | fuel + 1, p => match (t.nodes p).left with
    | none => some p
    | some q => minimumLoop fuel q

def minimum (p : NodeId) : Option NodeId := t.minimumLoop t.turns p

section Recompute

variable [LinearOrder ε] [OrderTop ε]

/-- The cached minimum behind a pointer, `EMPTY_MIN` behind a null one. -/
def minBehind (p : Option NodeId) : ε :=
  match p with
  | none => ⊤
  | some p => (t.nodes p).subtreeMin

def recompute (p : NodeId) : EevdfTree K ε :=
  t.modify p (fun n => n.setMin (min (min n.eligibleAt (t.minBehind n.left)) (t.minBehind n.right)))

def recomputeUpwardsLoop : Nat → EevdfTree K ε → Option NodeId → Option (EevdfTree K ε)
  | _, t, none => some t
  | 0, _, some _ => none
  | fuel + 1, t, some p =>
      let t := t.recompute p
      recomputeUpwardsLoop fuel t (t.nodes p).parent

def recomputeUpwards (p : Option NodeId) : Option (EevdfTree K ε) := recomputeUpwardsLoop t.turns t p

/-- Replaces the child `x` of `q`, or the root. `s` is the side that is tested
first. -/
def replaceChild (s : Side) (q : Option NodeId) (x y : Option NodeId) : EevdfTree K ε :=
  match q with
  | none => { t with root := y }
  | some q => if x = (t.nodes q).child s then t.setChild s q y else t.setChild s.other q y

/-- `rotate_left` for the left side, `rotate_right` for the right one. -/
def rotate (s : Side) (x : NodeId) : Option (EevdfTree K ε) := do
  let y ← (t.nodes x).child s.other
  let inner := (t.nodes y).child s
  let t := t.setChild s.other x inner
  let t := t.setParentOf inner (some x)
  let xParent := (t.nodes x).parent
  let t := t.setParent y xParent
  let t := t.replaceChild s xParent (some x) (some y)
  let t := t.setChild s y (some x)
  let t := t.setParent x (some y)
  some ((t.recompute x).recompute y)

def rotateLeft (x : NodeId) : Option (EevdfTree K ε) := t.rotate .left x

def rotateRight (x : NodeId) : Option (EevdfTree K ε) := t.rotate .right x

/-- The two branches of `insert_fixup` differ in the side `s` that the parent
hangs on. -/
def insertFixupLoop : Nat → EevdfTree K ε → NodeId → Option (EevdfTree K ε)
  | 0, _, _ => none
  | fuel + 1, t, z => match (t.nodes z).parent with
    | none => some (t.setColor t.root .black)
    | some parent =>
        if t.color (some parent) = .red then do
          let grand ← (t.nodes parent).parent
          let s : Side := if some parent = (t.nodes grand).left then .left else .right
          let uncle := (t.nodes grand).child s.other
          if t.color uncle = .red then
            let t := t.setColor (some parent) .black
            let t := t.setColor uncle .black
            let t := t.setColor (some grand) .red
            insertFixupLoop fuel t grand
          else do
            let (t, z) ← if some z = (t.nodes parent).child s.other then do
                let t ← t.rotate s parent
                some (t, parent)
              else some (t, z)
            let parent ← (t.nodes z).parent
            let grand ← (t.nodes parent).parent
            let t := t.setColor (some parent) .black
            let t := t.setColor (some grand) .red
            let t ← t.rotate s.other grand
            insertFixupLoop fuel t z
        else some (t.setColor t.root .black)

def insertFixup (z : NodeId) : Option (EevdfTree K ε) := insertFixupLoop t.turns t z

def transplant (old : NodeId) (new : Option NodeId) : EevdfTree K ε :=
  let parent := (t.nodes old).parent
  (t.replaceChild .left parent (some old) new).setParentOf new parent

/-- The part of `delete_fixup` that raises a red sibling above the parent; it
returns the new sibling. -/
def raiseSibling (s : Side) (xParent : NodeId) : Option (EevdfTree K ε × Option NodeId) :=
  let sibling := (t.nodes xParent).child s.other
  if t.color sibling = .red then do
    let t := t.setColor sibling .black
    let t := t.setColor (some xParent) .red
    let t ← t.rotate s xParent
    some (t, (t.nodes xParent).child s.other)
  else some (t, sibling)

/-- The part of `delete_fixup` that raises a red near nephew above the
sibling. -/
def raiseNephew (s : Side) (xParent : NodeId) (sibling near far : Option NodeId) :
    Option (EevdfTree K ε × Option NodeId) :=
  if t.color far = .black then do
    let t := t.setColor near .black
    let t := t.setColor sibling .red
    let t ← match sibling with
      | none => some t
      | some sibling => t.rotate s.other sibling
    some (t, (t.nodes xParent).child s.other)
  else some (t, sibling)

def passColors (s : Side) (xParent : NodeId) (sibling : Option NodeId) : EevdfTree K ε :=
  let t := t.setColor sibling (t.color (some xParent))
  let t := t.setColor (some xParent) .black
  let far := sibling.bind fun sibling => (t.nodes sibling).child s.other
  t.setColor far .black

/-- The two branches of `delete_fixup` differ in the side `s` that `x` hangs
on. -/
def deleteFixupLoop : Nat → EevdfTree K ε → Option NodeId → Option NodeId → Option (EevdfTree K ε)
  | 0, _, _, _ => none
  | fuel + 1, t, x, xParent =>
      if x ≠ t.root ∧ t.color x = .black then match xParent with
        | none => some (t.setColor x .black)
        | some xParent => do
            let s : Side := if x = (t.nodes xParent).left then .left else .right
            let (t, sibling) ← t.raiseSibling s xParent
            let near := sibling.bind fun sibling => (t.nodes sibling).child s
            let far := sibling.bind fun sibling => (t.nodes sibling).child s.other
            if t.color near = .black ∧ t.color far = .black then
              let t := t.setColor sibling .red
              deleteFixupLoop fuel t (some xParent) (t.nodes xParent).parent
            else do
              let (t, sibling) ← t.raiseNephew s xParent sibling near far
              let t ← (t.passColors s xParent sibling).rotate s xParent
              deleteFixupLoop fuel t t.root none
      else some (t.setColor x .black)

def deleteFixup (x xParent : Option NodeId) : Option (EevdfTree K ε) := deleteFixupLoop t.turns t x xParent

/-- The first half of `remove_raw`: the tree without `z`, the node `x` that took
a place over, its parent, the node `y` that left its place and its colour. -/
def unlink (z : NodeId) : Option (EevdfTree K ε × Option NodeId × Option NodeId × NodeId × Color) :=
  match (t.nodes z).left, (t.nodes z).right with
  | none, zRight => some (t.transplant z zRight, zRight, (t.nodes z).parent, z, (t.nodes z).color)
  | some zLeft, none => some (t.transplant z (some zLeft), some zLeft, (t.nodes z).parent, z, (t.nodes z).color)
  | some zLeft, some zRight => do
      let y ← t.minimum zRight
      let yColor := (t.nodes y).color
      let x := (t.nodes y).right
      let (t, xParent) :=
        if (t.nodes y).parent = some z then (t.setParentOf x (some y), some y)
        else
          let xParent := (t.nodes y).parent
          let t := t.transplant y x
          let t := t.setChild .right y (some zRight)
          (t.setParent zRight (some y), xParent)
      let t := t.transplant z (some y)
      let t := t.setChild .left y (some zLeft)
      let t := t.setParent zLeft (some y)
      let t := t.setColor (some y) (t.nodes z).color
      some (t, x, xParent, y, yColor)

def reset (n : NodeState K ε) : NodeState K ε :=
  { n with parent := none, left := none, right := none, color := .black, subtreeMin := n.eligibleAt, linked := false }

def removeRaw (z : NodeId) : Option (EevdfTree K ε) := do
  let (t, x, xParent, y, yColor) ← t.unlink z
  let t := { t with len := t.len - 1 }
  let t ← if yColor = .black then t.deleteFixup x xParent else some t
  let t ← t.recomputeUpwards x
  let t ← t.recomputeUpwards xParent
  let t ← t.recomputeUpwards (some y)
  let t := match t.root with
    | none => t
    | some root => t.modify root (fun n => (n.setParent none).setColor .black)
  some (t.modify z reset)

end Recompute

section Order

variable [LinearOrder K]

/-- The descent of `insert`: the parent of the free place, or `none` at a node
with the same key. -/
def findParent (key : K) : Nat → Option NodeId → Option NodeId → Option (Option (Option NodeId))
  | _, parent, none => some (some parent)
  | 0, _, some _ => none
  | fuel + 1, _, some cursor => match cmp key (t.nodes cursor).key with
    | .lt => findParent key fuel (some cursor) (t.nodes cursor).left
    | .gt => findParent key fuel (some cursor) (t.nodes cursor).right
    | .eq => some none

theorem findParent_cursor (key : K) (fuel : Nat) (parent : Option NodeId) (cursor : NodeId) :
    t.findParent key (fuel + 1) parent (some cursor) = match cmp key (t.nodes cursor).key with
      | .lt => t.findParent key fuel (some cursor) (t.nodes cursor).left
      | .gt => t.findParent key fuel (some cursor) (t.nodes cursor).right
      | .eq => some none := rfl

def link (raw : NodeId) (parent : Option NodeId) : EevdfTree K ε :=
  let key := (t.nodes raw).key
  let t := t.modify raw fun n =>
    { n with parent := parent, left := none, right := none, color := .red, subtreeMin := n.eligibleAt, linked := true }
  let t := match parent with
    | none => { t with root := some raw }
    | some p => if key < (t.nodes p).key then t.setChild .left p (some raw) else t.setChild .right p (some raw)
  { t with len := t.len + 1 }

def insert [LinearOrder ε] [OrderTop ε] (raw : NodeId) : Option (Except EevdfTreeError (EevdfTree K ε)) :=
  if (t.nodes raw).linked then some (.error .alreadyLinked)
  else do
    match ← t.findParent (t.nodes raw).key t.turns none t.root with
    | none => some (.error .duplicateKey)
    | some parent =>
        let t := t.link raw parent
        let t ← t.recomputeUpwards parent
        let t ← t.insertFixup raw
        let t ← t.recomputeUpwards (some raw)
        some (.ok t)

def containsExactLoop (key : K) (target : NodeId) : Nat → Option NodeId → Option Bool
  | _, none => some false
  | 0, some _ => none
  | fuel + 1, some cursor => match cmp key (t.nodes cursor).key with
    | .lt => containsExactLoop key target fuel (t.nodes cursor).left
    | .gt => containsExactLoop key target fuel (t.nodes cursor).right
    | .eq => some (cursor = target)

theorem containsExactLoop_cursor (key : K) (target : NodeId) (fuel : Nat) (cursor : NodeId) :
    t.containsExactLoop key target (fuel + 1) (some cursor) = match cmp key (t.nodes cursor).key with
      | .lt => t.containsExactLoop key target fuel (t.nodes cursor).left
      | .gt => t.containsExactLoop key target fuel (t.nodes cursor).right
      | .eq => some (cursor = target) := rfl

def containsExact (target : NodeId) : Option Bool :=
  if (t.nodes target).linked then t.containsExactLoop (t.nodes target).key target t.turns t.root else some false

def remove [LinearOrder ε] [OrderTop ε] (node : NodeId) : Option (Except EevdfTreeError (EevdfTree K ε)) := do
  if ← t.containsExact node then
    let t ← t.removeRaw node
    some (.ok t)
  else some (.error .foreignNode)

end Order

section Eligible

variable [LinearOrder ε]

/-- `!p.is_null() && (*p).subtree_min <= now`. -/
def behindEligible (now : ε) (p : Option NodeId) : Option NodeId := p.filter fun p => (t.nodes p).subtreeMin ≤ now

/-- The descent that `peek_earliest_eligible` and `pop_earliest_eligible`
share. -/
def earliestEligibleLoop (now : ε) : Nat → Option NodeId → Option (Option NodeId)
  | _, none => some none
  | 0, some _ => none
  | fuel + 1, some cursor =>
      if now < (t.nodes cursor).subtreeMin then some none
      else match t.behindEligible now (t.nodes cursor).left with
        | some left => earliestEligibleLoop now fuel (some left)
        | none =>
            if (t.nodes cursor).eligibleAt ≤ now then some (some cursor)
            else match t.behindEligible now (t.nodes cursor).right with
              | some right => earliestEligibleLoop now fuel (some right)
              | none => some none

def peekEarliestEligible (now : ε) : Option (Option NodeId) := t.earliestEligibleLoop now t.turns t.root

def popEarliestEligible [OrderTop ε] (now : ε) : Option (Option NodeId × EevdfTree K ε) := do
  match ← t.earliestEligibleLoop now t.turns t.root with
  | none => some (none, t)
  | some candidate =>
      let t ← t.removeRaw candidate
      some (some candidate, t)

end Eligible

end EevdfTree

end TheKernel.Eevdf
