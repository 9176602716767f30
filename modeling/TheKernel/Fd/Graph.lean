import Mathlib.Data.Finset.Dedup
import TheKernel.Lib.Action
import TheKernel.Lib.Machine
import TheKernel.Lib.Slots
import TheKernel.Lib.Walk

namespace TheKernel.Fd

open Outcome Act

abbrev EpollId := Nat

abbrev EpollGraphId := Nat

inductive GraphError where
  | unbounded
  | noMemory
  | capacity
  | duplicateNode
  | busy
  | staleToken
  | selfCycle
  | cycle
  | nesting
  | parentLimit
  | walkLimit
  | generationExhausted
  deriving DecidableEq

structure EpollGraphLimits where
  nodeCapacity : Nat
  edgeCapacity : Nat
  maxParentsPerNode : Nat
  maxNesting : Nat
  maxWalkSteps : Nat
  finite : nodeCapacity < usizeMax ∧ edgeCapacity < usizeMax ∧ maxParentsPerNode < usizeMax ∧
    maxNesting < usizeMax ∧ maxWalkSteps < usizeMax

/-- The arguments are `usize`, so that what is not `usize::MAX` lies below it. -/
def EpollGraphLimits.tryNew (nodeCapacity edgeCapacity maxParentsPerNode maxNesting maxWalkSteps : Nat) :
    Outcome GraphError EpollGraphLimits :=
  if h : nodeCapacity < usizeMax ∧ edgeCapacity < usizeMax ∧ maxParentsPerNode < usizeMax ∧
      maxNesting < usizeMax ∧ maxWalkSteps < usizeMax then
    .ok ⟨nodeCapacity, edgeCapacity, maxParentsPerNode, maxNesting, maxWalkSteps, h⟩
  else .err .unbounded

structure GraphNodeToken where
  graph : EpollGraphId
  slot : Nat
  generation : Nat
  epoll : EpollId
  deriving DecidableEq

structure GraphEdgeToken where
  graph : EpollGraphId
  slot : Nat
  generation : Nat
  deriving DecidableEq

structure Node where
  epoll : EpollId
  generation : Nat
  deriving DecidableEq

structure Edge where
  generation : Nat
  parent : GraphNodeToken
  child : Option GraphNodeToken
  deriving DecidableEq

structure EpollGraph where
  id : EpollGraphId
  limits : EpollGraphLimits
  nodes : List (Option Node)
  edges : List (Option Edge)
  nextGeneration : Nat

namespace EpollGraph

def tryNew (id : EpollGraphId) (limits : EpollGraphLimits) : EpollGraph :=
  ⟨id, limits, List.replicate limits.nodeCapacity none, List.replicate limits.edgeCapacity none, 1⟩

def live (g : EpollGraph) : List Edge := g.edges.reduceOption

def allocateGeneration : Act EpollGraph GraphError Nat := do
  let g ← get
  match checkedAdd g.nextGeneration 1 with
  | none => fail .generationExhausted
  | some next => do
      modify fun g => { g with nextGeneration := next }
      pure g.nextGeneration

def validateNode (g : EpollGraph) (token : GraphNodeToken) : Outcome GraphError Nat :=
  if token.graph ≠ g.id then .err .staleToken
  else
    match g.nodes[token.slot]? with
    | some (some node) =>
        if node.generation = token.generation ∧ node.epoll = token.epoll then .ok token.slot else .err .staleToken
    | _ => .err .staleToken

def register (epoll : EpollId) : Act EpollGraph GraphError GraphNodeToken := do
  let g ← get
  if g.nodes.reduceOption.any (·.epoll = epoll) then fail .duplicateNode
  else
    match freeSlot g.nodes with
    | none => fail .capacity
    | some slot => do
        let generation ← allocateGeneration
        modify fun g => { g with nodes := g.nodes.set slot (some ⟨epoll, generation⟩) }
        pure ⟨g.id, slot, generation, epoll⟩

def unregister (node : GraphNodeToken) : Act EpollGraph GraphError Unit := do
  let g ← get
  let _ ← lift (g.validateNode node)
  if g.live.any (fun edge => edge.parent = node ∨ edge.child = some node) then fail .busy
  else modify fun g => { g with nodes := g.nodes.set node.slot none }

def spend : Act Nat GraphError Unit := do
  let budget ← get
  if budget = 0 then fail .walkLimit else set (budget - 1)

/-- `room` is what `path_len` leaves of `nodes.len() + 1`: none is left exactly
when `path_len > nodes.len()`. -/
def reaches (edges : List Edge) (target : GraphNodeToken) : Nat → GraphNodeToken → Act Nat GraphError Bool
  | room, current => do
      spend
      if current = target then pure true
      else
        match room with
        | 0 => fail .cycle
        | room + 1 =>
            edges.anyM fun edge => do
              spend
              if edge.parent = current then
                match edge.child with
                | some child => reaches edges target room child
                | none => pure false
              else pure false

/-- The walk of `max_descendant_depth` and `max_parent_depth`: `next` says where
an edge leads from the current node. -/
def maxDepth (edges : List Edge) (next : GraphNodeToken → Edge → Option GraphNodeToken) :
    Nat → GraphNodeToken → Act Nat GraphError Nat
  | room, current => do
      spend
      match room with
      | 0 => fail .cycle
      | room + 1 =>
          edges.foldlM (fun maximum edge => do
            spend
            match next current edge with
            | none => pure maximum
            | some node => do
                let depth ← maxDepth edges next room node
                match checkedAdd depth 1 with
                | none => fail .nesting
                | some depth => pure (max maximum depth)) 0

def childOf (current : GraphNodeToken) (edge : Edge) : Option GraphNodeToken :=
  if edge.parent ≠ current then none else edge.child

def parentOf (current : GraphNodeToken) (edge : Edge) : Option GraphNodeToken :=
  if edge.child ≠ some current then none else some edge.parent

def maxDescendantDepth (g : EpollGraph) (current : GraphNodeToken) : Act Nat GraphError Nat :=
  maxDepth g.live childOf (g.nodes.length + 1) current

def maxParentDepth (g : EpollGraph) (current : GraphNodeToken) : Act Nat GraphError Nat :=
  maxDepth g.live parentOf (g.nodes.length + 1) current

/-- The edge at `index` has the child, and is the first whose parent is its own. -/
def bringsParent (edges : List (Option Edge)) (child : GraphNodeToken) : Option Edge → Nat → Bool
  | none, _ => false
  | some edge, index =>
      edge.child = some child ∧
        ¬ (edges.take index).reduceOption.any fun earlier => earlier.child = some child ∧ earlier.parent = edge.parent

def distinctParentCount (g : EpollGraph) (child : GraphNodeToken) : Nat :=
  g.edges.zipIdx.countP fun entry => bringsParent g.edges child entry.1 entry.2

def checkCycle (g : EpollGraph) (parent : GraphNodeToken) : Option GraphNodeToken → Act Nat GraphError Unit
  | some child => do
      let found ← reaches g.live parent (g.nodes.length + 1) child
      if found then fail .cycle else pure ()
  | none => pure ()

def childDepth (g : EpollGraph) : Option GraphNodeToken → Act Nat GraphError (Nat × Nat)
  | some child => do
      let depth ← g.maxDescendantDepth child
      pure (depth, 1)
  | none => pure (0, 0)

def checkNesting (g : EpollGraph) (parent : GraphNodeToken) (child : Option GraphNodeToken) :
    Act Nat GraphError Unit := do
  g.checkCycle parent child
  let parentDepth ← g.maxParentDepth parent
  let below ← g.childDepth child
  match (checkedAdd parentDepth below.2).bind (checkedAdd · below.1) with
  | none => fail .nesting
  | some combined => if g.limits.maxNesting < combined then fail .nesting else pure ()

def checkChild (g : EpollGraph) (parent : GraphNodeToken) : Option GraphNodeToken → Outcome GraphError Unit
  | none => .ok ()
  | some child => do
      let _ ← g.validateNode child
      if parent = child then .err .selfCycle
      else if ¬ g.live.any (fun edge => edge.child = some child ∧ edge.parent = parent) ∧
          g.limits.maxParentsPerNode ≤ g.distinctParentCount child then .err .parentLimit
      else .ok ()

def addInterest (parent : GraphNodeToken) (child : Option GraphNodeToken) :
    Act EpollGraph GraphError GraphEdgeToken := do
  let g ← get
  let _ ← lift (g.validateNode parent)
  lift (g.checkChild parent child)
  match freeSlot g.edges with
  | none => fail .capacity
  | some slot => do
      lift (g.checkNesting parent child g.limits.maxWalkSteps).1
      let generation ← allocateGeneration
      modify fun g => { g with edges := g.edges.set slot (some ⟨generation, parent, child⟩) }
      pure ⟨g.id, slot, generation⟩

def removeInterest (token : GraphEdgeToken) : Act EpollGraph GraphError Unit := do
  let g ← get
  if token.graph ≠ g.id then fail .staleToken
  else
    match g.edges[token.slot]? with
    | some (some edge) =>
        if edge.generation ≠ token.generation then fail .staleToken
        else modify fun g => { g with edges := g.edges.set token.slot none }
    | _ => fail .staleToken

open Relation

variable {edges : List Edge} {current target : GraphNodeToken} {room budget : Nat}

def Leads (edges : List Edge) (next : GraphNodeToken → Edge → Option GraphNodeToken) (a b : GraphNodeToken) : Prop :=
  ∃ e ∈ edges, next a e = some b

def Link (edges : List Edge) (a b : GraphNodeToken) : Prop := ∃ e ∈ edges, e.parent = a ∧ e.child = some b

theorem leads_childOf : Leads edges childOf = Link edges := by
  funext a b
  simp [Leads, Link, childOf]

theorem leads_parentOf : Leads edges parentOf = fun a b => Link edges b a := by
  funext a b
  simp [Leads, Link, parentOf, and_comm]

/-- The errors of a walk from `a` with `room` left. -/
inductive WalkFails (R : GraphNodeToken → GraphNodeToken → Prop) (room : Nat) (a : GraphNodeToken) : GraphError → Prop
  | walkLimit : WalkFails R room a .walkLimit
  | cycle {b} (w : Walk R room a b) : WalkFails R room a .cycle
  | nesting {n b} (w : Walk R n a b) (h : usizeMax ≤ n) : WalkFails R room a .nesting

theorem WalkFails.step {R : GraphNodeToken → GraphNodeToken → Prop} {a b : GraphNodeToken} {e : GraphError}
    (hab : R a b) (h : WalkFails R room b e) : WalkFails R (room + 1) a e := by
  cases h with
  | walkLimit => exact .walkLimit
  | cycle w => exact .cycle (.cons hab w)
  | nesting w hn => exact .nesting (.cons hab w) (by omega)

theorem spend_spec {R : GraphNodeToken → GraphNodeToken → Prop} {a : GraphNodeToken} :
    Ensures spend budget (fun _ _ => True) (fun e _ => WalkFails R room a e) False := by
  refine ensures_get_bind ?_
  split
  · exact ensures_fail .walkLimit
  · trivial

theorem reaches_spec : Ensures (reaches edges target room current) budget
    (fun b _ => b = true ↔ ReflTransGen (Link edges) current target)
    (fun e _ => WalkFails (Link edges) room current e) False := by
  induction room generalizing current budget with
  | zero =>
      rw [reaches]
      refine spend_spec.bind fun _ t _ => ?_
      split
      · next h => exact ensures_pure (by simp [h, ReflTransGen.refl])
      · exact ensures_fail (.cycle (.nil current))
  | succ room ih =>
      rw [reaches]
      refine spend_spec.bind fun _ t _ => ?_
      split
      · next h => exact ensures_pure (by simp [h, ReflTransGen.refl])
      next hne =>
      have hhead : ReflTransGen (Link edges) current target ↔
          ∃ e ∈ edges, e.parent = current ∧ ∃ c, e.child = some c ∧ ReflTransGen (Link edges) c target := by
        rw [ReflTransGen.cases_head_iff]
        constructor
        · rintro (h | ⟨c, ⟨e, he, hp, hc⟩, hct⟩)
          · exact absurd h hne
          · exact ⟨e, he, hp, c, hc, hct⟩
        · rintro ⟨e, he, hp, c, hc, hct⟩
          exact .inr ⟨c, ⟨e, he, hp, hc⟩, hct⟩
      simp only [hhead]
      apply ensures_anyM
      intro e he t
      refine spend_spec.bind fun _ t _ => ?_
      split
      · next hp =>
          split
          · next child hc =>
              refine ih.mono (fun b _ hb => ?_) (fun _ _ h => h.step ⟨e, he, hp, hc⟩) False.elim
              simp [hb, hp, hc]
          · next hc => exact ensures_pure (by simp [hc])
      · next hp => exact ensures_pure (by simp [hp])

theorem maxDepth_spec {next : GraphNodeToken → Edge → Option GraphNodeToken} :
    Ensures (maxDepth edges next room current) budget
      (fun d _ => IsDepth (Leads edges next) current d)
      (fun e _ => WalkFails (Leads edges next) room current e) False := by
  induction room generalizing current budget with
  | zero =>
      rw [maxDepth]
      refine spend_spec.bind fun _ t _ => ?_
      exact ensures_fail (.cycle (.nil current))
  | succ room ih =>
      rw [maxDepth]
      refine spend_spec.bind fun _ t _ => ?_
      -- the maximum so far is attained, and bounds the walks through the edges done
      refine (ensures_foldlM (I := fun done d _ => (∃ b, Walk (Leads edges next) d current b) ∧
        ∀ e ∈ done, ∀ b, next current e = some b → ∀ n c, Walk (Leads edges next) n b c → n + 1 ≤ d) edges
        ⟨⟨current, .nil current⟩, by simp⟩ ?_).mono ?_ (fun _ _ h => h) False.elim
      · rintro done e d t ⟨rest, hedges⟩ ⟨⟨b, wd⟩, hdone⟩
        have he : e ∈ edges := by simp [hedges]
        refine spend_spec.bind fun _ t _ => ?_
        split
        · next hnone =>
            refine ensures_pure ⟨⟨b, wd⟩, ?_⟩
            intro x hx
            rcases List.mem_append.mp hx with hx | hx
            · exact hdone x hx
            · simp only [List.mem_singleton] at hx
              simp [hx, hnone]
        · next node hnode =>
            have hlead : Leads edges next current node := ⟨e, he, hnode⟩
            refine (ih.mono (fun _ _ h => h) (fun _ _ h => h.step hlead) False.elim).bind fun depth _ hdepth => ?_
            obtain ⟨⟨c, wc⟩, hmax⟩ := hdepth
            split
            · next hnone =>
                refine ensures_fail (.nesting (.cons hlead wc) ?_)
                rw [checkedAdd] at hnone
                split at hnone
                · cases hnone
                · omega
            · next deeper hsome =>
                obtain ⟨rfl, _⟩ := checkedAdd_eq_some.mp hsome
                refine ensures_pure ⟨?_, ?_⟩
                · rcases le_total d (depth + 1) with h | h
                  · rw [max_eq_right h]
                    exact ⟨c, .cons hlead wc⟩
                  · rw [max_eq_left h]
                    exact ⟨b, wd⟩
                · intro x hx y hy n z w
                  rcases List.mem_append.mp hx with hx | hx
                  · exact le_max_of_le_left (hdone x hx y hy n z w)
                  · simp only [List.mem_singleton] at hx
                    subst hx
                    rw [hnode, Option.some.injEq] at hy
                    subst hy
                    exact le_max_of_le_right (Nat.succ_le_succ (hmax n z w))
      · rintro d _ ⟨hd, hall⟩
        refine ⟨hd, ?_⟩
        intro n b w
        cases w with
        | nil => exact Nat.zero_le d
        | cons h w =>
            obtain ⟨e, he, hnext⟩ := h
            exact hall e he _ hnext _ _ w

end EpollGraph

end TheKernel.Fd
