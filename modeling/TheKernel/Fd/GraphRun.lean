import TheKernel.Fd.Graph

namespace TheKernel.Fd.EpollGraph

open Outcome Act Relation

variable {g : EpollGraph} {a b c parent child : GraphNodeToken} {e : GraphError} {budget : Nat}

def Registered (g : EpollGraph) (t : GraphNodeToken) : Prop :=
  t.graph = g.id ∧ g.nodes[t.slot]? = some (some ⟨t.epoll, t.generation⟩)

instance (g : EpollGraph) (t : GraphNodeToken) : Decidable (g.Registered t) := inferInstanceAs (Decidable (_ ∧ _))

theorem validateNode_eq (g : EpollGraph) (t : GraphNodeToken) :
    g.validateNode t = if g.Registered t then .ok t.slot else .err .staleToken := by
  simp only [validateNode, Registered]
  by_cases hid : t.graph = g.id
  · simp only [hid, ne_eq, not_true_eq_false, if_false, true_and]
    rcases g.nodes[t.slot]? with _ | _ | node
    · rfl
    · rfl
    · cases node
      simp [and_comm]
  · simp [hid]

theorem Registered.eq_of_slot (ha : g.Registered a) (hb : g.Registered b) (h : a.slot = b.slot) : a = b := by
  obtain ⟨hga, hna⟩ := ha
  obtain ⟨hgb, hnb⟩ := hb
  rw [h, hnb] at hna
  simp only [Option.some.injEq, Node.mk.injEq] at hna
  cases a
  cases b
  simp_all

theorem Registered.slot_lt (ha : g.Registered a) : a.slot < g.nodes.length :=
  (List.getElem?_eq_some_iff.mp ha.2).1

def parents (edges : List Edge) (child : GraphNodeToken) : Finset GraphNodeToken :=
  ((edges.filter fun edge => edge.child = some child).map (·.parent)).toFinset

theorem mem_parents {edges : List Edge} : a ∈ parents edges child ↔ Link edges a child := by
  simp [parents, Link, and_left_comm, and_comm]

structure Sound (g : EpollGraph) : Prop where
  nodes_length : g.nodes.length = g.limits.nodeCapacity
  registered : ∀ edge ∈ g.live, g.Registered edge.parent ∧ ∀ c, edge.child = some c → g.Registered c
  acyclic : Acyclic (Link g.live)
  nesting : ∀ n a b, Walk (Link g.live) n a b → n ≤ g.limits.maxNesting
  parents : ∀ c, (parents g.live c).card ≤ g.limits.maxParentsPerNode

theorem parents_concat (l : List (Option Edge)) (edge : Edge) :
    parents (l ++ [some edge]).reduceOption child =
      if edge.child = some child then insert edge.parent (parents l.reduceOption child)
        else parents l.reduceOption child := by
  ext a
  by_cases h : edge.child = some child
  · simp only [mem_parents, Link, List.reduceOption_mem_iff, List.mem_append, List.mem_singleton, h, if_true,
      Finset.mem_insert]
    constructor
    · rintro ⟨x, hx | hx, hp, hc⟩
      · exact .inr ⟨x, hx, hp, hc⟩
      · rw [Option.some.injEq] at hx
        exact .inl (hx ▸ hp.symm)
    · rintro (rfl | ⟨x, hx, hp, hc⟩)
      · exact ⟨edge, .inr rfl, rfl, h⟩
      · exact ⟨x, .inl hx, hp, hc⟩
  · simp only [mem_parents, Link, List.reduceOption_mem_iff, List.mem_append, List.mem_singleton, h, if_false]
    constructor
    · rintro ⟨x, hx | hx, hp, hc⟩
      · exact ⟨x, hx, hp, hc⟩
      · rw [Option.some.injEq] at hx
        exact absurd (hx ▸ hc) h
    · rintro ⟨x, hx, hp, hc⟩
      exact ⟨x, .inl hx, hp, hc⟩

/-- Counting the first edges of each parent counts the parents. -/
theorem distinctParentCount_eq (g : EpollGraph) (child : GraphNodeToken) :
    g.distinctParentCount child = (parents g.live child).card := by
  rw [distinctParentCount, live]
  induction g.edges using List.reverseRecOn with
  | nil => rfl
  | append_singleton l x ih =>
      have hbefore : (l.zipIdx.countP fun entry => bringsParent (l ++ [x]) child entry.1 entry.2) =
          (parents l.reduceOption child).card := by
        rw [← ih]
        apply List.countP_congr
        rintro ⟨edge, index⟩ hmem
        have hlt : index < l.length := by simpa using List.snd_lt_of_mem_zipIdx hmem
        cases edge with
        | none => rfl
        | some edge => rw [bringsParent, bringsParent, List.take_append_of_le_length hlt.le]
      rw [List.zipIdx_append, List.countP_append, hbefore]
      cases x with
      | none => simp [bringsParent, List.reduceOption_append]
      | some edge =>
          have hfirst : bringsParent (l ++ [some edge]) child (some edge) l.length = true ↔
              edge.child = some child ∧ edge.parent ∉ parents l.reduceOption child := by
            simp [bringsParent, mem_parents, Link]
            grind
          rw [parents_concat]
          simp only [List.zipIdx_singleton, Nat.zero_add, List.countP_singleton, hfirst]
          by_cases hc : edge.child = some child
          · by_cases hp : edge.parent ∈ parents l.reduceOption child
            · simp [hc, hp]
            · simp [hc, hp]
          · simp [hc]

/-- Links lead to registered nodes, so that walks stay shorter than the node
table. -/
theorem walk_lt {R : GraphNodeToken → GraphNodeToken → Prop} (hR : Acyclic R)
    (hreg : ∀ a b, R a b → g.Registered b) (ha : g.Registered a) {n : Nat} (w : Walk R n a b) : n < g.nodes.length :=
  hR.walk_lt hreg (fun _ h => h.slot_lt) (fun _ _ ha hb => ha.eq_of_slot hb) ha w

theorem Sound.walkFails (h : Sound g) {R : GraphNodeToken → GraphNodeToken → Prop} (hR : Acyclic R)
    (hreg : ∀ a b, R a b → g.Registered b) (ha : g.Registered a) (he : WalkFails R (g.nodes.length + 1) a e) :
    e = .walkLimit := by
  cases he with
  | walkLimit => rfl
  | cycle w =>
      have hlt := walk_lt hR hreg ha w
      omega
  | nesting w hn =>
      have hlt := walk_lt hR hreg ha w
      have hfinite := g.limits.finite.1
      rw [← h.nodes_length] at hfinite
      omega

theorem Sound.link_child (h : Sound g) (hab : Link g.live a b) : g.Registered b := by
  obtain ⟨edge, hmem, _, hc⟩ := hab
  exact (h.registered edge hmem).2 b hc

theorem Sound.link_parent (h : Sound g) (hab : Link g.live a b) : g.Registered a := by
  obtain ⟨edge, hmem, rfl, _⟩ := hab
  exact (h.registered edge hmem).1

theorem Sound.reaches (h : Sound g) (hc : g.Registered child) :
    Ensures (reaches g.live parent (g.nodes.length + 1) child) budget
      (fun b _ => b = true ↔ ReflTransGen (Link g.live) child parent) (fun e _ => e = .walkLimit) False :=
  reaches_spec.mono (fun _ _ hb => hb) (fun _ _ he => h.walkFails h.acyclic (fun _ _ => h.link_child) hc he) False.elim

theorem Sound.maxDescendantDepth (h : Sound g) (hc : g.Registered child) :
    Ensures (g.maxDescendantDepth child) budget
      (fun d _ => IsDepth (Link g.live) child d) (fun e _ => e = .walkLimit) False := by
  have hspec : Ensures (g.maxDescendantDepth child) budget _ _ _ := maxDepth_spec
  rw [leads_childOf] at hspec
  exact hspec.mono (fun _ _ hd => hd) (fun _ _ he => h.walkFails h.acyclic (fun _ _ => h.link_child) hc he) False.elim

theorem Sound.maxParentDepth (h : Sound g) (hp : g.Registered parent) :
    Ensures (g.maxParentDepth parent) budget
      (fun d _ => IsDepth (fun a b => Link g.live b a) parent d) (fun e _ => e = .walkLimit) False := by
  have hspec : Ensures (g.maxParentDepth parent) budget _ _ _ := maxDepth_spec
  rw [leads_parentOf] at hspec
  exact hspec.mono (fun _ _ hd => hd) (fun _ _ he => h.walkFails h.acyclic.flip (fun _ _ => h.link_parent) hp he)
    False.elim

def Through (edges : List Edge) (parent child : GraphNodeToken) (n : Nat) : Prop :=
  ∃ i j a b, Walk (Link edges) i a parent ∧ Walk (Link edges) j child b ∧ n = i + 1 + j

inductive NestingFails (g : EpollGraph) (parent : GraphNodeToken) : Option GraphNodeToken → GraphError → Prop
  | walkLimit (child : Option GraphNodeToken) : NestingFails g parent child .walkLimit
  | cycle {child : GraphNodeToken} (h : ReflTransGen (Link g.live) child parent) : NestingFails g parent
      (some child) .cycle
  | nesting {child : GraphNodeToken} {n : Nat} (h : ¬ ReflTransGen (Link g.live) child parent)
      (hn : Through g.live parent child n) (hlt : g.limits.maxNesting < n) : NestingFails g parent (some child) .nesting

def Nests (g : EpollGraph) (parent child : GraphNodeToken) : Prop :=
  ¬ ReflTransGen (Link g.live) child parent ∧ ∀ n, Through g.live parent child n → n ≤ g.limits.maxNesting

theorem checkedAdd_combined {x y z limit : Nat} (h : limit < usizeMax) :
    match (checkedAdd x y).bind (checkedAdd · z) with
    | none => limit < x + y + z
    | some combined => combined = x + y + z := by
  simp only [checkedAdd]
  split <;> rename_i heq <;> grind

theorem Sound.checkNesting_some (h : Sound g) (hp : g.Registered parent) (hc : g.Registered child) :
    Ensures (g.checkNesting parent (some child)) budget (fun _ _ => Nests g parent child)
      (fun e _ => NestingFails g parent (some child) e) False := by
  have hlimit : ∀ e : GraphError, e = .walkLimit → NestingFails g parent (some child) e := by
    rintro _ rfl
    exact .walkLimit _
  refine Ensures.bind (p := fun _ _ => ¬ ReflTransGen (Link g.live) child parent) ?_ fun _ _ hnot => ?_
  · refine ((h.reaches hc).mono (fun _ _ hb => hb) (fun e _ => hlimit e) False.elim).bind fun found _ hfound => ?_
    cases found with
    | true => exact ensures_fail (.cycle (hfound.mp rfl))
    | false => exact ensures_pure (by simpa using hfound)
  refine ((h.maxParentDepth hp).mono (fun _ _ hd => hd) (fun e _ => hlimit e) False.elim).bind fun above _ habove => ?_
  refine Ensures.bind (p := fun below _ => IsDepth (Link g.live) child below.1 ∧ below.2 = 1) ?_ ?_
  · refine ((h.maxDescendantDepth hc).mono (fun _ _ hd => hd) (fun e _ => hlimit e) False.elim).bind
      fun below _ hbelow => ?_
    exact ensures_pure ⟨hbelow, rfl⟩
  · rintro ⟨below, _⟩ t ⟨hbelow, rfl⟩
    obtain ⟨⟨a, wa⟩, hamax⟩ := habove
    obtain ⟨⟨b, wb⟩, hbmax⟩ := hbelow
    have hthrough : Through g.live parent child (above + 1 + below) := ⟨above, below, a, b, wa.flip, wb, rfl⟩
    have hsum := checkedAdd_combined (x := above) (y := 1) (z := below) g.limits.finite.2.2.2.1
    simp only
    split
    · next hnone =>
        rw [hnone] at hsum
        exact ensures_fail (.nesting hnot hthrough hsum)
    · next combined hsome =>
        rw [hsome] at hsum
        subst hsum
        split
        · next hlt => exact ensures_fail (.nesting hnot hthrough hlt)
        · next hle =>
            refine ensures_pure ⟨hnot, ?_⟩
            rintro n ⟨i, j, x, y, wx, wy, rfl⟩
            have := hamax i x wx.flip
            have := hbmax j y wy
            omega

theorem Sound.checkNesting_none (h : Sound g) (hp : g.Registered parent) :
    Ensures (g.checkNesting parent none) budget (fun _ _ => True) (fun e _ => NestingFails g parent none e) False := by
  refine Ensures.bind (p := fun _ _ => True) (ensures_pure trivial) fun _ _ _ => ?_
  refine ((h.maxParentDepth hp).mono (fun _ _ hd => hd) ?_ False.elim).bind fun above _ habove => ?_
  · rintro _ _ rfl
    exact .walkLimit none
  refine Ensures.bind (p := fun below _ => below = (0, 0)) (ensures_pure rfl) ?_
  rintro _ _ rfl
  obtain ⟨⟨a, wa⟩, _⟩ := habove
  have hle := h.nesting above a parent wa.flip
  have hsum := checkedAdd_combined (x := above) (y := 0) (z := 0) g.limits.finite.2.2.2.1
  simp only
  split
  · next hnone =>
      rw [hnone] at hsum
      omega
  · next combined hsome =>
      rw [hsome] at hsum
      subst hsum
      rw [if_neg (by omega)]
      exact ensures_pure trivial

def Admits (g : EpollGraph) (parent child : GraphNodeToken) : Prop :=
  parent ∈ parents g.live child ∨ (parents g.live child).card < g.limits.maxParentsPerNode

inductive AddFails (g : EpollGraph) (parent : GraphNodeToken) : Option GraphNodeToken → GraphError → Prop
  | staleParent {child : Option GraphNodeToken} (h : ¬ g.Registered parent) : AddFails g parent child .staleToken
  | staleChild {child : GraphNodeToken} (h : ¬ g.Registered child) : AddFails g parent (some child) .staleToken
  | selfCycle : AddFails g parent (some parent) .selfCycle
  | parentLimit {child : GraphNodeToken} (hne : parent ≠ child) (h : ¬ Admits g parent child) : AddFails g parent
      (some child) .parentLimit
  | capacity {child : Option GraphNodeToken} : AddFails g parent child .capacity
  | nesting {child : Option GraphNodeToken} {e : GraphError}
      (h : NestingFails g parent child e) : AddFails g parent child e
  | generationExhausted {child : Option GraphNodeToken} (h : ∀ c, child = some c → Nests g parent c) :
      AddFails g parent child .generationExhausted

structure Publishable (g : EpollGraph) (parent : GraphNodeToken) (child : Option GraphNodeToken) : Prop where
  parent_registered : g.Registered parent
  child_registered : ∀ c, child = some c → g.Registered c
  admits : ∀ c, child = some c → Admits g parent c
  nests : ∀ c, child = some c → Nests g parent c

def published (g : EpollGraph) (slot : Nat) (parent : GraphNodeToken) (child : Option GraphNodeToken) : EpollGraph :=
  { g with
    edges := g.edges.set slot (some ⟨g.nextGeneration, parent, child⟩)
    nextGeneration := g.nextGeneration + 1 }

theorem checkChild_spec (g : EpollGraph) (parent : GraphNodeToken) (child : Option GraphNodeToken) :
    Ensures (lift (g.checkChild parent child) : Act EpollGraph GraphError Unit) g
      (fun _ t => t = g ∧ ∀ c, child = some c → g.Registered c ∧ Admits g parent c)
      (fun e t => t = g ∧ AddFails g parent child e) False := by
  cases child with
  | none => exact ⟨rfl, by simp⟩
  | some child =>
      rw [checkChild, validateNode_eq]
      by_cases hc : g.Registered child
      · rw [if_pos hc, ok_bind]
        split
        · next heq => exact ⟨rfl, heq ▸ .selfCycle⟩
        · next hne =>
            have hadmits : (¬ g.live.any (fun edge => edge.child = some child ∧ edge.parent = parent) ∧
                g.limits.maxParentsPerNode ≤ g.distinctParentCount child) ↔ ¬ Admits g parent child := by
              rw [Admits, mem_parents, ← distinctParentCount_eq]
              simp only [List.any_eq_true, decide_eq_true_eq, Link, not_or, not_lt, and_comm]
            split
            · next hfull => exact ⟨rfl, .parentLimit hne (hadmits.mp hfull)⟩
            · next hroom =>
                refine ⟨rfl, ?_⟩
                rintro _ ⟨⟩
                exact ⟨hc, not_not.mp fun h => hroom (hadmits.mpr h)⟩
      · rw [if_neg hc]
        exact ⟨rfl, .staleChild hc⟩

theorem Sound.checkNesting (h : Sound g) (budget : Nat) (hp : g.Registered parent) {child : Option GraphNodeToken}
    (hchild : ∀ c, child = some c → g.Registered c) :
    Ensures (g.checkNesting parent child) budget (fun _ _ => ∀ c, child = some c → Nests g parent c)
      (fun e _ => NestingFails g parent child e) False := by
  cases child with
  | none => exact (h.checkNesting_none hp).mono (by simp) (fun _ _ he => he) False.elim
  | some child => exact (h.checkNesting_some hp (hchild child rfl)).mono (by simp) (fun _ _ he => he) False.elim

theorem allocateGeneration_spec (g : EpollGraph) :
    Ensures allocateGeneration g
      (fun generation t => generation = g.nextGeneration ∧ t = { g with nextGeneration := g.nextGeneration + 1 })
      (fun e t => t = g ∧ e = .generationExhausted) False := by
  refine ensures_get_bind ?_
  split
  · exact ensures_fail ⟨rfl, rfl⟩
  · next next hnext =>
      obtain ⟨rfl, _⟩ := checkedAdd_eq_some.mp hnext
      exact ⟨rfl, rfl⟩

theorem Sound.addInterest (h : Sound g) (parent : GraphNodeToken) (child : Option GraphNodeToken) :
    Ensures (addInterest parent child) g
      (fun _ t => ∃ slot, g.edges[slot]? = some none ∧ t = g.published slot parent child ∧ Publishable g parent child)
      (fun e t => t = g ∧ AddFails g parent child e) False := by
  refine ensures_get_bind ?_
  rw [validateNode_eq]
  by_cases hp : g.Registered parent
  · rw [if_pos hp]
    refine ensures_bind_of_eq rfl ?_
    refine (checkChild_spec g parent child).bind ?_
    rintro _ g ⟨rfl, hchild⟩
    split
    · exact ensures_fail ⟨rfl, .capacity⟩
    · next slot hslot =>
        have hnesting := (h.checkNesting g.limits.maxWalkSteps hp fun c hc => (hchild c hc).1).lift_fst (s := g)
        refine (hnesting.mono (fun _ _ h => h) (fun _ _ he => ⟨he.1, .nesting he.2⟩) False.elim).bind ?_
        rintro _ g ⟨rfl, hnests⟩
        refine ((allocateGeneration_spec g).mono (fun _ _ h => h) ?_ False.elim).bind fun generation t ht => ?_
        · rintro _ _ ⟨rfl, rfl⟩
          exact ⟨rfl, .generationExhausted hnests⟩
        · obtain ⟨rfl, rfl⟩ := ht
          exact ⟨slot, getElem?_freeSlot hslot, rfl, hp, fun c hc => (hchild c hc).1, fun c hc => (hchild c hc).2,
            hnests⟩
  · rw [if_neg hp]
    exact ⟨rfl, .staleParent hp⟩

theorem link_published {slot : Nat} (hslot : g.edges[slot]? = some none) (child : Option GraphNodeToken) :
    Link (g.published slot parent child).live a b ↔ Link g.live a b ∨ (a = parent ∧ child = some b) := by
  simp only [Link, live, published, List.reduceOption_mem_iff, mem_set_some hslot]
  constructor
  · rintro ⟨edge, hmem | rfl, hp, hc⟩
    · exact .inl ⟨edge, hmem, hp, hc⟩
    · exact .inr ⟨hp.symm, hc⟩
  · rintro (⟨edge, hmem, hp, hc⟩ | ⟨rfl, hc⟩)
    · exact ⟨edge, .inl hmem, hp, hc⟩
    · exact ⟨_, .inr rfl, rfl, hc⟩

theorem link_published_some {slot : Nat} (hslot : g.edges[slot]? = some none) :
    Link (g.published slot parent (some child)).live = Joined (Link g.live) parent child := by
  funext a b
  rw [link_published hslot, Joined, Option.some.injEq, eq_comm (a := child)]

theorem link_published_none {slot : Nat} (hslot : g.edges[slot]? = some none) :
    Link (g.published slot parent none).live = Link g.live := by
  funext a b
  simp [link_published hslot]

theorem parents_published {slot : Nat} (hslot : g.edges[slot]? = some none) (child : Option GraphNodeToken) :
    parents (g.published slot parent child).live c =
      if child = some c then insert parent (parents g.live c) else parents g.live c := by
  ext a
  split
  · next h => simp [mem_parents, link_published hslot, h, or_comm]
  · next h => simp [mem_parents, link_published hslot, h]

theorem Sound.published (h : Sound g) {slot : Nat} {child : Option GraphNodeToken} (hslot : g.edges[slot]? = some none)
    (hpub : Publishable g parent child) : Sound (g.published slot parent child) where
  nodes_length := h.nodes_length
  registered edge hmem := by
    simp only [live, EpollGraph.published, List.reduceOption_mem_iff, mem_set_some hslot] at hmem
    rcases hmem with hmem | rfl
    · exact h.registered edge (List.reduceOption_mem_iff.mpr hmem)
    · exact ⟨hpub.parent_registered, hpub.child_registered⟩
  acyclic := by
    cases child with
    | none =>
        rw [link_published_none hslot]
        exact h.acyclic
    | some child =>
        rw [link_published_some hslot, acyclic_joined h.acyclic]
        exact (hpub.nests child rfl).1
  nesting n a b w := by
    cases child with
    | none =>
        rw [link_published_none hslot] at w
        exact h.nesting n a b w
    | some child =>
        rw [link_published_some hslot] at w
        obtain ⟨hnot, hthrough⟩ := hpub.nests child rfl
        rcases w.of_joined hnot with w | ⟨i, j, hn, wi, wj⟩
        · exact h.nesting n a b w
        · exact hthrough n ⟨i, j, a, b, wi, wj, hn⟩
  parents c := by
    rw [parents_published hslot]
    split
    · next hc =>
        rcases hpub.admits c hc with hmem | hlt
        · rw [Finset.insert_eq_of_mem hmem]
          exact h.parents c
        · exact (Finset.card_insert_le _ _).trans hlt
    · exact h.parents c

theorem Sound.of_subset (h : Sound g) {g' : EpollGraph} (hlimits : g'.limits = g.limits)
    (hlength : g'.nodes.length = g.nodes.length) (hlive : ∀ edge ∈ g'.live, edge ∈ g.live)
    (hreg : ∀ edge ∈ g'.live, ∀ t, t = edge.parent ∨ edge.child = some t → g.Registered t → g'.Registered t) :
    Sound g' where
  nodes_length := by rw [hlength, hlimits, h.nodes_length]
  registered edge hmem := by
    obtain ⟨hp, hc⟩ := h.registered edge (hlive edge hmem)
    exact ⟨hreg edge hmem _ (.inl rfl) hp, fun c hec => hreg edge hmem c (.inr hec) (hc c hec)⟩
  acyclic := h.acyclic.mono fun _ _ ⟨edge, hmem, hlink⟩ => ⟨edge, hlive edge hmem, hlink⟩
  nesting n a b w := by
    rw [hlimits]
    exact h.nesting n a b (w.mono fun _ _ ⟨edge, hmem, hlink⟩ => ⟨edge, hlive edge hmem, hlink⟩)
  parents c := by
    rw [hlimits]
    refine (Finset.card_le_card ?_).trans (h.parents c)
    intro a ha
    rw [mem_parents] at ha ⊢
    obtain ⟨edge, hmem, hlink⟩ := ha
    exact ⟨edge, hlive edge hmem, hlink⟩

theorem Sound.register (h : Sound g) (epoll : EpollId) :
    Ensures (register epoll) g (fun _ t => Sound t ∧ t.limits = g.limits) (fun _ t => t = g) False := by
  refine ensures_get_bind ?_
  split
  · exact ensures_fail rfl
  · split
    · exact ensures_fail rfl
    · next slot hslot =>
        refine ((allocateGeneration_spec g).mono (fun _ _ h => h) (fun _ _ he => he.1) False.elim).bind
          fun generation t ht => ?_
        obtain ⟨rfl, rfl⟩ := ht
        refine ⟨h.of_subset rfl (List.length_set ..) (fun _ hmem => hmem) ?_, rfl⟩
        rintro edge - t - ⟨hgraph, hnode⟩
        refine ⟨hgraph, ?_⟩
        have hne : slot ≠ t.slot := by
          rintro rfl
          rw [getElem?_freeSlot hslot] at hnode
          cases hnode
        rw [List.getElem?_set_ne hne]
        exact hnode

theorem Sound.unregister (h : Sound g) (node : GraphNodeToken) :
    Ensures (unregister node) g (fun _ t => Sound t ∧ t.limits = g.limits) (fun _ t => t = g) False := by
  refine ensures_get_bind ?_
  rw [validateNode_eq]
  by_cases hnode : g.Registered node
  · rw [if_pos hnode]
    refine ensures_bind_of_eq rfl ?_
    split
    · exact ensures_fail rfl
    · next hbusy =>
        simp only [List.any_eq_true, decide_eq_true_eq, not_exists, not_and, not_or] at hbusy
        refine ⟨h.of_subset rfl (List.length_set ..) (fun _ hmem => hmem) ?_, rfl⟩
        rintro edge hmem t ht hreg
        -- no edge names the node that goes
        have hne : node ≠ t := by
          rintro rfl
          obtain ⟨hp, hc⟩ := hbusy edge hmem
          rcases ht with rfl | ht
          · exact hp rfl
          · exact hc ht
        have hslot : node.slot ≠ t.slot := fun heq => hne (hnode.eq_of_slot hreg heq)
        refine ⟨hreg.1, ?_⟩
        rw [List.getElem?_set_ne hslot]
        exact hreg.2
  · rw [if_neg hnode]
    exact ensures_fail rfl

theorem Sound.removeInterest (h : Sound g) (token : GraphEdgeToken) :
    Ensures (removeInterest token) g (fun _ t => Sound t ∧ t.limits = g.limits) (fun _ t => t = g) False := by
  refine ensures_get_bind ?_
  split
  · exact ensures_fail rfl
  · split
    · split
      · exact ensures_fail rfl
      · refine ⟨h.of_subset rfl rfl ?_ (fun _ _ _ _ hreg => hreg), rfl⟩
        intro edge hmem
        rw [live, List.reduceOption_mem_iff] at hmem ⊢
        exact mem_of_mem_set_none hmem
    · exact ensures_fail rfl

inductive Op where
  | register (epoll : EpollId)
  | unregister (node : GraphNodeToken)
  | addInterest (parent : GraphNodeToken) (child : Option GraphNodeToken)
  | removeInterest (token : GraphEdgeToken)

def step (g : EpollGraph) : Op → EpollGraph
  | .register epoll => (register epoll g).2
  | .unregister node => (unregister node g).2
  | .addInterest parent child => (EpollGraph.addInterest parent child g).2
  | .removeInterest token => (EpollGraph.removeInterest token g).2

def run (id : EpollGraphId) (limits : EpollGraphLimits) (ops : List Op) : EpollGraph :=
  ops.foldl step (tryNew id limits)

theorem sound_tryNew (id : EpollGraphId) (limits : EpollGraphLimits) : Sound (tryNew id limits) := by
  have hlive : (tryNew id limits).live = [] := List.reduceOption_replicate_none
  have hlink : ∀ a b, ¬ Link (tryNew id limits).live a b := by simp [hlive, Link]
  refine ⟨List.length_replicate, by simp [hlive], ?_, ?_, by simp [hlive, parents]⟩
  · intro a ha
    obtain ⟨b, hab, _⟩ := TransGen.head'_iff.mp ha
    exact hlink a b hab
  · intro n a b w
    cases w with
    | nil => exact Nat.zero_le _
    | cons hab _ => exact absurd hab (hlink _ _)

theorem Sound.step (h : Sound g) (op : Op) : Sound (g.step op) ∧ (g.step op).limits = g.limits := by
  have hkeep : ∀ (e : GraphError) t, t = g → Sound t ∧ t.limits = g.limits := by
    rintro _ _ rfl
    exact ⟨h, rfl⟩
  cases op with
  | register epoll => exact ((h.register epoll).mono (fun _ _ ht => ht) hkeep False.elim).final
  | unregister node => exact ((h.unregister node).mono (fun _ _ ht => ht) hkeep False.elim).final
  | removeInterest token => exact ((h.removeInterest token).mono (fun _ _ ht => ht) hkeep False.elim).final
  | addInterest parent child =>
      refine ((h.addInterest _ child).mono ?_ (fun e t he => hkeep e t he.1) False.elim).final
      rintro _ _ ⟨slot, hslot, rfl, hpub⟩
      exact ⟨h.published hslot hpub, rfl⟩

theorem sound_run (id : EpollGraphId) (limits : EpollGraphLimits) (ops : List Op) :
    Sound (run id limits ops) ∧ (run id limits ops).limits = limits := by
  rw [run]
  induction ops using List.reverseRecOn with
  | nil => exact ⟨sound_tryNew id limits, rfl⟩
  | append_singleton ops op ih =>
      rw [List.foldl_append]
      obtain ⟨hsound, hlimits⟩ := ih
      obtain ⟨hsound', hlimits'⟩ := hsound.step op
      exact ⟨hsound', hlimits'.trans hlimits⟩

theorem Sound.closes_iff (h : Sound g) (hp : g.Registered parent) (hc : g.Registered child)
    (hadmits : parent = child ∨ Admits g parent child)
    (hcapacity : (EpollGraph.addInterest parent (some child) g).1 ≠ .err .capacity)
    (hwalk : (EpollGraph.addInterest parent (some child) g).1 ≠ .err .walkLimit) :
    (((EpollGraph.addInterest parent (some child) g).1 = .err .selfCycle ∨
        (EpollGraph.addInterest parent (some child) g).1 = .err .cycle) ↔ ReflTransGen (Link g.live) child parent) ∧
      ((EpollGraph.addInterest parent (some child) g).1 = .err .nesting ↔
        ¬ ReflTransGen (Link g.live) child parent ∧ ∃ n, Through g.live parent child n ∧ g.limits.maxNesting < n) := by
  have hspec := h.addInterest parent (some child)
  rw [Ensures] at hspec
  rcases hres : EpollGraph.addInterest parent (some child) g with ⟨result, t⟩
  rw [hres] at hspec hcapacity hwalk
  cases result with
  | panic => exact hspec.elim
  | ok token =>
      obtain ⟨slot, _, _, hpub⟩ := hspec
      obtain ⟨hnot, hmax⟩ := hpub.nests child rfl
      simp only [reduceCtorEq, or_self, hnot, not_false_eq_true, true_and, false_iff, not_exists, not_and, not_lt]
      exact hmax
  | err e =>
      obtain ⟨_, hfails⟩ := hspec
      simp only [err.injEq]
      cases hfails with
      | staleParent hstale => exact absurd hp hstale
      | staleChild hstale => exact absurd hc hstale
      | selfCycle => simp [ReflTransGen.refl]
      | parentLimit hne hfull =>
          rcases hadmits with heq | hadmits
          · exact absurd heq hne
          · exact absurd hadmits hfull
      | capacity => exact absurd rfl hcapacity
      | nesting hfails =>
          cases hfails with
          | walkLimit => exact absurd rfl hwalk
          | cycle hcycle => simp [hcycle]
          | nesting hnot hn hlt => simpa [hnot] using ⟨_, hn, hlt⟩
      | generationExhausted hnests =>
          obtain ⟨hnot, hmax⟩ := hnests child rfl
          simp only [reduceCtorEq, or_self, hnot, not_false_eq_true, true_and, false_iff, not_exists, not_and, not_lt]
          exact hmax

/-- Through any calls the epoll-to-epoll edges stay acyclic and within the
limits. An edge between registered nodes that the parent limit admits is
refused as a cycle exactly when it would close one, and otherwise for its
nesting exactly when a path through it would be too long, unless the walks run
out of budget or no slot is left. -/
theorem interests_nest (id : EpollGraphId) (limits : EpollGraphLimits) (ops : List Op) :
    let g := run id limits ops
    Acyclic (Link g.live) ∧
    (∀ n a b, Walk (Link g.live) n a b → n ≤ limits.maxNesting) ∧
    (∀ c, (parents g.live c).card ≤ limits.maxParentsPerNode) ∧
    (∀ edge ∈ g.live, g.Registered edge.parent ∧ ∀ c, edge.child = some c → g.Registered c) ∧
    (∀ parent child, (addInterest parent child g).1.isOk = false → (addInterest parent child g).2 = g) ∧
    ∀ parent child, g.Registered parent → g.Registered child → parent = child ∨ Admits g parent child →
      (addInterest parent (some child) g).1 ≠ .err .capacity →
      (addInterest parent (some child) g).1 ≠ .err .walkLimit →
      (((addInterest parent (some child) g).1 = .err .selfCycle ∨
          (addInterest parent (some child) g).1 = .err .cycle) ↔ ¬ Acyclic (Joined (Link g.live) parent child)) ∧
      ((addInterest parent (some child) g).1 = .err .nesting ↔
        Acyclic (Joined (Link g.live) parent child) ∧ ∃ n, Through g.live parent child n ∧ limits.maxNesting < n) := by
  intro g
  obtain ⟨hsound, hlimits⟩ := sound_run id limits ops
  refine ⟨hsound.acyclic, ?_, ?_, hsound.registered, ?_, ?_⟩
  · intro n a b w
    exact hlimits ▸ hsound.nesting n a b w
  · intro c
    exact hlimits ▸ hsound.parents c
  · intro parent child hfail
    have hspec := hsound.addInterest parent child
    rw [Ensures] at hspec
    rcases hres : addInterest parent child g with ⟨result, t⟩
    rw [hres] at hspec hfail
    cases result with
    | ok token => cases hfail
    | err e => exact hspec.1
    | panic => exact hspec.elim
  · intro parent child hp hc hadmits hcapacity hwalk
    have hexact := hsound.closes_iff hp hc hadmits hcapacity hwalk
    rw [hlimits] at hexact
    rw [acyclic_joined hsound.acyclic, not_not]
    exact hexact

def crowdedLimits : EpollGraphLimits := ⟨3, 3, 1, 4, 100, by decide⟩

def watched : GraphNodeToken := ⟨1, 0, 1, 7⟩

def watcher : GraphNodeToken := ⟨1, 1, 2, 8⟩

/-- `watched` has its one parent, and itself watches `watcher`. -/
def crowdedOps : List Op :=
  [.register 7, .register 8, .register 9, .addInterest watched (some watcher), .addInterest ⟨1, 2, 3, 9⟩ (some watched)]

theorem addInterest_crowded : (addInterest watcher (some watched) (run 1 crowdedLimits crowdedOps)).1 =
    .err .parentLimit := by
  decide +kernel

/-- The parent limit is tested first: an edge that would close a cycle is
refused, but not as a cycle. -/
theorem parentLimit_hides_cycle :
    ¬ ∀ (id : EpollGraphId) (limits : EpollGraphLimits) (ops : List Op) (parent child : GraphNodeToken),
      (run id limits ops).Registered parent → (run id limits ops).Registered child →
      (addInterest parent (some child) (run id limits ops)).1 ≠ .err .capacity →
      (addInterest parent (some child) (run id limits ops)).1 ≠ .err .generationExhausted →
      (addInterest parent (some child) (run id limits ops)).1 ≠ .err .walkLimit →
      (((addInterest parent (some child) (run id limits ops)).1 = .err .selfCycle ∨
          (addInterest parent (some child) (run id limits ops)).1 = .err .cycle) ↔
        ¬ Acyclic (Joined (Link (run id limits ops).live) parent child)) := by
  intro h
  have hiff := h 1 crowdedLimits crowdedOps watcher watched (by decide +kernel) (by decide +kernel)
  simp only [addInterest_crowded, ne_eq, err.injEq, reduceCtorEq, not_false_eq_true, or_self, forall_true_left,
    false_iff, not_not] at hiff
  have hlink : Link (run 1 crowdedLimits crowdedOps).live watched watcher :=
    ⟨⟨4, watched, some watcher⟩, by decide +kernel, rfl, rfl⟩
  exact hiff watched (.head (.inl hlink) (.single (.inr ⟨rfl, rfl⟩)))

end TheKernel.Fd.EpollGraph
