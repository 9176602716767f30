import Mathlib.Algebra.GroupWithZero.Nat
import Mathlib.Order.Bounds.Basic
import Mathlib.Order.Fin.Basic
import TheKernel.Eevdf.TreeSearch

namespace TheKernel.Eevdf

open RedBlack

variable {K ε : Type}

namespace EevdfTree

variable (t : EevdfTree K ε)

inductive Below : NodeId → NodeId → Prop
  | refl (p : NodeId) : Below p p
  | child {p q r : NodeId} (s : Side) : (t.nodes p).child s = some q → Below q r → Below p r

def Contains (p : NodeId) : Prop := ∃ root, t.root = some root ∧ t.Below root p

/-- Every way down from the pointer passes the given number of black nodes. -/
inductive BlackHeight : Option NodeId → Nat → Prop
  | null : BlackHeight none 0
  | red {p : NodeId} {n : Nat} : (t.nodes p).color = .red → (∀ s, BlackHeight ((t.nodes p).child s) n) →
      BlackHeight (some p) n
  | black {p : NodeId} {n : Nat} : (t.nodes p).color = .black → (∀ s, BlackHeight ((t.nodes p).child s) n) →
      BlackHeight (some p) (n + 1)

structure WellFormed [LinearOrder K] [LinearOrder ε] : Prop where
  ordered : ∀ p, t.Contains p → ∀ q r, t.Below q r →
    ((t.nodes p).left = some q → (t.nodes r).key < (t.nodes p).key) ∧
      ((t.nodes p).right = some q → (t.nodes p).key < (t.nodes r).key)
  rootParent : ∀ p, t.root = some p → (t.nodes p).parent = none
  parents : ∀ p, t.Contains p → ∀ s q, (t.nodes p).child s = some q → (t.nodes q).parent = some p
  rootBlack : t.color t.root = .black
  redChildren : ∀ p, t.Contains p → (t.nodes p).color = .red → ∀ s, t.color ((t.nodes p).child s) = .black
  blackHeight : ∃ n, t.BlackHeight t.root n
  len : ∃ members : List NodeId, members.Nodup ∧ (∀ p, p ∈ members ↔ t.Contains p) ∧ t.len = members.length
  subtreeMin : ∀ p, t.Contains p → IsLeast {e | ∃ q, t.Below p q ∧ (t.nodes q).eligibleAt = e} (t.nodes p).subtreeMin

end EevdfTree

section Pointers

variable {t : EevdfTree K ε} {k : ShapePath K ε} {T S : Shape K ε}

theorem Represents.below_iff (h : Represents t (plug k S)) {p : NodeId} (hp : ptr S = some p) (q : NodeId) :
    t.Below p q ↔ q ∈ S.items.map Entry.id := by
  constructor
  · intro hbelow
    induction hbelow generalizing k S with
    | refl p =>
        obtain ⟨a, ha, hid⟩ := ptr_mem hp
        exact List.mem_map.mpr ⟨a, ha, hid⟩
    | @child p c q s hchild _ ih =>
        cases S with
        | leaf => cases hp
        | node col l a m r =>
            obtain rfl : a.id = p := Option.some.inj hp
            have hcell : t.nodes a.id = _ := Represents.cell (s := .left) h
            rw [hcell] at hchild
            cases s with
            | left =>
                have := ih (k := ⟨.left, col, a, m, r⟩ :: k) (S := l) h hchild
                simp only [Tree.items, List.map_append, List.mem_append]
                exact .inl this
            | right =>
                have := ih (k := ⟨.right, col, a, m, l⟩ :: k) (S := r) h hchild
                simp only [Tree.items, List.map_append, List.map_cons, List.mem_append, List.mem_cons]
                exact .inr (.inr this)
  · intro hq
    induction S generalizing k p with
    | leaf => cases hp
    | node col l a m r ihl ihr =>
        obtain rfl : a.id = p := Option.some.inj hp
        have hcell : t.nodes a.id = _ := Represents.cell (s := .left) h
        simp only [Tree.items, List.map_append, List.map_cons, List.mem_append, List.mem_cons] at hq
        rcases hq with hq | rfl | hq
        · obtain ⟨c, hc⟩ : ∃ c, ptr l = some c := by
            cases l with
            | leaf => cases hq
            | node => exact ⟨_, rfl⟩
          exact .child .left (by rw [hcell]; exact hc) (ihl (k := ⟨.left, col, a, m, r⟩ :: k) h hc hq)
        · exact .refl _
        · obtain ⟨c, hc⟩ : ∃ c, ptr r = some c := by
            cases r with
            | leaf => cases hq
            | node => exact ⟨_, rfl⟩
          exact .child .right (by rw [hcell]; exact hc) (ihr (k := ⟨.right, col, a, m, l⟩ :: k) h hc hq)

theorem Represents.contains_iff (h : Represents t T) (p : NodeId) : t.Contains p ↔ p ∈ T.items.map Entry.id := by
  rw [EevdfTree.Contains, h.root]
  constructor
  · rintro ⟨root, hroot, hbelow⟩
    exact (Represents.below_iff (k := []) h hroot p).mp hbelow
  · intro hp
    obtain ⟨root, hroot⟩ : ∃ root, ptr T = some root := by
      cases T with
      | leaf => cases hp
      | node => exact ⟨_, rfl⟩
    exact ⟨root, hroot, (Represents.below_iff (k := []) h hroot p).mpr hp⟩

theorem Represents.blackHeight (h : Represents t (plug k S)) {n : Nat} (hb : S.Balanced n) :
    t.BlackHeight (ptr S) n := by
  induction S generalizing k n with
  | leaf =>
      obtain rfl : n = 0 := hb
      exact .null
  | node c l a m r ihl ihr =>
      have hcell : t.nodes a.id = _ := Represents.cell (s := .left) h
      have hsides : ∀ {n}, l.Balanced n → r.Balanced n → ∀ s, t.BlackHeight ((t.nodes a.id).child s) n := by
        intro n hl hr s
        rw [hcell]
        cases s with
        | left => exact ihl (k := ⟨.left, c, a, m, r⟩ :: k) h hl
        | right => exact ihr (k := ⟨.right, c, a, m, l⟩ :: k) h hr
      cases c with
      | red =>
          obtain ⟨hl, hr, -, -⟩ := hb
          exact .red (by rw [hcell, cell_color]) (hsides hl hr)
      | black =>
          obtain ⟨n, rfl, hl, hr⟩ := hb
          exact .black (by rw [hcell, cell_color]) (hsides hl hr)

variable [LinearOrder K] [LinearOrder ε] [OrderTop ε]

/-- The subtree of a contained node, with the facts of the tree at that place. -/
theorem Tidy.focus (h : Tidy t T) {p : NodeId} (hp : t.Contains p) :
    ∃ k c l a m r, T = plug k (.node c l a m r) ∧ p = a.id ∧ t.nodes p = cell .left (parentPtr k) c (ptr l) a m
      (ptr r) ∧
      Sorted (RedBlack.Tree.node c l a m r).items ∧ (RedBlack.Tree.node c l a m r).Exact Entry.eligibleAt ∧
      ∃ n, (RedBlack.Tree.node c l a m r).Balanced n := by
  obtain ⟨a, ha, rfl⟩ := List.mem_map.mp ((h.represents.contains_iff p).mp hp)
  obtain ⟨k, c, l, m, r, rfl⟩ := exists_focus ha
  obtain ⟨n, -, hb, -⟩ := Path.valid_plug.mp h.valid
  exact ⟨k, c, l, a, m, r, rfl, rfl, Represents.cell (s := .left) h.represents, h.sorted.subtree,
    (Path.exact_plug.mp h.exact).2, n, hb⟩

theorem Tidy.wellFormed (h : Tidy t T) : t.WellFormed where
  ordered := by
    intro p hp q r hbelow
    obtain ⟨k, c, l, a, m, s, rfl, rfl, hcell, hsorted, -⟩ := h.focus hp
    obtain ⟨hless, hmore⟩ := hsorted.node
    have hkey : ∀ b ∈ (RedBlack.Tree.node c l a m s).items, (t.nodes b.id).key = b.key :=
      fun b hb => (h.represents.entry (mem_items_plug.mpr (.inr hb))).1
    constructor
    · intro hq
      rw [hcell] at hq
      obtain ⟨b, hb, rfl⟩ := List.mem_map.mp
        ((Represents.below_iff (k := ⟨.left, c, a, m, s⟩ :: k) (S := l) h.represents hq r).mp hbelow)
      rw [hkey b (by simp [Tree.items, hb]), hcell, cell_key]
      exact hless b hb
    · intro hq
      rw [hcell] at hq
      obtain ⟨b, hb, rfl⟩ := List.mem_map.mp
        ((Represents.below_iff (k := ⟨.right, c, a, m, l⟩ :: k) (S := s) h.represents hq r).mp hbelow)
      rw [hkey b (by simp [Tree.items, hb]), hcell, cell_key]
      exact hmore b hb
  rootParent := by
    intro p hp
    rw [h.represents.root] at hp
    cases T with
    | leaf => cases hp
    | node c l a m r =>
        obtain rfl : a.id = p := Option.some.inj hp
        have hcell : t.nodes a.id = _ := Represents.cell (k := []) (s := .left) h.represents
        rw [hcell, cell_parent]
        rfl
  parents := by
    intro p hp s q hq
    obtain ⟨k, c, l, a, m, r, rfl, rfl, hcell, -⟩ := h.focus hp
    have hchild : ∀ {X : Shape K ε} {f : Frame (Entry K ε) ε}, Represents t (plug (f :: k) X) → ptr X = some q →
        (t.nodes q).parent = some f.item.id := by
      intro X f hX hptr
      cases X with
      | leaf => cases hptr
      | node c' l' b m' r' =>
          obtain rfl : b.id = q := Option.some.inj hptr
          have hcell' : t.nodes b.id = _ := Represents.cell (s := .left) hX
          rw [hcell', cell_parent, parentPtr_cons]
    rw [hcell] at hq
    cases s with
    | left => exact hchild (f := ⟨.left, c, a, m, r⟩) h.represents hq
    | right => exact hchild (f := ⟨.right, c, a, m, l⟩) h.represents hq
  rootBlack := by
    rw [h.represents.root, Represents.color_ptr (k := []) h.represents]
    exact h.valid.1
  redChildren := by
    intro p hp hred s
    obtain ⟨k, c, l, a, m, r, rfl, rfl, hcell, -, -, n, hb⟩ := h.focus hp
    rw [hcell, cell_color] at hred
    subst hred
    obtain ⟨-, -, hl, hr⟩ := hb
    rw [hcell]
    cases s with
    | left => exact (Represents.color_ptr (k := ⟨.left, .red, a, m, r⟩ :: k) (T := l) h.represents).trans hl
    | right => exact (Represents.color_ptr (k := ⟨.right, .red, a, m, l⟩ :: k) (T := r) h.represents).trans hr
  blackHeight := by
    obtain ⟨-, n, hb⟩ := h.valid
    rw [h.represents.root]
    exact ⟨n, Represents.blackHeight (k := []) h.represents hb⟩
  len := by
    refine ⟨T.items.map Entry.id, h.represents.nodup, fun p => (h.represents.contains_iff p).symm, ?_⟩
    rw [h.len, List.length_map, Tree.length_items]
  subtreeMin := by
    intro p hp
    obtain ⟨k, c, l, a, m, r, rfl, rfl, hcell, -, hexact, -⟩ := h.focus hp
    have hbelow := Represents.below_iff (S := .node c l a m r) h.represents rfl
    have heligible : ∀ b ∈ (RedBlack.Tree.node c l a m r).items, (t.nodes b.id).eligibleAt = b.eligibleAt :=
      fun b hb => (h.represents.entry (mem_items_plug.mpr (.inr hb))).2.1
    rw [hcell, cell_subtreeMin]
    constructor
    · obtain ⟨b, hb, heq⟩ := Tree.Exact.cached_attained _ hexact (by simp)
      exact ⟨b.id, (hbelow b.id).mpr (List.mem_map_of_mem hb), (heligible b hb).trans heq.symm⟩
    · rintro e ⟨q, hq, rfl⟩
      obtain ⟨b, hb, rfl⟩ := List.mem_map.mp ((hbelow q).mp hq)
      rw [heligible b hb]
      exact Tree.Exact.cached_le _ hexact b hb

end Pointers

abbrev TreeId := Nat

structure TreeHead where
  root : Option NodeId
  len : Nat

structure Forest (K ε : Type) where
  nodes : NodeId → NodeState K ε
  heads : TreeId → TreeHead

inductive TreeOp (K ε : Type) where
  | newUnlinked (node : NodeId) (key : K) (eligibleAt : ε)
  | stageUnlinked (node : NodeId) (key : K) (eligibleAt : ε)
  | insert (tree : TreeId) (node : NodeId)
  | remove (tree : TreeId) (node : NodeId)
  | popEarliestEligible (tree : TreeId) (now : ε)

inductive TreeReply where
  | done
  | popped (node : Option NodeId)
  | refused (error : EevdfTreeError)

namespace Forest

variable (s : Forest K ε)

def tree (i : TreeId) : EevdfTree K ε := ⟨s.nodes, (s.heads i).root, (s.heads i).len⟩

def put (i : TreeId) (t : EevdfTree K ε) : Forest K ε := ⟨t.nodes, Function.update s.heads i ⟨t.root, t.len⟩⟩

/-- `none` is the failed assertion of `stage_unlinked`. A new node takes the
place of one that no tree owns. -/
def step [LinearOrder K] [LinearOrder ε] [OrderTop ε] : TreeOp K ε → Option (TreeReply × Forest K ε)
  | .newUnlinked p key eligibleAt =>
      if (s.nodes p).linked then none
      else some (.done, { s with nodes := Function.update s.nodes p (.newUnlinked key eligibleAt) })
  | .stageUnlinked p key eligibleAt =>
      if (s.nodes p).linked then none
      else some (.done, { s with nodes := Function.update s.nodes p ((s.nodes p).stageUnlinked key eligibleAt) })
  | .insert i p => do
      match ← (s.tree i).insert p with
      | .error e => some (.refused e, s)
      | .ok t => some (.done, s.put i t)
  | .remove i p => do
      match ← (s.tree i).remove p with
      | .error e => some (.refused e, s)
      | .ok t => some (.done, s.put i t)
  | .popEarliestEligible i now => do
      let (node, t) ← (s.tree i).popEarliestEligible now
      some (.popped node, s.put i t)

structure Initial : Prop where
  nodes : ∀ p, (s.nodes p).linked = false
  heads : ∀ i, s.heads i = ⟨none, 0⟩

def fresh (key : NodeId → K) (eligibleAt : NodeId → ε) : Forest K ε :=
  ⟨fun p => .newUnlinked (key p) (eligibleAt p), fun _ => ⟨none, 0⟩⟩

theorem fresh_initial (key : NodeId → K) (eligibleAt : NodeId → ε) : (fresh key eligibleAt).Initial :=
  ⟨fun _ => rfl, fun _ => rfl⟩

inductive Reachable [LinearOrder K] [LinearOrder ε] [OrderTop ε] : Forest K ε → Prop
  | initial {s : Forest K ε} : s.Initial → Reachable s
  | step {s s' : Forest K ε} {op : TreeOp K ε} {reply : TreeReply} :
      Reachable s → s.step op = some (reply, s') → Reachable s'

def run [LinearOrder K] [LinearOrder ε] [OrderTop ε] (s : Forest K ε) :
    List (TreeOp K ε) → Option (List TreeReply × Forest K ε)
  | [] => some ([], s)
  | op :: ops => do
      let (reply, s) ← s.step op
      let (replies, s) ← s.run ops
      some (reply :: replies, s)

theorem Reachable.run [LinearOrder K] [LinearOrder ε] [OrderTop ε] {s s' : Forest K ε} (h : s.Reachable)
    {ops : List (TreeOp K ε)} {replies : List TreeReply} (hrun : s.run ops = some (replies, s')) : s'.Reachable := by
  induction ops generalizing s replies with
  | nil =>
      cases hrun
      exact h
  | cons op ops ih =>
      simp only [Forest.run, Option.bind_eq_bind, Option.bind_eq_some_iff] at hrun
      obtain ⟨⟨reply, s₁⟩, hstep, ⟨replies', s₂⟩, hrest, heq⟩ := hrun
      cases heq
      exact ih (h.step hstep) hrest

end Forest

section Forest

variable [LinearOrder K] [LinearOrder ε] [OrderTop ε] {s s' : Forest K ε}

/-- Every tree is tidy, and a node is linked while it is in one of them. -/
structure Planted (s : Forest K ε) (shapes : TreeId → Shape K ε) : Prop where
  tidy : ∀ i, Tidy (s.tree i) (shapes i)
  apart : ∀ i j p, i ≠ j → p ∈ (shapes i).items.map Entry.id → p ∉ (shapes j).items.map Entry.id
  linked : ∀ p, (s.nodes p).linked = true ↔ ∃ i, p ∈ (shapes i).items.map Entry.id

omit [OrderTop ε] [LinearOrder ε] [LinearOrder K] in
theorem tree_put (i : TreeId) (t : EevdfTree K ε) : (s.put i t).tree i = t := by
  rw [Forest.tree, Forest.put]
  simp

theorem Planted.initial (h : s.Initial) : Planted s fun _ => .leaf where
  tidy i := by
    refine ⟨⟨?_, trivial, List.nodup_nil⟩, ⟨rfl, 0, rfl⟩, trivial, List.Pairwise.nil, ?_⟩
    · rw [Forest.tree, h.heads]
      rfl
    · rw [Forest.tree, h.heads]
      rfl
  apart _ _ _ _ hp := by cases hp
  linked p := by simp [h.nodes, Tree.items]

variable {shapes : TreeId → Shape K ε}

/-- One tree is exchanged for another, and the other trees keep their nodes. -/
theorem Planted.put (h : Planted s shapes) {i : TreeId} {t' : EevdfTree K ε} {T' : Shape K ε} (htidy : Tidy t' T')
    (hother : ∀ p, p ∉ (shapes i).items.map Entry.id → p ∉ T'.items.map Entry.id → t'.nodes p = s.nodes p)
    (hnew : ∀ p ∈ T'.items.map Entry.id, p ∉ (shapes i).items.map Entry.id → (s.nodes p).linked = false)
    (hold : ∀ p ∈ (shapes i).items.map Entry.id, p ∉ T'.items.map Entry.id → (t'.nodes p).linked = false) :
    Planted (s.put i t') (Function.update shapes i T') := by
  have hout : ∀ j, j ≠ i → ∀ p ∈ (shapes j).items.map Entry.id,
      p ∉ (shapes i).items.map Entry.id ∧ p ∉ T'.items.map Entry.id := by
    intro j hj p hp
    have hi := h.apart j i p hj hp
    refine ⟨hi, fun hp' => ?_⟩
    have hlinked := (h.linked p).mpr ⟨j, hp⟩
    rw [hnew p hp' hi] at hlinked
    cases hlinked
  refine ⟨?_, ?_, ?_⟩
  · intro j
    by_cases hj : j = i
    · subst hj
      rw [tree_put, Function.update_self]
      exact htidy
    · rw [Function.update_of_ne hj]
      have hold := h.tidy j
      have hhead : (s.put i t').heads j = s.heads j := Function.update_of_ne hj ..
      refine ⟨hold.represents.of_nodes ?_ ?_, hold.valid, hold.exact, hold.sorted, ?_⟩
      · rw [Forest.tree, hhead]
        rfl
      · intro a ha
        obtain ⟨h1, h2⟩ := hout j hj a.id (List.mem_map_of_mem ha)
        exact hother a.id h1 h2
      · rw [← hold.len, Forest.tree, hhead]
        rfl
  · intro j l p hjl hp
    by_cases hj : j = i
    · subst hj
      rw [Function.update_self] at hp
      rw [Function.update_of_ne hjl.symm]
      exact fun hl => (hout l hjl.symm p hl).2 hp
    · rw [Function.update_of_ne hj] at hp
      by_cases hl : l = i
      · subst hl
        rw [Function.update_self]
        exact (hout j hj p hp).2
      · rw [Function.update_of_ne hl]
        exact h.apart j l p hjl hp
  · intro p
    change (t'.nodes p).linked = true ↔ _
    have hsplit : (∃ j, p ∈ (Function.update shapes i T' j).items.map Entry.id) ↔
        p ∈ T'.items.map Entry.id ∨ ∃ j, j ≠ i ∧ p ∈ (shapes j).items.map Entry.id := by
      constructor
      · rintro ⟨j, hj⟩
        by_cases hji : j = i
        · subst hji
          rw [Function.update_self] at hj
          exact .inl hj
        · rw [Function.update_of_ne hji] at hj
          exact .inr ⟨j, hji, hj⟩
      · rintro (hp | ⟨j, hji, hj⟩)
        · exact ⟨i, by rw [Function.update_self]; exact hp⟩
        · exact ⟨j, by rw [Function.update_of_ne hji]; exact hj⟩
    rw [hsplit]
    by_cases hp' : p ∈ T'.items.map Entry.id
    · obtain ⟨a, ha, rfl⟩ := List.mem_map.mp hp'
      simp [(htidy.represents.entry ha).2.2, hp']
    · by_cases hp : p ∈ (shapes i).items.map Entry.id
      · rw [hold p hp hp']
        refine ⟨nofun, ?_⟩
        rintro (hT | ⟨j, hj, hpj⟩)
        · exact absurd hT hp'
        · exact absurd hp (hout j hj p hpj).1
      · rw [hother p hp hp', h.linked]
        constructor
        · rintro ⟨j, hj⟩
          refine .inr ⟨j, ?_, hj⟩
          rintro rfl
          exact hp hj
        · rintro (hT | ⟨j, -, hpj⟩)
          · exact absurd hT hp'
          · exact ⟨j, hpj⟩

theorem Planted.write (h : Planted s shapes) {p : NodeId} (hp : (s.nodes p).linked = false) {n : NodeState K ε}
    (hn : n.linked = false) : Planted { s with nodes := Function.update s.nodes p n } shapes := by
  have hout : ∀ i, p ∉ (shapes i).items.map Entry.id := by
    intro i hi
    have := (h.linked p).mpr ⟨i, hi⟩
    rw [hp] at this
    cases this
  refine ⟨?_, h.apart, ?_⟩
  · intro i
    have hold := h.tidy i
    refine ⟨hold.represents.of_nodes rfl ?_, hold.valid, hold.exact, hold.sorted, hold.len⟩
    intro a ha
    refine Function.update_of_ne ?_ ..
    rintro rfl
    exact hout i (List.mem_map_of_mem ha)
  · intro q
    by_cases hq : q = p
    · subst hq
      simp only [Function.update_self, hn]
      refine ⟨nofun, ?_⟩
      rintro ⟨i, hi⟩
      exact absurd hi (hout i)
    · simp only [Function.update_of_ne hq]
      exact h.linked q

theorem Planted.inserted (h : Planted s shapes) {i : TreeId} {e : Entry K ε} {t' : EevdfTree K ε} {T' : Shape K ε}
    (he : (s.nodes e.id).linked = false) (hins : Inserted (shapes i) T' e (s.tree i) t') :
    Planted (s.put i t') (Function.update shapes i T') := by
  obtain ⟨a, b, hitems, hitems'⟩ := hins.items
  have hmem : ∀ p, p ∈ T'.items.map Entry.id ↔ p = e.id ∨ p ∈ (shapes i).items.map Entry.id := by
    intro p
    simp only [hitems, hitems', List.map_append, List.map_cons, List.mem_append, List.mem_cons]
    tauto
  refine h.put hins.tidy (fun p _ hp' => hins.other p hp') ?_ ?_
  · intro p hp' hp
    rcases (hmem p).mp hp' with rfl | hp'
    · exact he
    · exact absurd hp' hp
  · intro p hp hp'
    exact absurd ((hmem p).mpr (.inr hp)) hp'

omit [LinearOrder K] in
theorem Removed.mem_iff {t t' : EevdfTree K ε} {T T' : Shape K ε} {z : Entry K ε} (hr : Removed T T' z t t')
    (hT : (T.items.map Entry.id).Nodup) (p : NodeId) :
    p ∈ T'.items.map Entry.id ↔ p ∈ T.items.map Entry.id ∧ p ≠ z.id := by
  obtain ⟨a, b, hitems, hitems'⟩ := hr.items
  rw [hitems, List.map_append, List.map_cons, List.nodup_middle, List.nodup_cons] at hT
  rw [hitems, hitems']
  simp only [List.map_append, List.map_cons, List.mem_append, List.mem_cons] at hT ⊢
  constructor
  · intro hp
    refine ⟨by tauto, ?_⟩
    rintro rfl
    exact hT.1 hp
  · rintro ⟨hp, hne⟩
    tauto

theorem Planted.removed (h : Planted s shapes) {i : TreeId} {z : Entry K ε} {t' : EevdfTree K ε} {T' : Shape K ε}
    (hr : Removed (shapes i) T' z (s.tree i) t') : Planted (s.put i t') (Function.update shapes i T') := by
  have hmem := hr.mem_iff (h.tidy i).represents.nodup
  refine h.put (hr.tidy (h.tidy i)) (fun p hp _ => hr.other p hp) ?_ ?_
  · intro p hp' hp
    exact absurd ((hmem p).mp hp').1 hp
  · intro p hp hp'
    obtain rfl : p = z.id := by
      by_contra hne
      exact hp' ((hmem p).mpr ⟨hp, hne⟩)
    rw [hr.node]
    rfl

theorem Planted.contains_iff (h : Planted s shapes) (i : TreeId) (p : NodeId) :
    (s.tree i).Contains p ↔ p ∈ (shapes i).items.map Entry.id := (h.tidy i).represents.contains_iff p

/-- The trees that an operation does not work on keep their nodes. -/
theorem Planted.contains_of_ne (h : Planted s shapes) {i j : TreeId} (hj : j ≠ i) {t' : EevdfTree K ε} {T' : Shape K ε}
    (h' : Planted (s.put i t') (Function.update shapes i T')) (p : NodeId) :
    ((s.put i t').tree j).Contains p ↔ (s.tree j).Contains p := by
  rw [h'.contains_iff, h.contains_iff, Function.update_of_ne hj]

inductive InsertOutcome (s : Forest K ε) (i : TreeId) (p : NodeId) : TreeReply → Forest K ε → Prop
  | alreadyLinked : (s.nodes p).linked = true → InsertOutcome s i p (.refused .alreadyLinked) s
  | duplicateKey (q : NodeId) : (s.nodes p).linked = false → (s.tree i).Contains q → (s.nodes q).key = (s.nodes p).key →
      InsertOutcome s i p (.refused .duplicateKey) s
  | done {s' : Forest K ε} : (s.nodes p).linked = false →
      (∀ q, (s.tree i).Contains q → (s.nodes q).key ≠ (s.nodes p).key) →
      (∀ q, (s'.tree i).Contains q ↔ (s.tree i).Contains q ∨ q = p) →
      (∀ j q, j ≠ i → ((s'.tree j).Contains q ↔ (s.tree j).Contains q)) → InsertOutcome s i p .done s'

theorem Planted.insert (h : Planted s shapes) (i : TreeId) (p : NodeId) :
    ∃ reply s' shapes', s.step (.insert i p) = some (reply, s') ∧ Planted s' shapes' ∧
      InsertOutcome s i p reply s' := by
  have htidy := h.tidy i
  have hraw : (s.nodes p).linked = true ∨ p ∉ (shapes i).items.map Entry.id := by
    by_cases hp : p ∈ (shapes i).items.map Entry.id
    · exact .inl ((h.linked p).mpr ⟨i, hp⟩)
    · exact .inr hp
  rw [Forest.step]
  rcases insert_spec htidy hraw with ⟨hrun, hlinked⟩ | ⟨hrun, hlinked, a, ha, hkey⟩ | ⟨hlinked, t', T', hrun, hins⟩
  · exact ⟨_, s, shapes, by rw [hrun]; rfl, h, .alreadyLinked hlinked⟩
  · refine ⟨_, s, shapes, by rw [hrun]; rfl, h, .duplicateKey a.id hlinked ?_ ?_⟩
    · exact (h.contains_iff i a.id).mpr (List.mem_map_of_mem ha)
    · exact (htidy.represents.entry ha).1.trans hkey
  · obtain ⟨a, b, hitems, hitems'⟩ := hins.items
    have hplanted := h.inserted (e := ⟨p, (s.nodes p).key, (s.nodes p).eligibleAt⟩) hlinked hins
    have hsorted := hins.tidy.sorted
    rw [hitems', Sorted, List.pairwise_append, List.pairwise_cons] at hsorted
    refine ⟨_, _, _, by rw [hrun]; rfl, hplanted, .done hlinked ?_ ?_ fun j q hj => h.contains_of_ne hj hplanted q⟩
    · intro q hq heq
      obtain ⟨c, hc, rfl⟩ := List.mem_map.mp ((h.contains_iff i q).mp hq)
      have hkey : c.key = (s.nodes p).key := ((htidy.represents.entry hc).1).symm.trans heq
      rw [hitems] at hc
      rcases List.mem_append.mp hc with hc | hc
      · exact (hsorted.2.2 c hc _ List.mem_cons_self).ne hkey
      · exact (hsorted.2.1.1 c hc).ne hkey.symm
    · intro q
      rw [hplanted.contains_iff, h.contains_iff, Function.update_self, hitems, hitems']
      simp only [List.map_append, List.map_cons, List.mem_append, List.mem_cons]
      tauto

inductive RemoveOutcome (s : Forest K ε) (i : TreeId) (p : NodeId) : TreeReply → Forest K ε → Prop
  | foreignNode : ¬(s.tree i).Contains p → RemoveOutcome s i p (.refused .foreignNode) s
  | done {s' : Forest K ε} : (s.tree i).Contains p → (s'.nodes p).linked = false →
      (∀ q, (s'.tree i).Contains q ↔ (s.tree i).Contains q ∧ q ≠ p) →
      (∀ j q, j ≠ i → ((s'.tree j).Contains q ↔ (s.tree j).Contains q)) → RemoveOutcome s i p .done s'

theorem Planted.remove (h : Planted s shapes) (i : TreeId) (p : NodeId) :
    ∃ reply s' shapes', s.step (.remove i p) = some (reply, s') ∧ Planted s' shapes' ∧
      RemoveOutcome s i p reply s' := by
  rw [Forest.step]
  rcases remove_spec (h.tidy i) p with ⟨hrun, hp⟩ | ⟨z, hz, rfl, t', T', hrun, hr⟩
  · exact ⟨_, s, shapes, by rw [hrun]; rfl, h, .foreignNode (mt (h.contains_iff i p).mp hp)⟩
  · have hplanted := h.removed hr
    refine ⟨_, _, _, by rw [hrun]; rfl, hplanted, .done ?_ ?_ ?_ fun j q hj => h.contains_of_ne hj hplanted q⟩
    · exact (h.contains_iff i z.id).mpr (List.mem_map_of_mem hz)
    · exact congrArg NodeState.linked hr.node
    · intro q
      rw [hplanted.contains_iff, h.contains_iff, Function.update_self]
      exact hr.mem_iff (h.tidy i).represents.nodup q

def Earliest (s : Forest K ε) (i : TreeId) (now : ε) (p : NodeId) : Prop :=
  (s.tree i).Contains p ∧ (s.nodes p).eligibleAt ≤ now ∧
    ∀ q, (s.tree i).Contains q → (s.nodes q).eligibleAt ≤ now → (s.nodes p).key ≤ (s.nodes q).key

inductive PopOutcome (s : Forest K ε) (i : TreeId) (now : ε) : Option NodeId → Forest K ε → Prop
  | empty : (∀ q, (s.tree i).Contains q → now < (s.nodes q).eligibleAt) → PopOutcome s i now none s
  | popped {p : NodeId} {s' : Forest K ε} : Earliest s i now p → (s'.nodes p).linked = false →
      (∀ q, (s'.tree i).Contains q ↔ (s.tree i).Contains q ∧ q ≠ p) →
      (∀ j q, j ≠ i → ((s'.tree j).Contains q ↔ (s.tree j).Contains q)) → PopOutcome s i now (some p) s'

theorem Planted.pop (h : Planted s shapes) (i : TreeId) (now : ε) :
    ∃ node s' shapes', (s.tree i).peekEarliestEligible now = some node ∧
      s.step (.popEarliestEligible i now) = some (.popped node, s') ∧ Planted s' shapes' ∧
        PopOutcome s i now node s' := by
  have htidy := h.tidy i
  rw [Forest.step, peekEarliestEligible_spec htidy now]
  rcases popEarliestEligible_spec htidy now with ⟨hfind, hrun⟩ | ⟨z, t', T', hfind, hrun, hr⟩
  · have hput : s.put i (s.tree i) = s := by
      rw [Forest.put, Forest.tree]
      simp
    refine ⟨none, s, shapes, by rw [hfind]; rfl, ?_, h, .empty ?_⟩
    · rw [hrun]
      exact congrArg (fun s => some (TreeReply.popped none, s)) hput
    · intro q hq
      obtain ⟨a, ha, rfl⟩ := List.mem_map.mp ((h.contains_iff i q).mp hq)
      have hlt := List.find?_eq_none.mp hfind a ha
      rw [decide_eq_true_eq, not_le] at hlt
      exact hlt.trans_eq (htidy.represents.entry ha).2.1.symm
  · have hplanted := h.removed hr
    obtain ⟨hz, hle, hleast⟩ := htidy.sorted.find?_least hfind
    have hentry := htidy.represents.entry hz
    refine ⟨some z.id, _, _, by rw [hfind]; rfl, by rw [hrun]; rfl, hplanted, .popped ⟨?_, ?_, ?_⟩ ?_ ?_
      fun j q hj => h.contains_of_ne hj hplanted q⟩
    · exact (h.contains_iff i z.id).mpr (List.mem_map_of_mem hz)
    · exact hentry.2.1.trans_le hle
    · intro q hq hqle
      obtain ⟨a, ha, rfl⟩ := List.mem_map.mp ((h.contains_iff i q).mp hq)
      have hentry' := htidy.represents.entry ha
      exact hentry.1.trans_le ((hleast a ha (hentry'.2.1.symm.trans_le hqle)).trans_eq hentry'.1.symm)
    · exact congrArg NodeState.linked hr.node
    · intro q
      rw [hplanted.contains_iff, h.contains_iff, Function.update_self]
      exact hr.mem_iff htidy.represents.nodup q

def TreeOp.Stages (s : Forest K ε) : TreeOp K ε → Prop
  | .newUnlinked p _ _ => (s.nodes p).linked = true
  | .stageUnlinked p _ _ => (s.nodes p).linked = true
  | _ => False

theorem Planted.step (h : Planted s shapes) (op : TreeOp K ε) :
    (s.step op = none ∧ op.Stages s) ∨ ∃ reply s' shapes', s.step op = some (reply, s') ∧ Planted s' shapes' ∧
      ∀ e, reply = .refused e → s' = s := by
  cases op with
  | newUnlinked p key eligibleAt =>
      rw [Forest.step]
      cases hlinked : (s.nodes p).linked with
      | true => exact .inl ⟨rfl, hlinked⟩
      | false => exact .inr ⟨_, _, shapes, rfl, h.write hlinked rfl, nofun⟩
  | stageUnlinked p key eligibleAt =>
      rw [Forest.step]
      cases hlinked : (s.nodes p).linked with
      | true => exact .inl ⟨rfl, hlinked⟩
      | false => exact .inr ⟨_, _, shapes, rfl, h.write hlinked hlinked, nofun⟩
  | insert i p =>
      obtain ⟨reply, s', shapes', hrun, hplanted, houtcome⟩ := h.insert i p
      refine .inr ⟨reply, s', shapes', hrun, hplanted, ?_⟩
      rintro e rfl
      cases houtcome <;> rfl
  | remove i p =>
      obtain ⟨reply, s', shapes', hrun, hplanted, houtcome⟩ := h.remove i p
      refine .inr ⟨reply, s', shapes', hrun, hplanted, ?_⟩
      rintro e rfl
      cases houtcome
      rfl
  | popEarliestEligible i now =>
      obtain ⟨node, s', shapes', -, hrun, hplanted, -⟩ := h.pop i now
      exact .inr ⟨_, s', shapes', hrun, hplanted, nofun⟩

theorem Forest.Reachable.planted (h : s.Reachable) : ∃ shapes, Planted s shapes := by
  induction h with
  | initial h => exact ⟨_, .initial h⟩
  | step _ hstep ih =>
      obtain ⟨shapes, hplanted⟩ := ih
      rcases hplanted.step _ with ⟨hnone, -⟩ | ⟨reply, s', shapes', hrun, hplanted', -⟩
      · rw [hnone] at hstep
        cases hstep
      · rw [hrun] at hstep
        cases hstep
        exact ⟨shapes', hplanted'⟩

/-- Every tree of every run is a red-black search tree with exact caches, and a
refused operation changes nothing. -/
theorem forest_wellFormed (h : s.Reachable) :
    (∀ i, (s.tree i).WellFormed) ∧ (∀ p, (s.nodes p).linked = true ↔ ∃ i, (s.tree i).Contains p) ∧
      (∀ op, s.step op = none → op.Stages s) ∧ (∀ op e s', s.step op = some (.refused e, s') → s' = s) ∧
      (∀ i p, ∃ reply s', s.step (.insert i p) = some (reply, s') ∧ InsertOutcome s i p reply s') ∧
      ∀ i p, ∃ reply s', s.step (.remove i p) = some (reply, s') ∧ RemoveOutcome s i p reply s' := by
  obtain ⟨shapes, hplanted⟩ := h.planted
  refine ⟨fun i => (hplanted.tidy i).wellFormed, ?_, ?_, ?_, ?_, ?_⟩
  · intro p
    simp only [hplanted.linked, hplanted.contains_iff]
  · intro op hnone
    rcases hplanted.step op with ⟨-, hstages⟩ | ⟨reply, s', shapes', hrun, -⟩
    · exact hstages
    · rw [hrun] at hnone
      cases hnone
  · intro op e s' hrefused
    rcases hplanted.step op with ⟨hnone, -⟩ | ⟨reply, s'', shapes', hrun, -, hsame⟩
    · rw [hnone] at hrefused
      cases hrefused
    · rw [hrun] at hrefused
      cases hrefused
      exact hsame e rfl
  · intro i p
    obtain ⟨reply, s', -, hrun, -, houtcome⟩ := hplanted.insert i p
    exact ⟨reply, s', hrun, houtcome⟩
  · intro i p
    obtain ⟨reply, s', -, hrun, -, houtcome⟩ := hplanted.remove i p
    exact ⟨reply, s', hrun, houtcome⟩

def scattered : Forest Nat (Fin (2 ^ 128)) := .fresh (2 * ·) fun p => if p = 2 then 9 else if p = 4 then 7 else 3

-- The insertions of 3 and 5 rotate, and so does the removal of the black leaf 1
-- with its red sibling.
def growth : List (TreeOp Nat (Fin (2 ^ 128))) :=
  [.insert 0 1, .insert 0 2, .insert 0 3, .insert 0 4, .insert 0 5, .insert 0 6, .remove 0 1]

def grown : Forest Nat (Fin (2 ^ 128)) := ((scattered.run growth).map Prod.snd).getD scattered

theorem scattered_growth : scattered.run growth = some (List.replicate 7 .done, grown) := rfl

theorem grown_reachable : grown.Reachable :=
  Forest.Reachable.run (.initial (Forest.fresh_initial _ _)) scattered_growth

theorem forest_wellFormed_grown : scattered.run growth = some (List.replicate 7 .done, grown) ∧
    (grown.tree 0).WellFormed ∧ (grown.tree 0).len = 5 ∧ (grown.tree 0).root = some 4 ∧
    ((grown.nodes 4).left = some 2 ∧ (grown.nodes 4).right = some 5) ∧
    ((grown.nodes 2).right = some 3 ∧ (grown.nodes 3).color = .red) ∧
    ((grown.nodes 4).subtreeMin = 3 ∧ (grown.nodes 2).subtreeMin = 3 ∧ (grown.nodes 6).subtreeMin = 3) ∧
    (grown.nodes 1).linked = false ∧ ∃ reply s, grown.step (.remove 0 2) = some (reply, s) ∧
      RemoveOutcome grown 0 2 reply s := by
  obtain ⟨hwell, -, -, -, -, hremove⟩ := forest_wellFormed grown_reachable
  refine ⟨scattered_growth, hwell 0, ?_, ?_, ?_, ?_, ?_, ?_, hremove 0 2⟩ <;> decide +kernel

/-- Peeking and popping answer with the least key among the eligible nodes, and
popping removes that node alone. -/
theorem earliest_eligible (h : s.Reachable) (i : TreeId) (now : ε) :
    ∃ node s', (s.tree i).peekEarliestEligible now = some node ∧
      s.step (.popEarliestEligible i now) = some (.popped node, s') ∧ PopOutcome s i now node s' ∧
      (node = none ↔ ∀ q, (s.tree i).Contains q → now < (s.nodes q).eligibleAt) := by
  obtain ⟨shapes, hplanted⟩ := h.planted
  obtain ⟨node, s', -, hpeek, hpop, -, houtcome⟩ := hplanted.pop i now
  refine ⟨node, s', hpeek, hpop, houtcome, ?_⟩
  cases houtcome with
  | empty hnone => exact ⟨fun _ => hnone, fun _ => rfl⟩
  | popped hearliest =>
      refine ⟨nofun, fun hnone => ?_⟩
      exact absurd hearliest.2.1 (hnone _ hearliest.1).not_ge

-- The least key is eligible too late, and 3, 5 and 6 are eligible.
theorem earliest_eligible_grown : ∃ node s, (grown.tree 0).peekEarliestEligible 4 = some node ∧
    grown.step (.popEarliestEligible 0 4) = some (.popped node, s) ∧ PopOutcome grown 0 4 node s ∧ node = some 3 ∧
    ((grown.tree 0).Contains 2 ∧ 4 < (grown.nodes 2).eligibleAt ∧ (grown.nodes 2).key < (grown.nodes 3).key) ∧
    (grown.tree 0).Contains 5 ∧ (grown.nodes 5).eligibleAt ≤ 4 := by
  have hpeek : (grown.tree 0).peekEarliestEligible 4 = some (some 3) := by decide +kernel
  have hroot : (grown.tree 0).root = some 4 := by decide +kernel
  have hchildren : (grown.nodes 4).left = some 2 ∧ (grown.nodes 4).right = some 5 := by decide +kernel
  obtain ⟨node, s, hpeek', hpop, houtcome, -⟩ := earliest_eligible grown_reachable 0 4
  refine ⟨node, s, hpeek', hpop, houtcome, Option.some.inj (hpeek'.symm.trans hpeek), ⟨?_, by decide +kernel⟩,
    ?_, by decide +kernel⟩
  · exact ⟨4, hroot, .child .left hchildren.1 (.refl 2)⟩
  · exact ⟨4, hroot, .child .right hchildren.2 (.refl 5)⟩

end Forest

end TheKernel.Eevdf
