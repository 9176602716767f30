import Mathlib.Data.List.Perm.Basic
import Mathlib.Data.List.Nodup
import TheKernel.Eevdf.Tree

namespace TheKernel.Eevdf

open RedBlack

variable {K ε : Type}

/-- What a node contributes to the order: its address, key and eligibility. -/
structure Entry (K ε : Type) where
  id : NodeId
  key : K
  eligibleAt : ε
  deriving DecidableEq

abbrev Shape (K ε : Type) := RedBlack.Tree (Entry K ε) ε

abbrev ShapePath (K ε : Type) := RedBlack.Path (Entry K ε) ε

/-- The pointer to a subtree, and the parent pointer at the end of a path. -/
def ptr : Shape K ε → Option NodeId
  | .leaf => none
  | .node _ _ a _ _ => some a.id

def parentPtr : ShapePath K ε → Option NodeId
  | [] => none
  | f :: _ => some f.item.id

@[simp] theorem ptr_leaf : ptr (.leaf : Shape K ε) = none := rfl

@[simp] theorem ptr_mk (s : Side) (c : Color) (l : Shape K ε) (a : Entry K ε) (m : ε) (r : Shape K ε) :
    ptr (.mk s c l a m r) = some a.id := by
  cases s <;> rfl

@[simp] theorem parentPtr_cons (f : Frame (Entry K ε) ε) (k : ShapePath K ε) : parentPtr (f :: k) = some f.item.id :=
  rfl

/-- The memory of a linked node, with its children named by a side. -/
def cell (s : Side) (parent : Option NodeId) (c : Color) (near : Option NodeId) (a : Entry K ε) (m : ε)
    (far : Option NodeId) : NodeState K ε :=
  match s with
  | .left => ⟨a.key, a.eligibleAt, parent, near, far, c, m, true⟩
  | .right => ⟨a.key, a.eligibleAt, parent, far, near, c, m, true⟩

section Cell

variable (s : Side) (parent : Option NodeId) (c : Color) (near : Option NodeId) (a : Entry K ε) (m : ε)
  (far : Option NodeId)

@[simp] theorem cell_key : (cell s parent c near a m far).key = a.key := by cases s <;> rfl

@[simp] theorem cell_eligibleAt : (cell s parent c near a m far).eligibleAt = a.eligibleAt := by cases s <;> rfl

@[simp] theorem cell_parent : (cell s parent c near a m far).parent = parent := by cases s <;> rfl

@[simp] theorem cell_color : (cell s parent c near a m far).color = c := by cases s <;> rfl

@[simp] theorem cell_subtreeMin : (cell s parent c near a m far).subtreeMin = m := by cases s <;> rfl

@[simp] theorem cell_linked : (cell s parent c near a m far).linked = true := by cases s <;> rfl

@[simp] theorem cell_child : (cell s parent c near a m far).child s = near := by cases s <;> rfl

@[simp] theorem cell_child_other : (cell s parent c near a m far).child s.other = far := by cases s <;> rfl

@[simp] theorem cell_setChild (p : Option NodeId) :
    (cell s parent c near a m far).setChild s p = cell s parent c p a m far := by cases s <;> rfl

@[simp] theorem cell_setChild_other (p : Option NodeId) :
    (cell s parent c near a m far).setChild s.other p = cell s parent c near a m p := by cases s <;> rfl

@[simp] theorem cell_setParent (p : Option NodeId) :
    (cell s parent c near a m far).setParent p = cell s p c near a m far := by cases s <;> rfl

@[simp] theorem cell_setColor (d : Color) :
    (cell s parent c near a m far).setColor d = cell s parent d near a m far := by cases s <;> rfl

theorem cell_other : cell s.other parent c near a m far = cell s parent c far a m near := by cases s <;> rfl

end Cell

def Holds (nodes : NodeId → NodeState K ε) : Option NodeId → Shape K ε → Prop
  | _, .leaf => True
  | parent, .node c l a m r =>
      nodes a.id = cell .left parent c (ptr l) a m (ptr r) ∧ Holds nodes (some a.id) l ∧ Holds nodes (some a.id) r

def HoldsPath (nodes : NodeId → NodeState K ε) : ShapePath K ε → Option NodeId → Prop
  | [], _ => True
  | f :: k, p =>
      nodes f.item.id = cell f.side (parentPtr k) f.color p f.item f.min (ptr f.sibling) ∧
        Holds nodes (some f.item.id) f.sibling ∧ HoldsPath nodes k (some f.item.id)

section Holds

variable {nodes nodes' : NodeId → NodeState K ε} {parent : Option NodeId} {k : ShapePath K ε} {t : Shape K ε}

theorem holds_mk {s : Side} {c : Color} {l : Shape K ε} {a : Entry K ε} {m : ε} {r : Shape K ε} :
    Holds nodes parent (.mk s c l a m r) ↔
      nodes a.id = cell s parent c (ptr l) a m (ptr r) ∧ Holds nodes (some a.id) l ∧ Holds nodes (some a.id) r := by
  cases s with
  | left => rfl
  | right =>
      rw [Tree.mk, Holds, ← cell_other .left]
      exact and_congr_right fun _ => and_comm

theorem holds_plug : Holds nodes none (plug k t) ↔ HoldsPath nodes k (ptr t) ∧ Holds nodes (parentPtr k) t := by
  induction k generalizing t with
  | nil => simp [HoldsPath, parentPtr]
  | cons f k ih =>
      rw [plug_cons, ih, Frame.fill, holds_mk, ptr_mk, HoldsPath, parentPtr_cons]
      tauto

theorem Holds.congr (h : Holds nodes parent t) (heq : ∀ a ∈ t.items, nodes' a.id = nodes a.id) :
    Holds nodes' parent t := by
  induction t generalizing parent with
  | leaf => trivial
  | node c l a m r ihl ihr =>
      obtain ⟨ha, hl, hr⟩ := h
      refine ⟨(heq a (by simp [Tree.items])).trans ha, ihl hl ?_, ihr hr ?_⟩
      · exact fun b hb => heq b (by simp [Tree.items, hb])
      · exact fun b hb => heq b (by simp [Tree.items, hb])

def pathItems (k : ShapePath K ε) : List (Entry K ε) := k.flatMap fun f => f.item :: f.sibling.items

theorem HoldsPath.congr {p : Option NodeId} (h : HoldsPath nodes k p)
    (heq : ∀ a ∈ pathItems k, nodes' a.id = nodes a.id) : HoldsPath nodes' k p := by
  induction k generalizing p with
  | nil => trivial
  | cons f k ih =>
      obtain ⟨hf, hs, hk⟩ := h
      have hmem : ∀ a, a = f.item ∨ a ∈ f.sibling.items ∨ a ∈ pathItems k → a ∈ pathItems (f :: k) := by
        intro a ha
        simpa [pathItems, or_assoc] using ha
      refine ⟨(heq _ (hmem _ (.inl rfl))).trans hf, ?_, ?_⟩
      · exact hs.congr fun a ha => heq a (hmem a (.inr (.inl ha)))
      · exact ih hk fun a ha => heq a (hmem a (.inr (.inr ha)))

theorem items_plug_perm (k : ShapePath K ε) (t : Shape K ε) : (plug k t).items.Perm (pathItems k ++ t.items) := by
  induction k generalizing t with
  | nil => simp [pathItems]
  | cons f k ih =>
      refine (ih (f.fill t)).trans ?_
      have hfill : (f.fill t).items.Perm (f.item :: f.sibling.items ++ t.items) := by
        rw [Frame.fill]
        cases f.side with
        | left =>
            simp only [Tree.mk, Tree.items]
            exact List.perm_append_comm
        | right =>
            simp only [Tree.mk, Tree.items]
            exact List.perm_middle
      refine (hfill.append_left (pathItems k)).trans ?_
      have hcons : pathItems (f :: k) = f.item :: f.sibling.items ++ pathItems k := List.flatMap_cons
      rw [hcons, ← List.append_assoc]
      exact List.perm_append_comm.append_right t.items

end Holds

structure Represents (t : EevdfTree K ε) (T : Shape K ε) : Prop where
  root : t.root = ptr T
  holds : Holds t.nodes none T
  nodup : (T.items.map Entry.id).Nodup

structure Within (T : Shape K ε) (t t' : EevdfTree K ε) : Prop where
  len : t'.len = t.len
  nodes : ∀ p, p ∉ T.items.map Entry.id → t'.nodes p = t.nodes p

namespace Within

variable {T T' : Shape K ε} {t t' t'' : EevdfTree K ε}

theorem refl : Within T t t := ⟨rfl, fun _ _ => rfl⟩

theorem trans (h : Within T t t') (h' : Within T' t' t'') (heq : T.items = T'.items) : Within T t t'' :=
  ⟨h'.len.trans h.len, fun p hp => (h'.nodes p (heq ▸ hp)).trans (h.nodes p hp)⟩

end Within

section Focus

variable {t : EevdfTree K ε} {k : ShapePath K ε} {T T' : Shape K ε}

theorem Represents.focus (h : Represents t (plug k T)) : HoldsPath t.nodes k (ptr T) ∧ Holds t.nodes (parentPtr k) T ∧
    ((pathItems k ++ T.items).map Entry.id).Nodup := by
  obtain ⟨hpath, hholds⟩ := holds_plug.mp h.holds
  exact ⟨hpath, hholds, (((items_plug_perm k T).map Entry.id).nodup_iff).mp h.nodup⟩

theorem Represents.of_focus (hroot : t.root = ptr (plug k T)) (hpath : HoldsPath t.nodes k (ptr T))
    (hholds : Holds t.nodes (parentPtr k) T) (hnodup : ((pathItems k ++ T.items).map Entry.id).Nodup) :
    Represents t (plug k T) :=
  ⟨hroot, holds_plug.mpr ⟨hpath, hholds⟩, (((items_plug_perm k T).map Entry.id).nodup_iff).mpr hnodup⟩

theorem ptr_plug_congr (h : ptr T = ptr T') : ptr (plug k T) = ptr (plug k T') := by
  induction k generalizing T T' with
  | nil => exact h
  | cons f k ih => exact ih (show ptr (f.fill T) = ptr (f.fill T') by simp [Frame.fill])

theorem ptr_plug_cons (f : Frame (Entry K ε) ε) (T T' : Shape K ε) : ptr (plug (f :: k) T) = ptr (plug (f :: k) T') :=
  ptr_plug_congr (k := k) (show ptr (f.fill T) = ptr (f.fill T') by simp [Frame.fill])

section Node

variable {s : Side} {c : Color} {l : Shape K ε} {a : Entry K ε} {m : ε} {r : Shape K ε}

theorem Represents.cell (h : Represents t (plug k (.mk s c l a m r))) :
    t.nodes a.id = Eevdf.cell s (parentPtr k) c (ptr l) a m (ptr r) :=
  (holds_mk.mp h.focus.2.1).1

/-- A node is apart from its subtrees and from the rest of the tree. -/
theorem Represents.apart (h : Represents t (plug k (.mk s c l a m r))) :
    (∀ b ∈ l.items, b.id ≠ a.id) ∧ (∀ b ∈ r.items, b.id ≠ a.id) ∧ ∀ b ∈ pathItems k, b.id ≠ a.id := by
  have hnodup := h.focus.2.2
  rw [List.map_append, List.nodup_append'] at hnodup
  obtain ⟨-, hinner, hdisj⟩ := hnodup
  refine ⟨?_, ?_, ?_⟩
  · intro b hb heq
    cases s with
    | left =>
        simp only [Tree.mk, Tree.items, List.map_append, List.map_cons, List.nodup_append',
          List.disjoint_cons_right] at hinner
        exact hinner.2.2.1 (heq ▸ List.mem_map_of_mem hb)
    | right =>
        simp only [Tree.mk, Tree.items, List.map_append, List.map_cons, List.nodup_append', List.nodup_cons] at hinner
        exact hinner.2.1.1 (heq ▸ List.mem_map_of_mem hb)
  · intro b hb heq
    cases s with
    | left =>
        simp only [Tree.mk, Tree.items, List.map_append, List.map_cons, List.nodup_append', List.nodup_cons] at hinner
        exact hinner.2.1.1 (heq ▸ List.mem_map_of_mem hb)
    | right =>
        simp only [Tree.mk, Tree.items, List.map_append, List.map_cons, List.nodup_append',
          List.disjoint_cons_right] at hinner
        exact hinner.2.2.1 (heq ▸ List.mem_map_of_mem hb)
  · intro b hb heq
    exact hdisj (List.mem_map_of_mem hb) (heq ▸ List.mem_map_of_mem (Tree.mem_items_mk.mpr (.inl rfl)))

theorem nodes_modify (p q : NodeId) (g : NodeState K ε → NodeState K ε) :
    (t.modify p g).nodes q = if q = p then g (t.nodes p) else t.nodes q := by
  rw [EevdfTree.modify]
  exact Function.update_apply ..

theorem mem_items_plug {b : Entry K ε} : b ∈ (plug k T).items ↔ b ∈ pathItems k ∨ b ∈ T.items :=
  (items_plug_perm k T).mem_iff.trans List.mem_append

theorem Represents.update (h : Represents t (plug k (.mk s c l a m r))) {c' : Color} {m' : ε}
    {g : NodeState K ε → NodeState K ε} (hg : g (Eevdf.cell s (parentPtr k) c (ptr l) a m (ptr r)) =
      Eevdf.cell s (parentPtr k) c' (ptr l) a m' (ptr r)) :
    Represents (t.modify a.id g) (plug k (.mk s c' l a m' r)) ∧ Within (plug k (.mk s c l a m r)) t
      (t.modify a.id g) := by
  obtain ⟨hpath, hholds, hnodup⟩ := h.focus
  obtain ⟨hcell, hl, hr⟩ := holds_mk.mp hholds
  obtain ⟨hal, har, hak⟩ := h.apart
  have hother : ∀ b : Entry K ε, b.id ≠ a.id → (t.modify a.id g).nodes b.id = t.nodes b.id := by
    intro b hb
    rw [nodes_modify, if_neg hb]
  refine ⟨.of_focus ?_ ?_ ?_ ?_, rfl, ?_⟩
  · exact h.root.trans (ptr_plug_congr (by rw [ptr_mk, ptr_mk]))
  · rw [ptr_mk] at hpath ⊢
    exact hpath.congr fun b hb => hother b (hak b hb)
  · refine holds_mk.mpr ⟨?_, hl.congr fun b hb => hother b (hal b hb), hr.congr fun b hb => hother b (har b hb)⟩
    rw [nodes_modify, if_pos rfl, hcell, hg]
  · rwa [Tree.items_mk_congr s c' c a m' m rfl rfl]
  · intro p hp
    rw [nodes_modify, if_neg]
    rintro rfl
    exact hp (List.mem_map_of_mem (mem_items_plug.mpr (.inr (Tree.mem_items_mk.mpr (.inl rfl)))))

theorem Represents.setColor (h : Represents t (plug k (.mk s c l a m r))) (c' : Color) :
    Represents (t.setColor (some a.id) c') (plug k (.mk s c' l a m r)) ∧
      Within (plug k (.mk s c l a m r)) t (t.setColor (some a.id) c') :=
  h.update (g := (·.setColor c')) (cell_setColor ..)

theorem Represents.color_ptr (h : Represents t (plug k T)) : t.color (ptr T) = T.color := by
  cases T with
  | leaf => rfl
  | node c l a m r =>
      have hcell : t.nodes a.id = _ := Represents.cell (s := .left) h
      rw [ptr, EevdfTree.color, hcell, cell_color]
      rfl

end Node

/-- Hanging a subtree at the end of a path, without its parent pointer. -/
def hang (t : EevdfTree K ε) (k : ShapePath K ε) (p : Option NodeId) : EevdfTree K ε :=
  match k with
  | [] => { t with root := p }
  | f :: _ => t.setChild f.side f.item.id p

theorem pathItems_cons (f : Frame (Entry K ε) ε) (k : ShapePath K ε) :
    pathItems (f :: k) = f.item :: f.sibling.items ++ pathItems k := List.flatMap_cons

theorem replaceChild_eq_hang {s : Side} {x : NodeId} {y : Option NodeId} (hpath : HoldsPath t.nodes k (some x))
    (hx : ∀ b ∈ pathItems k, b.id ≠ x) : t.replaceChild s (parentPtr k) (some x) y = hang t k y := by
  cases k with
  | nil => rfl
  | cons f k =>
      have hcell := hpath.1
      rw [parentPtr_cons, EevdfTree.replaceChild, hang]
      rcases s.eq_or_other f.side with hs | hs
      · rw [← hs, hcell, cell_child, if_pos rfl]
      · have hs' : s = f.side.other := by rw [hs, Side.other_other]
        rw [hs', hcell, cell_child_other, if_neg, Side.other_other]
        intro heq
        cases hsib : f.sibling with
        | leaf => simp [hsib] at heq
        | node c l a m r =>
            rw [hsib] at heq
            refine hx a ?_ (Option.some.inj heq).symm
            simp [pathItems_cons, hsib, Tree.items]

theorem HoldsPath.hang {p q : Option NodeId} (hpath : HoldsPath t.nodes k p)
    (hnodup : ((pathItems k).map Entry.id).Nodup) : HoldsPath (hang t k q).nodes k q := by
  cases k with
  | nil => trivial
  | cons f k =>
      obtain ⟨hf, hs, hk⟩ := hpath
      have hne : ∀ b ∈ f.sibling.items ++ pathItems k, b.id ≠ f.item.id := by
        intro b hb heq
        rw [pathItems_cons, List.cons_append, List.map_cons, List.nodup_cons] at hnodup
        exact hnodup.1 (heq ▸ List.mem_map_of_mem hb)
      have hother : ∀ b ∈ f.sibling.items ++ pathItems k, (Eevdf.hang t (f :: k) q).nodes b.id = t.nodes b.id := by
        intro b hb
        rw [Eevdf.hang, EevdfTree.setChild, nodes_modify, if_neg (hne b hb)]
      refine ⟨?_, hs.congr fun b hb => hother b (List.mem_append_left _ hb),
        hk.congr fun b hb => hother b (List.mem_append_right _ hb)⟩
      rw [Eevdf.hang, EevdfTree.setChild, nodes_modify, if_pos rfl, hf, cell_setChild]

theorem nodes_hang_of_not_mem {q : Option NodeId} {p : NodeId} (hp : ∀ b ∈ pathItems k, b.id ≠ p) :
    (hang t k q).nodes p = t.nodes p := by
  cases k with
  | nil => rfl
  | cons f k => rw [hang, EevdfTree.setChild, nodes_modify, if_neg (hp f.item (by simp [pathItems_cons])).symm]

theorem root_hang (h : t.root = ptr (plug k T)) (T' : Shape K ε) : (hang t k (ptr T')).root = ptr (plug k T') := by
  cases k with
  | nil => rfl
  | cons f k => exact h.trans (ptr_plug_cons f T T')

theorem Holds.reparent {p q : Option NodeId} (h : Holds t.nodes p T) (hnodup : (T.items.map Entry.id).Nodup) :
    Holds (t.setParentOf (ptr T) q).nodes q T := by
  cases T with
  | leaf => trivial
  | node c l a m r =>
      obtain ⟨ha, hl, hr⟩ := h
      have hne : ∀ b ∈ l.items ++ r.items, b.id ≠ a.id := by
        intro b hb heq
        rw [Tree.items, List.perm_middle.map Entry.id |>.nodup_iff, List.map_cons, List.nodup_cons] at hnodup
        exact hnodup.1 (heq ▸ List.mem_map_of_mem hb)
      have hother : ∀ b ∈ l.items ++ r.items, (t.setParent a.id q).nodes b.id = t.nodes b.id := by
        intro b hb
        rw [EevdfTree.setParent, nodes_modify, if_neg (hne b hb)]
      refine ⟨?_, hl.congr fun b hb => hother b (List.mem_append_left _ hb),
        hr.congr fun b hb => hother b (List.mem_append_right _ hb)⟩
      rw [ptr, EevdfTree.setParentOf, EevdfTree.setParent, nodes_modify, if_pos rfl, ha, cell_setParent]

theorem nodes_setParentOf {p q : Option NodeId} {x : NodeId} (hx : p ≠ some x) :
    (t.setParentOf p q).nodes x = t.nodes x := by
  cases p with
  | none => rfl
  | some p =>
      rw [EevdfTree.setParentOf, EevdfTree.setParent, nodes_modify, if_neg]
      rintro rfl
      exact hx rfl

theorem ptr_mem {p : NodeId} (h : ptr T = some p) : ∃ a ∈ T.items, a.id = p := by
  cases T with
  | leaf => cases h
  | node c l a m r => exact ⟨a, by simp [Tree.items], Option.some.inj h⟩

section Rotate

variable [LinearOrder ε] [OrderTop ε] {s : Side} {c d : Color} {l b r : Shape K ε} {x y : Entry K ε} {m n : ε}

theorem Represents.minBehind_ptr (h : Represents t (plug k T)) : t.minBehind (ptr T) = T.cached := by
  cases T with
  | leaf => rfl
  | node c l a m r =>
      have hcell : t.nodes a.id = _ := Represents.cell (s := .left) h
      rw [ptr, EevdfTree.minBehind, hcell, cell_subtreeMin]
      rfl

theorem Represents.recompute (h : Represents t (plug k (.mk s c l x m r))) :
    Represents (t.recompute x.id) (plug k (.mk s c l x (combine Entry.eligibleAt x l r) r)) ∧
      Within (plug k (.mk s c l x m r)) t (t.recompute x.id) := by
  have hl : t.minBehind (ptr l) = l.cached := Represents.minBehind_ptr (k := ⟨s, c, x, m, r⟩ :: k) h
  have hr : t.minBehind (ptr r) = r.cached := by
    refine Represents.minBehind_ptr (k := ⟨s.other, c, x, m, l⟩ :: k) ?_
    rw [plug_cons, Frame.fill, Tree.mk_other]
    exact h
  refine h.update ?_
  cases s with
  | left => simp [Eevdf.cell, NodeState.setMin, hl, hr, combine]
  | right => simp [Eevdf.cell, NodeState.setMin, hl, hr, combine, min_right_comm]

structure RotationApart (k : ShapePath K ε) (l b r : Shape K ε) (x y : Entry K ε) : Prop where
  pair : x.id ≠ y.id
  out : ∀ a ∈ l.items ++ b.items ++ r.items ++ pathItems k, a.id ≠ x.id ∧ a.id ≠ y.id
  inner_nodup : (b.items.map Entry.id).Nodup
  path_nodup : ((pathItems k).map Entry.id).Nodup
  inner : ∀ a ∈ b.items, ∀ e ∈ l.items ++ r.items ++ pathItems k, a.id ≠ e.id
  path : ∀ a ∈ pathItems k, ∀ e ∈ l.items ++ r.items, a.id ≠ e.id

omit [LinearOrder ε] [OrderTop ε] in
theorem RotationApart.path_ne (h : RotationApart k l b r x y) : ∀ a ∈ pathItems k, a.id ≠ x.id ∧ a.id ≠ y.id :=
  fun a ha => h.out a (by simp [ha])

omit [LinearOrder ε] [OrderTop ε] in
theorem RotationApart.inner_ne (h : RotationApart k l b r x y) : ptr b ≠ some x.id ∧ ptr b ≠ some y.id ∧
    ∀ e ∈ l.items ++ r.items ++ pathItems k, ptr b ≠ some e.id := by
  refine ⟨fun heq => ?_, fun heq => ?_, fun e he heq => ?_⟩
  · obtain ⟨a, ha, hid⟩ := ptr_mem heq
    exact (h.out a (by simp [ha])).1 hid
  · obtain ⟨a, ha, hid⟩ := ptr_mem heq
    exact (h.out a (by simp [ha])).2 hid
  · obtain ⟨a, ha, hid⟩ := ptr_mem heq
    exact h.inner a ha e he hid

omit [LinearOrder ε] [OrderTop ε] in
theorem Represents.apart_rotate (h : Represents t (plug k (.mk s c l x m (.mk s d b y n r)))) :
    RotationApart k l b r x y := by
  have hperm : (pathItems k ++ (Tree.mk s c l x m (.mk s d b y n r)).items).Perm
      (x :: y :: (b.items ++ (l.items ++ r.items ++ pathItems k))) := by
    refine List.perm_append_comm.trans ?_
    have hinner : (Tree.mk s c l x m (.mk s d b y n r)).items.Perm (x :: y :: (b.items ++ (l.items ++ r.items))) := by
      have hone : ∀ (s : Side) (c : Color) (l : Shape K ε) (a : Entry K ε) (m : ε) (r : Shape K ε),
          (Tree.mk s c l a m r).items.Perm (a :: (l.items ++ r.items)) := by
        intro s c l a m r
        cases s with
        | left => exact List.perm_middle
        | right => exact List.perm_middle.trans (List.perm_append_comm.cons a)
      refine (hone ..).trans (.cons x ?_)
      refine ((hone ..).append_left l.items).trans (List.perm_middle.trans (.cons y ?_))
      rw [← List.append_assoc, ← List.append_assoc]
      exact List.perm_append_comm.append_right r.items
    refine (hinner.append_right (pathItems k)).trans ?_
    simp
  have hnodup := ((hperm.map Entry.id).nodup_iff).mp h.focus.2.2
  simp only [List.map_cons, List.nodup_cons, List.mem_cons, not_or, List.map_append, List.nodup_append',
    List.mem_append] at hnodup
  obtain ⟨⟨hxy, hx⟩, hy, hb, ⟨hlr, hk, hdisj⟩, hbdisj⟩ := hnodup
  refine ⟨hxy, ?_, hb, hk, ?_, ?_⟩
  · intro a ha
    constructor
    · intro heq
      have hmem := List.mem_map_of_mem (f := Entry.id) ha
      rw [heq] at hmem
      simp only [List.map_append, List.mem_append] at hmem
      tauto
    · intro heq
      have hmem := List.mem_map_of_mem (f := Entry.id) ha
      rw [heq] at hmem
      simp only [List.map_append, List.mem_append] at hmem
      tauto
  · intro a ha e he heq
    refine hbdisj (List.mem_map_of_mem ha) ?_
    rw [heq, ← List.map_append, ← List.map_append]
    exact List.mem_map_of_mem he
  · intro a ha e he heq
    refine hdisj ?_ (List.mem_map_of_mem ha)
    rw [heq, ← List.map_append]
    exact List.mem_map_of_mem he

omit [LinearOrder ε] [OrderTop ε] in
theorem items_rotate (k : ShapePath K ε) (c d c' d' : Color) (m n m' n' : ε) (l b r : Shape K ε) (x y : Entry K ε) :
    (plug k (.mk s c l x m (.mk s d b y n r))).items = (plug k (.mk s d' (.mk s c' l x m' b) y n' r)).items :=
  Path.items_plug_congr k (Tree.items_mk_rotate ..)

def turned (t : EevdfTree K ε) (s : Side) (k : ShapePath K ε) (x y : NodeId) (inner : Option NodeId) : EevdfTree K ε :=
  let t := ((t.setChild s.other x inner).setParentOf inner (some x)).setParent y (parentPtr k)
  ((hang t k (some y)).setChild s y (some x)).setParent x (some y)

omit [LinearOrder ε] [OrderTop ε] in
theorem nodes_turned {inner : Option NodeId} {x y p : NodeId} (hx : p ≠ x) (hy : p ≠ y) (hi : inner ≠ some p)
    (hk : ∀ a ∈ pathItems k, a.id ≠ p) : (turned t s k x y inner).nodes p = t.nodes p := by
  rw [turned, EevdfTree.setParent, nodes_modify, if_neg hx, EevdfTree.setChild, nodes_modify, if_neg hy,
    nodes_hang_of_not_mem hk, EevdfTree.setParent, nodes_modify, if_neg hy, nodes_setParentOf hi, EevdfTree.setChild,
    nodes_modify, if_neg hx]

omit [LinearOrder ε] [OrderTop ε] in
/-- The path is untouched while the pointers between the two nodes change. -/
theorem Represents.path_opened (h : Represents t (plug k (.mk s c l x m (.mk s d b y n r)))) :
    HoldsPath (((t.setChild s.other x.id (ptr b)).setParentOf (ptr b) (some x.id)).setParent y.id (parentPtr k)).nodes k
      (some x.id) := by
  have hpath := h.focus.1
  have hapart := h.apart_rotate
  rw [ptr_mk] at hpath
  refine hpath.congr fun a ha => ?_
  rw [EevdfTree.setParent, nodes_modify, if_neg (hapart.path_ne a ha).2,
    nodes_setParentOf (hapart.inner_ne.2.2 a (List.mem_append_right _ ha)), EevdfTree.setChild, nodes_modify,
    if_neg (hapart.path_ne a ha).1]

omit [LinearOrder ε] [OrderTop ε] in
theorem Represents.turned (h : Represents t (plug k (.mk s c l x m (.mk s d b y n r)))) :
    Represents (turned t s k x.id y.id (ptr b)) (plug k (.mk s d (.mk s c l x m b) y n r)) := by
  obtain ⟨hpath, hholds, hnodup⟩ := h.focus
  obtain ⟨hx, hl, hinner⟩ := holds_mk.mp hholds
  obtain ⟨hy, hb, hr⟩ := holds_mk.mp hinner
  have hapart := h.apart_rotate
  obtain ⟨hxy, hout, hbnodup, hknodup, hbout, hkout⟩ := h.apart_rotate
  obtain ⟨hbx, hby, hbne⟩ := hapart.inner_ne
  have hkx : ∀ a ∈ pathItems k, a.id ≠ x.id := fun a ha => (hapart.path_ne a ha).1
  have hky : ∀ a ∈ pathItems k, a.id ≠ y.id := fun a ha => (hapart.path_ne a ha).2
  rw [ptr_mk] at hx hpath
  have hsame : ∀ e ∈ l.items ++ r.items, (Eevdf.turned t s k x.id y.id (ptr b)).nodes e.id = t.nodes e.id := by
    intro e he
    have he' : e ∈ l.items ++ b.items ++ r.items ++ pathItems k := by
      simp only [List.mem_append] at he ⊢
      tauto
    exact nodes_turned (hout e he').1 (hout e he').2 (hbne e (List.mem_append_left _ he))
      fun a ha => hkout a ha e he
  -- the subtree between the two nodes gets `x` as its parent
  have hb' : Holds (Eevdf.turned t s k x.id y.id (ptr b)).nodes (some x.id) b := by
    have hmoved : Holds ((t.setChild s.other x.id (ptr b)).setParentOf (ptr b) (some x.id)).nodes (some x.id) b := by
      refine Holds.reparent (p := some y.id) (hb.congr fun a ha => ?_) hbnodup
      rw [EevdfTree.setChild, nodes_modify, if_neg (hout a (by simp [ha])).1]
    refine hmoved.congr fun a ha => ?_
    have hax := hout a (by simp [ha])
    rw [Eevdf.turned, EevdfTree.setParent, nodes_modify, if_neg hax.1, EevdfTree.setChild, nodes_modify, if_neg hax.2,
      nodes_hang_of_not_mem fun e he => (hbout a ha e (List.mem_append_right _ he)).symm, EevdfTree.setParent,
        nodes_modify,
      if_neg hax.2]
  -- the path gets `y` as its child
  have hpath' : HoldsPath (Eevdf.turned t s k x.id y.id (ptr b)).nodes k (some y.id) := by
    refine (h.path_opened.hang (q := some y.id) hknodup).congr fun a ha => ?_
    rw [Eevdf.turned, EevdfTree.setParent, nodes_modify, if_neg (hkx a ha), EevdfTree.setChild, nodes_modify,
      if_neg (hky a ha)]
  have hx' : (Eevdf.turned t s k x.id y.id (ptr b)).nodes x.id = Eevdf.cell s (some y.id) c (ptr l) x m (ptr b) := by
    rw [Eevdf.turned, EevdfTree.setParent, nodes_modify, if_pos rfl, EevdfTree.setChild, nodes_modify, if_neg hxy,
      nodes_hang_of_not_mem hkx, EevdfTree.setParent, nodes_modify, if_neg hxy, nodes_setParentOf hbx,
        EevdfTree.setChild,
      nodes_modify, if_pos rfl, hx, cell_setChild_other, cell_setParent]
  have hy' : (Eevdf.turned t s k x.id y.id (ptr b)).nodes y.id =
      Eevdf.cell s (parentPtr k) d (some x.id) y n (ptr r) := by
    rw [Eevdf.turned, EevdfTree.setParent, nodes_modify, if_neg hxy.symm, EevdfTree.setChild, nodes_modify, if_pos rfl,
      nodes_hang_of_not_mem hky, EevdfTree.setParent, nodes_modify, if_pos rfl, nodes_setParentOf hby,
        EevdfTree.setChild,
      nodes_modify, if_neg hxy.symm, hy, cell_setParent, cell_setChild]
  refine .of_focus ?_ ?_ ?_ ?_
  · have hkept : (((t.setChild s.other x.id (ptr b)).setParentOf (ptr b) (some x.id)).setParent y.id
      (parentPtr k)).root =
        ptr (plug k (.mk s c l x m (.mk s d b y n r))) := by
      cases ptr b <;> exact h.root
    have hroot := root_hang hkept (Tree.mk s d (.mk s c l x m b) y n r)
    rw [ptr_mk] at hroot
    exact hroot
  · rw [ptr_mk]
    exact hpath'
  · refine holds_mk.mpr ⟨by rw [ptr_mk, hy'], holds_mk.mpr ⟨hx', ?_, hb'⟩, ?_⟩
    · exact hl.congr fun e he => hsame e (by simp [he])
    · exact hr.congr fun e he => hsame e (by simp [he])
  · rwa [← Tree.items_mk_rotate s c d c d l x m m n n b y r]

/-- A rotation turns the two nodes and recomputes their caches. -/
theorem Represents.rotate (h : Represents t (plug k (.mk s c l x m (.mk s d b y n r)))) :
    ∃ t', t.rotate s x.id = some t' ∧ Within (plug k (.mk s c l x m (.mk s d b y n r))) t t' ∧
      Represents t' (plug k (.mk s d (.mk s c l x (combine Entry.eligibleAt x l b) b) y
        (combine Entry.eligibleAt y (.mk s c l x (combine Entry.eligibleAt x l b) b) r) r)) := by
  have hapart := h.apart_rotate
  obtain ⟨hx, -, hinner⟩ := holds_mk.mp h.focus.2.1
  obtain ⟨hy, -, -⟩ := holds_mk.mp hinner
  have hparent : (((t.setChild s.other x.id (ptr b)).setParentOf (ptr b) (some x.id)).nodes x.id).parent =
      parentPtr k := by
    rw [nodes_setParentOf hapart.inner_ne.1, EevdfTree.setChild, nodes_modify, if_pos rfl, hx, cell_setChild_other,
      cell_parent]
  have hrun : t.rotate s x.id =
      some (((Eevdf.turned t s k x.id y.id (ptr b)).recompute x.id).recompute y.id) := by
    rw [EevdfTree.rotate, hx, cell_child_other, ptr_mk]
    simp only [Option.bind_eq_bind, Option.bind_some]
    rw [hy, cell_child, hparent, replaceChild_eq_hang h.path_opened fun a ha => (hapart.path_ne a ha).1]
    rfl
  have hturned := h.turned
  obtain ⟨hfirst, hwithin⟩ := Represents.recompute (k := ⟨s, d, y, n, r⟩ :: k) hturned
  obtain ⟨hsecond, hwithin'⟩ := Represents.recompute (k := k) hfirst
  refine ⟨_, hrun, ⟨?_, ?_⟩, hsecond⟩
  · rw [hwithin'.len, hwithin.len]
    cases k <;> cases ptr b <;> rfl
  · intro p hp
    have hout : ∀ a ∈ (plug k (.mk s c l x m (.mk s d b y n r))).items, p ≠ a.id := by
      rintro a ha rfl
      exact hp (List.mem_map_of_mem ha)
    have hitems := items_rotate (s := s) k c d c d m n m n l b r x y
    rw [hwithin'.nodes, hwithin.nodes, nodes_turned]
    · exact hout x (mem_items_plug.mpr (.inr (Tree.mem_items_mk.mpr (.inl rfl))))
    · exact hout y (mem_items_plug.mpr (.inr (Tree.mem_items_mk.mpr (.inr (.inr (Tree.mem_items_mk.mpr (.inl rfl)))))))
    · intro heq
      obtain ⟨a, ha, rfl⟩ := ptr_mem heq
      exact hout a (mem_items_plug.mpr (.inr (Tree.mem_items_mk.mpr (.inr (.inr (Tree.mem_items_mk.mpr
        (.inr (.inl ha)))))))) rfl
    · exact fun a ha => (hout a (mem_items_plug.mpr (.inl ha))).symm
    · rwa [plug_cons, Frame.fill, ← hitems]
    · rwa [items_rotate (s := s) k c d c d m n (combine Entry.eligibleAt x l b) n l b r x y] at hp

omit [LinearOrder ε] [OrderTop ε] in
theorem Represents.frame_cell {f : Frame (Entry K ε) ε} (h : Represents t (plug (f :: k) T)) :
    t.nodes f.item.id = Eevdf.cell f.side (parentPtr k) f.color (ptr T) f.item f.min (ptr f.sibling) := h.focus.1.1

/-- The walk to the root recomputes every cache of the path. -/
theorem Represents.recomputeUpwards (h : Represents t (plug k T)) (fuel : Nat) (hfuel : k.length ≤ fuel) :
    ∃ t', EevdfTree.recomputeUpwardsLoop fuel t (parentPtr k) = some t' ∧ Within (plug k T) t t' ∧
      Represents t' (plug (Path.recomputed Entry.eligibleAt k T.cached) T) := by
  induction k generalizing t T fuel with
  | nil => exact ⟨t, by cases fuel <;> rfl, .refl, h⟩
  | cons f k ih =>
      obtain ⟨fuel, rfl⟩ : ∃ n, fuel = n + 1 := by
        cases fuel with
        | zero => simp at hfuel
        | succ n => exact ⟨n, rfl⟩
      obtain ⟨hrep, hwithin⟩ := Represents.recompute (k := k) (s := f.side) (c := f.color) (l := T) (x := f.item)
        (m := f.min) (r := f.sibling) h
      have hparent : ((t.recompute f.item.id).nodes f.item.id).parent = parentPtr k := by
        rw [hrep.cell, cell_parent]
      obtain ⟨t', hrun, hwithin', hrep'⟩ := ih hrep fuel (Nat.le_of_succ_le_succ hfuel)
      refine ⟨t', ?_, hwithin.trans hwithin' ?_, ?_⟩
      · rw [parentPtr_cons, EevdfTree.recomputeUpwardsLoop, hparent, hrun]
      · exact Path.items_plug_congr k (Tree.items_mk_congr _ _ _ _ _ _ rfl rfl)
      · rw [Tree.cached_mk] at hrep'
        exact hrep'

end Rotate

end Focus

end TheKernel.Eevdf
