import TheKernel.Eevdf.TreeFixup

namespace TheKernel.Eevdf

open RedBlack

variable {K ε : Type} {t : EevdfTree K ε} {k : ShapePath K ε} {T S : Shape K ε}

def AllLeft (k : ShapePath K ε) : Prop := ∀ f ∈ k, f.side = .left

theorem AllLeft.before {k : ShapePath K ε} (h : AllLeft k) : Path.before k = [] := by
  induction k with
  | nil => rfl
  | cons f k ih =>
      have hf : f.side = .left := h f (by simp)
      rw [Path.before, ih fun g hg => h g (by simp [hg]), hf]
      rfl

theorem exists_leftmost (h : T ≠ .leaf) : ∃ k c a m r, T = plug k (.node c .leaf a m r) ∧ AllLeft k := by
  induction T with
  | leaf => exact absurd rfl h
  | node c l a m r ihl _ =>
      cases l with
      | leaf => exact ⟨[], c, a, m, r, rfl, by simp [AllLeft]⟩
      | node c' l' a' m' r' =>
          obtain ⟨k, d, b, n, s, hl, hk⟩ := ihl (by simp)
          refine ⟨k ++ [⟨.left, c, a, m, r⟩], d, b, n, s, ?_, ?_⟩
          · rw [plug_append, ← hl]
            rfl
          · intro f hf
            rcases List.mem_append.mp hf with hf | hf
            · exact hk f hf
            · rw [List.mem_singleton.mp hf]

theorem minimumLoop_eq {k₀ : ShapePath K ε} {c : Color} {a : Entry K ε} {m : ε} {r : Shape K ε} {fuel : Nat}
    (h : Represents t (plug (k₀ ++ k) (.node c .leaf a m r))) (hleft : AllLeft k₀) (hfuel : k₀.length < fuel)
    {p : NodeId} (hp : ptr (plug k₀ (.node c .leaf a m r)) = some p) : t.minimumLoop fuel p = some a.id := by
  induction k₀ using List.reverseRecOn generalizing k fuel p with
  | nil =>
      obtain ⟨fuel, rfl⟩ : ∃ n, fuel = n + 1 := ⟨fuel - 1, by omega⟩
      have hcell : t.nodes a.id = _ := Represents.cell (s := .left) h
      rw [plug_nil, ptr, Option.some.injEq] at hp
      subst hp
      rw [EevdfTree.minimumLoop, hcell]
      rfl
  | append_singleton k₀ f ih =>
      obtain ⟨fuel, rfl⟩ : ∃ n, fuel = n + 1 := ⟨fuel - 1, by omega⟩
      have hf : f.side = .left := hleft f (by simp)
      rw [plug_append, plug_cons, plug_nil, Frame.fill, ptr_mk, Option.some.injEq] at hp
      subst hp
      rw [List.append_assoc, List.singleton_append] at h
      have hfocus := h
      rw [plug_append] at hfocus
      have hcell := hfocus.frame_cell
      obtain ⟨q, hq⟩ : ∃ q, ptr (plug k₀ (.node c .leaf a m r)) = some q := by
        cases k₀ with
        | nil => exact ⟨a.id, rfl⟩
        | cons g k₀ =>
            obtain ⟨b, _, hb⟩ := ptr_plug_mem g k₀ (.node c .leaf a m r)
            exact ⟨b.id, hb⟩
      have hnext : (t.nodes f.item.id).left = some q := by
        rw [hcell, hf, ← hq]
        rfl
      rw [EevdfTree.minimumLoop, hnext]
      simp only
      refine ih h (fun g hg => hleft g (by simp [hg])) ?_ hq
      simpa using hfuel

theorem len_hang (t : EevdfTree K ε) (k : ShapePath K ε) (p : Option NodeId) : (hang t k p).len = t.len := by
  cases k <;> rfl

theorem len_setParentOf (t : EevdfTree K ε) (p q : Option NodeId) : (t.setParentOf p q).len = t.len := by
  cases p <;> rfl

theorem root_setParentOf (t : EevdfTree K ε) (p q : Option NodeId) : (t.setParentOf p q).root = t.root := by
  cases p <;> rfl

/-- A node gives its place to a subtree that is apart from the path. -/
structure Transplanted (k : ShapePath K ε) (S : Shape K ε) (t t' : EevdfTree K ε) : Prop where
  path : HoldsPath t'.nodes k (ptr S)
  holds : Holds t'.nodes (parentPtr k) S
  root : t'.root = (hang t k (ptr S)).root
  len : t'.len = t.len
  other : ∀ p, (∀ b ∈ pathItems k, b.id ≠ p) → ptr S ≠ some p → t'.nodes p = t.nodes p

theorem transplant_spec {z : NodeId} {q : Option NodeId} (hpath : HoldsPath t.nodes k (some z))
    (hz : ∀ b ∈ pathItems k, b.id ≠ z) (hparent : (t.nodes z).parent = parentPtr k) (hS : Holds t.nodes q S)
    (hnodup : ((pathItems k ++ S.items).map Entry.id).Nodup) : Transplanted k S t (t.transplant z (ptr S)) := by
  rw [List.map_append, List.nodup_append'] at hnodup
  obtain ⟨hk, hs, hdisj⟩ := hnodup
  have hapart : ∀ a ∈ S.items, ∀ b ∈ pathItems k, b.id ≠ a.id := by
    intro a ha b hb heq
    refine hdisj (List.mem_map_of_mem hb) ?_
    rw [heq]
    exact List.mem_map_of_mem ha
  rw [EevdfTree.transplant, hparent, replaceChild_eq_hang hpath hz]
  constructor
  case path =>
    refine (hpath.hang (q := ptr S) hk).congr fun b hb => ?_
    rw [nodes_setParentOf]
    intro heq
    obtain ⟨a, ha, hid⟩ := ptr_mem heq
    exact hapart a ha b hb hid.symm
  case holds =>
    refine Holds.reparent (p := q) (hS.congr fun a ha => ?_) hs
    exact nodes_hang_of_not_mem (hapart a ha)
  case root => rw [root_setParentOf]
  case len => rw [len_setParentOf, len_hang]
  case other =>
    intro p hp hptr
    rw [nodes_setParentOf hptr, nodes_hang_of_not_mem hp]

/-- The last stores of the two-child case: `y` takes the place, the left subtree and the colour of `z`. -/
def succeed (t : EevdfTree K ε) (z y zLeft : NodeId) : EevdfTree K ε :=
  let t := t.transplant z (some y)
  let t := t.setChild .left y (some zLeft)
  let t := t.setParent zLeft (some y)
  t.setColor (some y) (t.nodes z).color

structure SuccessionApart (k : ShapePath K ε) (zl zr : Shape K ε) (z y : Entry K ε) : Prop where
  pair : z.id ≠ y.id
  path : ∀ b ∈ pathItems k, b.id ≠ z.id ∧ b.id ≠ y.id
  left : ∀ b ∈ zl.items, b.id ≠ z.id ∧ b.id ≠ y.id ∧ ∀ e ∈ pathItems k, e.id ≠ b.id
  right : ∀ b ∈ zr.items, b.id ≠ z.id ∧ b.id ≠ y.id ∧ (∀ e ∈ pathItems k, e.id ≠ b.id) ∧ ∀ e ∈ zl.items, e.id ≠ b.id
  pathNodup : ((pathItems k).map Entry.id).Nodup
  leftNodup : (zl.items.map Entry.id).Nodup
  rest : ((pathItems k ++ (zl.items ++ y :: zr.items)).map Entry.id).Nodup

theorem successionApart {zl zr : Shape K ε} {z y : Entry K ε}
    (h : ((z :: y :: (pathItems k ++ (zl.items ++ zr.items))).map Entry.id).Nodup) : SuccessionApart k zl zr z y := by
  have hrest : ((pathItems k ++ (zl.items ++ y :: zr.items)).map Entry.id).Nodup := by
    have hperm : (pathItems k ++ (zl.items ++ y :: zr.items)).Perm (y :: (pathItems k ++ (zl.items ++ zr.items))) := by
      rw [← List.append_assoc, ← List.append_assoc]
      exact List.perm_middle
    rw [(hperm.map Entry.id).nodup_iff]
    exact h.of_cons
  simp only [List.map_cons, List.map_append, List.nodup_cons, List.mem_cons, List.mem_append, not_or,
    List.nodup_append', List.mem_map, not_exists, not_and] at h
  obtain ⟨⟨hzy, hzk, hzl, hzr⟩, ⟨hyk, hyl, hyr⟩, hk, ⟨hl, hr, hlr⟩, hklr⟩ := h
  have hkl : ∀ b ∈ zl.items, ∀ e ∈ pathItems k, e.id ≠ b.id := by
    intro b hb e he heq
    refine hklr (List.mem_map_of_mem he) (List.mem_append_left _ ?_)
    rw [heq]
    exact List.mem_map_of_mem hb
  have hkr : ∀ b ∈ zr.items, ∀ e ∈ pathItems k, e.id ≠ b.id := by
    intro b hb e he heq
    refine hklr (List.mem_map_of_mem he) (List.mem_append_right _ ?_)
    rw [heq]
    exact List.mem_map_of_mem hb
  refine ⟨hzy, fun b hb => ⟨hzk b hb, hyk b hb⟩, fun b hb => ⟨hzl b hb, hyl b hb, hkl b hb⟩,
    fun b hb => ⟨hzr b hb, hyr b hb, hkr b hb, ?_⟩, hk, hl, hrest⟩
  intro e he heq
  refine hlr (List.mem_map_of_mem he) ?_
  rw [heq]
  exact List.mem_map_of_mem hb

theorem succeed_spec {zl zr : Shape K ε} {z y : Entry K ε} {cz c : Color} {q left : Option NodeId} {mz my : ε}
    {p : NodeId} (hroot : t.root = ptr (plug k (.node cz zl z mz zr))) (hpath : HoldsPath t.nodes k (some z.id))
    (hparent : (t.nodes z.id).parent = parentPtr k) (hcolor : (t.nodes z.id).color = cz)
    (hl : Holds t.nodes (some z.id) zl) (hp : ptr zl = some p) (hr : Holds t.nodes (some y.id) zr)
    (hy : t.nodes y.id = cell .left q c left y my (ptr zr))
    (hnodup : ((z :: y :: (pathItems k ++ (zl.items ++ zr.items))).map Entry.id).Nodup) :
    Represents (succeed t z.id y.id p) (plug k (.node cz zl y my zr)) ∧ (succeed t z.id y.id p).len = t.len ∧
      ∀ x, (∀ b ∈ pathItems k, b.id ≠ x) → x ≠ p → x ≠ y.id → (succeed t z.id y.id p).nodes x = t.nodes x := by
  have hapart := successionApart hnodup
  obtain ⟨a, ha, hid⟩ := ptr_mem hp
  have hpy : p ≠ y.id := hid ▸ (hapart.left a ha).2.1
  have hpz : p ≠ z.id := hid ▸ (hapart.left a ha).1
  have htransplant : t.transplant z.id (some y.id) = (hang t k (some y.id)).setParent y.id (parentPtr k) := by
    rw [EevdfTree.transplant, hparent, replaceChild_eq_hang hpath fun b hb => (hapart.path b hb).1]
    rfl
  have hother : ∀ x, (∀ b ∈ pathItems k, b.id ≠ x) → x ≠ p → x ≠ y.id → (succeed t z.id y.id p).nodes x =
      t.nodes x := by
    intro x hxk hxp hxy
    rw [succeed, htransplant]
    simp only [EevdfTree.setColor, EevdfTree.setParent, EevdfTree.setChild, nodes_modify, if_neg hxy, if_neg hxp]
    exact nodes_hang_of_not_mem hxk
  have hynode : (succeed t z.id y.id p).nodes y.id = cell .left (parentPtr k) cz (ptr zl) y my (ptr zr) := by
    rw [succeed, htransplant]
    simp only [EevdfTree.setColor, EevdfTree.setParent, EevdfTree.setChild, nodes_modify, if_neg hpy.symm,
      if_neg hpz.symm, if_neg hapart.pair, if_true]
    rw [nodes_hang_of_not_mem fun b hb => (hapart.path b hb).2, nodes_hang_of_not_mem fun b hb =>
      (hapart.path b hb).1, hy, hcolor, hp]
    simp
  refine ⟨.of_focus ?_ ?_ ?_ ?_, ?_, hother⟩
  · have hhang : (succeed t z.id y.id p).root = (hang t k (some y.id)).root := by
      rw [succeed, htransplant]
      rfl
    rw [hhang]
    exact root_hang hroot (.node cz zl y my zr)
  · refine (hpath.hang (q := some y.id) hapart.pathNodup).congr fun b hb => ?_
    have hby := (hapart.path b hb).2
    have hbp : b.id ≠ p := hid ▸ (hapart.left a ha).2.2 b hb
    rw [succeed, htransplant]
    simp only [EevdfTree.setColor, EevdfTree.setParent, EevdfTree.setChild, nodes_modify, if_neg hby, if_neg hbp]
  · refine ⟨hynode, ?_, ?_⟩
    · have hmoved : Holds (((t.transplant z.id (some y.id)).setChild .left y.id (some p)).setParentOf (ptr zl)
          (some y.id)).nodes (some y.id) zl := by
        refine Holds.reparent (p := some z.id) (hl.congr fun b hb => ?_) hapart.leftNodup
        rw [htransplant]
        simp only [EevdfTree.setParent, EevdfTree.setChild, nodes_modify, if_neg (hapart.left b hb).2.1]
        exact nodes_hang_of_not_mem (hapart.left b hb).2.2
      refine hmoved.congr fun b hb => ?_
      rw [succeed, hp, EevdfTree.setColor, nodes_modify, if_neg (hapart.left b hb).2.1]
      rfl
    · refine hr.congr fun b hb => ?_
      obtain ⟨_, hby, hbk, hbl⟩ := hapart.right b hb
      exact hother b.id hbk (hid ▸ (hbl a ha).symm) hby
  · exact hapart.rest
  · rw [succeed, htransplant]
    exact len_hang t k _

theorem Lacking.of_balanced {X : Shape K ε} {n : Nat} (h : X.Balanced n) : Lacking X n := by
  cases hc : X.color with
  | black => exact .inl ⟨hc, h⟩
  | red =>
      have hne : X ≠ .leaf := by
        rintro rfl
        cases hc
      obtain ⟨c, l, a, m, r, rfl⟩ := Tree.exists_mk .left hne
      rw [Tree.color_mk] at hc
      subst hc
      obtain ⟨hl, hr, _⟩ := Tree.balanced_mk_red.mp h
      exact .inr ⟨.left, l, a, m, r, rfl, hl, hr⟩

/-- A node without a child on one side leaves its place to the other child. -/
theorem balanced_without {s : Side} {c : Color} {a : Entry K ε} {m : ε} {n : Nat}
    (hk : Path.Balanced k n) (hnode : (Tree.mk s c .leaf a m S).Balanced n) :
    (c = .red → (plug k S).Valid) ∧ (c = .black → ∃ n', Lacking S n' ∧ Path.Balanced k (n' + 1)) := by
  cases c with
  | red =>
      obtain ⟨_, hS, _, hc⟩ := Tree.balanced_mk_red.mp hnode
      refine ⟨fun _ => Path.valid_plug.mpr ⟨n, hk, hS, ?_⟩, nofun⟩
      rw [hc]
      nofun
  | black =>
      obtain ⟨n', rfl, _, hS⟩ := hnode.black_pos
      exact ⟨nofun, fun _ => ⟨n', .of_balanced hS, hk⟩⟩

section Unlink

variable [LinearOrder ε] [OrderTop ε]

structure Unlinked (T : Shape K ε) (z : Entry K ε) (t t' : EevdfTree K ε) (k' : ShapePath K ε) (x : Shape K ε)
    (y : NodeId) (yColor : Color) : Prop where
  represents : Represents t' (plug k' x)
  len : t'.len = t.len
  items : ∃ a b, T.items = a ++ z :: b ∧ (plug k' x).items = a ++ b
  other : ∀ p, p ∉ T.items.map Entry.id → t'.nodes p = t.nodes p
  node : t'.nodes z.id = t.nodes z.id
  exact : T.Exact Entry.eligibleAt → Path.SidesExact Entry.eligibleAt k' ∧ x.Exact Entry.eligibleAt
  red : T.Valid → yColor = .red → (plug k' x).Valid
  black : T.Valid → yColor = .black → ∃ n, Lacking x n ∧ Path.Balanced k' (n + 1)
  place : y = z.id ∧ (t.nodes z.id).parent = parentPtr k' ∨ y ∈ (plug k' x).items.map Entry.id

theorem unlinked_one {s : Side} {c : Color} {z : Entry K ε} {m : ε} (h : Represents t (plug k (.mk s c .leaf z m S))) :
    Unlinked (plug k (.mk s c .leaf z m S)) z t (t.transplant z.id (ptr S)) k S z.id c := by
  obtain ⟨hpath, hholds, hnodup⟩ := h.focus
  obtain ⟨hcell, _, hS⟩ := holds_mk.mp hholds
  obtain ⟨_, hzS, hzk⟩ := h.apart
  rw [ptr_mk] at hpath
  have hitems : (Tree.mk s c .leaf z m S).items = z :: S.items ∨ (Tree.mk s c .leaf z m S).items = S.items ++ [z] := by
    cases s with
    | left => exact .inl rfl
    | right => exact .inr rfl
  have hnodup' : ((pathItems k ++ S.items).map Entry.id).Nodup := by
    refine hnodup.sublist (List.Sublist.map _ (List.Sublist.append (.refl _) ?_))
    rcases hitems with hitems | hitems
    · rw [hitems]
      exact List.sublist_cons_self ..
    · rw [hitems]
      exact List.sublist_append_left ..
  have hparent : (t.nodes z.id).parent = parentPtr k := by rw [hcell, cell_parent]
  have hmoved := transplant_spec hpath hzk hparent hS hnodup'
  have hptr : ptr S ≠ some z.id := by
    intro heq
    obtain ⟨b, hb, hid⟩ := ptr_mem heq
    exact hzS b hb hid
  constructor
  case represents => exact .of_focus (hmoved.root.trans (root_hang h.root _)) hmoved.path hmoved.holds hnodup'
  case len => exact hmoved.len
  case items =>
    rw [Path.items_plug, Path.items_plug]
    rcases hitems with hitems | hitems
    · exact ⟨Path.before k, S.items ++ Path.after k, by rw [hitems]; simp, rfl⟩
    · exact ⟨Path.before k ++ S.items, Path.after k, by rw [hitems]; simp, by simp⟩
  case other =>
    intro p hp
    have hmem : ∀ b ∈ (plug k (.mk s c .leaf z m S)).items, b.id ≠ p := by
      rintro b hb rfl
      exact hp (List.mem_map_of_mem hb)
    refine hmoved.other p (fun b hb => hmem b (mem_items_plug.mpr (.inl hb))) ?_
    intro heq
    obtain ⟨b, hb, hid⟩ := ptr_mem heq
    exact hmem b (mem_items_plug.mpr (.inr (Tree.mem_items_mk.mpr (.inr (.inr hb))))) hid
  case node => exact hmoved.other z.id hzk hptr
  case exact =>
    intro hexact
    obtain ⟨hke, hze⟩ := Path.exact_plug.mp hexact
    exact ⟨hke.sides, ((Tree.exact_mk _).mp hze).2.1⟩
  case red =>
    intro hvalid hc
    obtain ⟨n, hk, hnode, _⟩ := Path.valid_plug.mp hvalid
    exact (balanced_without hk hnode).1 hc
  case black =>
    intro hvalid hc
    obtain ⟨n, hk, hnode, _⟩ := Path.valid_plug.mp hvalid
    exact (balanced_without hk hnode).2 hc
  case place => exact .inl ⟨rfl, hparent⟩

omit [LinearOrder ε] [OrderTop ε] in
theorem pathItems_append (k k' : ShapePath K ε) : pathItems (k ++ k') = pathItems k ++ pathItems k' :=
  List.flatMap_append

/-- What a succession starts from: `y` is above its right subtree, and `z` still in its place. -/
structure SuccessionReady (k : ShapePath K ε) (zl zr : Shape K ε) (z y : Entry K ε) (my : ε) (t t' : EevdfTree K ε) :
    Prop where
  path : HoldsPath t'.nodes k (some z.id)
  left : Holds t'.nodes (some z.id) zl
  right : Holds t'.nodes (some y.id) zr
  successor : ∃ q c l, t'.nodes y.id = cell .left q c l y my (ptr zr)
  root : t'.root = t.root
  len : t'.len = t.len
  node : t'.nodes z.id = t.nodes z.id
  other : ∀ p, (∀ b ∈ y :: (pathItems k ++ (zl.items ++ zr.items)), b.id ≠ p) → t'.nodes p = t.nodes p

section Two

variable {ky : ShapePath K ε} {zl xt : Shape K ε} {z y : Entry K ε} {cz cy : Color} {mz my : ε}

omit [LinearOrder ε] [OrderTop ε] in
theorem succession_perm :
    (pathItems (ky ++ ⟨.right, cz, z, mz, zl⟩ :: k) ++ (RedBlack.Tree.node cy .leaf y my xt).items).Perm
    (z :: y :: (pathItems k ++ (zl.items ++ (plug ky xt).items))) := by
  classical
  have hplug := items_plug_perm ky xt
  rw [List.perm_iff_count] at hplug ⊢
  intro a
  have ha := hplug a
  simp only [pathItems_append, pathItems_cons, Tree.items, List.count_append, List.count_cons, List.nil_append] at ha ⊢
  omega

omit [LinearOrder ε] [OrderTop ε] in
theorem ready_near (h : Represents t (plug (⟨.right, cz, z, mz, zl⟩ :: k) (.node cy .leaf y my xt))) :
    SuccessionReady k zl xt z y my t (t.setParentOf (ptr xt) (some y.id)) := by
  obtain ⟨hpath, hholds, hnodup⟩ := h.focus
  obtain ⟨hz, hl, hk⟩ := hpath
  obtain ⟨hy, _, hx⟩ := hholds
  rw [← List.nil_append (_ :: k)] at hnodup
  have hapart := successionApart ((succession_perm.map Entry.id).nodup_iff.mp hnodup)
  have hxt : ∀ b : Entry K ε, (∀ e ∈ xt.items, e.id ≠ b.id) → ptr xt ≠ some b.id := by
    intro b hb heq
    obtain ⟨e, he, hid⟩ := ptr_mem heq
    exact hb e he hid
  have hxnodup : (xt.items.map Entry.id).Nodup := by
    refine hapart.rest.sublist (List.Sublist.map _ ?_)
    exact (List.sublist_cons_self ..).trans ((List.sublist_append_right ..).trans (List.sublist_append_right ..))
  constructor
  case path =>
    exact hk.congr fun b hb => nodes_setParentOf (hxt b fun e he => ((hapart.right e he).2.2.1 b hb).symm)
  case left =>
    exact hl.congr fun b hb => nodes_setParentOf (hxt b fun e he => ((hapart.right e he).2.2.2 b hb).symm)
  case right => exact hx.reparent hxnodup
  case successor =>
    rw [nodes_setParentOf (hxt y fun e he => (hapart.right e he).2.1)]
    exact ⟨_, _, _, hy⟩
  case root => exact root_setParentOf ..
  case len => exact len_setParentOf ..
  case node => exact nodes_setParentOf (hxt z fun e he => (hapart.right e he).1)
  case other =>
    intro p hp
    refine nodes_setParentOf ?_
    intro heq
    obtain ⟨e, he, hid⟩ := ptr_mem heq
    exact hp e (by simp [he]) hid

/-- The successor is further down, and leaves its place to its right subtree first. -/
theorem ready_far {g : Frame (Entry K ε) ε} {p : NodeId}
    (h : Represents t (plug (g :: ky ++ ⟨.right, cz, z, mz, zl⟩ :: k) (.node cy .leaf y my xt)))
    (hp : ptr (plug (g :: ky) (.node cy .leaf y my xt)) = some p) :
    SuccessionReady k zl (plug (g :: ky) xt) z y my t
      (((t.transplant y.id (ptr xt)).setChild .right y.id (some p)).setParent p (some y.id)) := by
  have hmoved := unlinked_one (s := .left) h
  have hbefore := h
  rw [plug_append] at hbefore
  have hrep := hmoved.represents
  rw [plug_append] at hrep
  have hp' : ptr (plug (g :: ky) xt) = some p := by rw [← hp, ptr_plug_cons g xt (.node cy .leaf y my xt)]
  have hnodup := ((succession_perm.map Entry.id).nodup_iff).mp h.focus.2.2
  have hapart := successionApart hnodup
  obtain ⟨hpath, hholds, _⟩ := hrep.focus
  obtain ⟨hz, hl, hk⟩ := hpath
  have hzbefore := hbefore.frame_cell
  rw [hp] at hzbefore
  rw [hp'] at hz
  obtain ⟨a, ha, hid⟩ := ptr_mem hp'
  obtain ⟨haz, hay, hak, hal⟩ := hapart.right a ha
  rw [hid] at haz hay hak hal
  have hother : ∀ x, x ≠ y.id → x ≠ p →
      (((t.transplant y.id (ptr xt)).setChild .right y.id (some p)).setParent p (some y.id)).nodes x =
        (t.transplant y.id (ptr xt)).nodes x := by
    intro x hy hx
    rw [EevdfTree.setParent, nodes_modify, if_neg hx, EevdfTree.setChild, nodes_modify, if_neg hy]
  have hrnodup : ((plug (g :: ky) xt).items.map Entry.id).Nodup := by
    refine hapart.rest.sublist (List.Sublist.map _ ?_)
    exact (List.sublist_cons_self ..).trans ((List.sublist_append_right ..).trans (List.sublist_append_right ..))
  constructor
  case path => exact hk.congr fun b hb => hother b.id (hapart.path b hb).2 (hak b hb)
  case left => exact hl.congr fun b hb => hother b.id (hapart.left b hb).2.1 (hal b hb)
  case right =>
    have hset : Holds ((t.transplant y.id (ptr xt)).setChild .right y.id (some p)).nodes (some z.id)
        (plug (g :: ky) xt) := by
      refine hholds.congr fun b hb => ?_
      rw [EevdfTree.setChild, nodes_modify, if_neg (hapart.right b hb).2.1]
    have hparent := hset.reparent (q := some y.id) hrnodup
    rw [hp'] at hparent
    exact hparent
  case successor =>
    have hy : t.nodes y.id = _ := Represents.cell (s := .left) h
    refine ⟨parentPtr (g :: ky ++ ⟨.right, cz, z, mz, zl⟩ :: k), cy, none, ?_⟩
    rw [EevdfTree.setParent, nodes_modify, if_neg hay.symm, EevdfTree.setChild, nodes_modify, if_pos rfl,
      hmoved.node, hy, hp']
    rfl
  case root =>
    have hroot := hmoved.represents.root
    have hroot' := h.root
    rw [List.cons_append] at hroot hroot'
    rw [ptr_plug_cons g xt (.node cy .leaf y my xt), ← hroot'] at hroot
    exact hroot
  case len => exact hmoved.len
  case node =>
    rw [hother z.id hapart.pair haz.symm, hz, hzbefore]
  case other =>
    intro x hx
    have hxy : x ≠ y.id := (hx y (by simp)).symm
    have hxp : x ≠ p := by
      rintro rfl
      exact hx a (List.mem_cons_of_mem _ (List.mem_append_right _ (List.mem_append_right _ ha))) hid
    rw [hother x hxy hxp]
    by_cases hxz : x = z.id
    · rw [hxz, hz, hzbefore]
    · apply hmoved.other
      intro hmem
      obtain ⟨b, hb, hbx⟩ := List.mem_map.mp hmem
      rw [mem_items_plug, ← List.mem_append] at hb
      rcases List.mem_cons.mp (succession_perm.mem_iff.mp hb) with rfl | hb
      · exact hxz hbx.symm
      · exact hx b hb hbx

/-- A node with two children leaves its place to its successor. -/
theorem unlinked_two (h : Represents t (plug (ky ++ ⟨.right, cz, z, mz, zl⟩ :: k) (.node cy .leaf y my xt)))
    (hleft : AllLeft ky) (hlen : ky.length < t.turns) (hne : zl ≠ .leaf) :
    ∃ t', t.unlink z.id = some (t', ptr xt, parentPtr (ky ++ ⟨.right, cz, y, my, zl⟩ :: k), y.id, cy) ∧
      Unlinked (plug (ky ++ ⟨.right, cz, z, mz, zl⟩ :: k) (.node cy .leaf y my xt)) z t t'
        (ky ++ ⟨.right, cz, y, my, zl⟩ :: k) xt y.id cy := by
  obtain ⟨p, hp⟩ : ∃ p, ptr zl = some p := by
    obtain ⟨c, l, a, m, r, rfl⟩ := Tree.exists_mk .left hne
    exact ⟨a.id, rfl⟩
  obtain ⟨q, hq⟩ : ∃ q, ptr (plug ky (.node cy .leaf y my xt)) = some q := by
    cases ky with
    | nil => exact ⟨y.id, rfl⟩
    | cons g ky =>
        obtain ⟨b, _, hb⟩ := ptr_plug_mem g ky (.node cy .leaf y my xt)
        exact ⟨b.id, hb⟩
  have hfocus := h
  rw [plug_append] at hfocus
  have hz := hfocus.frame_cell
  have hy : t.nodes y.id = _ := Represents.cell (s := .left) h
  have hnodup := ((succession_perm.map Entry.id).nodup_iff).mp h.focus.2.2
  have hapart := successionApart hnodup
  have hminimum : t.minimum q = some y.id := minimumLoop_eq h hleft hlen hq
  obtain ⟨t₁, hready, hrun⟩ : ∃ t₁, SuccessionReady k zl (plug ky xt) z y my t t₁ ∧
      t.unlink z.id = some (succeed t₁ z.id y.id p, ptr xt, parentPtr (ky ++ ⟨.right, cz, y, my, zl⟩ ::
        k), y.id, cy) := by
    have hzleft : (t.nodes z.id).left = some p := by
      rw [hz, ← hp]
      rfl
    have hzright : (t.nodes z.id).right = some q := by
      rw [hz, ← hq]
      rfl
    have hyright : (t.nodes y.id).right = ptr xt := by rw [hy]; rfl
    have hycolor : (t.nodes y.id).color = cy := by rw [hy, cell_color]
    cases ky with
    | nil =>
        refine ⟨_, ready_near h, ?_⟩
        have hyparent : (t.nodes y.id).parent = some z.id := by rw [hy, cell_parent]; rfl
        rw [EevdfTree.unlink, hzleft, hzright]
        simp only [hminimum, Option.bind_eq_bind, Option.bind_some, hyparent, hyright, hycolor, if_true]
        rfl
    | cons g ky =>
        refine ⟨_, ready_far h hq, ?_⟩
        have hyparent : (t.nodes y.id).parent = some g.item.id := by rw [hy, cell_parent]; rfl
        have hgz : g.item.id ≠ z.id :=
          (hapart.right g.item (mem_items_plug.mpr (.inl (by simp [pathItems_cons])))).1
        rw [EevdfTree.unlink, hzleft, hzright]
        simp only [hminimum, Option.bind_eq_bind, Option.bind_some, hyparent, hyright, hycolor, Option.some.injEq, hgz,
          if_false]
        rfl
  refine ⟨_, hrun, ?_⟩
  have hbefore : plug (ky ++ ⟨.right, cz, z, mz, zl⟩ :: k) (.node cy .leaf y my xt) =
      plug k (.node cz zl z mz (plug ky (.node cy .leaf y my xt))) := plug_append ..
  have hafter : plug (ky ++ ⟨.right, cz, y, my, zl⟩ :: k) xt = plug k (.node cz zl y my (plug ky xt)) := plug_append ..
  obtain ⟨_, _, _, hsucc⟩ := hready.successor
  have hroot : t₁.root = ptr (plug k (.node cz zl z mz (plug ky xt))) := by
    rw [hready.root, h.root, hbefore]
    exact ptr_plug_congr rfl
  obtain ⟨hrep, hsame, hother⟩ := succeed_spec hroot hready.path (by rw [hready.node, hz, cell_parent])
    (by rw [hready.node, hz, cell_color]) hready.left hp hready.right hsucc hnodup
  obtain ⟨a, ha, hid⟩ := ptr_mem hp
  constructor
  case represents => rwa [hafter]
  case len => rw [hsame, hready.len]
  case items =>
    refine ⟨Path.before k ++ zl.items, y :: (xt.items ++ Path.after ky) ++ Path.after k, ?_, ?_⟩
    · rw [hbefore, Path.items_plug, Tree.items, Path.items_plug, hleft.before]
      simp [Tree.items]
    · rw [hafter, Path.items_plug, Tree.items, Path.items_plug, hleft.before]
      simp
  case other =>
    intro x hx
    have hout : ∀ b ∈ z :: y :: (pathItems k ++ (zl.items ++ (plug ky xt).items)), b.id ≠ x := by
      rintro b hb rfl
      exact hx (List.mem_map_of_mem (mem_items_plug.mpr (List.mem_append.mp (succession_perm.mem_iff.mpr hb))))
    rw [hother x, hready.other x]
    · exact fun b hb => hout b (List.mem_cons_of_mem _ hb)
    · exact fun b hb => hout b (List.mem_cons_of_mem _ (List.mem_cons_of_mem _ (List.mem_append_left _ hb)))
    · rw [← hid]
      exact (hout a (by simp [ha])).symm
    · exact (hout y (by simp)).symm
  case node =>
    rw [hother z.id (fun b hb => (hapart.path b hb).1) (hid ▸ (hapart.left a ha).1.symm) hapart.pair, hready.node]
  case exact =>
    intro hexact
    obtain ⟨hke, hye⟩ := Path.exact_plug.mp hexact
    have hsides := hke.sides
    refine ⟨?_, hye.2.1⟩
    intro f hf
    rcases List.mem_append.mp hf with hf | hf
    · exact hsides f (List.mem_append_left _ hf)
    · rcases List.mem_cons.mp hf with rfl | hf
      · exact hsides ⟨.right, cz, z, mz, zl⟩ (by simp)
      · exact hsides f (by simp [hf])
  case red =>
    intro hvalid
    obtain ⟨n, hk, hnode, _⟩ := Path.valid_plug.mp hvalid
    exact (balanced_without (s := .left) (hk.congr (by simp)) hnode).1
  case black =>
    intro hvalid
    obtain ⟨n, hk, hnode, _⟩ := Path.valid_plug.mp hvalid
    exact (balanced_without (s := .left) (hk.congr (by simp)) hnode).2
  case place =>
    refine .inr (List.mem_map_of_mem ?_)
    rw [hafter, mem_items_plug]
    exact .inr (by simp [Tree.items])

end Two

omit [LinearOrder ε] [OrderTop ε] in
theorem exists_focus {a : Entry K ε} (h : a ∈ T.items) : ∃ k c l m r, T = plug k (.node c l a m r) := by
  induction T with
  | leaf => cases h
  | node c l b m r ihl ihr =>
      simp only [Tree.items, List.mem_append, List.mem_cons] at h
      rcases h with h | rfl | h
      · obtain ⟨k, c', l', m', r', rfl⟩ := ihl h
        exact ⟨k ++ [⟨.left, c, b, m, r⟩], c', l', m', r', by rw [plug_append]; rfl⟩
      · exact ⟨[], c, l, m, r, rfl⟩
      · obtain ⟨k, c', l', m', r', rfl⟩ := ihr h
        exact ⟨k ++ [⟨.right, c, b, m, l⟩], c', l', m', r', by rw [plug_append]; rfl⟩

theorem unlink_spec {c : Color} {l r : Shape K ε} {z : Entry K ε} {m : ε} (h : Represents t (plug k (.node c l z m r)))
    (hlen : (plug k (.node c l z m r)).size ≤ t.len) :
    ∃ t' k' x y yColor, t.unlink z.id = some (t', ptr x, parentPtr k', y, yColor) ∧
      Unlinked (plug k (.node c l z m r)) z t t' k' x y yColor := by
  have hcell : t.nodes z.id = _ := Represents.cell (s := .left) h
  have hparent : (t.nodes z.id).parent = parentPtr k := by rw [hcell, cell_parent]
  have hcolor : (t.nodes z.id).color = c := by rw [hcell, cell_color]
  have hleft : (t.nodes z.id).left = ptr l := by rw [hcell]; rfl
  have hright : (t.nodes z.id).right = ptr r := by rw [hcell]; rfl
  cases l with
  | leaf =>
      refine ⟨_, k, r, z.id, c, ?_, unlinked_one (s := .left) h⟩
      rw [EevdfTree.unlink, hleft, hright]
      simp only [hparent, hcolor, ptr]
  | node cl ll al ml rl =>
      cases r with
      | leaf =>
          refine ⟨_, k, .node cl ll al ml rl, z.id, c, ?_, unlinked_one (s := .right) h⟩
          rw [EevdfTree.unlink, hleft, hright]
          simp only [hparent, hcolor, ptr]
      | node cr lr ar mr rr =>
          obtain ⟨ky, cy, y, my, xt, hr, hky⟩ := exists_leftmost (T := .node cr lr ar mr rr) (by simp)
          have hshape : plug k (.node c (.node cl ll al ml rl) z m (.node cr lr ar mr rr)) =
              plug (ky ++ ⟨.right, c, z, m, .node cl ll al ml rl⟩ :: k) (.node cy .leaf y my xt) := by
            rw [hr, plug_append]
            rfl
          rw [hshape] at h hlen ⊢
          have hsize := Path.length_le_size (ky ++ ⟨.right, c, z, m, .node cl ll al ml rl⟩ :: k)
              (.node cy .leaf y my xt)
          have hturns : ky.length < t.turns := by
            rw [List.length_append] at hsize
            rw [EevdfTree.turns]
            omega
          obtain ⟨t', hrun, hunlinked⟩ := unlinked_two h hky hturns (by simp)
          exact ⟨t', _, xt, y.id, cy, hrun, hunlinked⟩

/-- The walk from a node recomputes the path above it, if the node is exact itself. -/
theorem Represents.recomputeFrom {X : Shape K ε} (h : Represents t (plug k X)) (hX : X.Exact Entry.eligibleAt)
    (fuel : Nat) (hfuel : k.length + 1 ≤ fuel) (hne : X ≠ .leaf) :
    ∃ t', EevdfTree.recomputeUpwardsLoop fuel t (ptr X) = some t' ∧ Within (plug k X) t t' ∧
      Represents t' (plug (Path.recomputed Entry.eligibleAt k X.cached) X) := by
  cases X with
  | leaf => exact absurd rfl hne
  | node c l a m r =>
      obtain ⟨t', hrun, hwithin, hrep⟩ := Represents.recomputeUpwards (k := ⟨.left, c, a, m, r⟩ :: k)
          (T := l) h fuel hfuel
      refine ⟨t', hrun, hwithin, ?_⟩
      have hm : min (min a.eligibleAt l.cached) r.cached = m := hX.2.2.symm
      simp only [Path.recomputed, hm] at hrep
      exact hrep

/-- In an exact tree a walk from any of its nodes changes no cache. -/
theorem Represents.recompute_exact (h : Represents t T) (hT : T.Exact Entry.eligibleAt) (fuel : Nat)
    (hfuel : T.size ≤ fuel) {p : NodeId} (hp : p ∈ T.items.map Entry.id) :
    ∃ t', EevdfTree.recomputeUpwardsLoop fuel t (some p) = some t' ∧ Within T t t' ∧ Represents t' T := by
  obtain ⟨a, ha, rfl⟩ := List.mem_map.mp hp
  obtain ⟨k, c, l, m, r, rfl⟩ := exists_focus ha
  obtain ⟨hk, hX⟩ := Path.exact_plug.mp hT
  have hsize := Path.length_le_size k (.node c l a m r)
  have hnode : 1 ≤ (RedBlack.Tree.node c l a m r).size := by simp [Tree.size]
  obtain ⟨t', hrun, hwithin, hrep⟩ := h.recomputeFrom hX fuel (by omega) (by simp)
  rw [hk.recomputed_eq] at hrep
  exact ⟨t', hrun, hwithin, hrep⟩

structure Removed (T T' : Shape K ε) (z : Entry K ε) (t t' : EevdfTree K ε) : Prop where
  represents : Represents t' T'
  valid : T'.Valid
  exact : T'.Exact Entry.eligibleAt
  items : ∃ a b, T.items = a ++ z :: b ∧ T'.items = a ++ b
  len : t'.len = t.len - 1
  other : ∀ p, p ∉ T.items.map Entry.id → t'.nodes p = t.nodes p
  node : t'.nodes z.id = .newUnlinked z.key z.eligibleAt

omit [LinearOrder ε] [OrderTop ε] in
theorem Represents.of_nodes {t' : EevdfTree K ε} (h : Represents t T) (hroot : t'.root = t.root)
    (hnodes : ∀ a ∈ T.items, t'.nodes a.id = t.nodes a.id) : Represents t' T :=
  ⟨hroot.trans h.root, h.holds.congr hnodes, h.nodup⟩

theorem Unlinked.repaired {z : Entry K ε} {t' : EevdfTree K ε} {k' : ShapePath K ε} {x : Shape K ε} {y : NodeId}
    {yColor : Color} (h : Unlinked T z t t' k' x y yColor) (hvalid : T.Valid) (hexact : T.Exact Entry.eligibleAt)
    (hlen : (plug k' x).size ≤ t.len - 1) :
    ∃ t₂ K₂ x₂, (if yColor = .black then EevdfTree.deleteFixup { t' with len := t'.len - 1 } (ptr x) (parentPtr k')
        else some { t' with len := t'.len - 1 }) = some t₂ ∧
      Settled (plug k' x) { t' with len := t'.len - 1 } t₂ K₂ x₂ (ptr x) (parentPtr k') := by
  have hrep : Represents { t' with len := t'.len - 1 } (plug k' x) := h.represents.of_nodes rfl fun _ _ => rfl
  obtain ⟨hsides, hx⟩ := h.exact hexact
  have hsize := Path.length_le_size k' x
  cases hc : yColor with
  | red =>
      rw [if_neg (by simp)]
      exact ⟨_, k', x, rfl, ⟨.refl, hrep, rfl⟩, h.red hvalid hc, hsides, hx, rfl, rfl⟩
  | black =>
      rw [if_pos rfl]
      obtain ⟨n, hlacking, hk⟩ := h.black hvalid hc
      exact @deleteFixup_spec _ _ _ _ _ _ k' [] x n hrep hlacking hk
        (fun _ => by simp only [EevdfTree.turns, h.len]; omega) (by simp only [EevdfTree.turns]; omega) hsides hx

/-- The first two walks of `remove_raw` make every cache exact. -/
theorem Settled.recomputed {t₂ : EevdfTree K ε} {K₂ : ShapePath K ε} {x₂ : Shape K ε} {x parent : Option NodeId}
    (h : Settled T t t₂ K₂ x₂ x parent) (hlen : (plug K₂ x₂).size ≤ t₂.len) :
    ∃ t₃ t₄ K₄, t₂.recomputeUpwards x = some t₃ ∧ t₃.recomputeUpwards parent = some t₄ ∧ parentPtr K₄ = parent ∧
      Rebuilds T t t₄ (plug K₄ x₂) ∧ (plug K₄ x₂).Valid ∧ (plug K₄ x₂).Exact Entry.eligibleAt := by
  have hsize := Path.length_le_size K₂ x₂
  have hpp : ∀ (k : ShapePath K ε) (m : ε), parentPtr (Path.recomputed Entry.eligibleAt k m) = parentPtr k := by
    intro k m
    cases k <;> rfl
  obtain ⟨t₃, K₃, hrun₃, hrebuilds₃, hvalid₃, hsides₃, hparent₃, hlength₃⟩ : ∃ t₃ K₃, t₂.recomputeUpwards x = some t₃ ∧
      Rebuilds T t t₃ (plug K₃ x₂) ∧ (plug K₃ x₂).Valid ∧ Path.SidesExact Entry.eligibleAt K₃ ∧
      parentPtr K₃ = parentPtr K₂ ∧ K₃.length = K₂.length := by
    by_cases hleaf : x₂ = .leaf
    · refine ⟨t₂, K₂, ?_, h.rebuilds, h.valid, h.sides, rfl, rfl⟩
      rw [← h.ptr, hleaf, ptr_leaf, EevdfTree.recomputeUpwards, EevdfTree.recomputeUpwardsLoop]
    · obtain ⟨t₃, hrun, hwithin, hrep⟩ := h.rebuilds.represents.recomputeFrom h.exact t₂.turns
        (by simp only [EevdfTree.turns]; omega) hleaf
      refine ⟨t₃, _, ?_, h.rebuilds.trans ⟨hwithin, hrep, Path.items_recomputed ..⟩, Path.valid_recomputed h.valid,
        h.sides.recomputed, hpp _ _, Path.length_recomputed ..⟩
      rw [← h.ptr]
      exact hrun
  obtain ⟨t₄, hrun₄, hwithin₄, hrep₄⟩ := hrebuilds₃.represents.recomputeUpwards t₃.turns (by
    have hlen₃ : t₃.len = t₂.len := hrebuilds₃.within.len.trans h.rebuilds.within.len.symm
    simp only [EevdfTree.turns, hlen₃]
    omega)
  refine ⟨t₃, t₄, _, hrun₃, ?_, ?_, hrebuilds₃.trans ⟨hwithin₄, hrep₄, Path.items_recomputed ..⟩,
    Path.valid_recomputed hvalid₃, Path.exact_recomputed hsides₃ h.exact⟩
  · rw [← h.parent, ← hparent₃]
    exact hrun₄
  · rw [hpp, hparent₃, h.parent]

/-- The last walk of `remove_raw` starts at a node of the tree, or at the one that has left it. -/
theorem Represents.recomputeLast {z : NodeId} {y : NodeId} (h : Represents t (plug k S))
    (hexact : (plug k S).Exact Entry.eligibleAt) (hz : z ∉ (plug k S).items.map Entry.id)
    (hlen : (plug k S).size ≤ t.len)
    (hy : y = z ∧ (t.nodes z).parent = parentPtr k ∨ y ∈ (plug k S).items.map Entry.id) :
    ∃ t', t.recomputeUpwards (some y) = some t' ∧ Represents t' (plug k S) ∧ t'.len = t.len ∧
      (∀ p, p ∉ (plug k S).items.map Entry.id → p ≠ z → t'.nodes p = t.nodes p) ∧
      (t'.nodes z).key = (t.nodes z).key ∧ (t'.nodes z).eligibleAt = (t.nodes z).eligibleAt := by
  rcases hy with ⟨rfl, hparent⟩ | hy
  · have hother : ∀ p, p ≠ y → (t.recompute y).nodes p = t.nodes p := by
      intro p hp
      rw [EevdfTree.recompute, nodes_modify, if_neg hp]
    have hself : (t.recompute y).nodes y = (t.nodes y).setMin
        (min (min (t.nodes y).eligibleAt (t.minBehind (t.nodes y).left)) (t.minBehind (t.nodes y).right)) := by
      rw [EevdfTree.recompute, nodes_modify, if_pos rfl]
    have hrep : Represents (t.recompute y) (plug k S) := by
      refine h.of_nodes rfl fun a ha => hother a.id ?_
      rintro rfl
      exact hz (List.mem_map_of_mem ha)
    have hsize := Path.length_le_size k S
    obtain ⟨t', hrun, hwithin, hrep'⟩ := hrep.recomputeUpwards (t.len + 1) (by omega)
    rw [(Path.exact_plug.mp hexact).1.recomputed_eq] at hrep'
    refine ⟨t', ?_, hrep', hwithin.len, ?_, ?_, ?_⟩
    · rw [EevdfTree.recomputeUpwards, EevdfTree.turns, EevdfTree.recomputeUpwardsLoop]
      rw [hself, NodeState.setMin]
      simp only
      rw [hparent]
      exact hrun
    · intro p hp hne
      rw [hwithin.nodes p hp, hother p hne]
    · rw [hwithin.nodes y hz, hself]
      rfl
    · rw [hwithin.nodes y hz, hself]
      rfl
  · obtain ⟨t', hrun, hwithin, hrep⟩ := h.recompute_exact hexact t.turns
      (by simp only [EevdfTree.turns]; omega) hy
    exact ⟨t', hrun, hrep, hwithin.len, fun p hp _ => hwithin.nodes p hp, by rw [hwithin.nodes z hz],
      by rw [hwithin.nodes z hz]⟩

omit [LinearOrder ε] [OrderTop ε] in
/-- The stores to the root at the end of `remove_raw` change nothing. -/
theorem Represents.settleRoot (h : Represents t T) (hc : T.color = .black) :
    ∃ t', (match t.root with
        | none => t
        | some root => t.modify root (fun n => (n.setParent none).setColor .black)) = t' ∧ Represents t' T ∧
            Within T t t' := by
  refine ⟨_, rfl, ?_⟩
  rw [h.root]
  cases T with
  | leaf => exact ⟨h, .refl⟩
  | node c l a m r =>
      obtain rfl : c = .black := hc
      refine Represents.update (k := []) (s := .left) h ?_
      rw [cell_setParent, cell_setColor]
      rfl

theorem removeRaw_spec {z : Entry K ε} (h : Represents t T) (hvalid : T.Valid) (hexact : T.Exact Entry.eligibleAt)
    (hlen : t.len = T.size) (hz : z ∈ T.items) : ∃ t' T', t.removeRaw z.id = some t' ∧ Removed T T' z t t' := by
  obtain ⟨k, c, l, m, r, rfl⟩ := exists_focus hz
  have hcell : t.nodes z.id = _ := Represents.cell (s := .left) h
  obtain ⟨t₁, k', x, y, yColor, hrun₁, hunlinked⟩ := unlink_spec h (Nat.le_of_eq hlen.symm)
  obtain ⟨a, b, hitems, hrest⟩ := hunlinked.items
  have hsize : (plug k' x).size = t.len - 1 := by
    rw [hlen, ← Tree.length_items, ← Tree.length_items, hitems, hrest]
    simp
  obtain ⟨t₂, K₂, x₂, hrun₂, hsettled⟩ := hunlinked.repaired hvalid hexact (Nat.le_of_eq hsize)
  have hlen₂ : t₂.len = t.len - 1 := by
    rw [hsettled.rebuilds.within.len, hunlinked.len]
  obtain ⟨t₃, t₄, K₄, hrun₃, hrun₄, hparent₄, hrebuilds₄, hvalid₄, hexact₄⟩ := hsettled.recomputed (by
    rw [← Tree.length_items, hsettled.rebuilds.items, Tree.length_items, hsize, hlen₂])
  have hitems₄ := hrebuilds₄.items
  have hz₄ : z.id ∉ (plug K₄ x₂).items.map Entry.id := by
    have hnodup := h.nodup
    rw [hitems, ((List.perm_middle (a := z)).map Entry.id).nodup_iff, List.map_cons, List.nodup_cons]
      at hnodup
    rw [hitems₄, hrest]
    exact hnodup.1
  have hnode₄ : t₄.nodes z.id = t.nodes z.id := by
    rw [hrebuilds₄.within.nodes z.id (by rw [← hitems₄]; exact hz₄)]
    exact hunlinked.node
  have hlen₄ : t₄.len = t.len - 1 := by rw [hrebuilds₄.within.len, hunlinked.len]
  obtain ⟨t₅, hrun₅, hrep₅, hlen₅, hother₅, hkey₅, heligible₅⟩ :=
    hrebuilds₄.represents.recomputeLast (y := y) hexact₄ hz₄
    (by rw [← Tree.length_items, hitems₄, Tree.length_items, hsize, hlen₄]) (by
      rw [hnode₄, hparent₄, hitems₄]
      exact hunlinked.place)
  obtain ⟨t₆, hrun₆, hrep₆, hwithin₆⟩ := hrep₅.settleRoot hvalid₄.1
  refine ⟨t₆.modify z.id EevdfTree.reset, plug K₄ x₂, ?_, ?_, hvalid₄, hexact₄, ⟨a, b, hitems, hitems₄.trans hrest⟩,
    ?_, ?_, ?_⟩
  · rw [EevdfTree.removeRaw, hrun₁]
    simp only [Option.bind_eq_bind, Option.bind_some]
    by_cases hc : yColor = .black
    · rw [if_pos hc] at hrun₂ ⊢
      rw [hrun₂, Option.bind_some, hrun₃, Option.bind_some, hrun₄, Option.bind_some, hrun₅, Option.bind_some]
      exact congrArg (fun t => some (t.modify z.id EevdfTree.reset)) hrun₆
    · rw [if_neg hc] at hrun₂ ⊢
      rw [Option.some.inj hrun₂, hrun₃, Option.bind_some, hrun₄, Option.bind_some, hrun₅, Option.bind_some]
      exact congrArg (fun t => some (t.modify z.id EevdfTree.reset)) hrun₆
  · refine hrep₆.of_nodes rfl fun e he => ?_
    rw [nodes_modify, if_neg]
    intro heq
    exact hz₄ (heq ▸ List.mem_map_of_mem he)
  · exact hwithin₆.len.trans (hlen₅.trans hlen₄)
  · intro p hp
    have hpz : p ≠ z.id := by
      rintro rfl
      exact hp (List.mem_map_of_mem hz)
    have hp₄ : p ∉ (plug K₄ x₂).items.map Entry.id := by
      rw [hitems₄, hrest]
      rw [hitems] at hp
      simp only [List.map_append, List.map_cons, List.mem_append, List.mem_cons, not_or] at hp ⊢
      exact ⟨hp.1, hp.2.2⟩
    rw [nodes_modify, if_neg hpz, hwithin₆.nodes p hp₄, hother₅ p hp₄ hpz, hrebuilds₄.within.nodes p
      (by rw [← hitems₄]; exact hp₄)]
    exact hunlinked.other p hp
  · rw [nodes_modify, if_pos rfl, EevdfTree.reset, hwithin₆.nodes z.id hz₄, hkey₅, heligible₅, hnode₄, hcell]
    rfl

end Unlink

end TheKernel.Eevdf
