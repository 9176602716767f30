import Mathlib.Data.List.Induction
import TheKernel.Eevdf.TreeRep

namespace TheKernel.Eevdf

open RedBlack

variable {K ε : Type} {t : EevdfTree K ε} {k : ShapePath K ε} {T : Shape K ε} {f g : Frame (Entry K ε) ε}

/-- The two children of a node are told apart by their pointers. -/
theorem Represents.child_iff (h : Represents t (plug (f :: k) T)) (hne : T ≠ .leaf ∨ f.sibling ≠ .leaf) (s : Side) :
    ptr T = (t.nodes f.item.id).child s ↔ f.side = s := by
  have hptr : ptr T ≠ ptr f.sibling := by
    intro heq
    have hnodup := h.focus.2.2
    obtain ⟨p, hp⟩ : ∃ p, ptr T = some p := by
      rcases hne with hne | hne
      · obtain ⟨c, l, a, m, r, rfl⟩ := Tree.exists_mk .left hne
        exact ⟨_, rfl⟩
      · obtain ⟨c, l, a, m, r, hs⟩ := Tree.exists_mk .left hne
        rw [heq, hs]
        exact ⟨_, rfl⟩
    obtain ⟨a, ha, hid⟩ := ptr_mem hp
    obtain ⟨b, hb, hid'⟩ := ptr_mem (heq ▸ hp)
    rw [List.map_append, List.nodup_append'] at hnodup
    have hmem : p ∈ (pathItems (f :: k)).map Entry.id := by
      rw [← hid']
      exact List.mem_map_of_mem (by simp [pathItems_cons, hb])
    exact hnodup.2.2 hmem (hid ▸ List.mem_map_of_mem ha)
  have hcell := h.frame_cell
  constructor
  · intro heq
    rcases f.side.eq_or_other s with hs | hs
    · exact hs.symm
    · rw [hs, hcell, cell_child_other] at heq
      exact absurd heq hptr
  · rintro rfl
    rw [hcell, cell_child]

/-- The test for the left child finds the side of the hole. -/
theorem Represents.side_eq (h : Represents t (plug (f :: k) T)) (hne : T ≠ .leaf ∨ f.sibling ≠ .leaf) :
    (if ptr T = (t.nodes f.item.id).left then Side.left else .right) = f.side := by
  have hiff := h.child_iff hne .left
  rw [NodeState.child] at hiff
  by_cases hleft : ptr T = (t.nodes f.item.id).left
  · rw [if_pos hleft, hiff.mp hleft]
  · rw [if_neg hleft]
    rcases Side.left.eq_or_other f.side with hs | hs
    · exact absurd (hiff.mpr hs) hleft
    · exact hs.symm

section Fixup

variable [LinearOrder ε] [OrderTop ε]

/-- What an operation on a represented tree may do besides its result: keep the
items in order and the rest of the memory. -/
structure Rebuilds (T : Shape K ε) (t t' : EevdfTree K ε) (T' : Shape K ε) : Prop where
  within : Within T t t'
  represents : Represents t' T'
  items : T'.items = T.items

omit [LinearOrder ε] [OrderTop ε] in
theorem Rebuilds.trans {T T' T'' : Shape K ε} {t t' t'' : EevdfTree K ε} (h : Rebuilds T t t' T')
    (h' : Rebuilds T' t' t'' T'') : Rebuilds T t t'' T'' :=
  ⟨h.within.trans h'.within h.items.symm, h'.represents, h'.items.trans h.items⟩

omit [LinearOrder ε] [OrderTop ε] in
theorem Represents.recolor {s : Side} {c : Color} {l : Shape K ε} {a : Entry K ε} {m : ε} {r : Shape K ε}
    (h : Represents t (plug k (.mk s c l a m r))) (c' : Color) :
    Rebuilds (plug k (.mk s c l a m r)) t (t.setColor (some a.id) c') (plug k (.mk s c' l a m r)) := by
  obtain ⟨hrep, hwithin⟩ := h.setColor c'
  exact ⟨hwithin, hrep, Path.items_plug_congr k (Tree.items_mk_congr _ _ _ _ _ _ rfl rfl)⟩

theorem Represents.turn {s : Side} {c d : Color} {l b r : Shape K ε} {x y : Entry K ε} {m n : ε}
    (h : Represents t (plug k (.mk s c l x m (.mk s d b y n r)))) :
    ∃ t', t.rotate s x.id = some t' ∧ Rebuilds (plug k (.mk s c l x m (.mk s d b y n r))) t t'
      (plug k (.mk s d (.mk s c l x (combine Entry.eligibleAt x l b) b) y
        (combine Entry.eligibleAt y (.mk s c l x (combine Entry.eligibleAt x l b) b) r) r)) := by
  obtain ⟨t', hrun, hwithin, hrep⟩ := h.rotate
  exact ⟨t', hrun, hwithin, hrep, (items_rotate k ..).symm⟩

omit [LinearOrder ε] [OrderTop ε] in
/-- A node under its parent, seen from the parent's other child. -/
theorem plug_other (f : Frame (Entry K ε) ε) (k : ShapePath K ε) (T : Shape K ε) :
    plug (f :: k) T = plug (⟨f.side.other, f.color, f.item, f.min, T⟩ :: k) f.sibling := by
  rw [plug_cons, plug_cons, Frame.fill, Frame.fill, Tree.mk_other]

/-- Blackening the root of a tree that is balanced but for its root's colour. -/
theorem Represents.blackenRoot {n : Nat} (h : Represents t T) (hb : T.Balanced n) (he : T.Exact Entry.eligibleAt) :
    ∃ T', Rebuilds T t (t.setColor t.root .black) T' ∧ T'.Valid ∧ T'.Exact Entry.eligibleAt := by
  rw [h.root]
  cases T with
  | leaf => exact ⟨.leaf, ⟨.refl, h, rfl⟩, ⟨rfl, n, hb⟩, trivial⟩
  | node c l a m r =>
      refine ⟨.node .black l a m r, Represents.recolor (k := []) (s := .left) h .black, ⟨rfl, ?_⟩, he⟩
      cases c with
      | red => exact ⟨n + 1, n, rfl, hb.1, hb.2.1⟩
      | black => exact ⟨n, hb⟩

/-- `insert_fixup` stops below a black parent and at the root. -/
theorem insertFixup_stop {s : Side} {l : Shape K ε} {z : Entry K ε} {m : ε} {r : Shape K ε} {n : Nat} (fuel : Nat)
    (h : Represents t (plug k (.mk s .red l z m r))) (hk : Path.Balanced k n) (hz : (Tree.mk s .red l z m r).Balanced n)
    (htop : Path.top k ≠ some .red) (he : (plug k (.mk s .red l z m r)).Exact Entry.eligibleAt) :
    ∃ t' T', EevdfTree.insertFixupLoop (fuel + 1) t z.id = some t' ∧ Rebuilds (plug k (.mk s .red l z m r)) t t' T' ∧
      T'.Valid ∧ T'.Exact Entry.eligibleAt := by
  obtain ⟨n', hn'⟩ : ∃ n', (plug k (.mk s .red l z m r)).Balanced n' := by
    cases k with
    | nil => exact ⟨n, hz⟩
    | cons f k =>
        have hblack : Path.top (f :: k) = some .black := by
          cases hc : f.color with
          | red => exact absurd (congrArg some hc) htop
          | black => exact congrArg some hc
        exact (Path.valid_plug.mpr ⟨n, hk, hz, fun _ => hblack⟩).2
  obtain ⟨T', hT', hvalid, hexact⟩ := h.blackenRoot hn' he
  refine ⟨_, T', ?_, hT', hvalid, hexact⟩
  have hparent := h.cell
  cases k with
  | nil => rw [EevdfTree.insertFixupLoop, hparent, cell_parent, parentPtr]
  | cons f k =>
      have hcolor : t.color (some f.item.id) = f.color := by rw [EevdfTree.color, h.frame_cell, cell_color]
      rw [EevdfTree.insertFixupLoop, hparent, cell_parent, parentPtr_cons]
      simp only
      rw [hcolor, if_neg fun hred => htop (congrArg some hred)]

theorem exact_plug_recolor {s : Side} {c : Color} {l : Shape K ε} {a : Entry K ε} {m : ε} {r : Shape K ε}
    (h : (plug k (.mk s c l a m r)).Exact Entry.eligibleAt) (c' : Color) :
    (plug k (.mk s c' l a m r)).Exact Entry.eligibleAt := by
  refine Path.exact_plug_congr h ((Path.exact_plug.mp h).2.recolor _ c') ?_
  rw [Tree.cached_mk, Tree.cached_mk]

theorem exact_plug_rotate {s : Side} {c d : Color} {l b r : Shape K ε} {x y : Entry K ε} {m n : ε}
    (h : (plug k (.mk s c l x m (.mk s d b y n r))).Exact Entry.eligibleAt) :
    (plug k (.mk s d (.mk s c l x (combine Entry.eligibleAt x l b) b) y
      (combine Entry.eligibleAt y (.mk s c l x (combine Entry.eligibleAt x l b) b) r) r)).Exact Entry.eligibleAt := by
  obtain ⟨hexact, hcached⟩ := Tree.exact_rotate Entry.eligibleAt (Path.exact_plug.mp h).2
  refine Path.exact_plug_congr h hexact ?_
  rw [Tree.cached_mk, Tree.cached_mk, hcached]

/-- The colours and the rotation that end `insert_fixup`, with the node and its
parent on the same side. -/
theorem insertFixup_turn (h : Represents t (plug (f :: g :: k) T)) (hs : f.side = g.side)
    (he : (plug (f :: g :: k) T).Exact Entry.eligibleAt) :
    ∃ t' m m', ((t.setColor (some f.item.id) .black).setColor (some g.item.id) .red).rotate g.side.other g.item.id =
      some t' ∧ Rebuilds (plug (f :: g :: k) T) t t'
        (plug (⟨g.side, .black, f.item, m', .mk g.side.other .red g.sibling g.item m f.sibling⟩ :: k) T) ∧
      (plug (⟨g.side, .black, f.item, m', .mk g.side.other .red g.sibling g.item m f.sibling⟩ :: k) T).Exact
        Entry.eligibleAt := by
  have h1 := Represents.recolor (k := g :: k) (s := f.side) (l := T) h .black
  have h2 := Represents.recolor (k := k) (s := g.side) (l := .mk f.side .black T f.item f.min f.sibling)
      h1.represents .red
  have e1 := exact_plug_recolor (k := g :: k) (s := f.side) (l := T) he .black
  have e2 := exact_plug_recolor (k := k) (s := g.side) (l := .mk f.side .black T f.item f.min f.sibling) e1 .red
  have hshape : plug k (.mk g.side .red (.mk f.side .black T f.item f.min f.sibling) g.item g.min g.sibling) =
      plug k (.mk g.side.other .red g.sibling g.item g.min (.mk g.side.other .black f.sibling f.item f.min T)) := by
    rw [Tree.mk_other, Tree.mk_other, hs]
  have hrep := h2.represents
  rw [hshape] at hrep e2
  obtain ⟨t', hrun, h3⟩ := hrep.turn
  have e3 := exact_plug_rotate e2
  have hend : ∀ m m', plug (⟨g.side, .black, f.item, m', .mk g.side.other .red g.sibling g.item m f.sibling⟩ :: k) T =
      plug k (.mk g.side.other .black (.mk g.side.other .red g.sibling g.item m f.sibling) f.item m' T) := by
    intro m m'
    rw [plug_cons, Frame.fill, ← Tree.mk_other]
  rw [← hshape] at h3
  simp only [hend]
  exact ⟨t', _, _, hrun, (h1.trans h2).trans h3, e3⟩

theorem insertFixup_recolor {s : Side} {v w : Shape K ε} {q : Entry K ε} {m : ε}
    (h : Represents t (plug (f :: g :: k) T))
    (hu : g.sibling = .mk s .red v q m w) (he : (plug (f :: g :: k) T).Exact Entry.eligibleAt) :
    Rebuilds (plug (f :: g :: k) T) t
      (((t.setColor (some f.item.id) .black).setColor (some q.id) .black).setColor (some g.item.id) .red)
      (plug k (.mk g.side .red (.mk f.side .black T f.item f.min f.sibling) g.item g.min (.mk s .black v q m w))) ∧
    (plug k (.mk g.side .red (.mk f.side .black T f.item f.min f.sibling) g.item g.min
      (.mk s .black v q m w))).Exact Entry.eligibleAt := by
  have h1 := Represents.recolor (k := g :: k) (s := f.side) (l := T) h .black
  have e1 := exact_plug_recolor (k := g :: k) (s := f.side) (l := T) he .black
  have hshape := plug_other g k (.mk f.side .black T f.item f.min f.sibling)
  rw [hu] at hshape
  have hback : plug (⟨g.side.other, g.color, g.item, g.min, .mk f.side .black T f.item f.min f.sibling⟩ :: k)
      (.mk s .black v q m w) =
      plug k (.mk g.side g.color (.mk f.side .black T f.item f.min f.sibling) g.item g.min (.mk s .black v q m w)) := by
    rw [plug_cons, Frame.fill, Tree.mk_other]
  rw [hshape] at h1 e1
  have h2 := h1.represents.recolor .black
  have e2 := exact_plug_recolor e1 .black
  rw [hback] at h2 e2
  exact ⟨(h1.trans h2).trans (h2.represents.recolor .red), exact_plug_recolor e2 .red⟩

/-- `insert_fixup` restores the balance around a red node. -/
theorem insertFixup_spec (fuel : Nat) : ∀ {t : EevdfTree K ε} {k : ShapePath K ε} {s : Side} {l r : Shape K ε}
    {z : Entry K ε} {m : ε} {n : Nat}, Represents t (plug k (.mk s .red l z m r)) → Path.Balanced k n →
    (Tree.mk s .red l z m r).Balanced n → (plug k (.mk s .red l z m r)).Exact Entry.eligibleAt → k.length < fuel →
    ∃ t' T', EevdfTree.insertFixupLoop fuel t z.id = some t' ∧ Rebuilds (plug k (.mk s .red l z m r)) t t' T' ∧
      T'.Valid ∧ T'.Exact Entry.eligibleAt := by
  induction fuel with
  | zero => exact fun _ _ _ _ hlt => absurd hlt (Nat.not_lt_zero _)
  | succ fuel ih =>
      intro t k s l r z m n h hk hz he hlt
      by_cases htop : Path.top k = some .red
      · cases k with
        | nil => cases htop
        | cons f k =>
            have hf : f.color = .red := Option.some.inj htop
            obtain ⟨g, k', rfl, hg, hfs, hfsc, hu, hk'⟩ := grandparent_of_red hf hk
            have hlen : k'.length + 1 < fuel := by
              simp only [List.length_cons] at hlt
              omega
            have hzp : (t.nodes z.id).parent = some f.item.id := by rw [h.cell, cell_parent, parentPtr_cons]
            have hfp : (t.nodes f.item.id).parent = some g.item.id := by rw [h.frame_cell, cell_parent, parentPtr_cons]
            have hfc : t.color (some f.item.id) = .red := by rw [EevdfTree.color, h.frame_cell, cell_color, hf]
            have hside := Represents.side_eq (f := g) (T := f.fill (.mk s .red l z m r)) h (.inl (by simp [Frame.fill]))
            have hinner := h.child_iff (.inl (by simp)) g.side.other
            have hother : (t.nodes g.item.id).child g.side.other = ptr g.sibling := by
              rw [Represents.frame_cell (f := g) (T := f.fill (.mk s .red l z m r)) h, cell_child_other]
            have hucolor : t.color (ptr g.sibling) = g.sibling.color := by
              rw [plug_cons, plug_other] at h
              exact h.color_ptr
            rw [Frame.fill, ptr_mk] at hside
            rw [ptr_mk] at hinner
            rw [EevdfTree.insertFixupLoop, hzp]
            simp only
            rw [if_pos hfc, hfp]
            simp only [Option.bind_eq_bind, Option.bind_some]
            rw [hside, hother, hucolor]
            by_cases huc : g.sibling.color = .red
            · rw [if_pos huc]
              have hne : g.sibling ≠ .leaf := by
                intro hleaf
                rw [hleaf] at huc
                cases huc
              obtain ⟨cu, v, q, mq, w, husib⟩ := Tree.exists_mk f.side hne
              obtain rfl : cu = .red := by rwa [husib, Tree.color_mk] at huc
              obtain ⟨hrecolored, hexact⟩ := insertFixup_recolor h husib he
              rw [husib] at hu
              rw [husib, ptr_mk]
              obtain ⟨t', T', hrun, hrebuilds, hvalid, hexact'⟩ :=
                ih hrecolored.represents hk' (balanced_recolor hz hfs hu) hexact (by omega)
              exact ⟨t', T', hrun, hrecolored.trans hrebuilds, hvalid, hexact'⟩
            · rw [if_neg huc]
              have huc : g.sibling.color = .black := by
                cases hc : g.sibling.color with
                | red => exact absurd hc huc
                | black => rfl
              by_cases hin : f.side = g.side.other
              · rw [if_pos (hinner.mpr hin)]
                -- the inner rotation puts the parent where the node was
                obtain ⟨l', r', hzshape⟩ := Tree.exists_side s g.side .red l z m r
                have hshape : plug (f :: g :: k') (.mk s .red l z m r) =
                    plug (g :: k') (.mk g.side .red f.sibling f.item f.min (.mk g.side .red l' z m r')) := by
                  rw [plug_cons, Frame.fill, hin, Tree.mk_other, hzshape, hf]
                rw [hshape] at h he ⊢
                rw [hzshape, Tree.balanced_mk_red] at hz
                obtain ⟨hl, hr, hlc, hrc⟩ := hz
                obtain ⟨t₁, hrun₁, h₁⟩ := h.turn
                have he₁ := exact_plug_rotate he
                obtain ⟨t', m₁, m₂, hrun, hrebuilds, hexact⟩ := insertFixup_turn (f := ⟨g.side, .red, z, _, r'⟩)
                  h₁.represents rfl he₁
                have hafter := insertFixup_stop (fuel - 1) hrebuilds.represents
                  ((Path.balanced_black rfl).mpr ⟨Tree.balanced_mk_red.mpr ⟨hu, hr, huc, hrc⟩, hk'⟩)
                  (Tree.balanced_mk_red.mpr ⟨hfs, hl, hfsc, hlc⟩) (by simp) hexact
                rw [Nat.sub_add_cancel (by omega)] at hafter
                obtain ⟨t'', T'', hstop, hrebuilds', hvalid, hexact'⟩ := hafter
                refine ⟨t'', T'', ?_, (h₁.trans hrebuilds).trans hrebuilds', hvalid, hexact'⟩
                have hp₁ : (t₁.nodes f.item.id).parent = some z.id := by
                  rw [Represents.cell (k := ⟨g.side, .red, z, _, r'⟩ :: g :: k') h₁.represents, cell_parent,
                    parentPtr_cons]
                have hz₁ : (t₁.nodes z.id).parent = some g.item.id := by
                  rw [h₁.represents.cell, cell_parent, parentPtr_cons]
                rw [hrun₁, Option.bind_some, hp₁, Option.bind_some, hz₁, Option.bind_some, hrun, Option.bind_some,
                  hstop]
              · rw [if_neg fun heq => hin (hinner.mp heq)]
                have hs : f.side = g.side := ((g.side.eq_or_other f.side).resolve_right hin)
                obtain ⟨t', m₁, m₂, hrun, hrebuilds, hexact⟩ := insertFixup_turn h hs he
                have hafter := insertFixup_stop (fuel - 1) hrebuilds.represents
                  ((Path.balanced_black rfl).mpr ⟨Tree.balanced_mk_red.mpr ⟨hu, hfs, huc, hfsc⟩, hk'⟩) hz
                    (by simp) hexact
                rw [Nat.sub_add_cancel (by omega)] at hafter
                obtain ⟨t'', T'', hstop, hrebuilds', hvalid, hexact'⟩ := hafter
                refine ⟨t'', T'', ?_, hrebuilds.trans hrebuilds', hvalid, hexact'⟩
                rw [hzp, Option.bind_some, hfp, Option.bind_some, hrun, Option.bind_some, hstop]
      · exact insertFixup_stop fuel h hk hz htop he

section Delete

variable {n : Nat} {X : Shape K ε}

omit [LinearOrder ε] [OrderTop ε] in
theorem Represents.sibling_ptr (h : Represents t (plug (f :: k) X)) :
    (t.nodes f.item.id).child f.side.other = ptr f.sibling := by
  rw [h.frame_cell, cell_child_other]

omit [LinearOrder ε] [OrderTop ε] in
theorem Represents.sibling_color (h : Represents t (plug (f :: k) X)) : t.color (ptr f.sibling) = f.sibling.color := by
  rw [plug_other] at h
  exact h.color_ptr

omit [LinearOrder ε] [OrderTop ε] in
theorem Represents.recolor_sibling {s : Side} {c : Color} {l r : Shape K ε} {a : Entry K ε} {m : ε}
    (h : Represents t (plug (f :: k) X)) (hs : f.sibling = .mk s c l a m r) (c' : Color) :
    Rebuilds (plug (f :: k) X) t (t.setColor (some a.id) c')
      (plug ({ f with sibling := .mk s c' l a m r } :: k) X) := by
  have hshape := plug_other f k X
  have hback := plug_other { f with sibling := .mk s c' l a m r } k X
  rw [hs] at hshape
  rw [hshape] at h ⊢
  rw [hback]
  exact h.recolor c'

/-- A red sibling is raised above the parent; the hole keeps its parent. -/
theorem raiseSibling_spec (h : Represents t (plug (f :: k) X)) (hb : Path.Balanced (f :: k) (n + 1)) :
    ∃ t' f' k', t.raiseSibling f.side f.item.id = some (t', ptr f'.sibling) ∧
      Rebuilds (plug (f :: k) X) t t' (plug (f' :: k') X) ∧ f'.item = f.item ∧ f'.side = f.side ∧
      Path.Balanced (f' :: k') (n + 1) ∧ f'.sibling.color = .black ∧
      (Path.SidesExact Entry.eligibleAt (f :: k) → Path.SidesExact Entry.eligibleAt (f' :: k')) ∧
      (f' = f ∧ k' = k ∨ f'.color = .red) := by
  rw [EevdfTree.raiseSibling, h.sibling_ptr]
  simp only
  rw [h.sibling_color]
  cases hc : f.sibling.color with
  | black => exact ⟨t, f, k, rfl, ⟨.refl, h, rfl⟩, rfl, rfl, hb, hc, id, .inl ⟨rfl, rfl⟩⟩
  | red =>
      obtain ⟨c, near, y, m, far, hs⟩ := Tree.exists_mk f.side (sibling_ne_leaf hb)
      obtain rfl : c = .red := by rwa [hs, Tree.color_mk] at hc
      obtain ⟨hfc, hnear, hb'⟩ := balanced_red_sibling
        hs hb
      have h1 := h.recolor_sibling hs .black
      have h2 := Represents.recolor (k := k) (s := f.side) (l := X) (r := .mk f.side .black near y m far)
          h1.represents .red
      obtain ⟨t', hrun, h3⟩ := h2.represents.turn
      have hend : Represents t' (plug (⟨f.side, .red, f.item, combine Entry.eligibleAt f.item X near, near⟩ :: ⟨f.side,
          .black, y, combine Entry.eligibleAt y (.mk f.side .red X f.item (combine Entry.eligibleAt f.item X near)
            near) far,
          far⟩ :: k) X) := h3.represents
      refine ⟨t', _, _, ?_, ⟨((h1.trans h2).trans h3).within, hend, ((h1.trans h2).trans h3).items⟩, rfl,
        rfl, hb', hnear, ?_, .inr rfl⟩
      · rw [if_pos rfl, hs, ptr_mk]
        simp only [Option.bind_eq_bind]
        rw [hrun, Option.bind_some, hend.sibling_ptr]
      · intro hexact g hg
        have hsib := hexact f (by simp)
        rw [hs, Tree.exact_mk] at hsib
        simp only [List.mem_cons] at hg
        rcases hg with rfl | rfl | hg
        · exact hsib.1
        · exact hsib.2.1
        · exact hexact g (by simp [hg])

omit [LinearOrder ε] [OrderTop ε] in
theorem Represents.nephews {c : Color} {near far : Shape K ε} {y : Entry K ε} {m : ε}
    (h : Represents t (plug (f :: k) X)) (hs : f.sibling = .mk f.side c near y m far) :
    (t.nodes y.id).child f.side = ptr near ∧ (t.nodes y.id).child f.side.other = ptr far ∧
      t.color (ptr near) = near.color ∧ t.color (ptr far) = far.color := by
  rw [plug_other, hs] at h
  have hnear : Represents t (plug (⟨f.side, c, y, m, far⟩ :: ⟨f.side.other, f.color, f.item, f.min, X⟩ :: k) near) := h
  have hfar := hnear
  rw [plug_other] at hfar
  rw [h.cell, cell_child, cell_child_other]
  exact ⟨rfl, rfl, hnear.color_ptr, hfar.color_ptr⟩

/-- A red near nephew is raised, so that the far nephew is red. -/
theorem raiseNephew_spec {near far : Shape K ε} {y : Entry K ε} {m : ε} (h : Represents t (plug (f :: k) X))
    (hs : f.sibling = .mk f.side .black near y m far) (hb : f.sibling.Balanced (n + 1))
    (hc : near.color = .red ∨ far.color = .red) :
    ∃ t' m' near' y' far', t.raiseNephew f.side f.item.id (some y.id) (ptr near) (ptr far) = some (t', some y'.id) ∧
      Rebuilds (plug (f :: k) X) t t' (plug ({ f with sibling := .mk f.side .black near' y' m' far' } :: k) X) ∧
      far'.color = .red ∧ near'.Balanced n ∧ far'.Balanced n ∧
      (f.sibling.Exact Entry.eligibleAt → near'.Exact Entry.eligibleAt ∧ far'.Exact Entry.eligibleAt) := by
  have hbn := hb
  rw [hs, Tree.balanced_mk_black] at hbn
  obtain ⟨hnear, hfar⟩ := hbn
  obtain ⟨-, -, -, hfarc⟩ := h.nephews hs
  rw [EevdfTree.raiseNephew, hfarc]
  cases hfc : far.color with
  | red =>
      refine ⟨t, m, near, y, far, rfl, ⟨.refl, ?_, ?_⟩, hfc, hnear, hfar, ?_⟩
      · rw [← hs]
        exact h
      · rw [← hs]
      · intro he
        rw [hs, Tree.exact_mk] at he
        exact ⟨he.1, he.2.1⟩
  | black =>
      have hnc : near.color = .red := hc.resolve_right (by rw [hfc]; decide)
      have hne : near ≠ .leaf := by
        rintro rfl
        cases hnc
      obtain ⟨c, n₁, z, mz, n₂, rfl⟩ := Tree.exists_mk f.side hne
      obtain rfl : c = .red := by rwa [Tree.color_mk] at hnc
      obtain ⟨hn₁, hn₂, hn₁c, hn₂c⟩ := Tree.balanced_mk_red.mp hnear
      have hshape := plug_other f k X
      rw [hs] at hshape
      rw [hshape] at h ⊢
      have hnephew : Represents t (plug (⟨f.side, .black, y, m, far⟩ :: ⟨f.side.other, f.color, f.item, f.min, X⟩ :: k)
        (.mk f.side .red n₁ z mz n₂)) := h
      have h1 := hnephew.recolor .black
      have h2 := Represents.recolor (k := ⟨f.side.other, f.color, f.item, f.min, X⟩ :: k) (s := f.side)
        (l := .mk f.side .black n₁ z mz n₂) h1.represents .red
      have hturn : ∀ k' : ShapePath K ε, plug k' (.mk f.side .red (.mk f.side .black n₁ z mz n₂) y m far) =
          plug k' (.mk f.side.other .red far y m (.mk f.side.other .black n₂ z mz n₁)) := by
        intro k'
        rw [Tree.mk_other, Tree.mk_other]
      rw [hturn] at h2
      obtain ⟨t', hrun, h3⟩ := h2.represents.turn
      have hall := (h1.trans h2).trans h3
      rw [Tree.mk_other, Tree.mk_other] at hall
      have hback : ∀ S : Shape K ε, plug (⟨f.side.other, f.color, f.item, f.min, X⟩ :: k) S =
          plug ({ f with sibling := S } :: k) X := fun S => (plug_other { f with sibling := S } k X).symm
      rw [hback (.mk f.side .black n₁ z _ _)] at hall
      refine ⟨t', _, _, _, _, ?_, hall, Tree.color_mk .., hn₁,
        Tree.balanced_mk_red.mpr ⟨hn₂, hfar, hn₂c, hfc⟩, ?_⟩
      · rw [if_pos rfl, ptr_mk]
        simp only [Option.bind_eq_bind]
        rw [hrun, Option.bind_some, Represents.sibling_ptr (f := { f with sibling := .mk f.side .black n₁ z _ _ })
          hall.represents, ptr_mk]
      · intro he
        rw [hs, Tree.exact_mk, Tree.exact_mk] at he
        exact ⟨he.1.1, (Tree.exact_mk _).mpr ⟨he.1.2.1, he.2.1, combine_comm ..⟩⟩

/-- The colours and the rotation that end `delete_fixup`. -/
theorem passColors_spec {near far : Shape K ε} {y : Entry K ε} {m : ε} (h : Represents t (plug (f :: k) X))
    (hs : f.sibling = .mk f.side .black near y m far) (hb : Path.Balanced (f :: k) (n + 1)) (hX : X.Balanced n)
    (hfc : far.color = .red) :
    ∃ t' k', (t.passColors f.side f.item.id (some y.id)).rotate f.side f.item.id = some t' ∧
      Rebuilds (plug (f :: k) X) t t' (plug k' X) ∧ (plug k' X).Valid ∧ parentPtr k' = some f.item.id ∧
      (near.Exact Entry.eligibleAt → far.Exact Entry.eligibleAt → Path.SidesExact Entry.eligibleAt k →
        Path.SidesExact Entry.eligibleAt k') := by
  have hbn : f.sibling.Balanced (n + 1) := hb.1
  rw [hs, Tree.balanced_mk_black] at hbn
  obtain ⟨hnear, hfar⟩ := hbn
  have hne : far ≠ .leaf := by
    rintro rfl
    cases hfc
  obtain ⟨c, a, q, mq, b, rfl⟩ := Tree.exists_mk f.side hne
  obtain rfl : c = .red := by rwa [Tree.color_mk] at hfc
  obtain ⟨ha, hb', -, -⟩ := Tree.balanced_mk_red.mp hfar
  have hcolor : t.color (some f.item.id) = f.color := by rw [EevdfTree.color, h.frame_cell, cell_color]
  have h1 := h.recolor_sibling hs f.color
  have h2 := Represents.recolor (k := k) (s := f.side) (l := X) (c := f.color) (a := f.item) (m := f.min)
    (r := .mk f.side f.color near y m (.mk f.side .red a q mq b)) h1.represents .black
  have hsecond : Represents ((t.setColor (some y.id) f.color).setColor (some f.item.id) .black)
      (plug (⟨f.side, .black, f.item, f.min, .mk f.side f.color near y m (.mk f.side .red a q mq b)⟩ :: k) X) :=
        h2.represents
  obtain ⟨-, hfarptr, -, -⟩ := hsecond.nephews rfl
  have hshape : plug k (.mk f.side .black X f.item f.min (.mk f.side f.color near y m (.mk f.side .red a q mq b))) =
      plug (⟨f.side.other, f.color, y, m, near⟩ :: ⟨f.side.other, .black, f.item, f.min, X⟩ :: k)
        (.mk f.side .red a q mq b) := by
    rw [plug_cons, plug_cons, Frame.fill, Frame.fill, Tree.mk_other, Tree.mk_other]
  have h12 := h1.trans h2
  rw [hshape] at h12
  have h3 := h12.represents.recolor .black
  have hback : plug (⟨f.side.other, f.color, y, m, near⟩ :: ⟨f.side.other, .black, f.item, f.min, X⟩ :: k)
        (.mk f.side .black a q mq b) =
      plug k (.mk f.side .black X f.item f.min (.mk f.side f.color near y m (.mk f.side .black a q mq b))) := by
    rw [plug_cons, plug_cons, Frame.fill, Frame.fill, Tree.mk_other, Tree.mk_other]
  rw [hback] at h3
  obtain ⟨t', hrun, h4⟩ := h3.represents.turn
  have hpass : t.passColors f.side f.item.id (some y.id) =
      ((t.setColor (some y.id) f.color).setColor (some f.item.id) .black).setColor (some q.id) .black := by
    rw [EevdfTree.passColors, hcolor]
    simp only [Option.bind_some]
    rw [hfarptr, ptr_mk]
  have hall := (h12.trans h3).trans h4
  have hend : Represents t' (plug (⟨f.side, .black, f.item, combine Entry.eligibleAt f.item X near, near⟩ :: ⟨f.side,
      f.color, y, combine Entry.eligibleAt y (.mk f.side .black X f.item (combine Entry.eligibleAt f.item X near) near)
        (.mk f.side .black a q mq b), .mk f.side .black a q mq b⟩ :: k) X) := h4.represents
  refine ⟨t', _, ?_, ⟨hall.within, hend, hall.items⟩, ?_, rfl, ?_⟩
  · rw [hpass, hrun]
  · exact balanced_delete_rotate hb hX hnear (Tree.balanced_mk_black.mpr ⟨ha, hb'⟩) (Tree.color_mk ..)
  · intro hnear' hfar' hexact g hg
    simp only [List.mem_cons] at hg
    rcases hg with rfl | rfl | hg
    · exact hnear'
    · exact hfar'.recolor _ .black
    · exact hexact g hg

omit [LinearOrder ε] [OrderTop ε] in
theorem ptr_plug_mem (f : Frame (Entry K ε) ε) (k : ShapePath K ε) (X : Shape K ε) :
    ∃ a ∈ pathItems (f :: k), ptr (plug (f :: k) X) = some a.id := by
  induction k generalizing f X with
  | nil => exact ⟨f.item, by simp [pathItems_cons], by rw [plug_cons, plug_nil, Frame.fill, ptr_mk]⟩
  | cons g k ih =>
      obtain ⟨a, ha, hid⟩ := ih g (f.fill X)
      exact ⟨a, by rw [pathItems_cons]; exact List.mem_append_right _ ha, hid⟩

omit [LinearOrder ε] [OrderTop ε] in
theorem Represents.root_ne (h : Represents t (plug (f :: k) X)) : ptr X ≠ t.root := by
  rw [h.root]
  intro heq
  obtain ⟨a, ha, hp⟩ := ptr_plug_mem f k X
  obtain ⟨b, hb, hid⟩ := ptr_mem (heq.trans hp)
  have hnodup := h.focus.2.2
  rw [List.map_append, List.nodup_append'] at hnodup
  have hmem := List.mem_map_of_mem (f := Entry.id) hb
  rw [hid] at hmem
  exact hnodup.2.2 (List.mem_map_of_mem ha) hmem

omit [LinearOrder ε] [OrderTop ε] in
theorem parentPtr_append {k' k₀ : ShapePath K ε} (h : parentPtr k = parentPtr k') :
    parentPtr (k₀ ++ k) = parentPtr (k₀ ++ k') := by
  cases k₀ with
  | nil => exact h
  | cons f k₀ => rfl

/-- The subtree is one black node short of `n + 1`, or its red root can be blackened to reach it. -/
def Lacking (X : Shape K ε) (n : Nat) : Prop :=
  X.color = .black ∧ X.Balanced n ∨ ∃ s l a m r, X = .mk s .red l a m r ∧ l.Balanced n ∧ r.Balanced n

/-- The last store of `delete_fixup` blackens the root of the subtree, which may be the node it began at
or one above. -/
theorem Represents.blacken_inside {k₀ : ShapePath K ε} {x₀ : Shape K ε} {s : Side} {c : Color} {l r : Shape K ε}
    {a : Entry K ε} {m : ε} (h : Represents t (plug (k₀ ++ k) x₀)) (hX : plug k₀ x₀ = .mk s c l a m r)
    (hsides : Path.SidesExact Entry.eligibleAt (k₀ ++ k)) (hx : x₀.Exact Entry.eligibleAt) :
    ∃ K' x', Rebuilds (plug (k₀ ++ k) x₀) t (t.setColor (some a.id) .black) (plug K' x') ∧
      plug K' x' = plug k (.mk s .black l a m r) ∧ Path.SidesExact Entry.eligibleAt K' ∧ x'.Exact Entry.eligibleAt ∧
      ptr x' = ptr x₀ ∧ parentPtr K' = parentPtr (k₀ ++ k) := by
  have hrebuilds : Rebuilds (plug (k₀ ++ k) x₀) t (t.setColor (some a.id) .black) (plug k (.mk s .black l a m r)) := by
    rw [plug_append, hX] at h ⊢
    exact h.recolor .black
  induction k₀ using List.reverseRecOn with
  | nil =>
      rw [plug_nil] at hX
      subst hX
      exact ⟨k, _, hrebuilds, rfl, hsides, hx.recolor _ .black, by rw [ptr_mk, ptr_mk], rfl⟩
  | append_singleton k₀ f _ =>
      rw [plug_append, plug_cons, plug_nil, Frame.fill] at hX
      have hplug : plug (k₀ ++ [{ f with color := .black }] ++ k) x₀ = plug k (.mk s .black l a m r) := by
        rw [plug_append, plug_append, plug_cons, plug_nil, Frame.fill]
        simp only
        congr 1
        rcases s.eq_or_other f.side with hs | hs
        · rw [hs] at hX ⊢
          cases s <;> (simp only [Tree.mk, RedBlack.Tree.node.injEq] at hX; simp only [Tree.mk]; grind)
        · rw [hs, Tree.mk_other] at hX ⊢
          cases s <;> (simp only [Tree.mk, RedBlack.Tree.node.injEq] at hX; simp only [Tree.mk]; grind)
      refine ⟨k₀ ++ [{ f with color := .black }] ++ k, x₀, by rw [hplug]; exact hrebuilds, hplug, ?_, hx, rfl, ?_⟩
      · intro g hg
        simp only [List.mem_append, List.mem_singleton] at hg
        rcases hg with (hg | rfl) | hg
        · exact hsides g (by simp [hg])
        · exact hsides f (by simp)
        · exact hsides g (by simp [hg])
      · cases k₀ <;> rfl

omit [LinearOrder ε] [OrderTop ε] in
theorem Represents.setColor_root (h : Represents t T) (hc : T.color = .black) :
    Rebuilds T t (t.setColor t.root .black) T := by
  rw [h.root]
  cases T with
  | leaf => exact ⟨.refl, h, rfl⟩
  | node c l a m r =>
      obtain rfl : c = .black := hc
      exact Represents.recolor (k := []) (s := .left) h .black

/-- What `delete_fixup` hands back: a valid tree in which the node it began at keeps its parent. -/
structure Settled (T : Shape K ε) (t t' : EevdfTree K ε) (K' : ShapePath K ε) (x' : Shape K ε)
    (x parent : Option NodeId) : Prop where
  rebuilds : Rebuilds T t t' (plug K' x')
  valid : (plug K' x').Valid
  sides : Path.SidesExact Entry.eligibleAt K'
  exact : x'.Exact Entry.eligibleAt
  ptr : Eevdf.ptr x' = x
  parent : parentPtr K' = parent

theorem deleteFixup_stop {k₀ : ShapePath K ε} {x₀ : Shape K ε} (fuel : Nat) (h : Represents t (plug (k₀ ++ k) x₀))
    (hX : Lacking (plug k₀ x₀) n) (hk : Path.Balanced k (n + 1)) (hstop : (plug k₀ x₀).color = .black → k = [])
    (hsides : Path.SidesExact Entry.eligibleAt (k₀ ++ k)) (hx : x₀.Exact Entry.eligibleAt) :
    ∃ t' K' x', EevdfTree.deleteFixupLoop (fuel + 1) t (ptr (plug k₀ x₀)) (parentPtr k) = some t' ∧
      Settled (plug (k₀ ++ k) x₀) t t' K' x' (ptr x₀) (parentPtr (k₀ ++ k)) := by
  have hcolor : t.color (ptr (plug k₀ x₀)) = (plug k₀ x₀).color := by
    rw [plug_append] at h
    exact h.color_ptr
  have hroot : (plug k₀ x₀).color = .black → ptr (plug k₀ x₀) = t.root := by
    intro hc
    rw [h.root, hstop hc, List.append_nil]
  have hrun : EevdfTree.deleteFixupLoop (fuel + 1) t (ptr (plug k₀ x₀)) (parentPtr k) =
      some (t.setColor (ptr (plug k₀ x₀)) .black) := by
    have hnot : ¬ (ptr (plug k₀ x₀) ≠ t.root ∧ t.color (ptr (plug k₀ x₀)) = .black) := by
      rw [hcolor]
      rintro ⟨hne, hc⟩
      exact hne (hroot hc)
    cases parentPtr k with
    | none => rw [EevdfTree.deleteFixupLoop, if_neg hnot]
    | some p => rw [EevdfTree.deleteFixupLoop, if_neg hnot]
  rcases hX with ⟨hc, hb⟩ | ⟨s, l, a, m, r, hX, hl, hr⟩
  · have hnil := hstop hc
    subst hnil
    rw [List.append_nil] at h hsides ⊢
    refine ⟨_, k₀, x₀, hrun, ?_, ⟨hc, n, hb⟩, hsides, hx, rfl, rfl⟩
    rw [hroot hc]
    exact h.setColor_root hc
  · obtain ⟨K', x', hrebuilds, hplug, hsides', hexact, hptr, hparent⟩ := h.blacken_inside hX hsides hx
    refine ⟨_, K', x', hrun, ?_, ?_, hsides', hexact, hptr, hparent⟩
    · rw [hX, ptr_mk]
      exact hrebuilds
    · rw [hplug, Path.valid_plug]
      refine ⟨n + 1, hk, Tree.balanced_mk_black.mpr ⟨hl, hr⟩, ?_⟩
      rw [Tree.color_mk]
      exact fun hred => by cases hred

omit [LinearOrder ε] [OrderTop ε] in
/-- The sibling turns red, and its parent is where `delete_fixup` goes on. -/
theorem lacking_parent {near far : Shape K ε} {y : Entry K ε} {m : ε} (hs : f.sibling = .mk f.side .black near y m far)
    (hb : Path.Balanced (f :: k) (n + 1)) (hX : X.Balanced n) (hnear : near.color = .black)
    (hfar : far.color = .black) :
    ∃ n', Lacking (Frame.fill { f with sibling := .mk f.side .red near y m far } X) n' ∧ Path.Balanced k (n' + 1) := by
  obtain ⟨hblack, hred⟩ := balanced_blacken hs hb hX hnear hfar
  have hcases : f.color = .black ∨ f.color = .red := by cases f.color <;> simp
  rcases hcases with hc | hc
  · obtain ⟨hfill, hk⟩ := hblack hc
    refine ⟨n + 1, .inl ⟨?_, hfill⟩, hk⟩
    rw [Frame.fill, Tree.color_mk]
    exact hc
  · obtain ⟨hfill, hk⟩ := hred hc
    obtain ⟨hl, hr⟩ := Tree.balanced_mk_black.mp hfill
    refine ⟨n, .inr ⟨f.side, X, f.item, f.min, .mk f.side .red near y m far, ?_, hl, hr⟩, hk⟩
    simp only [Frame.fill, hc]

/-- `delete_fixup` restores the balance around a subtree that lacks a black node. -/
theorem deleteFixup_spec (fuel : Nat) : ∀ {t : EevdfTree K ε} {k k₀ : ShapePath K ε} {x₀ : Shape K ε} {n : Nat},
    Represents t (plug (k₀ ++ k) x₀) → Lacking (plug k₀ x₀) n → Path.Balanced k (n + 1) →
    ((plug k₀ x₀).color = .black → k.length + 2 ≤ fuel) → 1 ≤ fuel →
    Path.SidesExact Entry.eligibleAt (k₀ ++ k) → x₀.Exact Entry.eligibleAt →
    ∃ t' K' x', EevdfTree.deleteFixupLoop fuel t (ptr (plug k₀ x₀)) (parentPtr k) = some t' ∧
      Settled (plug (k₀ ++ k) x₀) t t' K' x' (ptr x₀) (parentPtr (k₀ ++ k)) := by
  induction fuel with
  | zero => exact fun _ _ _ _ hpos => absurd hpos (Nat.not_lt_zero 0)
  | succ fuel ih =>
      intro t k k₀ x₀ n h hX hk hfuel _ hsides hx
      by_cases hstop : (plug k₀ x₀).color = .black → k = []
      · exact deleteFixup_stop fuel h hX hk hstop hsides hx
      · rw [Classical.not_imp] at hstop
        obtain ⟨hc, hne⟩ := hstop
        obtain ⟨f, k, rfl⟩ := List.exists_cons_of_ne_nil hne
        have hlen := hfuel hc
        rw [List.length_cons] at hlen
        have hb : (plug k₀ x₀).Balanced n := by
          rcases hX with ⟨_, hb⟩ | ⟨s, l, a, m, r, hX, _⟩
          · exact hb
          · rw [hX, Tree.color_mk] at hc
            cases hc
        have hrep := h
        rw [plug_append] at hrep
        have hcolor := hrep.color_ptr
        have hside := hrep.side_eq (.inr (sibling_ne_leaf hk))
        rw [parentPtr_cons, EevdfTree.deleteFixupLoop, if_pos ⟨hrep.root_ne, hcolor.trans hc⟩]
        simp only
        rw [hside]
        obtain ⟨t₁, f₁, k₁, hrun₁, hrebuilds₁, hitem₁, hside₁, hbal₁, hblack₁, hexact₁, hwhere₁⟩ :=
          raiseSibling_spec hrep hk
        have hsides₁ : Path.SidesExact Entry.eligibleAt (f₁ :: k₁) := hexact₁ fun g hg => hsides g (by simp [hg])
        have hsides₀ : Path.SidesExact Entry.eligibleAt k₀ := fun g hg => hsides g (by simp [hg])
        obtain ⟨c, near, y, m, far, hsib⟩ := Tree.exists_mk f₁.side (sibling_ne_leaf hbal₁)
        obtain rfl : c = .black := by rwa [hsib, Tree.color_mk] at hblack₁
        obtain ⟨hnear, hfar, hnearc, hfarc⟩ := hrebuilds₁.represents.nephews hsib
        rw [hrun₁]
        simp only [Option.bind_eq_bind, Option.bind_some]
        rw [hsib, ptr_mk, ← hside₁]
        simp only [Option.bind_some]
        rw [hnear, hfar, hnearc, hfarc]
        by_cases hnephews : near.color = .black ∧ far.color = .black
        · rw [if_pos hnephews]
          -- the sibling turns red and the parent takes the place of the hole
          have hred := hrebuilds₁.represents.recolor_sibling hsib .red
          obtain ⟨n', hlacking, hk'⟩ := lacking_parent hsib hbal₁ hb hnephews.1 hnephews.2
          have hplug : ∀ g : Frame (Entry K ε) ε, plug (k₀ ++ [g] ++ k₁) x₀ = plug (g :: k₁) (plug k₀ x₀) := by
            intro g
            rw [plug_append, plug_append]
            rfl
          have hfill : ∀ g : Frame (Entry K ε) ε, plug (k₀ ++ [g]) x₀ = g.fill (plug k₀ x₀) := by
            intro g
            rw [plug_append]
            rfl
          have hparent : ((t₁.setColor (some y.id) .red).nodes f.item.id).parent = parentPtr k₁ := by
            rw [← hitem₁]
            have hcell := Represents.frame_cell hred.represents
            rw [hcell, cell_parent]
          have hnext := ih (t := t₁.setColor (some y.id) .red) (k := k₁)
            (n := n')
            (by rw [hplug]; exact hred.represents) (by rw [hfill]; exact hlacking) hk' ?_ (by omega) ?_ hx
          · obtain ⟨t', K', x', hrun, hsettled⟩ := hnext
            refine ⟨t', K', x', ?_, ?_⟩
            · rw [hparent, ← hrun, hfill, Frame.fill, ptr_mk, hitem₁]
            · have hall := hrebuilds₁.trans hred
              rw [plug_append]
              refine ⟨?_, hsettled.valid, hsettled.sides, hsettled.exact, hsettled.ptr, ?_⟩
              · refine hall.trans ?_
                rw [← hplug]
                exact hsettled.rebuilds
              · rw [hsettled.parent, List.append_assoc]
                apply parentPtr_append
                simp [hitem₁]
          · intro hblack
            rcases hwhere₁ with ⟨rfl, rfl⟩ | hfred
            · omega
            · rw [hfill, Frame.fill, Tree.color_mk, hfred] at hblack
              cases hblack
          · intro g hg
            simp only [List.mem_append, List.mem_singleton] at hg
            rcases hg with (hg | rfl) | hg
            · exact hsides₀ g hg
            · have hold := hsides₁ f₁ (by simp)
              rw [hsib] at hold
              exact hold.recolor _ .red
            · exact hsides₁ g (by simp [hg])
        · rw [if_neg hnephews]
          have hsome : near.color = .red ∨ far.color = .red := by
            cases hn : near.color with
            | red => exact .inl rfl
            | black =>
                cases hf : far.color with
                | red => exact .inr rfl
                | black => exact absurd ⟨hn, hf⟩ hnephews
          obtain ⟨t₂, m₂, near₂, y₂, far₂, hrun₂, hrebuilds₂, hfar₂, hnb₂, hfb₂, hexact₂⟩ :=
            raiseNephew_spec hrebuilds₁.represents hsib hbal₁.1 hsome
          have hbal₂ := hbal₁.sibling (t := .mk f₁.side .black near₂ y₂ m₂ far₂)
            (Tree.balanced_mk_black.mpr ⟨hnb₂, hfb₂⟩) (Tree.color_mk ..)
          obtain ⟨t₃, k₃, hrun₃, hrebuilds₃, hvalid₃, hparent₃, hexact₃⟩ :=
            passColors_spec hrebuilds₂.represents rfl hbal₂ hb hfar₂
          have hsides₃ : Path.SidesExact Entry.eligibleAt (k₀ ++ k₃) := by
            obtain ⟨hnearx₂, hfarx₂⟩ := hexact₂ (hsides₁ f₁ (by simp))
            have hnew := hexact₃ hnearx₂ hfarx₂ fun g hg => hsides₁ g (by simp [hg])
            intro g hg
            rcases List.mem_append.mp hg with hg | hg
            · exact hsides₀ g hg
            · exact hnew g hg
          have hlast := deleteFixup_stop (t := t₃) (k := []) (n := hvalid₃.2.choose) (fuel - 1)
            (by rw [List.append_nil, plug_append]; exact hrebuilds₃.represents)
            (.inl (by rw [plug_append]; exact ⟨hvalid₃.1, hvalid₃.2.choose_spec⟩)) trivial (fun _ => rfl)
            (by rw [List.append_nil]; exact hsides₃) hx
          rw [Nat.sub_add_cancel (by omega), List.append_nil, plug_append] at hlast
          obtain ⟨t', K', x', hrun, hsettled⟩ := hlast
          refine ⟨t', K', x', ?_, ?_⟩
          · rw [hitem₁] at hrun₂ hrun₃
            rw [hrun₂, Option.bind_some]
            simp only at hrun₃ ⊢
            rw [hrun₃, Option.bind_some, hrebuilds₃.represents.root]
            exact hrun
          · rw [plug_append]
            refine ⟨((hrebuilds₁.trans hrebuilds₂).trans hrebuilds₃).trans hsettled.rebuilds, hsettled.valid,
              hsettled.sides, hsettled.exact, hsettled.ptr, ?_⟩
            rw [hsettled.parent]
            apply parentPtr_append
            rw [hparent₃, parentPtr_cons, hitem₁]

end Delete

end Fixup

end TheKernel.Eevdf
