import Mathlib.Order.BoundedOrder.Lattice
import Mathlib.Order.MinMax
import Mathlib.Data.List.Basic

namespace TheKernel.RedBlack

inductive Color where
  | red | black
  deriving DecidableEq

inductive Side where
  | left | right
  deriving DecidableEq

def Side.other : Side → Side
  | .left => .right
  | .right => .left

@[simp] theorem Side.other_other (s : Side) : s.other.other = s := by
  cases s <;> rfl

theorem Side.eq_or_other (s t : Side) : t = s ∨ t = s.other := by
  cases s <;> cases t <;> simp [other]

variable {α ε : Type}

/-- `min` is the cached minimum of the whole subtree, which may be out of date. -/
inductive Tree (α ε : Type) where
  | leaf
  | node (color : Color) (l : Tree α ε) (item : α) (min : ε) (r : Tree α ε)
  deriving DecidableEq

def Tree.mk (s : Side) (c : Color) (near : Tree α ε) (a : α) (m : ε) (far : Tree α ε) : Tree α ε :=
  match s with
  | .left => .node c near a m far
  | .right => .node c far a m near

/-- A node on the way to the root: the hole is its child on `side`. -/
structure Frame (α ε : Type) where
  side : Side
  color : Color
  item : α
  min : ε
  sibling : Tree α ε

def Frame.fill (f : Frame α ε) (t : Tree α ε) : Tree α ε := .mk f.side f.color t f.item f.min f.sibling

abbrev Path (α ε : Type) := List (Frame α ε)

def plug : Path α ε → Tree α ε → Tree α ε
  | [], t => t
  | f :: k, t => plug k (f.fill t)

@[simp] theorem plug_nil (t : Tree α ε) : plug [] t = t := rfl

@[simp] theorem plug_cons (f : Frame α ε) (k : Path α ε) (t : Tree α ε) : plug (f :: k) t = plug k (f.fill t) := rfl

theorem plug_append (k k' : Path α ε) (t : Tree α ε) : plug (k ++ k') t = plug k' (plug k t) := by
  induction k generalizing t with
  | nil => rfl
  | cons f k ih => exact ih (f.fill t)

namespace Tree

theorem mk_other (s : Side) (c : Color) (l : Tree α ε) (a : α) (m : ε) (r : Tree α ε) :
    mk s.other c l a m r = mk s c r a m l := by
  cases s <;> rfl

theorem exists_mk (s : Side) {t : Tree α ε} (h : t ≠ .leaf) : ∃ c l a m r, t = mk s c l a m r := by
  cases t with
  | leaf => exact absurd rfl h
  | node c l a m r =>
      cases s with
      | left => exact ⟨c, l, a, m, r, rfl⟩
      | right => exact ⟨c, r, a, m, l, rfl⟩

theorem exists_side (s s' : Side) (c : Color) (l : Tree α ε) (a : α) (m : ε) (r : Tree α ε) :
    ∃ l' r', mk s c l a m r = mk s' c l' a m r' := by
  rcases s'.eq_or_other s with rfl | rfl
  · exact ⟨l, r, rfl⟩
  · exact ⟨r, l, mk_other ..⟩

@[simp] theorem mk_ne_leaf (s : Side) (c : Color) (l : Tree α ε) (a : α) (m : ε) (r : Tree α ε) :
    mk s c l a m r ≠ .leaf := by
  cases s <;> simp [mk]

def items : Tree α ε → List α
  | leaf => []
  | node _ l a _ r => l.items ++ a :: r.items

theorem items_mk_rotate (s : Side) (c d c' d' : Color) (l : Tree α ε) (x : α) (m m' n n' : ε) (b : Tree α ε) (y : α)
    (r : Tree α ε) : (mk s c l x m (mk s d b y n r)).items = (mk s d' (mk s c' l x m' b) y n' r).items := by
  cases s <;> simp [mk, items]

theorem items_mk_congr (s : Side) (c c' : Color) {l l' : Tree α ε} (x : α) (m m' : ε) {r r' : Tree α ε}
    (hl : l.items = l'.items) (hr : r.items = r'.items) : (mk s c l x m r).items = (mk s c' l' x m' r').items := by
  cases s <;> simp [mk, items, hl, hr]

theorem mem_items_mk {s : Side} {c : Color} {l : Tree α ε} {x : α} {m : ε} {r : Tree α ε} {a : α} :
    a ∈ (mk s c l x m r).items ↔ a = x ∨ a ∈ l.items ∨ a ∈ r.items := by
  cases s <;> simp only [mk, items, List.mem_append, List.mem_cons] <;> tauto

def color : Tree α ε → Color
  | leaf => .black
  | node c _ _ _ _ => c

@[simp] theorem color_mk (s : Side) (c : Color) (l : Tree α ε) (a : α) (m : ε) (r : Tree α ε) :
    (mk s c l a m r).color = c := by
  cases s <;> rfl

@[simp] theorem color_leaf : (leaf : Tree α ε).color = .black := rfl

def size : Tree α ε → Nat
  | leaf => 0
  | node _ l _ _ r => l.size + r.size + 1

theorem length_items (t : Tree α ε) : t.items.length = t.size := by
  induction t with
  | leaf => rfl
  | node c l a m r ihl ihr =>
      simp only [items, List.length_append, List.length_cons, size, ihl, ihr]
      omega

/-- No red node has a red child, and every way down meets `n` black nodes. -/
def Balanced : Tree α ε → Nat → Prop
  | leaf, n => n = 0
  | node .red l _ _ r, n => l.Balanced n ∧ r.Balanced n ∧ l.color = .black ∧ r.color = .black
  | node .black l _ _ r, n => ∃ m, n = m + 1 ∧ l.Balanced m ∧ r.Balanced m

theorem balanced_mk_red {s : Side} {l : Tree α ε} {a : α} {m : ε} {r : Tree α ε} {n : Nat} :
    (mk s .red l a m r).Balanced n ↔ l.Balanced n ∧ r.Balanced n ∧ l.color = .black ∧ r.color = .black := by
  cases s with
  | left => rfl
  | right =>
      constructor
      · rintro ⟨h1, h2, h3, h4⟩
        exact ⟨h2, h1, h4, h3⟩
      · rintro ⟨h1, h2, h3, h4⟩
        exact ⟨h2, h1, h4, h3⟩

theorem balanced_mk_black {s : Side} {l : Tree α ε} {a : α} {m : ε} {r : Tree α ε} {n : Nat} :
    (mk s .black l a m r).Balanced (n + 1) ↔ l.Balanced n ∧ r.Balanced n := by
  cases s with
  | left =>
      constructor
      · rintro ⟨k, hk, h1, h2⟩
        obtain rfl : n = k := by omega
        exact ⟨h1, h2⟩
      · rintro ⟨h1, h2⟩
        exact ⟨n, rfl, h1, h2⟩
  | right =>
      constructor
      · rintro ⟨k, hk, h1, h2⟩
        obtain rfl : n = k := by omega
        exact ⟨h2, h1⟩
      · rintro ⟨h1, h2⟩
        exact ⟨n, rfl, h2, h1⟩

theorem Balanced.black_pos {s : Side} {l : Tree α ε} {a : α} {m : ε} {r : Tree α ε} {n : Nat}
    (h : (mk s .black l a m r).Balanced n) : ∃ k, n = k + 1 ∧ l.Balanced k ∧ r.Balanced k := by
  cases s with
  | left => exact h
  | right =>
      obtain ⟨k, hk, h1, h2⟩ := h
      exact ⟨k, hk, h2, h1⟩

def Valid (t : Tree α ε) : Prop := t.color = .black ∧ ∃ n, t.Balanced n

end Tree

namespace Path

variable {k : Path α ε}

def before : Path α ε → List α
  | [] => []
  | f :: k => before k ++ match f.side with
    | .left => []
    | .right => f.sibling.items ++ [f.item]

def after : Path α ε → List α
  | [] => []
  | f :: k => (match f.side with
    | .left => f.item :: f.sibling.items
    | .right => []) ++ after k

theorem items_plug (k : Path α ε) (t : Tree α ε) : (plug k t).items = before k ++ (t.items ++ after k) := by
  induction k generalizing t with
  | nil => simp [before, after]
  | cons f k ih =>
      rw [plug_cons, ih, before, after, Frame.fill]
      cases f.side <;> simp [Tree.mk, Tree.items]

theorem items_plug_congr (k : Path α ε) {t t' : Tree α ε} (h : t.items = t'.items) :
    (plug k t).items = (plug k t').items := by
  rw [items_plug, items_plug, h]

def top (k : Path α ε) : Option Color := k.head?.map (·.color)

@[simp] theorem top_nil : top ([] : Path α ε) = none := rfl

@[simp] theorem top_cons (f : Frame α ε) (k : Path α ε) : top (f :: k) = some f.color := rfl

def Balanced : Path α ε → Nat → Prop
  | [], _ => True
  | f :: k, n => f.sibling.Balanced n ∧ match f.color with
    | .red => f.sibling.color = .black ∧ top k = some .black ∧ Balanced k n
    | .black => Balanced k (n + 1)

theorem balanced_red {f : Frame α ε} {n : Nat} (hc : f.color = .red) : Balanced (f :: k) n ↔
    f.sibling.Balanced n ∧ f.sibling.color = .black ∧ top k = some .black ∧ Balanced k n := by
  simp [Balanced, hc]

theorem balanced_black {f : Frame α ε} {n : Nat} (hc : f.color = .black) : Balanced (f :: k) n ↔
    f.sibling.Balanced n ∧ Balanced k (n + 1) := by
  simp [Balanced, hc]

theorem Balanced.congr {k k' : Path α ε} {n : Nat} (h : Balanced k n)
    (heq : k'.map (fun f => (f.color, f.sibling)) = k.map fun f => (f.color, f.sibling)) : Balanced k' n := by
  induction k generalizing k' n with
  | nil =>
      rw [List.map_nil, List.map_eq_nil_iff] at heq
      rw [heq]
      trivial
  | cons f k ih =>
      cases k' with
      | nil => cases heq
      | cons f' k' =>
          rw [List.map_cons, List.map_cons, List.cons.injEq, Prod.mk.injEq] at heq
          obtain ⟨⟨hcolor, hsibling⟩, heq⟩ := heq
          have htop : top k' = top k := by
            have hcolors := congrArg (fun l => (l.map Prod.fst).head?) heq
            simpa [top, List.map_map, Function.comp_def] using hcolors
          refine ⟨hsibling ▸ h.1, ?_⟩
          have hrest := h.2
          rw [hcolor]
          cases hc : f.color with
          | red =>
              rw [hc] at hrest
              rw [hsibling, htop]
              exact ⟨hrest.1, hrest.2.1, ih hrest.2.2 heq⟩
          | black =>
              rw [hc] at hrest
              exact ih hrest heq

theorem Balanced.sibling {f : Frame α ε} {n : Nat} (h : Balanced (f :: k) n) {t : Tree α ε} (ht : t.Balanced n)
    (hc : t.color = .black) : Balanced ({ f with sibling := t } :: k) n := by
  refine ⟨ht, ?_⟩
  have hrest := h.2
  simp only
  cases hf : f.color with
  | red =>
      rw [hf] at hrest
      exact ⟨hc, hrest.2⟩
  | black =>
      rw [hf] at hrest
      exact hrest

theorem valid_plug {t : Tree α ε} : (plug k t).Valid ↔
    ∃ n, Balanced k n ∧ t.Balanced n ∧ (t.color = .red → top k = some .black) := by
  induction k generalizing t with
  | nil =>
      constructor
      · rintro ⟨hc, n, hn⟩
        exact ⟨n, trivial, hn, fun h => by simp [plug_nil, h] at hc⟩
      · rintro ⟨n, -, hn, hc⟩
        refine ⟨?_, n, hn⟩
        cases h : t.color with
        | red => cases hc h
        | black => exact h
  | cons f k ih =>
      rw [plug_cons, ih]
      cases hc : f.color with
      | red =>
          constructor
          · rintro ⟨n, hk, ht, htop⟩
            rw [Frame.fill, hc, Tree.balanced_mk_red] at ht
            rw [Frame.fill, Tree.color_mk] at htop
            refine ⟨n, (balanced_red hc).mpr ⟨ht.2.1, ht.2.2.2, htop hc, hk⟩, ht.1, ?_⟩
            intro h
            rw [ht.2.2.1] at h
            cases h
          · rintro ⟨n, hk, ht, htop⟩
            obtain ⟨hs, hsc, hblack, hk⟩ := (balanced_red hc).mp hk
            refine ⟨n, hk, ?_, fun _ => hblack⟩
            have htc : t.color = .black := by
              cases h : t.color with
              | red =>
                  have := htop h
                  rw [top_cons, hc] at this
                  cases this
              | black => rfl
            rw [Frame.fill, hc, Tree.balanced_mk_red]
            exact ⟨ht, hs, htc, hsc⟩
      | black =>
          constructor
          · rintro ⟨n, hk, ht, -⟩
            rw [Frame.fill, hc] at ht
            obtain ⟨m, rfl, ht, hs⟩ := ht.black_pos
            exact ⟨m, (balanced_black hc).mpr ⟨hs, hk⟩, ht, fun _ => by rw [top_cons, hc]⟩
          · rintro ⟨n, hk, ht, -⟩
            obtain ⟨hs, hk⟩ := (balanced_black hc).mp hk
            refine ⟨n + 1, hk, ?_, ?_⟩
            · rw [Frame.fill, hc, Tree.balanced_mk_black]
              exact ⟨ht, hs⟩
            · intro h
              rw [Frame.fill, Tree.color_mk, hc] at h
              cases h

theorem length_le_size (k : Path α ε) (t : Tree α ε) : k.length + t.size ≤ (plug k t).size := by
  induction k generalizing t with
  | nil => simp
  | cons f k ih =>
      have := ih (f.fill t)
      have hfill : t.size + 1 ≤ (f.fill t).size := by
        rw [Frame.fill]
        cases f.side <;> simp only [Tree.mk, Tree.size] <;> omega
      rw [plug_cons, List.length_cons]
      omega

end Path

-- The balance of the shapes that the two repairs go through. `x` is the deep
-- end, `p` its parent, `g` the parent of that, and `s` the side `x` hangs on.

section Repair

open Tree Path

variable {k : Path α ε} {f g : Frame α ε} {n : Nat}

/-- A red node below a red parent: the grandparent exists and is black. -/
theorem grandparent_of_red (hf : f.color = .red) (h : Path.Balanced (f :: k) n) :
    ∃ g k', k = g :: k' ∧ g.color = .black ∧ f.sibling.Balanced n ∧ f.sibling.color = .black ∧ g.sibling.Balanced n ∧
      Path.Balanced k' (n + 1) := by
  obtain ⟨hs, hsc, htop, hk⟩ := (balanced_red hf).mp h
  cases k with
  | nil => cases htop
  | cons g k' =>
      have hg : g.color = .black := Option.some.inj htop
      obtain ⟨hu, hk'⟩ := (balanced_black hg).mp hk
      exact ⟨g, k', rfl, hg, hs, hsc, hu, hk'⟩

/-- Recolouring below a red uncle moves the red node two levels up. -/
theorem balanced_recolor {s t : Side} {x u v w : Tree α ε} {p g q : α} {m m' m'' : ε} (hx : x.Balanced n)
    (hu : u.Balanced n) (hv : (mk t .red v q m'' w).Balanced n) :
    (mk s .red (mk t .black x p m u) g m' (mk t .black v q m'' w)).Balanced (n + 1) := by
  obtain ⟨hv, hw, -, -⟩ := balanced_mk_red.mp hv
  exact balanced_mk_red.mpr ⟨balanced_mk_black.mpr ⟨hx, hu⟩, balanced_mk_black.mpr ⟨hv, hw⟩, color_mk .., color_mk ..⟩

/-- The sibling of a node that lacks a black one is a node itself. -/
theorem sibling_ne_leaf (h : Path.Balanced (f :: k) (n + 1)) : f.sibling ≠ .leaf := by
  intro hleaf
  have hs : f.sibling.Balanced (n + 1) := h.1
  rw [hleaf] at hs
  cases hs

/-- A red sibling goes above the parent, whose new sibling is black. -/
theorem balanced_red_sibling {s : Side} {near far : Tree α ε} {y : α} {m m' m'' : ε}
    (hs : f.sibling = mk s .red near y m far) (h : Path.Balanced (f :: k) n) :
    f.color = .black ∧ near.color = .black ∧
      Path.Balanced (⟨s, .red, f.item, m', near⟩ :: ⟨s, .black, y, m'', far⟩ :: k) n := by
  have hc : f.color = .black := by
    cases hc : f.color with
    | red =>
        have := ((balanced_red hc).mp h).2.1
        rw [hs, color_mk] at this
        cases this
    | black => rfl
  obtain ⟨hb, hk⟩ := (balanced_black hc).mp h
  rw [hs, balanced_mk_red] at hb
  obtain ⟨hnear, hfar, hnearc, -⟩ := hb
  exact ⟨hc, hnearc, (balanced_red rfl).mpr ⟨hnear, hnearc, rfl, (balanced_black rfl).mpr ⟨hfar, hk⟩⟩⟩

/-- A black sibling with black children turns red; a black parent then lacks a
black node in turn, a red one is blackened and ends the repair. -/
theorem balanced_blacken {near far x : Tree α ε} {y : α} {m : ε} {s : Side}
    (hs : f.sibling = mk s .black near y m far) (h : Path.Balanced (f :: k) (n + 1)) (hx : x.Balanced n)
    (hnear : near.color = .black) (hfar : far.color = .black) :
    (f.color = .black → (Frame.fill { f with sibling := mk s .red near y m far } x).Balanced (n + 1) ∧
      Path.Balanced k (n + 2)) ∧
    (f.color = .red → (Frame.fill { f with color := .black, sibling := mk s .red near y m far } x).Balanced (n + 1) ∧
      Path.Balanced k (n + 1)) := by
  have hb : (mk s .black near y m far).Balanced (n + 1) := hs ▸ h.1
  obtain ⟨hnb, hfb⟩ := balanced_mk_black.mp hb
  have hred : (mk s .red near y m far).Balanced n := balanced_mk_red.mpr ⟨hnb, hfb, hnear, hfar⟩
  constructor
  · intro hc
    refine ⟨?_, ((balanced_black hc).mp h).2⟩
    simp only [Frame.fill, hc]
    exact balanced_mk_black.mpr ⟨hx, hred⟩
  · intro hc
    refine ⟨?_, ((balanced_red hc).mp h).2.2.2⟩
    exact balanced_mk_black.mpr ⟨hx, hred⟩

theorem balanced_delete_rotate {s : Side} {near far x : Tree α ε} {y : α} {m' m'' : ε}
    (h : Path.Balanced (f :: k) (n + 1)) (hx : x.Balanced n)
    (hnear : near.Balanced n) (hfar : far.Balanced (n + 1)) (hfarc : far.color = .black) :
    (plug k (mk s f.color (mk s .black x f.item m' near) y m'' far)).Valid := by
  rw [valid_plug]
  have hleft : (mk s .black x f.item m' near).Balanced (n + 1) := balanced_mk_black.mpr ⟨hx, hnear⟩
  cases hc : f.color with
  | red =>
      obtain ⟨-, -, htop, hk⟩ := (balanced_red hc).mp h
      exact ⟨n + 1, hk, balanced_mk_red.mpr ⟨hleft, hfar, color_mk .., hfarc⟩, fun _ => htop⟩
  | black =>
      obtain ⟨-, hk⟩ := (balanced_black hc).mp h
      refine ⟨n + 2, hk, balanced_mk_black.mpr ⟨hleft, hfar⟩, fun hred => ?_⟩
      rw [color_mk] at hred
      cases hred

end Repair

section Minimum

variable [LinearOrder ε] [OrderTop ε] (val : α → ε)

/-- The cached minimum of a subtree, with the identity for an empty one. -/
def Tree.cached : Tree α ε → ε
  | .leaf => ⊤
  | .node _ _ _ m _ => m

@[simp] theorem Tree.cached_mk (s : Side) (c : Color) (l : Tree α ε) (a : α) (m : ε) (r : Tree α ε) :
    (Tree.mk s c l a m r).cached = m := by
  cases s <;> rfl

def combine (a : α) (l r : Tree α ε) : ε := min (min (val a) l.cached) r.cached

theorem combine_comm (a : α) (l r : Tree α ε) : combine val a l r = combine val a r l := min_right_comm _ _ _

namespace Tree

def Exact : Tree α ε → Prop
  | leaf => True
  | node _ l a m r => l.Exact ∧ r.Exact ∧ m = combine val a l r

theorem exact_mk {s : Side} {c : Color} {l : Tree α ε} {a : α} {m : ε} {r : Tree α ε} :
    (mk s c l a m r).Exact val ↔ l.Exact val ∧ r.Exact val ∧ m = combine val a l r := by
  cases s with
  | left => rfl
  | right =>
      constructor
      · rintro ⟨h1, h2, h3⟩
        exact ⟨h2, h1, h3.trans (combine_comm val ..)⟩
      · rintro ⟨h1, h2, h3⟩
        exact ⟨h2, h1, h3.trans (combine_comm val ..)⟩

theorem Exact.recolor {s : Side} {c : Color} {l : Tree α ε} {a : α} {m : ε} {r : Tree α ε}
    (h : (mk s c l a m r).Exact val) (c' : Color) : (mk s c' l a m r).Exact val :=
  (exact_mk val).mpr ((exact_mk val).mp h)

theorem Exact.cached_le {t : Tree α ε} (h : t.Exact val) : ∀ a ∈ t.items, t.cached ≤ val a := by
  induction t with
  | leaf => simp [items]
  | node c l x m r ihl ihr =>
      obtain ⟨hl, hr, hm⟩ := h
      intro a ha
      have hcached : (node c l x m r).cached = combine val x l r := hm
      rw [hcached, combine]
      simp only [items, List.mem_append, List.mem_cons] at ha
      rcases ha with ha | rfl | ha
      · exact (min_le_left _ _).trans ((min_le_right _ _).trans (ihl hl a ha))
      · exact (min_le_left _ _).trans (min_le_left _ _)
      · exact (min_le_right _ _).trans (ihr hr a ha)

theorem Exact.cached_attained {t : Tree α ε} (h : t.Exact val) (hne : t ≠ leaf) : ∃ a ∈ t.items, t.cached = val a := by
  induction t with
  | leaf => exact absurd rfl hne
  | node c l x m r ihl ihr =>
      obtain ⟨hl, hr, hm⟩ := h
      have hcached : (node c l x m r).cached = combine val x l r := hm
      have hleaf : ∀ u : Tree α ε, u.cached = ⊤ ∨ u ≠ leaf := by
        intro u
        cases u with
        | leaf => exact .inl rfl
        | node => exact .inr (by simp)
      rw [hcached, combine]
      rcases min_choice (min (val x) l.cached) r.cached with h1 | h1
      · rcases min_choice (val x) l.cached with h2 | h2
        · exact ⟨x, by simp [items], h1.trans h2⟩
        · rcases hleaf l with hl' | hl'
          · refine ⟨x, by simp [items], ?_⟩
            rw [h1, hl', min_top_right]
          · obtain ⟨a, ha, hval⟩ := ihl hl hl'
            exact ⟨a, by simp [items, ha], h1.trans (h2.trans hval)⟩
      · rcases hleaf r with hr' | hr'
        · rw [hr', min_top_right]
          rcases min_choice (val x) l.cached with h2 | h2
          · exact ⟨x, by simp [items], h2⟩
          · rcases hleaf l with hl' | hl'
            · exact ⟨x, by simp [items], by rw [hl', min_top_right]⟩
            · obtain ⟨a, ha, hval⟩ := ihl hl hl'
              exact ⟨a, by simp [items, ha], h2.trans hval⟩
        · obtain ⟨a, ha, hval⟩ := ihr hr hr'
          exact ⟨a, by simp [items, ha], h1.trans hval⟩

/-- A rotation with both caches recomputed keeps the caches exact, and so the
cache of the whole. -/
theorem exact_rotate {s : Side} {c d c' d' : Color} {l b r : Tree α ε} {x y : α} {m n : ε}
    (h : (mk s c l x m (mk s d b y n r)).Exact val) :
    (mk s d' (mk s c' l x (combine val x l b) b) y (combine val y (mk s c' l x (combine val x l b) b) r) r).Exact val ∧
      combine val y (mk s c' l x (combine val x l b) b) r = m := by
  obtain ⟨hl, hinner, hm⟩ := (exact_mk val).mp h
  obtain ⟨hb, hr, hn⟩ := (exact_mk val).mp hinner
  refine ⟨(exact_mk val).mpr ⟨(exact_mk val).mpr ⟨hl, hb, rfl⟩, hr, rfl⟩, ?_⟩
  simp only [hm, hn, combine, cached_mk]
  ac_rfl

end Tree

namespace Path

variable {val} {k : Path α ε} {t : Tree α ε}

def Exact (val : α → ε) : Path α ε → ε → Prop
  | [], _ => True
  | f :: k, m => f.sibling.Exact val ∧ f.min = min (min (val f.item) m) f.sibling.cached ∧ Exact val k f.min

theorem exact_plug : (plug k t).Exact val ↔ Exact val k t.cached ∧ t.Exact val := by
  induction k generalizing t with
  | nil => simp [Exact]
  | cons f k ih =>
      rw [plug_cons, ih, Exact, Frame.fill, Tree.cached_mk, Tree.exact_mk, combine]
      tauto

theorem exact_plug_congr {t' : Tree α ε} (h : (plug k t).Exact val) (ht : t'.Exact val) (hc : t'.cached = t.cached) :
    (plug k t').Exact val :=
  exact_plug.mpr ⟨hc ▸ (exact_plug.mp h).1, ht⟩

/-- The subtrees beside the path are exact, whatever the path itself caches. -/
def SidesExact (val : α → ε) (k : Path α ε) : Prop := ∀ f ∈ k, f.sibling.Exact val

theorem Exact.sides {m : ε} (h : Exact val k m) : SidesExact val k := by
  induction k generalizing m with
  | nil => simp [SidesExact]
  | cons f k ih =>
      intro g hg
      rcases List.mem_cons.mp hg with rfl | hg
      · exact h.1
      · exact ih h.2.2 g hg

def recomputed (val : α → ε) : Path α ε → ε → Path α ε
  | [], _ => []
  | f :: k, m =>
      let m' := min (min (val f.item) m) f.sibling.cached
      { f with min := m' } :: recomputed val k m'

theorem length_recomputed (k : Path α ε) (m : ε) : (recomputed val k m).length = k.length := by
  induction k generalizing m with
  | nil => rfl
  | cons f k ih => exact congrArg Nat.succ (ih _)

theorem recomputed_frames {β : Type} (g : Frame α ε → β) (hg : ∀ (f : Frame α ε) m, g { f with min := m } = g f)
    (k : Path α ε) (m : ε) : (recomputed val k m).map g = k.map g := by
  induction k generalizing m with
  | nil => rfl
  | cons f k ih => rw [recomputed, List.map_cons, List.map_cons, ih, hg]

theorem Exact.recomputed_eq {m : ε} (h : Exact val k m) : recomputed val k m = k := by
  induction k generalizing m with
  | nil => rfl
  | cons f k ih =>
      obtain ⟨_, hmin, hk⟩ := h
      rw [recomputed, ← hmin, ih hk]

theorem SidesExact.recomputed {m : ε} (h : SidesExact val k) : SidesExact val (recomputed val k m) := by
  induction k generalizing m with
  | nil => exact h
  | cons f k ih =>
      intro g hg
      rcases List.mem_cons.mp hg with rfl | hg
      · exact h f (by simp)
      · exact ih (fun g hg => h g (by simp [hg])) g hg

theorem items_recomputed (k : Path α ε) (m : ε) (t : Tree α ε) :
    (plug (recomputed val k m) t).items = (plug k t).items := by
  induction k generalizing m t with
  | nil => rfl
  | cons f k ih =>
      rw [recomputed, plug_cons, plug_cons, ih]
      exact items_plug_congr k (Tree.items_mk_congr _ _ _ _ _ _ rfl rfl)

theorem valid_recomputed {m : ε} (h : (plug k t).Valid) : (plug (recomputed val k m) t).Valid := by
  obtain ⟨n, hk, ht, htop⟩ := valid_plug.mp h
  refine valid_plug.mpr ⟨n, hk.congr (recomputed_frames _ (fun _ _ => rfl) k m), ht, fun hred => ?_⟩
  rw [← htop hred]
  have hcolors : (recomputed val k m).map Frame.color = k.map Frame.color := recomputed_frames _ (fun _ _ => rfl) k m
  simpa [top] using congrArg List.head? hcolors

theorem exact_recomputed (hs : SidesExact val k) (ht : t.Exact val) :
    (plug (recomputed val k t.cached) t).Exact val := by
  rw [exact_plug]
  refine ⟨?_, ht⟩
  generalize t.cached = m
  induction k generalizing m with
  | nil => trivial
  | cons f k ih => exact ⟨hs f (by simp), rfl, ih (fun g hg => hs g (by simp [hg])) _⟩

end Path

end Minimum

end TheKernel.RedBlack
