import TheKernel.Eevdf.TreeRemove

namespace TheKernel.Eevdf

open RedBlack

variable {K ε : Type} {t : EevdfTree K ε} {k : ShapePath K ε} {T S : Shape K ε}

section Placed

variable [LinearOrder K]

def Sorted (items : List (Entry K ε)) : Prop := items.Pairwise fun a b => a.key < b.key

structure Placed (key : K) (k : ShapePath K ε) : Prop where
  before : ∀ a ∈ Path.before k, a.key < key
  after : ∀ a ∈ Path.after k, key < a.key

theorem placed_nil (key : K) : Placed key ([] : ShapePath K ε) := ⟨by simp [Path.before], by simp [Path.after]⟩

variable {key : K} {c : Color} {l r : Shape K ε} {a : Entry K ε} {m : ε}

theorem Sorted.subtree (h : Sorted (plug k S).items) : Sorted S.items := by
  rw [Path.items_plug, Sorted, List.pairwise_append, List.pairwise_append] at h
  exact h.2.1.1

theorem Sorted.node (h : Sorted (RedBlack.Tree.node c l a m r).items) :
    (∀ b ∈ l.items, b.key < a.key) ∧ ∀ b ∈ r.items, a.key < b.key := by
  rw [Tree.items, Sorted, List.pairwise_append, List.pairwise_cons] at h
  exact ⟨fun b hb => h.2.2 b hb a (by simp), h.2.1.1⟩

theorem Placed.left (h : Placed key k) (hsorted : Sorted (RedBlack.Tree.node c l a m r).items) (hlt : key < a.key) :
    Placed key (⟨.left, c, a, m, r⟩ :: k) := by
  constructor
  · simpa [Path.before] using h.before
  · intro b hb
    rw [Path.after, List.mem_append, List.mem_cons] at hb
    rcases hb with (rfl | hb) | hb
    · exact hlt
    · exact hlt.trans (hsorted.node.2 b hb)
    · exact h.after b hb

theorem Placed.right (h : Placed key k) (hsorted : Sorted (RedBlack.Tree.node c l a m r).items) (hlt : a.key < key) :
    Placed key (⟨.right, c, a, m, l⟩ :: k) := by
  constructor
  · intro b hb
    rw [Path.before, List.mem_append, List.mem_append, List.mem_singleton] at hb
    rcases hb with hb | hb | rfl
    · exact h.before b hb
    · exact (hsorted.node.1 b hb).trans hlt
    · exact hlt
  · simpa [Path.after] using h.after

theorem Placed.mem_of_key (h : Placed key k) {b : Entry K ε} (hb : b ∈ (plug k S).items) (hkey : b.key = key) :
    b ∈ S.items := by
  rw [Path.items_plug, List.mem_append, List.mem_append] at hb
  rcases hb with hb | hb | hb
  · exact absurd hkey (h.before b hb).ne
  · exact hb
  · exact absurd hkey (h.after b hb).ne'

theorem Sorted.insert (h : Sorted (plug k (.leaf : Shape K ε)).items) {e : Entry K ε} (hplaced : Placed e.key k)
    (c : Color) (m : ε) : Sorted (plug k (.node c .leaf e m .leaf)).items := by
  rw [Path.items_plug, Sorted] at h ⊢
  simp only [Tree.items, List.nil_append, List.cons_append] at h ⊢
  rw [List.pairwise_append] at h ⊢
  refine ⟨h.1, List.pairwise_cons.mpr ⟨hplaced.after, h.2.1⟩, ?_⟩
  intro a ha b hb
  rcases List.mem_cons.mp hb with rfl | hb
  · exact hplaced.before a ha
  · exact h.2.2 a ha b hb

/-- The descent of `insert` ends at the place of the key or at a node that has it. -/
theorem findParent_spec (fuel : Nat) (h : Represents t (plug k S)) (hsorted : Sorted (plug k S).items)
    (hplaced : Placed key k) (hfuel : S.size ≤ fuel) :
    (t.findParent key fuel (parentPtr k) (ptr S) = some none ∧ ∃ a ∈ S.items, a.key = key) ∨
      ∃ k', plug k' .leaf = plug k S ∧ Placed key k' ∧
        t.findParent key fuel (parentPtr k) (ptr S) = some (some (parentPtr k')) := by
  induction S generalizing k fuel with
  | leaf =>
      refine .inr ⟨k, rfl, hplaced, ?_⟩
      cases fuel <;> rfl
  | node c l a m r ihl ihr =>
      obtain ⟨fuel, rfl⟩ : ∃ n, fuel = n + 1 := ⟨fuel - 1, by simp only [Tree.size] at hfuel; omega⟩
      simp only [Tree.size] at hfuel
      have hcell : t.nodes a.id = _ := Represents.cell (s := .left) h
      have hnode := hsorted.subtree
      rw [ptr, EevdfTree.findParent_cursor, hcell, cell_key]
      cases hcmp : cmp key a.key with
      | lt =>
          have hlt := (cmp_eq_lt_iff ..).mp hcmp
          rcases ihl (k := ⟨.left, c, a, m, r⟩ :: k) fuel h hsorted (hplaced.left hnode hlt) (by omega) with
            ⟨hrun, b, hb, hkey⟩ | ⟨k', hk', hplaced', hrun⟩
          · exact .inl ⟨hrun, b, by simp [Tree.items, hb], hkey⟩
          · exact .inr ⟨k', hk', hplaced', hrun⟩
      | gt =>
          have hlt := (cmp_eq_gt_iff ..).mp hcmp
          rcases ihr (k := ⟨.right, c, a, m, l⟩ :: k) fuel h hsorted (hplaced.right hnode hlt) (by omega) with
            ⟨hrun, b, hb, hkey⟩ | ⟨k', hk', hplaced', hrun⟩
          · exact .inl ⟨hrun, b, by simp [Tree.items, hb], hkey⟩
          · exact .inr ⟨k', hk', hplaced', hrun⟩
      | eq => exact .inl ⟨rfl, a, by simp [Tree.items], ((cmp_eq_eq_iff ..).mp hcmp).symm⟩

/-- The descent of `contains_exact` finds a node by its key. -/
theorem containsExactLoop_spec {target : NodeId} {fuel : Nat} (h : Represents t (plug k S))
    (hsorted : Sorted (plug k S).items) (hplaced : Placed key k) (hfuel : S.size ≤ fuel) :
    t.containsExactLoop key target fuel (ptr S) = some (decide (∃ a ∈ S.items, a.key = key ∧ a.id = target)) := by
  induction S generalizing k fuel with
  | leaf =>
      rw [ptr, show t.containsExactLoop key target fuel none = some false by cases fuel <;> rfl]
      simp [Tree.items]
  | node c l a m r ihl ihr =>
      obtain ⟨fuel, rfl⟩ : ∃ n, fuel = n + 1 := ⟨fuel - 1, by simp only [Tree.size] at hfuel; omega⟩
      simp only [Tree.size] at hfuel
      have hcell : t.nodes a.id = _ := Represents.cell (s := .left) h
      have hnode := hsorted.subtree
      rw [ptr, EevdfTree.containsExactLoop_cursor, hcell, cell_key]
      have hmem : ∀ {X : Shape K ε} {k' : ShapePath K ε}, Placed key k' → plug k' X = plug k (.node c l a m r) →
          (∀ b ∈ X.items, b ∈ (RedBlack.Tree.node c l a m r).items) →
          ((∃ b ∈ X.items, b.key = key ∧ b.id = target) ↔
            ∃ b ∈ (RedBlack.Tree.node c l a m r).items, b.key = key ∧ b.id = target) := by
        intro X k' hplaced' heq hsub
        constructor
        · rintro ⟨b, hb, hkey, hid⟩
          exact ⟨b, hsub b hb, hkey, hid⟩
        · rintro ⟨b, hb, hkey, hid⟩
          refine ⟨b, hplaced'.mem_of_key ?_ hkey, hkey, hid⟩
          rw [heq, Path.items_plug]
          simp [hb]
      cases hcmp : cmp key a.key with
      | lt =>
          have hplaced' := hplaced.left hnode ((cmp_eq_lt_iff ..).mp hcmp)
          refine (ihl (k := ⟨.left, c, a, m, r⟩ :: k) h hsorted hplaced' (by omega)).trans ?_
          rw [decide_eq_decide.mpr (hmem hplaced' rfl fun b hb => by simp [Tree.items, hb])]
      | gt =>
          have hplaced' := hplaced.right hnode ((cmp_eq_gt_iff ..).mp hcmp)
          refine (ihr (k := ⟨.right, c, a, m, l⟩ :: k) h hsorted hplaced' (by omega)).trans ?_
          rw [decide_eq_decide.mpr (hmem hplaced' rfl fun b hb => by simp [Tree.items, hb])]
      | eq =>
          have hkey := (cmp_eq_eq_iff ..).mp hcmp
          refine congrArg some (decide_eq_decide.mpr ⟨?_, ?_⟩)
          · intro hid
            exact ⟨a, by simp [Tree.items], hkey.symm, hid⟩
          · rintro ⟨b, hb, hkeyb, hid⟩
            simp only [Tree.items, List.mem_append, List.mem_cons] at hb
            rcases hb with hb | rfl | hb
            · exact absurd (hkeyb.trans hkey) (hnode.node.1 b hb).ne
            · exact hid
            · exact absurd (hkeyb.trans hkey) (hnode.node.2 b hb).ne'

theorem link_spec {raw : NodeId} {e : Entry K ε} (h : Represents t (plug k .leaf))
    (hraw : raw ∉ (plug k .leaf).items.map Entry.id)
    (he : e = ⟨raw, (t.nodes raw).key, (t.nodes raw).eligibleAt⟩) (hplaced : Placed e.key k) :
    Represents (t.link raw (parentPtr k)) (plug k (.node .red .leaf e e.eligibleAt .leaf)) ∧
      (t.link raw (parentPtr k)).len = t.len + 1 ∧
      ∀ p, p ∉ (plug k (.node .red .leaf e e.eligibleAt .leaf)).items.map Entry.id →
        (t.link raw (parentPtr k)).nodes p = t.nodes p := by
  obtain ⟨hpath, -, hnodup⟩ := h.focus
  have hne : ∀ b ∈ pathItems k, b.id ≠ raw := by
    rintro b hb rfl
    exact hraw (List.mem_map_of_mem (mem_items_plug.mpr (.inl hb)))
  have hid : e.id = raw := by rw [he]
  let staged := t.modify raw fun n =>
    { n with
      parent := parentPtr k
      left := none
      right := none
      color := .red
      subtreeMin := n.eligibleAt
      linked := true }
  have hstaged : ∀ p, p ≠ raw → staged.nodes p = t.nodes p := fun p hp => by rw [nodes_modify, if_neg hp]
  have hlink : t.link raw (parentPtr k) = { hang staged k (some raw) with len := t.len + 1 } := by
    cases k with
    | nil => rfl
    | cons f k =>
        have hcell : staged.nodes f.item.id = _ :=
          (hstaged f.item.id (hne f.item (by simp [pathItems_cons]))).trans h.frame_cell
        have hkeys : (t.nodes raw).key < (staged.nodes f.item.id).key ↔ e.key < f.item.key := by
          rw [hcell, cell_key, he]
        rw [hang]
        cases hside : f.side with
        | left =>
            have hlt := hkeys.mpr (hplaced.after f.item (by simp [Path.after, hside]))
            exact congrArg (fun u : EevdfTree K ε => { u with len := u.len + 1 }) (if_pos hlt)
        | right =>
            have hlt := (hplaced.before f.item (by simp [Path.before, hside])).not_gt
            exact congrArg (fun u : EevdfTree K ε => { u with len := u.len + 1 }) (if_neg (mt hkeys.mp hlt))
  have hnodes : ∀ p, (∀ b ∈ pathItems k, b.id ≠ p) → (t.link raw (parentPtr k)).nodes p = staged.nodes p := by
    intro p hp
    rw [hlink]
    exact nodes_hang_of_not_mem hp
  refine ⟨.of_focus ?_ ?_ ⟨?_, trivial, trivial⟩ ?_, by rw [hlink], ?_⟩
  · rw [hlink, ← hid]
    exact root_hang (t := staged) (T := .leaf) h.root (.node .red .leaf e e.eligibleAt .leaf)
  · rw [hlink, ptr, hid]
    refine HoldsPath.hang (hpath.congr fun b hb => hstaged b.id (hne b hb)) ?_
    simpa [Tree.items] using hnodup
  · rw [hid, hnodes raw hne, nodes_modify, if_pos rfl, he]
    rfl
  · rw [List.map_append, Tree.items, List.nodup_append']
    refine ⟨by simpa [Tree.items] using hnodup, by simp [Tree.items], ?_⟩
    intro p hp hp'
    obtain ⟨b, hb, rfl⟩ := List.mem_map.mp hp
    simp only [Tree.items, List.nil_append, List.map_cons, List.map_nil, List.mem_singleton, hid] at hp'
    exact hne b hb hp'
  · intro p hp
    have hout : (∀ b ∈ pathItems k, b.id ≠ p) ∧ p ≠ raw := by
      constructor
      · rintro b hb rfl
        exact hp (List.mem_map_of_mem (mem_items_plug.mpr (.inl hb)))
      · rintro rfl
        exact hp (List.mem_map.mpr ⟨e, mem_items_plug.mpr (.inr (by simp [Tree.items])), hid⟩)
    rw [hnodes p hout.1, hstaged p hout.2]

end Placed

section Tidy

variable [LinearOrder K] [LinearOrder ε] [OrderTop ε]

structure Tidy (t : EevdfTree K ε) (T : Shape K ε) : Prop where
  represents : Represents t T
  valid : T.Valid
  exact : T.Exact Entry.eligibleAt
  sorted : Sorted T.items
  len : t.len = T.size

structure Inserted (T T' : Shape K ε) (e : Entry K ε) (t t' : EevdfTree K ε) : Prop where
  tidy : Tidy t' T'
  items : ∃ a b, T.items = a ++ b ∧ T'.items = a ++ e :: b
  other : ∀ p, p ∉ T'.items.map Entry.id → t'.nodes p = t.nodes p

omit [LinearOrder K] in
theorem linked_spec {e : Entry K ε} {u : EevdfTree K ε} (hvalid : (plug k (.leaf : Shape K ε)).Valid)
    (hexact : (plug k (.leaf : Shape K ε)).Exact Entry.eligibleAt)
    (hlinked : Represents u (plug k (.node .red .leaf e e.eligibleAt .leaf)))
    (hlen : u.len = (plug k (.node .red .leaf e e.eligibleAt .leaf)).size) :
    ∃ u₁ u₂ u₃ T', u.recomputeUpwards (parentPtr k) = some u₁ ∧ u₁.insertFixup e.id = some u₂ ∧
      u₂.recomputeUpwards (some e.id) = some u₃ ∧ Rebuilds (plug k (.node .red .leaf e e.eligibleAt .leaf)) u u₃ T' ∧
      T'.Valid ∧ T'.Exact Entry.eligibleAt := by
  obtain ⟨n, hbalanced, hleaf, -⟩ := Path.valid_plug.mp hvalid
  obtain rfl : n = 0 := hleaf
  have hsides := (Path.exact_plug.mp hexact).1.sides
  have hone : (RedBlack.Tree.node .red .leaf e e.eligibleAt .leaf : Shape K ε).Exact Entry.eligibleAt := by
    refine ⟨trivial, trivial, ?_⟩
    simp [combine, Tree.cached]
  have hsize := Path.length_le_size k (.node .red .leaf e e.eligibleAt .leaf)
  obtain ⟨u₁, hrun₁, hwithin₁, hrep₁⟩ := hlinked.recomputeUpwards u.turns (by rw [EevdfTree.turns]; omega)
  have hlength := @Path.length_recomputed _ _ _ _ Entry.eligibleAt k
    (RedBlack.Tree.node .red .leaf e e.eligibleAt .leaf : Shape K ε).cached
  obtain ⟨u₂, T', hrun₂, hrebuilds₂, hvalid₂, hexact₂⟩ := insertFixup_spec u₁.turns (s := .left) hrep₁
    (hbalanced.congr (Path.recomputed_frames _ (fun _ _ => rfl) k _)) ⟨rfl, rfl, rfl, rfl⟩
    (Path.exact_recomputed hsides hone) (by rw [hlength, EevdfTree.turns, hwithin₁.len]; omega)
  have hrebuilds := Rebuilds.trans ⟨hwithin₁, hrep₁, Path.items_recomputed ..⟩ hrebuilds₂
  have hmem : e.id ∈ T'.items.map Entry.id := by
    rw [hrebuilds.items]
    exact List.mem_map_of_mem (mem_items_plug.mpr (.inr (by simp [Tree.items])))
  obtain ⟨u₃, hrun₃, hwithin₃, hrep₃⟩ := hrebuilds.represents.recompute_exact hexact₂ u₂.turns (by
    rw [EevdfTree.turns, hrebuilds.within.len, ← Tree.length_items, hrebuilds.items, Tree.length_items, hlen]
    omega) hmem
  exact ⟨u₁, u₂, u₃, T', hrun₁, hrun₂, hrun₃, hrebuilds.trans ⟨hwithin₃, hrep₃, rfl⟩, hvalid₂, hexact₂⟩

theorem insert_spec {raw : NodeId} (h : Tidy t T) (hraw : (t.nodes raw).linked = true ∨ raw ∉ T.items.map Entry.id) :
    (t.insert raw = some (.error .alreadyLinked) ∧ (t.nodes raw).linked = true) ∨
      (t.insert raw = some (.error .duplicateKey) ∧ (t.nodes raw).linked = false ∧
        ∃ a ∈ T.items, a.key = (t.nodes raw).key) ∨
      ((t.nodes raw).linked = false ∧ ∃ t' T', t.insert raw = some (.ok t') ∧
        Inserted T T' ⟨raw, (t.nodes raw).key, (t.nodes raw).eligibleAt⟩ t t') := by
  rw [EevdfTree.insert]
  cases hlinked : (t.nodes raw).linked with
  | true => exact .inl ⟨rfl, rfl⟩
  | false =>
      replace hraw : raw ∉ T.items.map Entry.id := hraw.resolve_left (by simp [hlinked])
      simp only [Bool.false_eq_true, if_false]
      refine .inr ?_
      rw [h.represents.root]
      rcases findParent_spec (k := []) t.turns h.represents h.sorted (placed_nil _)
        (by rw [EevdfTree.turns, h.len]; omega) with ⟨hrun, hdup⟩ | ⟨k, hk, hplaced, hrun⟩
      · refine .inl ⟨?_, trivial, hdup⟩
        rw [show parentPtr ([] : ShapePath K ε) = none from rfl] at hrun
        rw [hrun]
        rfl
      · obtain rfl : plug k .leaf = T := hk
        obtain ⟨hlinks, hlen, hother⟩ := link_spec h.represents hraw rfl hplaced
        obtain ⟨a, b, hitems, hitems'⟩ : ∃ a b, (plug k (.leaf : Shape K ε)).items = a ++ b ∧
            (plug k (.node .red .leaf ⟨raw, (t.nodes raw).key, (t.nodes raw).eligibleAt⟩
              (t.nodes raw).eligibleAt .leaf)).items =
              a ++ ⟨raw, (t.nodes raw).key, (t.nodes raw).eligibleAt⟩ :: b :=
          ⟨Path.before k, Path.after k, by simp [Path.items_plug, Tree.items], by simp [Path.items_plug, Tree.items]⟩
        have hsize : t.len + 1 = (plug k (.node .red .leaf ⟨raw, (t.nodes raw).key, (t.nodes raw).eligibleAt⟩
            (t.nodes raw).eligibleAt .leaf)).size := by
          rw [h.len, ← Tree.length_items, ← Tree.length_items, hitems, hitems']
          simp only [List.length_append, List.length_cons]
          omega
        obtain ⟨u₁, u₂, u₃, T', hrun₁, hrun₂, hrun₃, hrebuilds, hvalid, hexact⟩ :=
          linked_spec h.valid h.exact hlinks (hlen.trans hsize)
        refine .inr ⟨trivial, u₃, T', ?_, ⟨hrebuilds.represents, hvalid, hexact, ?_, ?_⟩, ⟨a, b, hitems, ?_⟩, ?_⟩
        · rw [show parentPtr ([] : ShapePath K ε) = none from rfl] at hrun
          rw [hrun]
          simp only [Option.bind_eq_bind, Option.bind_some]
          rw [hrun₁, Option.bind_some, hrun₂, Option.bind_some, hrun₃, Option.bind_some]
        · rw [hrebuilds.items]
          exact h.sorted.insert hplaced ..
        · rw [hrebuilds.within.len, hlen, hsize, ← Tree.length_items, ← Tree.length_items, hrebuilds.items]
        · rw [hrebuilds.items, hitems']
        · intro p hp
          rw [hrebuilds.items] at hp
          rw [hrebuilds.within.nodes p hp, hother p hp]

theorem Removed.tidy {z : Entry K ε} {T' : Shape K ε} {t' : EevdfTree K ε} (h : Tidy t T) (hr : Removed T T' z t t') :
    Tidy t' T' := by
  obtain ⟨a, b, hitems, hitems'⟩ := hr.items
  refine ⟨hr.represents, hr.valid, hr.exact, ?_, ?_⟩
  · have hsorted := h.sorted
    rw [hitems] at hsorted
    rw [hitems']
    exact hsorted.sublist ((List.sublist_cons_self z b).append_left a)
  · rw [hr.len, h.len, ← Tree.length_items, ← Tree.length_items, hitems, hitems']
    simp

omit [LinearOrder K] [LinearOrder ε] [OrderTop ε] in
theorem Represents.entry (h : Represents t T) {a : Entry K ε} (ha : a ∈ T.items) :
    (t.nodes a.id).key = a.key ∧ (t.nodes a.id).eligibleAt = a.eligibleAt ∧ (t.nodes a.id).linked = true := by
  obtain ⟨k, c, l, m, r, rfl⟩ := exists_focus ha
  have hcell : t.nodes a.id = _ := Represents.cell (s := .left) h
  rw [hcell]
  exact ⟨rfl, rfl, rfl⟩

/-- A node is known to be in the tree by its key and its address. -/
theorem containsExact_spec (h : Tidy t T) (p : NodeId) :
    t.containsExact p = some (decide (p ∈ T.items.map Entry.id)) := by
  rw [EevdfTree.containsExact]
  cases hlinked : (t.nodes p).linked with
  | false =>
      have hout : p ∉ T.items.map Entry.id := by
        intro hp
        obtain ⟨a, ha, rfl⟩ := List.mem_map.mp hp
        rw [(h.represents.entry ha).2.2] at hlinked
        cases hlinked
      simp [hout]
  | true =>
      rw [if_pos rfl, h.represents.root, containsExactLoop_spec (k := []) h.represents h.sorted (placed_nil _)
        (by rw [EevdfTree.turns, h.len]; omega)]
      refine congrArg some (decide_eq_decide.mpr ⟨?_, ?_⟩)
      · rintro ⟨a, ha, -, hid⟩
        exact List.mem_map.mpr ⟨a, ha, hid⟩
      · intro hp
        obtain ⟨a, ha, rfl⟩ := List.mem_map.mp hp
        exact ⟨a, ha, ((h.represents.entry ha).1).symm, rfl⟩

theorem remove_spec (h : Tidy t T) (p : NodeId) :
    (t.remove p = some (.error .foreignNode) ∧ p ∉ T.items.map Entry.id) ∨
      ∃ z ∈ T.items, z.id = p ∧ ∃ t' T', t.remove p = some (.ok t') ∧ Removed T T' z t t' := by
  rw [EevdfTree.remove, containsExact_spec h]
  by_cases hp : p ∈ T.items.map Entry.id
  · obtain ⟨z, hz, rfl⟩ := List.mem_map.mp hp
    obtain ⟨t', T', hrun, hremoved⟩ := removeRaw_spec h.represents h.valid h.exact h.len hz
    refine .inr ⟨z, hz, rfl, t', T', ?_, hremoved⟩
    simp [hp, hrun]
  · refine .inl ⟨?_, hp⟩
    simp [hp]

end Tidy

end TheKernel.Eevdf
