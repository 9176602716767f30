import TheKernel.Eevdf.TreeInsert

namespace TheKernel.Eevdf

open RedBlack

variable {K ε σ : Type}

namespace EevdfTree

variable (t : EevdfTree K ε)

def successorLoop : Nat → NodeId → Option NodeId → Option (Option NodeId)
  | _, _, none => some none
  | 0, _, some _ => none
  | fuel + 1, child, some parent =>
      if (t.nodes parent).right = some child then successorLoop fuel parent (t.nodes parent).parent
      else some (some parent)

def successor (node : NodeId) : Option (Option NodeId) :=
  match (t.nodes node).right with
  | some right => do
      let p ← t.minimum right
      some (some p)
  | none => t.successorLoop t.turns node (t.nodes node).parent

/-- The descent of `find_bounded_after` to the first key after the saved one. -/
def firstAfter [LinearOrder K] (after : K) : Nat → Option NodeId → Option NodeId → Option (Option NodeId)
  | _, successor, none => some successor
  | 0, _, some _ => none
  | fuel + 1, successor, some current =>
      if after < (t.nodes current).key then firstAfter after fuel (some current) (t.nodes current).left
      else firstAfter after fuel successor (t.nodes current).right

/-- The scan of `find_bounded_after`: at most the given number of further nodes.
The predicate is an `FnMut`, so it has a state of its own. -/
def boundedScan (predicate : σ → NodeId → Bool × σ) :
    Nat → Nat → Option K → Option NodeId → σ → Option ((Option (NodeId × Nat) × Option K) × σ)
  | 0, _, lastKey, _, s => some ((none, lastKey), s)
  | _ + 1, _, lastKey, none, s => some ((none, lastKey), s)
  | n + 1, visited, _, some cursor, s =>
      let lastKey := some (t.nodes cursor).key
      let (accepted, s) := predicate s cursor
      if accepted then some ((some (cursor, visited + 1), lastKey), s)
      else do
        let next ← t.successor cursor
        boundedScan predicate n (visited + 1) lastKey next s

def findBoundedAfter [LinearOrder K] (after : Option K) (limit : Nat) (predicate : σ → NodeId → Bool × σ) (s : σ) :
    Option ((Option (NodeId × Nat) × Option K) × σ) :=
  match t.root with
  | none => some ((none, none), s)
  | some root =>
      if limit = 0 then some ((none, none), s)
      else do
        let cursor ← match after with
          | some after => t.firstAfter after t.turns none (some root)
          | none => do
              let p ← t.minimum root
              some (some p)
        t.boundedScan predicate limit 0 none cursor s

end EevdfTree

variable {t : EevdfTree K ε} {k : ShapePath K ε} {T S : Shape K ε}

theorem Represents.minimum (h : Represents t (plug k S)) (hlen : (plug k S).size ≤ t.len) {p : NodeId}
    (hp : ptr S = some p) : t.minimum p = S.items.head?.map Entry.id := by
  have hne : S ≠ .leaf := by
    rintro rfl
    cases hp
  obtain ⟨k₀, c, a, m, r, rfl, hleft⟩ := exists_leftmost hne
  have hsize := Path.length_le_size k₀ (.node c .leaf a m r)
  have hsize' := Path.length_le_size k (plug k₀ (.node c .leaf a m r))
  rw [← plug_append] at h
  rw [EevdfTree.minimum, minimumLoop_eq h hleft (by rw [EevdfTree.turns]; omega) hp, Path.items_plug, hleft.before]
  rfl

theorem Represents.successorLoop {fuel : Nat} (h : Represents t (plug k S)) (hfuel : k.length ≤ fuel) {p : NodeId}
    (hp : ptr S = some p) : t.successorLoop fuel p (parentPtr k) = some ((Path.after k).head?.map Entry.id) := by
  induction k generalizing S fuel p with
  | nil => cases fuel <;> rfl
  | cons f k ih =>
      obtain ⟨fuel, rfl⟩ : ∃ n, fuel = n + 1 := ⟨fuel - 1, by simp only [List.length_cons] at hfuel; omega⟩
      have hne : S ≠ .leaf := by
        rintro rfl
        cases hp
      have hside := h.child_iff (.inl hne) .right
      rw [hp] at hside
      have hcell := h.frame_cell
      rw [parentPtr_cons, EevdfTree.successorLoop]
      cases hs : f.side with
      | right =>
          have hright : (t.nodes f.item.id).right = some p := (hside.mpr hs).symm
          rw [if_pos hright, hcell, cell_parent, Path.after, hs]
          exact ih (S := f.fill S) h (by simpa using hfuel) (by rw [Frame.fill, ptr_mk])
      | left =>
          have hright : (t.nodes f.item.id).right ≠ some p := by
            intro heq
            have := hside.mp heq.symm
            rw [hs] at this
            cases this
          rw [if_neg hright, Path.after, hs]
          rfl

theorem Represents.successor (h : Represents t T) (hlen : T.size ≤ t.len) {a : Entry K ε} {pre post : List (Entry K ε)}
    (hitems : T.items = pre ++ a :: post) : t.successor a.id = some (post.head?.map Entry.id) := by
  obtain ⟨k, c, l, m, r, rfl⟩ := exists_focus (a := a) (T := T) (by simp [hitems])
  have hpost : post = r.items ++ Path.after k := by
    have hnodup := h.nodup.of_map
    rw [hitems, List.nodup_middle, List.nodup_cons, List.mem_append, not_or] at hnodup
    rw [Path.items_plug, Tree.items, List.append_assoc, ← List.append_assoc, List.cons_append] at hitems
    exact ((List.append_cons_inj_of_notMem hnodup.1.1 hnodup.1.2).mp hitems.symm).2.2
  have hcell : t.nodes a.id = _ := Represents.cell (s := .left) h
  rw [EevdfTree.successor, hcell, hpost]
  cases r with
  | leaf =>
      have hsize := Path.length_le_size k (.node c l a m .leaf)
      exact h.successorLoop (S := .node c l a m .leaf) (by rw [EevdfTree.turns]; omega) rfl
  | node c' l' b m' r' =>
      have hmin := Represents.minimum (k := ⟨.right, c, a, m, l⟩ :: k) (S := .node c' l' b m' r') h hlen rfl
      obtain ⟨e, rest, hrest⟩ : ∃ e rest, (RedBlack.Tree.node c' l' b m' r').items = e :: rest :=
        List.exists_cons_of_ne_nil (by simp [Tree.items])
      rw [hrest] at hmin ⊢
      change (t.minimum b.id).bind (fun p => some (some p)) = _
      rw [hmin]
      rfl

/-- The descent finds the first node whose key is greater. -/
theorem Represents.firstAfter [LinearOrder K] {after : K} {fuel : Nat} {next : Option NodeId}
    (h : Represents t (plug k S)) (hsorted : Sorted S.items) (hfuel : S.size ≤ fuel) :
    t.firstAfter after fuel next (ptr S) = some (((S.items.find? (after < ·.key)).map Entry.id).or next) := by
  induction S generalizing k fuel next with
  | leaf =>
      rw [ptr, Tree.items, List.find?_nil]
      cases fuel <;> rfl
  | node c l a m r ihl ihr =>
      obtain ⟨fuel, rfl⟩ : ∃ n, fuel = n + 1 := ⟨fuel - 1, by simp only [Tree.size] at hfuel; omega⟩
      simp only [Tree.size] at hfuel
      have hcell : t.nodes a.id = _ := Represents.cell (s := .left) h
      obtain ⟨hless, hmore⟩ := hsorted.node
      have hparts : Sorted l.items ∧ Sorted r.items := by
        rw [Sorted, Tree.items, List.pairwise_append, List.pairwise_cons] at hsorted
        exact ⟨hsorted.1, hsorted.2.1.2⟩
      rw [ptr, EevdfTree.firstAfter, hcell, cell_key, Tree.items, List.find?_append]
      by_cases hlt : after < a.key
      · rw [if_pos hlt, List.find?_cons_of_pos (by simpa using hlt)]
        refine (ihl (k := ⟨.left, c, a, m, r⟩ :: k) h hparts.1 (by omega)).trans ?_
        cases l.items.find? (after < ·.key) <;> rfl
      · have hnone : l.items.find? (after < ·.key) = none := by
          rw [List.find?_eq_none]
          intro b hb
          simp only [decide_eq_true_eq, not_lt]
          exact (hless b hb).le.trans (not_lt.mp hlt)
        rw [if_neg hlt, List.find?_cons_of_neg (by simpa using hlt), hnone, Option.none_or]
        exact ihr (k := ⟨.right, c, a, m, l⟩ :: k) h hparts.2 (by omega)

section Eligible

variable [LinearOrder ε] {now : ε}

/-- The cached minimum behind a pointer tells whether an eligible node is there. -/
theorem Represents.behindEligible [OrderTop ε] (h : Represents t (plug k S)) (hexact : S.Exact Entry.eligibleAt) :
    t.behindEligible now (ptr S) = if ∃ a ∈ S.items, a.eligibleAt ≤ now then ptr S else none := by
  cases S with
  | leaf => simp [EevdfTree.behindEligible, ptr, Tree.items]
  | node c l a m r =>
      have hmin := h.minBehind_ptr
      have hiff : (RedBlack.Tree.node c l a m r).cached ≤ now ↔ ∃ b ∈ (RedBlack.Tree.node c l a m r).items,
          b.eligibleAt ≤ now := by
        constructor
        · intro hle
          obtain ⟨b, hb, heq⟩ := Tree.Exact.cached_attained _ hexact (by simp)
          exact ⟨b, hb, heq ▸ hle⟩
        · rintro ⟨b, hb, hle⟩
          exact (Tree.Exact.cached_le _ hexact b hb).trans hle
      rw [EevdfTree.behindEligible, ptr, Option.filter_some]
      change t.minBehind (some a.id) = _ at hmin
      rw [EevdfTree.minBehind] at hmin
      simp only [hmin, hiff, decide_eq_true_eq]

theorem Represents.earliestEligible [OrderTop ε] {fuel : Nat} (h : Represents t (plug k S))
    (hexact : S.Exact Entry.eligibleAt) (hfuel : S.size ≤ fuel) :
    t.earliestEligibleLoop now fuel (ptr S) = some ((S.items.find? (·.eligibleAt ≤ now)).map Entry.id) := by
  induction S generalizing k fuel with
  | leaf => cases fuel <;> rfl
  | node c l a m r ihl ihr =>
      obtain ⟨fuel, rfl⟩ : ∃ n, fuel = n + 1 := ⟨fuel - 1, by simp only [Tree.size] at hfuel; omega⟩
      simp only [Tree.size] at hfuel
      have hcell : t.nodes a.id = _ := Represents.cell (s := .left) h
      have hl : Represents t (plug (⟨.left, c, a, m, r⟩ :: k) l) := h
      have hr : Represents t (plug (⟨.right, c, a, m, l⟩ :: k) r) := h
      have hfind : ∀ {X : Shape K ε}, ¬(∃ b ∈ X.items, b.eligibleAt ≤ now) → X.items.find? (·.eligibleAt ≤ now) =
          none := by
        intro X hnone
        rw [List.find?_eq_none]
        intro b hb
        simp only [decide_eq_true_eq]
        exact fun hle => hnone ⟨b, hb, hle⟩
      have hself := hexact
      obtain ⟨hlexact, hrexact, -⟩ := hexact
      rw [ptr, EevdfTree.earliestEligibleLoop, hcell, cell_subtreeMin, cell_eligibleAt]
      change (if now < m then _ else match t.behindEligible now (ptr l) with
        | some left => t.earliestEligibleLoop now fuel (some left)
        | none => if a.eligibleAt ≤ now then some (some a.id) else match t.behindEligible now (ptr r) with
          | some right => t.earliestEligibleLoop now fuel (some right)
          | none => some none) = _
      rw [hl.behindEligible hlexact, hr.behindEligible hrexact]
      by_cases hlt : now < m
      · rw [if_pos hlt, hfind]
        · rfl
        · rintro ⟨b, hb, hle⟩
          exact (hlt.trans_le (Tree.Exact.cached_le _ hself b hb)).not_ge hle
      rw [if_neg hlt, Tree.items, List.find?_append]
      by_cases hleft : ∃ b ∈ l.items, b.eligibleAt ≤ now
      · obtain ⟨b, hb, hle⟩ := hleft
        obtain ⟨e, he⟩ : ∃ e, l.items.find? (·.eligibleAt ≤ now) = some e :=
          Option.isSome_iff_exists.mp (List.find?_isSome.mpr ⟨b, hb, by simpa using hle⟩)
        have hfuel' : l.size ≤ fuel := by omega
        have hrun := ihl hl hlexact hfuel'
        rw [if_pos ⟨b, hb, hle⟩, he]
        rw [he] at hrun
        cases l with
        | leaf => cases hb
        | node c' l' a' m' r' => exact hrun
      · rw [if_neg hleft, hfind hleft, Option.none_or]
        by_cases ha : a.eligibleAt ≤ now
        · rw [List.find?_cons_of_pos (by simpa using ha)]
          exact if_pos ha
        rw [List.find?_cons_of_neg (by simpa using ha)]
        refine (if_neg ha).trans ?_
        by_cases hright : ∃ b ∈ r.items, b.eligibleAt ≤ now
        · have hfuel' : r.size ≤ fuel := by omega
          rw [if_pos hright, ← ihr hr hrexact hfuel']
          cases r with
          | leaf =>
              obtain ⟨b, hb, -⟩ := hright
              cases hb
          | node c' l' a' m' r' => rfl
        · rw [if_neg hright, hfind hright]
          rfl

variable [OrderTop ε] [LinearOrder K]

theorem peekEarliestEligible_spec (h : Tidy t T) (now : ε) :
    t.peekEarliestEligible now = some ((T.items.find? (·.eligibleAt ≤ now)).map Entry.id) := by
  rw [EevdfTree.peekEarliestEligible, h.represents.root]
  exact Represents.earliestEligible (k := []) h.represents h.exact (by rw [EevdfTree.turns, h.len]; omega)

theorem popEarliestEligible_spec (h : Tidy t T) (now : ε) :
    (T.items.find? (·.eligibleAt ≤ now) = none ∧ t.popEarliestEligible now = some (none, t)) ∨
      ∃ z t' T', T.items.find? (·.eligibleAt ≤ now) = some z ∧ t.popEarliestEligible now = some (some z.id, t') ∧
        Removed T T' z t t' := by
  have hpeek := peekEarliestEligible_spec h now
  rw [EevdfTree.peekEarliestEligible] at hpeek
  rw [EevdfTree.popEarliestEligible, hpeek]
  cases hfind : T.items.find? (·.eligibleAt ≤ now) with
  | none => exact .inl ⟨rfl, rfl⟩
  | some z =>
      obtain ⟨t', T', hrun, hremoved⟩ := removeRaw_spec h.represents h.valid h.exact h.len
          (List.mem_of_find?_eq_some hfind)
      refine .inr ⟨z, t', T', rfl, ?_, hremoved⟩
      simp only [Option.map_some, Option.bind_eq_bind, Option.bind_some]
      rw [hrun]
      rfl

omit [OrderTop ε] in
/-- The first eligible node is the one with the least key. -/
theorem Sorted.find?_least {items : List (Entry K ε)} (h : Sorted items) {z : Entry K ε}
    (hfind : items.find? (·.eligibleAt ≤ now) = some z) : z ∈ items ∧ z.eligibleAt ≤ now ∧
      ∀ a ∈ items, a.eligibleAt ≤ now → z.key ≤ a.key := by
  obtain ⟨hz, pre, post, rfl, hpre⟩ := List.find?_eq_some_iff_append.mp hfind
  refine ⟨by simp, by simpa using hz, fun a ha hle => ?_⟩
  rcases List.mem_append.mp ha with ha | ha
  · exact absurd hle (by simpa using hpre a ha)
  · rcases List.mem_cons.mp ha with rfl | ha
    · exact le_rfl
    · exact ((List.pairwise_cons.mp (List.pairwise_append.mp h).2.1).1 a ha).le

end Eligible

section Bounded

/-- Evaluates the predicate on the nodes of a list, up to the first it accepts. -/
def inspect (predicate : σ → NodeId → Bool × σ) :
    List (Entry K ε) → Nat → Option K → σ → (Option (NodeId × Nat) × Option K) × σ
  | [], _, lastKey, s => ((none, lastKey), s)
  | a :: rest, visited, _, s =>
      if (predicate s a.id).1 then ((some (a.id, visited + 1), some a.key), (predicate s a.id).2)
      else inspect predicate rest (visited + 1) (some a.key) (predicate s a.id).2

variable {predicate : σ → NodeId → Bool × σ}

theorem Represents.boundedScan (predicate : σ → NodeId → Bool × σ) (h : Represents t T) (hlen : T.size ≤ t.len)
    {pre post : List (Entry K ε)} (hitems : T.items = pre ++ post) (n visited : Nat) (lastKey : Option K) (s : σ) :
    t.boundedScan predicate n visited lastKey (post.head?.map Entry.id) s =
      some (inspect predicate (post.take n) visited lastKey s) := by
  induction n generalizing pre post visited lastKey s with
  | zero => rfl
  | succ n ih =>
      cases post with
      | nil => rfl
      | cons a post =>
          have hkey : (t.nodes a.id).key = a.key := (h.entry (by simp [hitems])).1
          rw [List.take_succ_cons, inspect]
          simp only [List.head?_cons, Option.map_some, EevdfTree.boundedScan]
          rw [hkey]
          split
          · rfl
          · rw [h.successor hlen hitems]
            have hitems' : T.items = (pre ++ [a]) ++ post := by rw [hitems]; simp
            exact ih hitems' ..

variable [LinearOrder K]

def nodesAfter (after : Option K) (items : List (Entry K ε)) : List (Entry K ε) :=
  items.filter fun a => after.all (· < a.key)

theorem Sorted.nodesAfter_suffix (after : Option K) : ∀ {items : List (Entry K ε)}, Sorted items →
    ∃ pre, items = pre ++ nodesAfter after items
  | [], _ => ⟨[], rfl⟩
  | a :: items, h => by
      obtain ⟨hless, hrest⟩ := List.pairwise_cons.mp h
      by_cases ha : after.all (· < a.key) = true
      · refine ⟨[], ?_⟩
        rw [List.nil_append, nodesAfter, List.filter_eq_self.mpr]
        intro b hb
        rcases List.mem_cons.mp hb with rfl | hb
        · exact ha
        · cases after with
          | none => rfl
          | some after => exact decide_eq_true ((of_decide_eq_true ha).trans (hless b hb))
      · obtain ⟨pre, hpre⟩ := Sorted.nodesAfter_suffix after hrest
        refine ⟨a :: pre, ?_⟩
        have hskip : nodesAfter after (a :: items) = nodesAfter after items := List.filter_cons_of_neg ha
        rw [hskip, List.cons_append, ← hpre]

/-- The predicate is evaluated on the nodes behind the continuation key, at most
`limit` of them, up to the first one it accepts. -/
theorem findBoundedAfter_spec [LinearOrder ε] [OrderTop ε] (h : Tidy t T) (after : Option K) (limit : Nat) (s : σ) :
    t.findBoundedAfter after limit predicate s =
      some (inspect predicate ((nodesAfter after T.items).take limit) 0 none s) := by
  have hlen := h.len.ge
  rw [EevdfTree.findBoundedAfter, h.represents.root]
  cases hT : T with
  | leaf =>
      rw [Tree.items, nodesAfter, List.filter_nil, List.take_nil]
      rfl
  | node c l a m r =>
      rw [← hT]
      obtain ⟨pre, hpre⟩ := h.sorted.nodesAfter_suffix after
      have hscan := h.represents.boundedScan predicate hlen hpre limit 0 none s
      have hptr : ptr T = some a.id := by rw [hT]; rfl
      simp only [hptr]
      by_cases hlimit : limit = 0
      · rw [if_pos hlimit, hlimit, List.take_zero]
        rfl
      rw [if_neg hlimit]
      cases after with
      | none =>
          have hmin := Represents.minimum (k := []) h.represents hlen hptr
          have hall : nodesAfter none T.items = T.items := List.filter_eq_self.mpr fun _ _ => rfl
          obtain ⟨e, rest, hrest⟩ : ∃ e rest, T.items = e :: rest :=
            List.exists_cons_of_ne_nil (by simp [hT, Tree.items])
          rw [hall] at hscan ⊢
          rw [hrest] at hmin hscan ⊢
          rw [hmin]
          exact hscan
      | some after =>
          have hfirst : t.firstAfter after t.turns none (ptr T) = _ :=
            Represents.firstAfter (k := []) h.represents h.sorted (by rw [EevdfTree.turns]; omega)
          rw [hptr] at hfirst
          simp only [hfirst, Option.or_none]
          rw [← hscan, nodesAfter, List.head?_filter]
          rfl

end Bounded

end TheKernel.Eevdf
