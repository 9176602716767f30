import TheKernel.Eevdf.TreeRun

namespace TheKernel.Eevdf

variable {K ε σ α C : Type}

/-- `schedClass` is the class in the `sched_params` of the task. -/
structure EevdfReadyCandidate (K C : Type) where
  task : NodeId
  key : K
  schedClass : C
  visited : Nat

section Calls

variable [LinearOrder K] (t : EevdfTree K ε)

def EevdfTree.boundedReadyCandidateFrom (schedClass : NodeId → C) (cursor : Option K) (limit : Nat)
    (predicate : σ → NodeId → Bool × σ) (s : σ) : Option (Option (EevdfReadyCandidate K C) × Option K × σ) := do
  let ((candidate, lastKey), s) ← t.findBoundedAfter cursor limit predicate s
  some (candidate.map fun (task, visited) => ⟨task, (t.nodes task).key, schedClass task, visited⟩, lastKey, s)

def logged (predicate : σ → NodeId → Bool × σ) (s : σ × List NodeId) (p : NodeId) : Bool × (σ × List NodeId) :=
  ((predicate s.1 p).1, ((predicate s.1 p).2, s.2 ++ [p]))

/-- Repeated calls that feed the cursor back, with the nodes seen so far. -/
def EevdfTree.polls (schedClass : NodeId → C) (limit : Nat → Nat) (predicate : Nat → σ → NodeId → Bool × σ)
    (cursor : Option K) (s : σ) : Nat → Option (Option K × σ × List NodeId)
  | 0 => some (cursor, s, [])
  | n + 1 => do
      let (cursor, s) ← EevdfTree.polls schedClass limit predicate cursor s n
      let (_, cursor, s) ← t.boundedReadyCandidateFrom schedClass cursor (limit n) (logged (predicate n)) s
      some (cursor, s)

end Calls

def upToAccepted (predicate : σ → α → Bool × σ) : List α → σ → List α
  | [], _ => []
  | a :: rest, s => if (predicate s a).1 then [a] else a :: upToAccepted predicate rest (predicate s a).2

def firstAccepted (predicate : σ → α → Bool × σ) : List α → σ → Option α
  | [], _ => none
  | a :: rest, s => if (predicate s a).1 then some a else firstAccepted predicate rest (predicate s a).2

section Accepted

variable {β : Type} {predicate : σ → β → Bool × σ}

theorem upToAccepted_map (f : α → β) (l : List α) (s : σ) :
    (upToAccepted (fun s a => predicate s (f a)) l s).map f = upToAccepted predicate (l.map f) s := by
  induction l generalizing s with
  | nil => rfl
  | cons a l ih =>
      rw [List.map_cons, upToAccepted, upToAccepted]
      split
      · rfl
      · rw [List.map_cons, ih]

theorem upToAccepted_prefix (l : List β) (s : σ) : ∃ rest, l = upToAccepted predicate l s ++ rest := by
  induction l generalizing s with
  | nil => exact ⟨[], rfl⟩
  | cons a l ih =>
      rw [upToAccepted]
      split
      · exact ⟨l, rfl⟩
      · obtain ⟨rest, hrest⟩ := ih (predicate s a).2
        exact ⟨rest, congrArg (a :: ·) hrest⟩

theorem upToAccepted_ne_nil {l : List β} (h : l ≠ []) (s : σ) : upToAccepted predicate l s ≠ [] := by
  cases l with
  | nil => exact absurd rfl h
  | cons a l =>
      rw [upToAccepted]
      split <;> simp

end Accepted

section Inspect

variable {predicate : σ → NodeId → Bool × σ}

/-- What a logged inspection of a list records and returns. -/
theorem inspect_logged (l : List (Entry K ε)) (visited : Nat) (lastKey : Option K) (s : σ) (log : List NodeId) :
    ∃ s', inspect (logged predicate) l visited lastKey (s, log) =
      (((firstAccepted predicate (l.map Entry.id) s).map fun p =>
          (p, visited + (upToAccepted predicate (l.map Entry.id) s).length),
        ((upToAccepted (fun s a => predicate s a.id) l s).getLast?.map Entry.key).or lastKey),
        (s', log ++ upToAccepted predicate (l.map Entry.id) s)) := by
  induction l generalizing visited lastKey s log with
  | nil => exact ⟨s, by simp [inspect, firstAccepted, upToAccepted]⟩
  | cons a l ih =>
      rw [inspect, List.map_cons, firstAccepted, upToAccepted, upToAccepted]
      by_cases haccepted : (predicate s a.id).1 = true
      · refine ⟨(predicate s a.id).2, ?_⟩
        simp [logged, haccepted]
      · obtain ⟨s', hs'⟩ := ih (visited + 1) (some a.key) (predicate s a.id).2 (log ++ [a.id])
        refine ⟨s', ?_⟩
        simp only [logged, haccepted, if_false, Bool.false_eq_true]
        rw [hs', List.length_cons, List.append_assoc, List.singleton_append]
        refine Prod.ext (Prod.ext ?_ ?_) rfl
        · simp only [Nat.add_assoc, Nat.add_comm 1]
        · cases hseen : upToAccepted (fun s (a : Entry K ε) => predicate s a.id) l (predicate s a.id).2 with
          | nil => rfl
          | cons b rest => simp [List.getLast?_cons]

end Inspect

section Cycle

variable [LinearOrder K] {predicate : σ → NodeId → Bool × σ}

/-- Behind the last of the nodes that were seen come the ones that were not. -/
theorem Sorted.nodesAfter_last {items pre seen rest : List (Entry K ε)} (h : Sorted items)
    (hitems : items = pre ++ (seen ++ rest)) {last : Entry K ε} (hlast : seen.getLast? = some last) :
    nodesAfter (some last.key) items = rest := by
  obtain ⟨init, rfl⟩ : ∃ init, seen = init ++ [last] := by
    obtain ⟨init, hinit⟩ := List.getLast?_eq_some_iff.mp hlast
    exact ⟨init, hinit⟩
  have hsplit : items = (pre ++ init) ++ last :: rest := by rw [hitems]; simp
  rw [hsplit] at h
  obtain ⟨-, hrest, hcross⟩ := List.pairwise_append.mp h
  rw [hsplit, nodesAfter, List.filter_append, List.filter_eq_nil_iff.mpr, List.nil_append,
    List.filter_cons_of_neg (by simp), List.filter_eq_self.mpr]
  · intro b hb
    exact decide_eq_true ((List.pairwise_cons.mp hrest).1 b hb)
  · intro b hb
    simp only [Option.all_some, decide_eq_true_eq, not_lt]
    exact (hcross b hb last (by simp)).le

variable [LinearOrder ε] [OrderTop ε] {t : EevdfTree K ε} {T : Shape K ε}

theorem Tidy.call (h : Tidy t T) (schedClass : NodeId → C) (cursor : Option K) (limit : Nat) (s : σ)
    (log : List NodeId) :
    ∃ candidate s', t.boundedReadyCandidateFrom schedClass cursor limit (logged predicate) (s, log) =
      some (candidate, (upToAccepted (fun s a => predicate s a.id) ((nodesAfter cursor T.items).take limit)
        s).getLast?.map Entry.key,
        s', log ++ (upToAccepted (fun s a => predicate s a.id) ((nodesAfter cursor T.items).take limit)
          s).map Entry.id) := by
  obtain ⟨s', hs'⟩ := inspect_logged ((nodesAfter cursor T.items).take limit) 0 none s log
  rw [← upToAccepted_map, Option.or_none] at hs'
  rw [EevdfTree.boundedReadyCandidateFrom, findBoundedAfter_spec h, hs']
  exact ⟨_, s', rfl⟩

omit [LinearOrder ε] [OrderTop ε] in
theorem polls_succ {schedClass : NodeId → C} {limit : Nat → Nat} {predicate : Nat → σ → NodeId → Bool × σ}
    {start cursor : Option K}
    {s₀ : σ} {n : Nat} {s : σ × List NodeId} {result : Option (EevdfReadyCandidate K C) × Option K × σ × List NodeId}
    (hpolls : t.polls schedClass limit predicate start s₀ n = some (cursor, s))
    (hcall : t.boundedReadyCandidateFrom schedClass cursor (limit n) (logged (predicate n)) s = some result) :
    t.polls schedClass limit predicate start s₀ (n + 1) = some result.2 := by
  rw [EevdfTree.polls, hpolls]
  simp only [Option.bind_eq_bind, Option.bind_some]
  rw [hcall]
  rfl

/-- From any cursor on, the calls see the nodes behind it once each, and then the
cursor wraps. -/
theorem Tidy.cycle (h : Tidy t T) {schedClass : NodeId → C} {limit : Nat → Nat} (hlimit : ∀ n, 0 < limit n)
    {predicate : Nat → σ → NodeId → Bool × σ} {start : Option K} {s₀ : σ} (count : Nat) :
    ∀ {n : Nat} {cursor : Option K} {s : σ} {log : List NodeId}, (nodesAfter cursor T.items).length = count →
      t.polls schedClass limit predicate start s₀ n = some (cursor, s, log) →
      ∃ m s', n < m ∧ t.polls schedClass limit predicate start s₀ m =
          some (none, s', log ++ (nodesAfter cursor T.items).map Entry.id) ∧
        ∀ l, n < l → l < m → ∃ key s' log', t.polls schedClass limit predicate start s₀ l = some
          (some key, s', log') := by
  induction count using Nat.strongRecOn with
  | ind count ih =>
      intro n cursor s log hcount hpolls
      obtain ⟨candidate, s', hcall⟩ := h.call schedClass cursor (limit n) s log
      have hnext := polls_succ hpolls hcall
      by_cases hnone : nodesAfter cursor T.items = []
      · rw [hnone, List.take_nil, upToAccepted] at hnext
        refine ⟨n + 1, s', Nat.lt_succ_self n, ?_, fun l h1 h2 => by omega⟩
        rw [hnext, hnone]
        rfl
      · obtain ⟨rest, hrest⟩ := upToAccepted_prefix
          ((nodesAfter cursor T.items).take (limit n)) s
        have hne : (nodesAfter cursor T.items).take (limit n) ≠ [] := by
          rw [Ne, List.take_eq_nil_iff, not_or]
          exact ⟨(hlimit n).ne', hnone⟩
        have hseen : upToAccepted (fun s (a : Entry K ε) => predicate n s a.id) _ s ≠ [] := upToAccepted_ne_nil hne s
        generalize upToAccepted (fun s (a : Entry K ε) => predicate n s a.id) ((nodesAfter cursor T.items).take
          (limit n)) s = seen at hnext hrest hseen
        obtain ⟨last, hlast⟩ : ∃ last, seen.getLast? = some last := ⟨_, List.getLast?_eq_some_getLast hseen⟩
        obtain ⟨pre, hpre⟩ := h.sorted.nodesAfter_suffix cursor
        obtain ⟨unseen, hbehind⟩ : ∃ unseen, nodesAfter cursor T.items = seen ++ unseen := by
          refine ⟨rest ++ (nodesAfter cursor T.items).drop (limit n), ?_⟩
          rw [← List.append_assoc, ← hrest, List.take_append_drop]
        have hafter := h.sorted.nodesAfter_last (hpre.trans (congrArg (pre ++ ·) hbehind)) hlast
        rw [hlast] at hnext
        have hless : (nodesAfter (some last.key) T.items).length < count := by
          have hpos := List.length_pos_of_ne_nil hseen
          rw [hafter, ← hcount, hbehind, List.length_append]
          omega
        obtain ⟨m, s'', hm, hrun, hbetween⟩ := ih _ hless rfl hnext
        refine ⟨m, s'', by omega, ?_, ?_⟩
        · rw [hrun, hafter, hbehind, List.map_append, List.append_assoc]
        · intro l h1 h2
          by_cases hl : l = n + 1
          · rw [hl]
            exact ⟨last.key, s', _, hnext⟩
          · exact hbetween l (by omega) h2

theorem Tidy.polls_total (h : Tidy t T) (schedClass : NodeId → C) (limit : Nat → Nat)
    (predicate : Nat → σ → NodeId → Bool × σ) (start : Option K) (s₀ : σ) (n : Nat) :
    ∃ cursor s log, t.polls schedClass limit predicate start s₀ n = some (cursor, s, log) := by
  induction n with
  | zero => exact ⟨start, s₀, [], rfl⟩
  | succ n ih =>
      obtain ⟨cursor, s, log, hpolls⟩ := ih
      obtain ⟨candidate, s', hcall⟩ := h.call schedClass cursor (limit n) s log
      exact ⟨_, s', _, polls_succ hpolls hcall⟩

end Cycle

section Forest

variable [LinearOrder K]

def EevdfTree.behind (t : EevdfTree K ε) (start : Option K) (nodes : List NodeId) : List NodeId :=
  nodes.filter fun p => start.all (· < (t.nodes p).key)

/-- After every call, the calls up to the next wrap of the cursor see the nodes
behind it, once each and in order. -/
def EevdfTree.OncePerCycle (t : EevdfTree K ε) (nodes : List NodeId) (schedClass : NodeId → C) (limit : Nat → Nat)
    (predicate : Nat → σ → NodeId → Bool × σ) (start : Option K) (s₀ : σ) : Prop :=
  ∀ n, ∃ cursor s log, t.polls schedClass limit predicate start s₀ n = some (cursor, s, log) ∧
    ∃ m s', n < m ∧ t.polls schedClass limit predicate start s₀ m = some (none, s', log ++ t.behind cursor nodes) ∧
      ∀ l, n < l → l < m → ∃ key s' log', t.polls schedClass limit predicate start s₀ l = some (some key, s', log')

variable [LinearOrder ε] [OrderTop ε]

theorem Tidy.behind_eq {t : EevdfTree K ε} {T : Shape K ε} (h : Tidy t T) (start : Option K) :
    t.behind start (T.items.map Entry.id) = (nodesAfter start T.items).map Entry.id := by
  rw [EevdfTree.behind, List.filter_map, nodesAfter]
  refine congrArg _ (List.filter_congr fun a ha => ?_)
  rw [Function.comp_apply, (h.represents.entry ha).1]

/-- A scan evaluates the predicate on the first nodes behind its start, up to the
first accepted one, and repeated scans of at least one node see every node once
per cycle. -/
theorem bounded_scan {s : Forest K ε} (h : s.Reachable) (i : TreeId) : ∃ nodes : List NodeId,
    (∀ p, p ∈ nodes ↔ (s.tree i).Contains p) ∧ nodes.Pairwise (fun p q => (s.nodes p).key < (s.nodes q).key) ∧
    (∀ (start : Option K) (limit : Nat) (predicate : σ → NodeId → Bool × σ) (s₀ : σ), ∃ s' seen,
      seen = upToAccepted predicate (((s.tree i).behind start nodes).take limit) s₀ ∧
      (s.tree i).findBoundedAfter start limit (logged predicate) (s₀, []) =
        some (((firstAccepted predicate (((s.tree i).behind start nodes).take limit) s₀).map fun p => (p, seen.length),
          seen.getLast?.map fun p => (s.nodes p).key), (s', seen))) ∧
    ∀ (schedClass : NodeId → C) (limit : Nat → Nat) (predicate : Nat → σ → NodeId → Bool × σ) (start : Option K)
      (s₀ : σ), (∀ n, 0 < limit n) → (s.tree i).OncePerCycle nodes schedClass limit predicate start s₀ := by
  obtain ⟨shapes, hplanted⟩ := h.planted
  have htidy := hplanted.tidy i
  have hkey : ∀ a ∈ (shapes i).items, (s.nodes a.id).key = a.key := fun a ha => (htidy.represents.entry ha).1
  refine ⟨(shapes i).items.map Entry.id, fun p => (hplanted.contains_iff i p).symm, ?_, ?_, ?_⟩
  · rw [List.pairwise_map]
    refine htidy.sorted.imp_of_mem fun ha hb hlt => ?_
    rw [hkey _ ha, hkey _ hb]
    exact hlt
  · intro start limit predicate s₀
    obtain ⟨s', hs'⟩ := inspect_logged ((nodesAfter start (shapes i).items).take limit) 0 none s₀ []
    refine ⟨s', _, rfl, ?_⟩
    rw [findBoundedAfter_spec htidy, hs', htidy.behind_eq, ← List.map_take, Nat.zero_add, Option.or_none,
      List.nil_append]
    refine congrArg (fun key => some ((_, key), _)) ?_
    rw [← upToAccepted_map, List.getLast?_map, Option.map_map]
    refine Option.map_congr fun a ha => ?_
    obtain ⟨rest, hrest⟩ := upToAccepted_prefix
      ((nodesAfter start (shapes i).items).take limit) s₀
    have hseen : a ∈ (nodesAfter start (shapes i).items).take limit := by
      rw [hrest]
      exact List.mem_append_left _ (List.mem_of_getLast? ha)
    exact (hkey a (List.mem_filter.mp (List.mem_of_mem_take hseen)).1).symm
  · intro schedClass limit predicate start s₀ hlimit n
    obtain ⟨cursor, s', log, hpolls⟩ := htidy.polls_total schedClass limit predicate start s₀ n
    refine ⟨cursor, s', log, hpolls, ?_⟩
    rw [htidy.behind_eq]
    exact htidy.cycle hlimit _ rfl hpolls

-- The key 7 is of no node. The first two calls see the nodes behind it, the third
-- wraps, and the fourth sees the first two nodes.
theorem bounded_scan_grown : ∃ nodes, (∀ p, p ∈ nodes ↔ (grown.tree 0).Contains p) ∧
    (∃ s' seen, seen = upToAccepted (fun _ p => (p == 5, ())) (((grown.tree 0).behind (some 7) nodes).take 3) () ∧
      (grown.tree 0).findBoundedAfter (some 7) 3 (logged fun _ p => (p == 5, ())) ((), []) =
        some (((firstAccepted (fun _ p => (p == 5, ())) (((grown.tree 0).behind (some 7) nodes).take 3) ()).map fun p =>
          (p, seen.length), seen.getLast?.map fun p => (grown.nodes p).key), (s', seen)) ∧ seen = [4, 5]) ∧
    (grown.tree 0).OncePerCycle nodes (fun _ => ()) (fun _ => 2) (fun _ _ _ => (false, ())) (some 7) () ∧
    (grown.tree 0).polls (fun _ => ()) (fun _ => 2) (fun _ _ _ => (false, ())) (some 7) () 2 = some
      (some 12, (), [4, 5, 6]) ∧
    (grown.tree 0).polls (fun _ => ()) (fun _ => 2) (fun _ _ _ => (false, ())) (some 7) () 4 =
      some (some 6, (), [4, 5, 6, 2, 3]) := by
  obtain ⟨nodes, hmem, -, hscan, hcycle⟩ := bounded_scan (σ := Unit) (C := Unit) grown_reachable 0
  refine ⟨nodes, hmem, ?_, hcycle _ _ _ _ _ fun _ => Nat.two_pos, by decide +kernel, by decide +kernel⟩
  obtain ⟨s', seen, hseen, hfind⟩ := hscan (some 7) 3 (fun _ p => (p == 5, ())) ()
  have hrun : (grown.tree 0).findBoundedAfter (some 7) 3 (logged fun _ p => (p == 5, ())) ((), []) =
      some ((some (5, 2), some 10), ((), [4, 5])) := by decide +kernel
  refine ⟨s', seen, hseen, hfind, ?_⟩
  have hlog := congrArg (fun r => r.2.2) (Option.some.inj (hfind.symm.trans hrun))
  exact hlog

/-- A call with limit zero forgets the cursor and inspects nothing, so such calls
never see the node of a tree with one. -/
theorem bounded_scan_zero : ∃ s', (Forest.fresh id (fun _ => 3) : Forest Nat (Fin (2 ^ 128))).step (.insert 0 5) =
      some (.done, s') ∧ s'.Reachable ∧ (s'.tree 0).Contains 5 ∧ ∀ nodes, (∀ p, p ∈ nodes ↔ (s'.tree 0).Contains p) →
        ¬(s'.tree 0).OncePerCycle nodes (fun _ => ()) (fun _ => 0) (fun _ _ _ => (false, ())) none () := by
  have hstep : ∃ s', (Forest.fresh id (fun _ => 3) : Forest Nat (Fin (2 ^ 128))).step (.insert 0 5) = some (.done, s') ∧
      (s'.tree 0).root = some 5 := ⟨_, rfl, rfl⟩
  obtain ⟨s', hrun, hroot⟩ := hstep
  have hcontains : (s'.tree 0).Contains 5 := ⟨5, hroot, .refl 5⟩
  have hidle : ∀ n, (s'.tree 0).polls (fun _ => ()) (fun _ => 0) (fun _ _ _ => (false, ())) none () n =
      some (none, (), []) := by
    intro n
    induction n with
    | zero => rfl
    | succ n ih =>
        have hcall : (s'.tree 0).boundedReadyCandidateFrom (fun _ => ()) none 0 (logged fun _ _ => (false, ()))
            ((), []) = some (none, none, (), []) := by
          rw [EevdfTree.boundedReadyCandidateFrom, EevdfTree.findBoundedAfter, hroot]
          rfl
        exact polls_succ ih hcall
  refine ⟨s', hrun, .step (.initial (Forest.fresh_initial _ _)) hrun, hcontains, fun nodes hmem hcycle => ?_⟩
  obtain ⟨cursor, s, log, hpolls, m, s'', -, hwrap, -⟩ := hcycle 0
  rw [hidle] at hpolls hwrap
  cases hpolls
  have hnodes : nodes = [] := by
    have hlog := congrArg (fun r => r.2.2) (Option.some.inj hwrap)
    simpa [EevdfTree.behind] using hlog.symm
  have hfive := (hmem 5).mpr hcontains
  rw [hnodes] at hfive
  cases hfive

end Forest

end TheKernel.Eevdf
