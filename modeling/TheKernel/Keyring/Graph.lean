import Mathlib.Algebra.GroupWithZero.Nat
import Mathlib.Logic.Relation
import TheKernel.Lib.Walk

namespace TheKernel.Keyring

inductive KeyError where
  | invalid | notFound | exists | permission | quota | limit | overflow | state | cycle
  deriving DecidableEq

inductive KeyKind where
  | keyring | user | logon | bigKey
  deriving DecidableEq

/-- A `NonZeroU32`. -/
structure KeyId where
  raw : BitVec 32
  nonzero : raw ≠ 0
  deriving DecidableEq

structure KeyMeta where
  kind : KeyKind
  revoked : Bool

structure KeyGraph where
  keyMeta : KeyId → Option KeyMeta
  links : KeyId → Except KeyError (List KeyId)

inductive GraphPlan where
  | link (source target : KeyId)
  deriving DecidableEq

def KeyGraph.isKeyring (g : KeyGraph) (key : KeyId) : Bool := (g.keyMeta key).any fun m => m.kind = .keyring

def nested (g : KeyGraph) : List KeyId → Except KeyError (List KeyId)
  | [] => .ok []
  | child :: children => do
      let some m := g.keyMeta child | throw .notFound
      let rest ← nested g children
      return if m.kind = .keyring then child :: rest else rest

/-- One turn of the loop of `plan_link`: what is pushed. The depth is below `max`
where it is counted up, so it does not overflow. -/
def linkTurn (g : KeyGraph) (source : KeyId) (max : Nat) (id : KeyId) (depth : Nat) :
    Except KeyError (List (KeyId × Nat)) := do
  if id = source then throw .cycle
  let some m := g.keyMeta id | throw .notFound
  if m.kind ≠ .keyring then return []
  let children ← g.links id
  let nested ← nested g children
  if depth ≥ max && !nested.isEmpty then throw .limit
  return nested.map fun child => (child, depth + 1)

def planLinkLoop (g : KeyGraph) (source : KeyId) (max : Nat) : Nat → List (KeyId × Nat) → Option (Except KeyError Unit)
  | _, [] => some (.ok ())
  | 0, _ :: _ => none
  | fuel + 1, (id, depth) :: q => match linkTurn g source max id depth with
    | .error e => some (.error e)
    | .ok pushed => planLinkLoop g source max fuel (pushed.reverse ++ q)

def planLink (g : KeyGraph) (source target : KeyId) (max fuel : Nat) : Option (Except KeyError GraphPlan) :=
  match g.keyMeta source, g.keyMeta target with
  | none, _ => some (.error .notFound)
  | some _, none => some (.error .notFound)
  | some a, some b =>
      if a.kind ≠ .keyring ∨ a.revoked ∨ b.revoked then some (.error .invalid)
      else (planLinkLoop g source max fuel [(target, 0)]).map fun r => r.map fun _ => .link source target

def Holds (g : KeyGraph) (a b : KeyId) : Prop :=
  g.isKeyring a = true ∧ g.isKeyring b = true ∧ ∃ children, g.links a = .ok children ∧ b ∈ children

def Resolves (g : KeyGraph) : Prop :=
  ∀ key, g.isKeyring key = true → ∃ children, g.links key = .ok children ∧ ∀ child ∈ children, g.keyMeta child ≠ none

section Loop

variable {g : KeyGraph} {source : KeyId} {max : Nat}

theorem nested_eq {children : List KeyId} (h : ∀ child ∈ children, g.keyMeta child ≠ none) :
    nested g children = .ok (children.filter g.isKeyring) := by
  induction children with
  | nil => rfl
  | cons child children ih =>
      obtain ⟨m, hm⟩ := Option.ne_none_iff_exists'.mp (h child (List.mem_cons_self ..))
      have hkeyring : g.isKeyring child = decide (m.kind = .keyring) := by rw [KeyGraph.isKeyring, hm, Option.any_some]
      rw [nested, hm, ih fun c hc => h c (List.mem_cons_of_mem _ hc), List.filter_cons, hkeyring]
      by_cases hk : m.kind = .keyring <;> simp [hk, bind, Except.bind, pure, Except.pure]

def held (g : KeyGraph) (id : KeyId) : List KeyId :=
  if g.isKeyring id then match g.links id with
    | .ok children => children.filter g.isKeyring
    | .error _ => []
  else []

theorem mem_held {id child : KeyId} : child ∈ held g id ↔ Holds g id child := by
  rw [held, Holds]
  by_cases hid : g.isKeyring id = true
  · rw [if_pos hid]
    cases hlinks : g.links id with
    | error e => simp
    | ok children => simp [hid, and_comm]
  · simp [hid]

/-- A turn fails, or pushes the keyrings of the key one level down. -/
theorem linkTurn_eq (hg : Resolves g) {id : KeyId} (hid : g.keyMeta id ≠ none) (depth : Nat) :
    linkTurn g source max id depth =
      if id = source then .error .cycle
      else if max ≤ depth ∧ held g id ≠ [] then .error .limit
      else .ok ((held g id).map fun child => (child, depth + 1)) := by
  obtain ⟨m, hm⟩ := Option.ne_none_iff_exists'.mp hid
  have hkeyring : g.isKeyring id = decide (m.kind = .keyring) := by rw [KeyGraph.isKeyring, hm, Option.any_some]
  rw [linkTurn]
  by_cases hsource : id = source
  · rw [if_pos hsource, if_pos hsource]
    rfl
  · rw [if_neg hsource, if_neg hsource, hm]
    by_cases hk : m.kind = .keyring
    · rw [decide_eq_true hk] at hkeyring
      obtain ⟨children, hlinks, hall⟩ := hg id hkeyring
      have hheld : held g id = children.filter g.isKeyring := by rw [held, if_pos hkeyring, hlinks]
      simp only [hk, hlinks, nested_eq hall, hheld, bind, Except.bind, pure, Except.pure, ne_eq, not_true_eq_false,
        if_false]
      by_cases hlimit : max ≤ depth ∧ children.filter g.isKeyring ≠ []
      · rw [if_pos hlimit, if_pos (by simpa using hlimit)]
        rfl
      · rw [if_neg hlimit, if_neg (by simpa using hlimit)]
    · rw [decide_eq_false hk] at hkeyring
      have hheld : held g id = [] := by rw [held, hkeyring]; rfl
      simp [hk, hheld, pure, Except.pure]

def turns (g : KeyGraph) : Nat → KeyId → Nat
  | 0, _ => 1
  | n + 1, id => 1 + ((held g id).map (turns g n)).sum

def stackTurns (g : KeyGraph) (max : Nat) (q : List (KeyId × Nat)) : Nat := (q.map fun e => turns g (max - e.2) e.1).sum

/-- No walk from the key reaches the source or is too long. -/
def Clear (g : KeyGraph) (source : KeyId) (max : Nat) (id : KeyId) (depth : Nat) : Prop :=
  ∀ n b, Walk (Holds g) n id b → b ≠ source ∧ depth + n ≤ max

theorem clear_iff {id : KeyId} {depth : Nat} (hdepth : depth ≤ max) : Clear g source max id depth ↔
    id ≠ source ∧ ¬(max ≤ depth ∧ held g id ≠ []) ∧ ∀ child ∈ held g id, Clear g source max child (depth + 1) := by
  constructor
  · intro h
    refine ⟨(h 0 id (.nil id)).1, ?_, ?_⟩
    · rintro ⟨hle, hne⟩
      obtain ⟨child, hchild⟩ := List.exists_mem_of_ne_nil _ hne
      have := (h 1 child (.single (mem_held.mp hchild))).2
      omega
    · intro child hchild n b hwalk
      have := h (n + 1) b (.cons (mem_held.mp hchild) hwalk)
      exact ⟨this.1, by omega⟩
  · rintro ⟨hne, -, hrest⟩ n b hwalk
    cases hwalk with
    | nil => exact ⟨hne, by omega⟩
    | @cons n _ child _ hfirst hwalk =>
        have := hrest child (mem_held.mpr hfirst) n b hwalk
        exact ⟨this.1, by omega⟩

theorem keyMeta_of_isKeyring {key : KeyId} (h : g.isKeyring key = true) : g.keyMeta key ≠ none := by
  intro hnone
  rw [KeyGraph.isKeyring, hnone] at h
  cases h

theorem sum_turns_held {id : KeyId} {depth : Nat} (hlimit : ¬(max ≤ depth ∧ held g id ≠ [])) :
    ((held g id).map fun child => turns g (max - (depth + 1)) child).sum + 1 ≤ turns g (max - depth) id := by
  by_cases hlt : depth < max
  · obtain ⟨n, hn⟩ : ∃ n, max - depth = n + 1 := ⟨max - depth - 1, by omega⟩
    rw [hn, turns, show max - (depth + 1) = n by omega, Nat.add_comm]
  · have hheld : held g id = [] := by
      by_contra hne
      exact hlimit ⟨by omega, hne⟩
    rw [hheld, show max - depth = 0 by omega]
    exact Nat.le_refl 1

theorem planLinkLoop_spec (hg : Resolves g) {fuel : Nat} {q : List (KeyId × Nat)} (hfuel : stackTurns g max q ≤ fuel)
    (hq : ∀ e ∈ q, g.keyMeta e.1 ≠ none ∧ e.2 ≤ max) : ∃ result, planLinkLoop g source max fuel q = some result ∧
      (result = .ok () ↔ ∀ e ∈ q, Clear g source max e.1 e.2) := by
  induction fuel generalizing q with
  | zero =>
      cases q with
      | nil => exact ⟨.ok (), rfl, by simp⟩
      | cons e q =>
          have hpos : 0 < turns g (max - e.2) e.1 := by rw [turns.eq_def]; split <;> omega
          rw [stackTurns, List.map_cons, List.sum_cons] at hfuel
          omega
  | succ fuel ih =>
      cases q with
      | nil => exact ⟨.ok (), rfl, by simp⟩
      | cons e q =>
          obtain ⟨id, depth⟩ := e
          obtain ⟨hid, hdepth⟩ := hq (id, depth) (List.mem_cons_self ..)
          dsimp only at hid hdepth
          rw [planLinkLoop, linkTurn_eq hg hid, List.forall_mem_cons, clear_iff hdepth]
          by_cases hsource : id = source
          · rw [if_pos hsource]
            exact ⟨_, rfl, by simp [hsource]⟩
          · rw [if_neg hsource]
            by_cases hlimit : max ≤ depth ∧ held g id ≠ []
            · rw [if_pos hlimit]
              exact ⟨_, rfl, by simp [hlimit]⟩
            · rw [if_neg hlimit]
              have hchild : ∀ child ∈ held g id, g.keyMeta child ≠ none ∧ depth + 1 ≤ max := by
                intro child hmem
                refine ⟨keyMeta_of_isKeyring (mem_held.mp hmem).2.1, ?_⟩
                by_contra hcon
                exact hlimit ⟨by omega, List.ne_nil_of_mem hmem⟩
              have hsum : stackTurns g max ((((held g id).map fun child => (child, depth + 1)).reverse) ++ q) ≤
                  fuel := by
                rw [stackTurns, List.map_cons, List.sum_cons] at hfuel
                rw [stackTurns, List.map_append, List.sum_append, List.map_reverse, List.sum_reverse, List.map_map]
                change ((held g id).map fun child => turns g (max - (depth + 1)) child).sum + _ ≤ fuel
                dsimp only at hfuel
                have hhere := sum_turns_held (g := g) hlimit
                omega
              obtain ⟨result, hresult, hiff⟩ := ih hsum (by
                intro e he
                rcases List.mem_append.mp he with he | he
                · rw [List.mem_reverse, List.mem_map] at he
                  obtain ⟨child, hmem, rfl⟩ := he
                  exact hchild child hmem
                · exact hq e (List.mem_cons_of_mem _ he))
              refine ⟨result, hresult, ?_⟩
              rw [hiff, List.forall_mem_append]
              simp [hsource, hlimit]

end Loop

/-- A link is accepted exactly when it closes no cycle and the keyrings below its
target are nested at most `max` deep. -/
theorem planLink_spec {g : KeyGraph} (hg : Resolves g) {source target : KeyId} {a b : KeyMeta}
    (ha : g.keyMeta source = some a)
    (hb : g.keyMeta target = some b) (hkeyring : a.kind = .keyring) (hlive : a.revoked = false)
    (hlive' : b.revoked = false) (max : Nat) :
    ∃ enough, ∀ fuel ≥ enough, ∃ result, planLink g source target max fuel = some result ∧
      (result = .ok (.link source target) ↔
        target ≠ source ∧ ¬Relation.ReflTransGen (Holds g) target source ∧
          ∀ n key, Walk (Holds g) n target key → n ≤ max) := by
  refine ⟨stackTurns g max [(target, 0)], ?_⟩
  intro fuel hfuel
  obtain ⟨result, hresult, hiff⟩ := planLinkLoop_spec hg hfuel (by
    rintro e he
    rw [List.mem_singleton] at he
    subst he
    exact ⟨by rw [hb]; nofun, Nat.zero_le max⟩)
  refine ⟨result.map fun _ => .link source target, ?_, ?_⟩
  · rw [planLink, ha, hb]
    dsimp only
    rw [if_neg (by simp [hkeyring, hlive, hlive']), hresult]
    rfl
  · have hclear : Clear g source max target 0 ↔ target ≠ source ∧ ¬Relation.ReflTransGen (Holds g) target source ∧
        ∀ n key, Walk (Holds g) n target key → n ≤ max := by
      constructor
      · intro h
        refine ⟨(h 0 target (.nil target)).1, ?_, ?_⟩
        · intro hreach
          obtain ⟨n, hwalk⟩ := exists_walk hreach
          exact (h n source hwalk).1 rfl
        · intro n key hwalk
          have := (h n key hwalk).2
          omega
      · rintro ⟨-, hreach, hlong⟩ n key hwalk
        refine ⟨?_, by have := hlong n key hwalk; omega⟩
        rintro rfl
        exact hreach hwalk.reflTransGen
    rw [← hclear, ← show (result = .ok () ↔ Clear g source max target 0) by simpa using hiff]
    cases result with
    | ok u => simp [Except.map]
    | error e => simp [Except.map]

def KeyGraph.link (g : KeyGraph) (source target : KeyId) : KeyGraph where
  keyMeta := g.keyMeta
  links key := if key = source then (g.links key).map fun children => children ++ [target] else g.links key

inductive Linked : KeyGraph → KeyGraph → Prop
  | start (g) : Linked g g
  | link {g h source target max fuel} (hrest : Linked g h)
      (haccept : planLink h source target max fuel = some (.ok (.link source target))) : Linked g (h.link source target)

section Link

variable {g : KeyGraph} {source target : KeyId}

theorem holds_link {a b : KeyId} (h : Holds (g.link source target) a b) : Joined (Holds g) source target a b := by
  obtain ⟨ha, hb, children, hlinks, hmem⟩ := h
  rw [KeyGraph.link] at hlinks
  dsimp only at hlinks
  by_cases hsource : a = source
  · rw [if_pos hsource] at hlinks
    cases hold : g.links a with
    | error e =>
        rw [hold] at hlinks
        cases hlinks
    | ok old =>
        rw [hold] at hlinks
        cases hlinks
        rcases List.mem_append.mp hmem with hmem | hmem
        · exact .inl ⟨ha, hb, old, hold, hmem⟩
        · exact .inr ⟨hsource, List.mem_singleton.mp hmem⟩
  · rw [if_neg hsource] at hlinks
    exact .inl ⟨ha, hb, children, hlinks, hmem⟩

theorem resolves_link (hg : Resolves g) (htarget : g.keyMeta target ≠ none) : Resolves (g.link source target) := by
  intro key hkey
  obtain ⟨children, hlinks, hall⟩ := hg key hkey
  by_cases hsource : key = source
  · refine ⟨children ++ [target], ?_, ?_⟩
    · rw [KeyGraph.link]
      dsimp only
      rw [if_pos hsource, hlinks]
      rfl
    · intro child hchild
      rcases List.mem_append.mp hchild with hchild | hchild
      · exact hall child hchild
      · rw [List.mem_singleton] at hchild
        rw [hchild]
        exact htarget
  · refine ⟨children, ?_, hall⟩
    rw [KeyGraph.link]
    dsimp only
    rw [if_neg hsource, hlinks]

theorem planLink_accepted {max fuel : Nat} (h : planLink g source target max fuel = some (.ok (.link source target))) :
    ∃ a b, g.keyMeta source = some a ∧ g.keyMeta target = some b ∧ a.kind = .keyring ∧ a.revoked = false ∧
      b.revoked = false ∧ planLinkLoop g source max fuel [(target, 0)] = some (.ok ()) := by
  rw [planLink] at h
  split at h
  · cases h
  · cases h
  next a b ha hb =>
    split at h
    · cases h
    next hok =>
      simp only [not_or, not_not, Bool.not_eq_true] at hok
      refine ⟨a, b, ha, hb, hok.1, hok.2.1, hok.2.2, ?_⟩
      obtain ⟨result, hresult, hmap⟩ := Option.map_eq_some_iff.mp h
      cases result with
      | error e => cases hmap
      | ok u => exact hresult

theorem planLinkLoop_mono {max fuel more : Nat} {q : List (KeyId × Nat)} {result : Except KeyError Unit}
    (h : planLinkLoop g source max fuel q = some result) (hle : fuel ≤ more) :
    planLinkLoop g source max more q = some result := by
  induction fuel generalizing more q with
  | zero =>
      cases q with
      | nil => rwa [planLinkLoop] at h ⊢
      | cons e q => cases h
  | succ fuel ih =>
      obtain ⟨more, rfl⟩ : ∃ m, more = m + 1 := ⟨more - 1, by omega⟩
      cases q with
      | nil => rwa [planLinkLoop] at h ⊢
      | cons e q =>
          rw [planLinkLoop] at h ⊢
          split at h
          · exact h
          · exact ih h (by omega)

end Link

theorem Linked.acyclic {g h : KeyGraph} (hlinked : Linked g h) (hg : Resolves g) (hacyclic : Acyclic (Holds g)) :
    Resolves h ∧ Acyclic (Holds h) := by
  induction hlinked with
  | start => exact ⟨hg, hacyclic⟩
  | @link h source target max fuel hrest haccept ih =>
      obtain ⟨hresolves, hold⟩ := ih
      obtain ⟨a, b, ha, hb, hkeyring, hlive, hlive', hloop⟩ := planLink_accepted haccept
      refine ⟨resolves_link hresolves (by rw [hb]; nofun), Acyclic.mono (fun _ _ => holds_link) ?_⟩
      rw [acyclic_joined hold]
      obtain ⟨result, hresult, hiff⟩ := planLinkLoop_spec (q := [(target, 0)]) hresolves
        (Nat.le_max_right fuel (stackTurns h max [(target, 0)])) (by
          rintro e he
          rw [List.mem_singleton] at he
          subst he
          exact ⟨by rw [hb]; nofun, Nat.zero_le max⟩)
      rw [planLinkLoop_mono hloop (Nat.le_max_left _ _)] at hresult
      cases hresult
      intro hreach
      obtain ⟨n, hwalk⟩ := exists_walk hreach
      exact (hiff.mp rfl (target, 0) (List.mem_singleton.mpr rfl) n source hwalk).1 rfl

/-- On an acyclic graph of keyrings exactly the links that keep it acyclic and
shallow are accepted, and it stays acyclic. -/
theorem planLink_exact {g : KeyGraph} (hg : Resolves g) (hacyclic : Acyclic (Holds g)) :
    (∀ (source target : KeyId) (a b : KeyMeta) (max : Nat), g.keyMeta source = some a → g.keyMeta target = some b →
      a.kind = .keyring → a.revoked = false → b.revoked = false →
      ∃ enough, ∀ fuel ≥ enough, ∃ result, planLink g source target max fuel = some result ∧
        (result = .ok (.link source target) ↔
          target ≠ source ∧ ¬Relation.ReflTransGen (Holds g) target source ∧
            ∀ n key, Walk (Holds g) n target key → n ≤ max)) ∧
    ∀ h, Linked g h → Acyclic (Holds h) :=
  ⟨fun _ _ _ _ max ha hb hkeyring hlive hlive' => planLink_spec hg ha hb hkeyring hlive hlive' max,
    fun _ hlinked => (hlinked.acyclic hg hacyclic).2⟩

namespace Diamond

def top : KeyId := ⟨1, by decide⟩

def left : KeyId := ⟨2, by decide⟩

def right : KeyId := ⟨3, by decide⟩

def bottom : KeyId := ⟨4, by decide⟩

def apart : KeyId := ⟨5, by decide⟩

def secret : KeyId := ⟨6, by decide⟩

/-- Two ways lead from the top to the bottom; the right one also holds a key
that is no keyring. -/
def graph : KeyGraph where
  keyMeta key :=
    match key.raw.toNat with
    | 1 | 2 | 3 | 4 | 5 => some ⟨.keyring, false⟩
    | 6 => some ⟨.user, false⟩
    | _ => none
  links key :=
    match key.raw.toNat with
    | 1 => .ok [left, right]
    | 2 => .ok [bottom]
    | 3 => .ok [bottom, secret]
    | _ => .ok []

def level (key : KeyId) : Nat :=
  match key.raw.toNat with
  | 1 => 0
  | 2 | 3 => 1
  | _ => 2

theorem level_le (key : KeyId) : level key ≤ 2 := by
  rw [level]
  split <;> omega

theorem graph_holds {a b : KeyId} (h : Holds graph a b) : level b = level a + 1 ∧ b ≠ apart := by
  obtain ⟨-, hb, children, hlinks, hmem⟩ := h
  rw [graph] at hlinks
  dsimp only at hlinks
  split at hlinks
  next ha =>
    cases hlinks
    rw [level.eq_def a, ha]
    simp only [List.mem_cons, List.not_mem_nil, or_false] at hmem
    rcases hmem with rfl | rfl <;> decide
  next ha =>
    cases hlinks
    rw [level.eq_def a, ha]
    simp only [List.mem_cons, List.not_mem_nil, or_false] at hmem
    rcases hmem with rfl
    decide
  next ha =>
    cases hlinks
    rw [level.eq_def a, ha]
    simp only [List.mem_cons, List.not_mem_nil, or_false] at hmem
    rcases hmem with rfl | rfl
    · decide
    · cases hb
  next =>
    cases hlinks
    cases hmem

theorem graph_resolves : Resolves graph := by
  intro key _
  rw [graph]
  dsimp only
  split
  · exact ⟨_, rfl, by decide⟩
  · exact ⟨_, rfl, by decide⟩
  · exact ⟨_, rfl, by decide⟩
  · exact ⟨_, rfl, by decide⟩

theorem graph_walk {n : Nat} {a b : KeyId} (h : Walk (Holds graph) n a b) :
    level b = level a + n ∧ (b = apart → a = apart) := by
  induction h with
  | nil => exact ⟨rfl, id⟩
  | cons hfirst _ ih =>
      obtain ⟨hlevel, hne⟩ := graph_holds hfirst
      exact ⟨by omega, fun hb => absurd (ih.2 hb) hne⟩

theorem graph_acyclic : Acyclic (Holds graph) := by
  intro a ha
  have hlt : ∀ b, Relation.TransGen (Holds graph) a b → level a < level b := by
    intro b hb
    induction hb with
    | single h =>
        have := (graph_holds h).1
        omega
    | tail _ h ih =>
        have := (graph_holds h).1
        omega
  exact absurd (hlt a ha) (Nat.lt_irrefl _)

/-- The keyring apart may hold the top if two levels may lie below that, and the
bottom may not hold it. -/
theorem planLink_exact_diamond :
    (Holds graph top left ∧ Holds graph left bottom ∧ Holds graph top right ∧ Holds graph right bottom) ∧
    (∃ enough, ∀ fuel ≥ enough, planLink graph apart top 2 fuel = some (.ok (.link apart top)) ∧
      ∃ result, planLink graph bottom top 2 fuel = some result ∧ result ≠ .ok (.link bottom top)) ∧
    planLink graph bottom top 2 5 = some (.error .cycle) ∧ planLink graph apart top 1 5 = some (.error .limit) ∧
    Acyclic (Holds (graph.link apart top)) := by
  obtain ⟨hplan, hlinked⟩ := planLink_exact graph_resolves graph_acyclic
  have hleft : Holds graph top left := ⟨rfl, rfl, _, rfl, by decide⟩
  have hbottom : Holds graph left bottom := ⟨rfl, rfl, _, rfl, by decide⟩
  have haccept : planLink graph apart top 2 5 = some (.ok (.link apart top)) := by decide +kernel
  refine ⟨⟨hleft, hbottom, ⟨rfl, rfl, _, rfl, by decide⟩, ⟨rfl, rfl, _, rfl, by decide⟩⟩,
    ?_, by decide +kernel, by decide +kernel, hlinked _ (.link (.start graph) haccept)⟩
  obtain ⟨enough, haccepted⟩ := hplan apart top ⟨.keyring, false⟩ ⟨.keyring, false⟩ 2 rfl rfl rfl rfl rfl
  obtain ⟨enough', hrefused⟩ := hplan bottom top ⟨.keyring, false⟩ ⟨.keyring, false⟩ 2 rfl rfl rfl rfl rfl
  refine ⟨max enough enough', fun fuel hfuel => ⟨?_, ?_⟩⟩
  · obtain ⟨result, hresult, hiff⟩ := haccepted fuel (le_trans (le_max_left _ _) hfuel)
    rw [hresult, hiff.mpr]
    refine ⟨by decide, ?_, ?_⟩
    · intro hreach
      obtain ⟨n, hwalk⟩ := exists_walk hreach
      exact absurd ((graph_walk hwalk).2 rfl) (by decide)
    · intro n key hwalk
      have := (graph_walk hwalk).1
      have := level_le key
      omega
  · obtain ⟨result, hresult, hiff⟩ := hrefused fuel (le_trans (le_max_right _ _) hfuel)
    refine ⟨result, hresult, fun hok => ?_⟩
    exact (hiff.mp hok).2.1 (.head hleft (.single hbottom))

end Diamond

end TheKernel.Keyring
