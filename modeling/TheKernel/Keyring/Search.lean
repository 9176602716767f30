import TheKernel.Keyring.Graph

namespace TheKernel.Keyring

structure TraversalNode where
  available : Bool
  searchable : Bool
  keyring : Bool

structure BfsRequest where
  roots : List KeyId
  maxVisits : Nat
  maxDepth : Nat

abbrev Queue := List (KeyId × Nat)

def pushRoots (maxVisits : Nat) : List KeyId → Queue → Except KeyError Queue
  | [], queue => .ok queue
  | root :: roots, queue =>
      if maxVisits ≤ queue.length then .error .limit else pushRoots maxVisits roots (queue ++ [(root, 0)])

def passedOver (g : KeyGraph) (request : BfsRequest) (depth : Nat) (child : KeyId) : Except KeyError Bool :=
  if depth = request.maxDepth then match g.keyMeta child with
    | none => .error .notFound
    | some m => .ok (m.kind ≠ .keyring)
  else .ok false

def pushChildren (g : KeyGraph) (request : BfsRequest) (depth : Nat) : List KeyId → Queue → Except KeyError Queue
  | [], queue => .ok queue
  | child :: children, queue => match passedOver g request depth child with
    | .error e => .error e
    | .ok true => pushChildren g request depth children queue
    | .ok false =>
        if queue.any fun e => e.1 = child then pushChildren g request depth children queue
        else if request.maxVisits ≤ queue.length then .error .limit
        else pushChildren g request depth children (queue ++ [(child, depth + 1)])

def bfsLoop (g : KeyGraph) (request : BfsRequest) (node : KeyId → Except KeyError TraversalNode)
    (visit : KeyId → Nat → Bool) : Nat → Queue → Nat → List KeyId → Option (Except KeyError (Option KeyId))
  | fuel, queue, index, seen => match queue[index]?, fuel with
    | none, _ => some (.ok none)
    | some _, 0 => none
    | some (key, depth), fuel + 1 =>
        if request.maxVisits ≤ seen.length then some (.error .limit)
        else if key ∈ seen then bfsLoop g request node visit fuel queue (index + 1) seen
        else match node key with
          | .error e => some (.error e)
          | .ok state =>
              if !state.available || !state.searchable then bfsLoop g request node visit fuel queue (index + 1)
                (seen ++ [key])
              else if visit key depth then some (.ok (some key))
              else if depth ≤ request.maxDepth && state.keyring then match g.links key with
                | .error e => some (.error e)
                | .ok children => match pushChildren g request depth children queue with
                  | .error e => some (.error e)
                  | .ok queue => bfsLoop g request node visit fuel queue (index + 1) (seen ++ [key])
              else bfsLoop g request node visit fuel queue (index + 1) (seen ++ [key])

/-- The queue never gets longer than `max_visits`, so these turns are enough. -/
def bfs (g : KeyGraph) (request : BfsRequest) (node : KeyId → Except KeyError TraversalNode)
    (visit : KeyId → Nat → Bool) : Option (Except KeyError (Option KeyId)) :=
  match pushRoots request.maxVisits request.roots [] with
  | .error e => some (.error e)
  | .ok queue => bfsLoop g request node visit request.maxVisits queue 0 []

def isPossessed (g : KeyGraph) (roots : List KeyId) (target : KeyId) (maxVisits maxDepth : Nat)
    (node : KeyId → Except KeyError TraversalNode) : Option (Except KeyError Bool) :=
  (bfs g ⟨roots, maxVisits, maxDepth⟩ node fun key _ => key = target).map fun r => r.map Option.isSome

section Spec

variable (g : KeyGraph) (node : KeyId → Except KeyError TraversalNode)

def Open (key : KeyId) : Prop := ∃ state, node key = .ok state ∧ state.available = true ∧ state.searchable = true

def Searches (a b : KeyId) : Prop :=
  Open node a ∧ g.isKeyring a = true ∧ ∃ children, g.links a = .ok children ∧ b ∈ children

def Near (maxDepth : Nat) (key : KeyId) (n : Nat) : Prop := n ≤ maxDepth ∨ n = maxDepth + 1 ∧ g.isKeyring key = true

def Agrees : Prop := ∀ key state, node key = .ok state → state.keyring = g.isKeyring key

end Spec

section Push

variable {g : KeyGraph} {request : BfsRequest}

theorem pushRoots_eq {maxVisits : Nat} {roots : List KeyId} {queue queue' : Queue}
    (h : pushRoots maxVisits roots queue = .ok queue')
    (hle : queue.length ≤ maxVisits) : queue' = queue ++ roots.map (·, 0) ∧ queue'.length ≤ maxVisits := by
  induction roots generalizing queue with
  | nil =>
      cases h
      exact ⟨by simp, hle⟩
  | cons root roots ih =>
      rw [pushRoots] at h
      split at h
      · cases h
      · obtain ⟨rfl, hlen⟩ := ih h (by rw [List.length_append, List.length_singleton]; omega)
        exact ⟨by simp, hlen⟩

theorem pushRoots_ok {maxVisits : Nat} {roots : List KeyId} {queue : Queue}
    (h : queue.length + roots.length ≤ maxVisits) :
    pushRoots maxVisits roots queue = .ok (queue ++ roots.map (·, 0)) := by
  induction roots generalizing queue with
  | nil => simp [pushRoots]
  | cons root roots ih =>
      rw [List.length_cons] at h
      rw [pushRoots, if_neg (by omega), ih (by rw [List.length_append, List.length_singleton]; omega)]
      simp

structure Pushed (g : KeyGraph) (request : BfsRequest) (depth : Nat) (children : List KeyId) (queue queue' : Queue) :
    Prop where
  extends' : ∃ new, queue' = queue ++ new ∧ (∀ e ∈ new, e.1 ∈ children ∧ e.2 = depth + 1 ∧
    (depth ≠ request.maxDepth ∨ g.isKeyring e.1 = true)) ∧ (new.map Prod.fst).Nodup ∧ ∀ e ∈ new, ∀ e' ∈ queue,
      e.1 ≠ e'.1
  length : queue'.length ≤ request.maxVisits
  all : ∀ child ∈ children, depth ≠ request.maxDepth ∨ g.isKeyring child = true → ∃ e ∈ queue', e.1 = child

theorem passedOver_eq {depth : Nat} {child : KeyId} {b : Bool} (h : passedOver g request depth child = .ok b) :
    b = false ↔ depth ≠ request.maxDepth ∨ g.isKeyring child = true := by
  rw [passedOver] at h
  split at h
  next hdepth =>
    split at h
    · cases h
    next m hm =>
      cases h
      simp [hdepth, KeyGraph.isKeyring, hm]
  next hdepth =>
    cases h
    simp [hdepth]

theorem pushChildren_spec {depth : Nat} {children : List KeyId} {queue queue' : Queue}
    (h : pushChildren g request depth children queue = .ok queue') (hle : queue.length ≤ request.maxVisits) :
    Pushed g request depth children queue queue' := by
  induction children generalizing queue with
  | nil =>
      cases h
      exact ⟨⟨[], by simp⟩, hle, nofun⟩
  | cons child children ih =>
      rw [pushChildren] at h
      -- a child that adds nothing itself
      have hskip : ∀ {queue'}, Pushed g request depth children queue queue' →
          (depth ≠ request.maxDepth ∨ g.isKeyring child = true → ∃ e ∈ queue, e.1 = child) →
          Pushed g request depth (child :: children) queue queue' := by
        rintro _ ⟨⟨new, rfl, hnew, hnodup, hapart⟩, hlen, hall⟩ hchild
        refine ⟨⟨new, rfl, ?_, hnodup, hapart⟩, hlen, ?_⟩
        · intro e he
          obtain ⟨h₁, h₂⟩ := hnew e he
          exact ⟨List.mem_cons_of_mem _ h₁, h₂⟩
        · rw [List.forall_mem_cons]
          refine ⟨?_, hall⟩
          intro hc
          obtain ⟨e, he, heq⟩ := hchild hc
          exact ⟨e, List.mem_append_left _ he, heq⟩
      split at h
      · cases h
      next hpass =>
        refine hskip (ih h hle) ?_
        intro hc
        have := (passedOver_eq hpass).mpr hc
        cases this
      next hpass =>
        have hkeep := (passedOver_eq hpass).mp rfl
        split at h
        next hany =>
          refine hskip (ih h hle) ?_
          intro _
          rw [List.any_eq_true] at hany
          obtain ⟨e, he, heq⟩ := hany
          exact ⟨e, he, of_decide_eq_true heq⟩
        next hany =>
          split at h
          · cases h
          next hlimit =>
            obtain ⟨⟨new, rfl, hnew, hnodup, hapart⟩, hlen, hall⟩ :=
              ih h (by rw [List.length_append, List.length_singleton]; omega)
            refine ⟨⟨(child, depth + 1) :: new, by simp, ?_, ?_, ?_⟩, hlen, ?_⟩
            · rw [List.forall_mem_cons]
              refine ⟨⟨List.mem_cons_self .., rfl, hkeep⟩, ?_⟩
              intro e he
              obtain ⟨h₁, h₂⟩ := hnew e he
              exact ⟨List.mem_cons_of_mem _ h₁, h₂⟩
            · rw [List.map_cons, List.nodup_cons]
              refine ⟨?_, hnodup⟩
              intro hmem
              obtain ⟨e, he, heq⟩ := List.mem_map.mp hmem
              exact hapart e he (child, depth + 1) (by simp) heq
            · rw [List.forall_mem_cons]
              refine ⟨?_, fun e he e' he' => hapart e he e' (List.mem_append_left _ he')⟩
              intro e' he' heq
              refine hany (List.any_eq_true.mpr ⟨e', he', decide_eq_true heq.symm⟩)
            · rw [List.forall_mem_cons]
              exact ⟨fun _ => ⟨(child, depth + 1), by simp, rfl⟩, hall⟩

theorem pushChildren_error {depth : Nat} {children : List KeyId} {queue : Queue} {e : KeyError}
    (h : pushChildren g request depth children queue = .error e) (hqueue : (queue.map Prod.fst).Nodup) :
    (∃ child ∈ children, g.keyMeta child = none) ∨ ∃ keys : List KeyId, keys.Nodup ∧ request.maxVisits < keys.length ∧
      ∀ key ∈ keys, key ∈ children ∨ ∃ e ∈ queue, e.1 = key := by
  induction children generalizing queue with
  | nil => cases h
  | cons child children ih =>
      -- the error of a later child
      have hlater : ∀ queue : Queue, pushChildren g request depth children queue = .error e →
          (queue.map Prod.fst).Nodup →
          (∃ c ∈ child :: children, g.keyMeta c = none) ∨ ∃ keys : List KeyId, keys.Nodup ∧
            request.maxVisits < keys.length ∧
            ∀ key ∈ keys, key ∈ child :: children ∨ ∃ e ∈ queue, e.1 = key := by
        intro queue h hnodup
        rcases ih h hnodup with ⟨c, hc, hnone⟩ | ⟨keys, hkeys, hlen, hall⟩
        · exact .inl ⟨c, List.mem_cons_of_mem _ hc, hnone⟩
        · refine .inr ⟨keys, hkeys, hlen, ?_⟩
          intro key hkey
          exact (hall key hkey).imp_left (List.mem_cons_of_mem _)
      rw [pushChildren] at h
      split at h
      next hpass =>
        left
        refine ⟨child, List.mem_cons_self .., ?_⟩
        rw [passedOver] at hpass
        split at hpass
        · split at hpass
          next hnone => exact hnone
          · cases hpass
        · cases hpass
      next => exact hlater queue h hqueue
      next =>
        split at h
        · exact hlater queue h hqueue
        next hany =>
          have hfresh : ((queue ++ [(child, depth + 1)]).map Prod.fst).Nodup := by
            rw [List.map_append, List.nodup_append]
            refine ⟨hqueue, by simp, ?_⟩
            intro key hkey _ hchild heq
            obtain ⟨e, he, rfl⟩ := List.mem_map.mp hkey
            rw [List.map_cons, List.map_nil, List.mem_singleton] at hchild
            exact hany (List.any_eq_true.mpr ⟨e, he, decide_eq_true (heq.trans hchild)⟩)
          have hkeys : ∀ key ∈ (queue ++ [(child, depth + 1)]).map Prod.fst, key = child ∨ ∃ e ∈ queue, e.1 = key := by
            intro key hkey
            simp only [List.map_append, List.map_cons, List.map_nil, List.mem_append, List.mem_singleton,
              List.mem_map] at hkey
            exact hkey.symm
          split at h
          next hlimit =>
            refine .inr ⟨_, hfresh, by simp only [List.length_map, List.length_append, List.length_singleton]; omega,
              ?_⟩
            intro key hkey
            refine (hkeys key hkey).imp_left ?_
            rintro rfl
            exact List.mem_cons_self ..
          · rcases hlater _ h hfresh with hnone | ⟨keys, hnodup, hlen, hall⟩
            · exact .inl hnone
            · refine .inr ⟨keys, hnodup, hlen, ?_⟩
              intro key hkey
              rcases hall key hkey with hchild | ⟨e, he, heq⟩
              · exact .inl hchild
              · rcases hkeys key (List.mem_map.mpr ⟨e, he, heq⟩) with rfl | hold
                · exact .inl (List.mem_cons_self ..)
                · exact .inr hold

end Push

section Loop

variable (g : KeyGraph) (request : BfsRequest) (node : KeyId → Except KeyError TraversalNode) (target : KeyId)

/-- A path leads to the key, and it is not longer than the request allows. -/
def Found (key : KeyId) (n : Nat) : Prop :=
  ∃ root ∈ request.roots, Walk (Searches g node) n root key ∧ Near g request.maxDepth key n

def Reachable (roots : List KeyId) (key : KeyId) : Prop :=
  ∃ root ∈ roots, Relation.ReflTransGen (Searches g node) root key

structure Fits : Prop where
  distinct : request.roots.Nodup
  few : ∃ keys : List KeyId, keys.length ≤ request.maxVisits ∧ ∀ key, Reachable g node request.roots key → key ∈ keys
  node_ok : ∀ key, Reachable g node request.roots key → ∃ state, node key = .ok state
  meta_ok : ∀ key, Reachable g node request.roots key → g.keyMeta key ≠ none
  links_ok : ∀ key, Reachable g node request.roots key → g.isKeyring key = true → ∃ children, g.links key = .ok children

structure Inv (done todo : Queue) (seen : List KeyId) : Prop where
  length : (done ++ todo).length ≤ request.maxVisits
  mem_seen : ∀ key, key ∈ seen ↔ ∃ e ∈ done, e.1 = key
  seen_length : seen.length ≤ done.length
  sorted : (done ++ todo).Pairwise fun e e' => e.2 ≤ e'.2
  spread : ∀ e ∈ done ++ todo, ∀ e' ∈ todo, e.2 ≤ e'.2 + 1
  sound : ∀ e ∈ done ++ todo, Found g request node e.1 e.2
  complete : ∀ e ∈ done, e.2 ≤ request.maxDepth → ∀ child, Searches g node e.1 child →
    e.2 < request.maxDepth ∨ g.isKeyring child = true → ∃ e' ∈ done ++ todo, e'.1 = child ∧ e'.2 ≤ e.2 + 1
  missed : ∀ e ∈ done, Open node e.1 → e.1 ≠ target
  roots : ∀ root ∈ request.roots, (root, 0) ∈ done ++ todo
  nodup : request.roots.Nodup → ((done ++ todo).map Prod.fst).Nodup

def Possessed (roots : List KeyId) (maxDepth : Nat) : Prop :=
  Open node target ∧ ∃ root ∈ roots, ∃ n, Walk (Searches g node) n root target ∧ Near g maxDepth target n

variable {g request node target} {done todo new : Queue} {seen seen' : List KeyId} {e : KeyId × Nat}

theorem Found.reachable {key : KeyId} {n : Nat} (h : Found g request node key n) :
    Reachable g node request.roots key := by
  obtain ⟨root, hroot, hwalk, _⟩ := h
  exact ⟨root, hroot, hwalk.reflTransGen⟩

theorem Reachable.searches {roots : List KeyId} {key child : KeyId} (h : Reachable g node roots key)
    (hchild : Searches g node key child) : Reachable g node roots child := by
  obtain ⟨root, hroot, hpath⟩ := h
  exact ⟨root, hroot, hpath.tail hchild⟩

theorem Found.searches {key child : KeyId} {n : Nat} (h : Found g request node key n)
    (hchild : Searches g node key child)
    (hdepth : n ≤ request.maxDepth) (hkeep : n ≠ request.maxDepth ∨ g.isKeyring child = true) :
    Found g request node child (n + 1) := by
  obtain ⟨root, hroot, hwalk, _⟩ := h
  refine ⟨root, hroot, hwalk.append (.single hchild), ?_⟩
  rcases hkeep with hne | hkeyring
  · exact .inl (by omega)
  · by_cases hn : n + 1 ≤ request.maxDepth
    · exact .inl hn
    · exact .inr ⟨by omega, hkeyring⟩

theorem Inv.init (hlen : request.roots.length ≤ request.maxVisits) :
    Inv g request node target [] (request.roots.map (·, 0)) [] := by
  have hzero : ∀ e ∈ request.roots.map (fun root : KeyId => (root, 0)), e.1 ∈ request.roots ∧ e.2 = 0 := by
    intro e he
    obtain ⟨root, hroot, rfl⟩ := List.mem_map.mp he
    exact ⟨hroot, rfl⟩
  constructor
  case length => simpa using hlen
  case mem_seen => simp
  case seen_length => simp
  case sorted =>
    rw [List.nil_append]
    exact List.pairwise_of_forall_mem_list fun e he e' _ => by rw [(hzero e he).2]; exact Nat.zero_le _
  case spread =>
    intro e he e' _
    rw [(hzero e he).2]
    exact Nat.zero_le _
  case sound =>
    intro e he
    obtain ⟨hroot, h0⟩ := hzero e he
    rw [h0]
    exact ⟨e.1, hroot, .nil _, .inl (Nat.zero_le _)⟩
  case complete => nofun
  case missed => nofun
  case roots =>
    intro root hroot
    exact List.mem_map.mpr ⟨root, hroot, rfl⟩
  case nodup =>
    intro h
    simpa [Function.comp_def] using h

/-- One entry is done, and `new` comes to the end of the queue. -/
theorem Inv.next (h : Inv g request node target done (e :: todo) seen)
    (hlen : (done ++ e :: todo ++ new).length ≤ request.maxVisits)
    (hnew : ∀ e' ∈ new, e'.2 = e.2 + 1 ∧ Searches g node e.1 e'.1 ∧ e.2 ≤ request.maxDepth ∧
      (e.2 ≠ request.maxDepth ∨ g.isKeyring e'.1 = true))
    (hnodup : (new.map Prod.fst).Nodup) (hapart : ∀ e' ∈ new, ∀ e₀ ∈ done ++ e :: todo, e'.1 ≠ e₀.1)
    (hcomplete : e.2 ≤ request.maxDepth → ∀ child, Searches g node e.1 child →
      e.2 < request.maxDepth ∨ g.isKeyring child = true → ∃ e' ∈ done ++ e :: todo ++ new, e'.1 = child ∧
        e'.2 ≤ e.2 + 1)
    (hmissed : Open node e.1 → e.1 ≠ target) (hseen : ∀ key, key ∈ seen' ↔ key = e.1 ∨ key ∈ seen)
    (hseenlen : seen'.length ≤ done.length + 1) : Inv g request node target (done ++ [e]) (todo ++ new) seen' := by
  have heq : done ++ [e] ++ (todo ++ new) = done ++ e :: todo ++ new := by simp
  have hold : ∀ e₀ ∈ done ++ e :: todo, e₀.2 ≤ e.2 + 1 := fun e₀ he₀ => h.spread e₀ he₀ e (List.mem_cons_self ..)
  have hlater : ∀ e' ∈ todo, e.2 ≤ e'.2 := (List.pairwise_cons.mp (List.pairwise_append.mp h.sorted).2.1).1
  constructor
  case length => rwa [heq]
  case mem_seen =>
    intro key
    rw [hseen, h.mem_seen]
    constructor
    · rintro (rfl | ⟨e', he', rfl⟩)
      · exact ⟨e, by simp, rfl⟩
      · exact ⟨e', List.mem_append_left _ he', rfl⟩
    · rintro ⟨e', he', rfl⟩
      rcases List.mem_append.mp he' with he' | he'
      · exact .inr ⟨e', he', rfl⟩
      · rw [List.mem_singleton] at he'
        exact .inl (congrArg Prod.fst he')
  case seen_length => simpa using hseenlen
  case sorted =>
    rw [heq, List.pairwise_append]
    refine ⟨h.sorted, ?_, ?_⟩
    · exact List.pairwise_of_forall_mem_list fun a ha b hb => by rw [(hnew a ha).1, (hnew b hb).1]
    · intro e₀ he₀ e' he'
      rw [(hnew e' he').1]
      exact hold e₀ he₀
  case spread =>
    rw [heq]
    intro e₀ he₀ e' he'
    have hle : e₀.2 ≤ e.2 + 1 := by
      rcases List.mem_append.mp he₀ with he₀ | he₀
      · exact hold e₀ he₀
      · exact (hnew e₀ he₀).1.le
    rcases List.mem_append.mp he' with he' | he'
    · have := hlater e' he'
      omega
    · have := (hnew e' he').1
      omega
  case sound =>
    rw [heq]
    intro e' he'
    rcases List.mem_append.mp he' with he' | he'
    · exact h.sound e' he'
    · obtain ⟨h₁, h₂, h₃, h₄⟩ := hnew e' he'
      rw [h₁]
      exact (h.sound e (by simp)).searches h₂ h₃ h₄
  case complete =>
    rw [heq]
    intro e₀ he₀ hdepth child hchild hkeep
    rcases List.mem_append.mp he₀ with he₀ | he₀
    · obtain ⟨e', he', h'⟩ := h.complete e₀ he₀ hdepth child hchild hkeep
      exact ⟨e', List.mem_append_left _ he', h'⟩
    · obtain rfl := List.mem_singleton.mp he₀
      exact hcomplete hdepth child hchild hkeep
  case missed =>
    intro e₀ he₀ hopen
    rcases List.mem_append.mp he₀ with he₀ | he₀
    · exact h.missed e₀ he₀ hopen
    · obtain rfl := List.mem_singleton.mp he₀
      exact hmissed hopen
  case roots =>
    rw [heq]
    intro root hroot
    exact List.mem_append_left _ (h.roots root hroot)
  case nodup =>
    intro hroots
    rw [heq, List.map_append, List.nodup_append]
    refine ⟨h.nodup hroots, hnodup, ?_⟩
    intro key hkey key' hkey' hkk
    obtain ⟨e₀, he₀, rfl⟩ := List.mem_map.mp hkey
    obtain ⟨e', he', rfl⟩ := List.mem_map.mp hkey'
    exact hapart e' he' e₀ he₀ hkk.symm

theorem Inv.pass (h : Inv g request node target done (e :: todo) seen)
    (hcomplete : e.2 ≤ request.maxDepth → ∀ child, Searches g node e.1 child →
      e.2 < request.maxDepth ∨ g.isKeyring child = true → ∃ e' ∈ done ++ e :: todo, e'.1 = child ∧ e'.2 ≤ e.2 + 1)
    (hmissed : Open node e.1 → e.1 ≠ target) (hseen : ∀ key, key ∈ seen' ↔ key = e.1 ∨ key ∈ seen)
    (hseenlen : seen'.length ≤ done.length + 1) : Inv g request node target (done ++ [e]) todo seen' := by
  have hnext : Inv g request node target (done ++ [e]) (todo ++ []) seen' :=
    h.next (by simpa using h.length) nofun List.nodup_nil
    nofun (by simpa only [List.append_nil] using hcomplete) hmissed hseen hseenlen
  rwa [List.append_nil] at hnext

/-- Once every entry is done, each short path has been followed. -/
theorem Inv.reached (h : Inv g request node target done [] seen) {root key : KeyId} (hroot : root ∈ request.roots)
    {n : Nat}
    (hwalk : Walk (Searches g node) n root key) (hnear : Near g request.maxDepth key n) :
    ∃ e ∈ done, e.1 = key ∧ e.2 ≤ n := by
  have hall : ∀ {P : KeyId × Nat → Prop}, (∃ e ∈ done ++ [], P e) → ∃ e ∈ done, P e := by
    intro P h
    rwa [List.append_nil] at h
  induction n generalizing key with
  | zero =>
      cases hwalk
      exact hall ⟨(root, 0), h.roots root hroot, rfl, le_refl _⟩
  | succ n ih =>
      obtain ⟨b, hwalk, hlast⟩ := hwalk.exists_last
      have hn : n ≤ request.maxDepth := by
        rcases hnear with hle | ⟨heq, _⟩ <;> omega
      obtain ⟨e, he, rfl, hle⟩ := ih hwalk (.inl hn)
      have hkeep : e.2 < request.maxDepth ∨ g.isKeyring key = true := by
        rcases hnear with hle' | ⟨_, hkeyring⟩
        · exact .inl (by omega)
        · exact .inr hkeyring
      obtain ⟨e', he', hkey, hle'⟩ := hall (h.complete e he (by omega) key hlast hkeep)
      exact ⟨e', he', hkey, by omega⟩

theorem Inv.not_possessed (h : Inv g request node target done [] seen) :
    ¬ Possessed g node target request.roots request.maxDepth := by
  rintro ⟨hopen, root, hroot, n, hwalk, hnear⟩
  obtain ⟨e, he, rfl, _⟩ := h.reached hroot hwalk hnear
  exact h.missed e he hopen rfl

def SearchResult (g : KeyGraph) (request : BfsRequest) (node : KeyId → Except KeyError TraversalNode) (target : KeyId) :
    Except KeyError (Option KeyId) → Prop
  | .ok (some _) => Possessed g node target request.roots request.maxDepth
  | .ok none => ¬ Possessed g node target request.roots request.maxDepth
  | .error _ => ¬ Fits g request node

theorem Inv.again (h : Inv g request node target done (e :: todo) seen) (hkey : e.1 ∈ seen) :
    Inv g request node target (done ++ [e]) todo seen := by
  obtain ⟨e₀, he₀, heq⟩ := (h.mem_seen e.1).mp hkey
  have hle : e₀.2 ≤ e.2 := (List.pairwise_append.mp h.sorted).2.2 e₀ he₀ e (List.mem_cons_self ..)
  refine h.pass ?_ ?_ ?_ (h.seen_length.trans (Nat.le_succ _))
  · intro hdepth child hchild hkeep
    rw [← heq] at hchild
    obtain ⟨e', he', hchild', hle'⟩ := h.complete e₀ he₀ (hle.trans hdepth) child hchild
        (hkeep.imp_left (lt_of_le_of_lt hle))
    exact ⟨e', he', hchild', by omega⟩
  · rw [← heq]
    exact h.missed e₀ he₀
  · intro k
    constructor
    · exact .inr
    · rintro (rfl | hk)
      · exact hkey
      · exact hk

theorem Inv.stop (h : Inv g request node target done (e :: todo) seen) (hmissed : Open node e.1 → e.1 ≠ target)
    (hstop : e.2 ≤ request.maxDepth → ∀ child, ¬ Searches g node e.1 child) :
    Inv g request node target (done ++ [e]) todo (seen ++ [e.1]) := by
  refine h.pass ?_ hmissed ?_ (by simpa using h.seen_length)
  · intro hdepth child hchild
    exact absurd hchild (hstop hdepth child)
  · intro k
    rw [List.mem_append, List.mem_singleton, or_comm]

theorem Inv.expand {children : List KeyId} {queue' : Queue} (h : Inv g request node target done (e :: todo) seen)
    (hne : e.1 ≠ target)
    (hopen : Open node e.1) (hkeyring : g.isKeyring e.1 = true) (hdepth : e.2 ≤ request.maxDepth)
    (hlinks : g.links e.1 = .ok children)
    (hpush : pushChildren g request e.2 children (done ++ e :: todo) = .ok queue') :
    ∃ new, queue' = done ++ e :: todo ++ new ∧ Inv g request node target (done ++ [e]) (todo ++ new)
      (seen ++ [e.1]) := by
  obtain ⟨⟨new, rfl, hnew, hnodup, hapart⟩, hlen, hall⟩ := pushChildren_spec hpush h.length
  refine ⟨new, rfl, h.next hlen ?_ hnodup hapart ?_ (fun _ => hne) ?_ (by simpa using h.seen_length)⟩
  · intro e' he'
    obtain ⟨hchild, hdepth', hkeep⟩ := hnew e' he'
    exact ⟨hdepth', ⟨hopen, hkeyring, children, hlinks, hchild⟩, hdepth, hkeep⟩
  · rintro _ child ⟨_, _, children', hlinks', hchild⟩ hkeep
    rw [hlinks] at hlinks'
    cases hlinks'
    obtain ⟨e', he', heq⟩ := hall child hchild (hkeep.imp_left fun hlt => hlt.ne)
    refine ⟨e', he', heq, ?_⟩
    rcases List.mem_append.mp he' with he' | he'
    · exact h.spread e' he' e (List.mem_cons_self ..)
    · exact (hnew e' he').2.1.le
  · intro k
    rw [List.mem_append, List.mem_singleton, or_comm]

/-- Where the request fits, the children of a key find their place. -/
theorem Inv.not_fits {children : List KeyId} {err : KeyError} (h : Inv g request node target done (e :: todo) seen)
    (hopen : Open node e.1) (hkeyring : g.isKeyring e.1 = true) (hlinks : g.links e.1 = .ok children)
    (hpush : pushChildren g request e.2 children (done ++ e :: todo) = .error err) : ¬ Fits g request node := by
  intro hfits
  have hreach : ∀ child ∈ children, Reachable g node request.roots child := by
    intro child hchild
    exact (h.sound e (by simp)).reachable.searches ⟨hopen, hkeyring, children, hlinks, hchild⟩
  rcases pushChildren_error hpush (h.nodup hfits.distinct) with ⟨child, hchild, hnone⟩ | ⟨keys, hnodup, hlt, hall⟩
  · exact hfits.meta_ok child (hreach child hchild) hnone
  · obtain ⟨all, hle, hmem⟩ := hfits.few
    have hsub : keys ⊆ all := by
      intro k hk
      rcases hall k hk with hchild | ⟨e', he', rfl⟩
      · exact hmem k (hreach k hchild)
      · exact hmem e'.1 (h.sound e' he').reachable
    have := (hnodup.subperm hsub).length_le
    omega

theorem bfsLoop_spec (hagree : Agrees g node) {fuel : Nat} (h : Inv g request node target done todo seen)
    (hfuel : request.maxVisits ≤ done.length + fuel) :
    ∃ r, bfsLoop g request node (fun key _ => key = target) fuel (done ++ todo) done.length seen = some r ∧
      SearchResult g request node target r := by
  induction fuel generalizing done todo seen with
  | zero =>
      cases todo with
      | nil => exact ⟨.ok none, by simp [bfsLoop], h.not_possessed⟩
      | cons e todo =>
          have hlen := h.length
          rw [List.length_append, List.length_cons] at hlen
          omega
  | succ fuel ih =>
      cases todo with
      | nil => exact ⟨.ok none, by simp [bfsLoop], h.not_possessed⟩
      | cons e todo =>
          obtain ⟨key, depth⟩ := e
          have hlen := h.length
          rw [List.length_append, List.length_cons] at hlen
          have hseenlen := h.seen_length
          have hfound : Found g request node key depth := h.sound (key, depth) (by simp)
          have hfuel' : request.maxVisits ≤ (done ++ [(key, depth)]).length + fuel := by
            rw [List.length_append, List.length_singleton]
            omega
          -- the rest of the search, after an entry that adds nothing
          have hrest : ∀ {seen'}, Inv g request node target (done ++ [(key, depth)]) todo seen' →
              ∃ r, bfsLoop g request node (fun key _ => key = target) fuel (done ++ (key, depth) :: todo)
                (done.length + 1) seen' = some r ∧ SearchResult g request node target r := by
            intro seen' hnext
            simpa using ih hnext hfuel'
          have hget : (done ++ (key, depth) :: todo)[done.length]? = some (key, depth) := by simp
          have hlimit : ¬ request.maxVisits ≤ seen.length := by omega
          unfold bfsLoop
          simp only [hget, if_neg hlimit]
          by_cases hkey : key ∈ seen
          · rw [if_pos hkey]
            exact hrest (h.again hkey)
          · rw [if_neg hkey]
            cases hnode : node key with
            | error err =>
                refine ⟨_, rfl, ?_⟩
                intro hfits
                obtain ⟨state, hstate⟩ := hfits.node_ok key hfound.reachable
                rw [hnode] at hstate
                cases hstate
            | ok state =>
                have hopen : Open node key ↔ (!state.available || !state.searchable) = false := by
                  simp [Open, hnode]
                dsimp only
                split
                next hclosed =>
                  have hno : ¬ Open node key := by simp [hopen, hclosed]
                  exact hrest (h.stop (fun ho => absurd ho hno) fun _ _ hs => hno hs.1)
                next hsome =>
                  have ho : Open node key := hopen.mpr (Bool.eq_false_iff.mpr hsome)
                  split
                  next htarget =>
                    obtain ⟨root, hroot, hpath⟩ := hfound
                    obtain rfl := of_decide_eq_true htarget
                    exact ⟨_, rfl, ho, root, hroot, depth, hpath⟩
                  next htarget =>
                    have hne : key ≠ target := of_decide_eq_false (Bool.eq_false_iff.mpr htarget)
                    rw [hagree key state hnode]
                    split
                    next hgo =>
                      rw [Bool.and_eq_true, decide_eq_true_eq] at hgo
                      obtain ⟨hdepth, hkeyring⟩ := hgo
                      cases hlinks : g.links key with
                      | error err =>
                          refine ⟨_, rfl, ?_⟩
                          intro hfits
                          obtain ⟨children, hchildren⟩ := hfits.links_ok key hfound.reachable hkeyring
                          rw [hlinks] at hchildren
                          cases hchildren
                      | ok children =>
                          dsimp only
                          cases hpush : pushChildren g request depth children (done ++ (key, depth) :: todo) with
                          | error err => exact ⟨_, rfl, h.not_fits ho hkeyring hlinks hpush⟩
                          | ok queue' =>
                              obtain ⟨new, rfl, hnext⟩ := h.expand hne ho hkeyring hdepth hlinks hpush
                              simpa using ih hnext hfuel'
                    next hgo =>
                      refine hrest (h.stop (fun _ => hne) ?_)
                      rintro hdepth child ⟨_, hkeyring, _⟩
                      exact hgo (by simp only [hdepth, hkeyring, decide_true, Bool.and_self])

end Loop

theorem isPossessed_spec {g : KeyGraph} {node : KeyId → Except KeyError TraversalNode} (hagree : Agrees g node)
    (roots : List KeyId) (target : KeyId) (maxVisits maxDepth : Nat) :
    ∃ r, isPossessed g roots target maxVisits maxDepth node = some r ∧ match r with
      | .ok b => b = true ↔ Possessed g node target roots maxDepth
      | .error _ => ¬ Fits g ⟨roots, maxVisits, maxDepth⟩ node := by
  rw [isPossessed, bfs]
  by_cases hlen : roots.length ≤ maxVisits
  · rw [pushRoots_ok (by simpa using hlen)]
    have hinv : Inv g ⟨roots, maxVisits, maxDepth⟩ node target [] (roots.map (·, 0)) [] := Inv.init hlen
    obtain ⟨r, hr, hout⟩ := bfsLoop_spec hagree hinv (show maxVisits ≤ 0 + maxVisits by simp)
    simp only [List.nil_append, List.length_nil] at hr
    refine ⟨_, congrArg _ hr, ?_⟩
    match r with
    | .ok (some key) => exact ⟨fun _ => hout, fun _ => rfl⟩
    | .ok none => exact ⟨nofun, fun h => absurd h hout⟩
    | .error e => exact hout
  · cases hpush : pushRoots maxVisits roots [] with
    | ok queue =>
        obtain ⟨rfl, hqueue⟩ := pushRoots_eq hpush (Nat.zero_le _)
        rw [List.nil_append, List.length_map] at hqueue
        exact absurd hqueue hlen
    | error e =>
        refine ⟨.error e, rfl, ?_⟩
        intro hfits
        obtain ⟨keys, hle, hmem⟩ := hfits.few
        have hsub : roots ⊆ keys := fun root hroot => hmem root ⟨root, hroot, .refl⟩
        have := (hfits.distinct.subperm hsub).length_le
        exact hlen (this.trans hle)

/-- The search says whether a key is possessed, and it only fails where the
keys are too many or a callback fails. -/
theorem isPossessed_exact {g : KeyGraph} {node : KeyId → Except KeyError TraversalNode} (hagree : Agrees g node)
    (roots : List KeyId) (target : KeyId) (maxVisits maxDepth : Nat) :
    (isPossessed g roots target maxVisits maxDepth node ≠ none) ∧
    (∀ b, isPossessed g roots target maxVisits maxDepth node = some (.ok b) →
      (b = true ↔ Possessed g node target roots maxDepth)) ∧
    (Fits g ⟨roots, maxVisits, maxDepth⟩ node → ∃ b, isPossessed g roots target maxVisits maxDepth node =
      some (.ok b)) := by
  obtain ⟨r, hr, hout⟩ := isPossessed_spec hagree roots target maxVisits maxDepth
  rw [hr]
  refine ⟨nofun, ?_, ?_⟩
  · rintro b ⟨⟩
    exact hout
  · intro hfits
    match r with
    | .ok b => exact ⟨b, rfl⟩
    | .error e => exact absurd hfits hout

def loopGraph : KeyGraph where
  keyMeta key :=
    if key.raw = 1 ∨ key.raw = 2 then some ⟨.keyring, false⟩
    else if key.raw = 3 then some ⟨.user, false⟩
    else none
  links key := .ok (if key.raw = 1 then [Diamond.left] else [Diamond.top, Diamond.right])

def loopNode (key : KeyId) : Except KeyError TraversalNode := .ok ⟨true, true, loopGraph.isKeyring key⟩

theorem loopGraph_reachable {key : KeyId} (h : Reachable loopGraph loopNode [⟨1, by decide⟩] key) :
    key.raw = 1 ∨ key.raw = 2 ∨ key.raw = 3 := by
  obtain ⟨root, hroot, hpath⟩ := h
  induction hpath with
  | refl =>
      rw [List.mem_singleton] at hroot
      exact .inl (congrArg KeyId.raw hroot)
  | tail _ hlast _ =>
      obtain ⟨_, _, children, hlinks, hmem⟩ := hlast
      cases hlinks
      split at hmem
      · simp only [List.mem_singleton] at hmem
        rw [hmem]
        decide
      · simp only [List.mem_cons, List.not_mem_nil, or_false] at hmem
        rcases hmem with rfl | rfl <;> decide

theorem isPossessed_exact_loop : Possessed loopGraph loopNode ⟨3, by decide⟩ [⟨1, by decide⟩] 2 ∧
    ∃ b, isPossessed loopGraph [⟨1, by decide⟩] ⟨3, by decide⟩ 3 2 loopNode = some (.ok b) := by
  have hagree : Agrees loopGraph loopNode := by
    rintro key _ ⟨⟩
    rfl
  have hfits : Fits loopGraph ⟨[⟨1, by decide⟩], 3, 2⟩ loopNode := by
    constructor
    case distinct => simp
    case few =>
      refine ⟨[⟨1, by decide⟩, ⟨2, by decide⟩, ⟨3, by decide⟩], by simp, ?_⟩
      intro key hkey
      obtain ⟨raw, hraw⟩ := key
      rcases loopGraph_reachable hkey with rfl | rfl | rfl <;> simp
    case node_ok => exact fun key _ => ⟨_, rfl⟩
    case meta_ok =>
      intro key hkey
      rcases loopGraph_reachable hkey with h | h | h <;> simp [loopGraph, h]
    case links_ok => exact fun key _ _ => ⟨_, rfl⟩
  obtain ⟨_, hsound, hok⟩ := isPossessed_exact hagree [⟨1, by decide⟩] ⟨3, by decide⟩ 3 2
  exact ⟨(hsound true (by decide +kernel)).mp rfl, hok hfits⟩

end TheKernel.Keyring
