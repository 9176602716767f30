import TheKernel.IoUring.RequestRefine

namespace TheKernel.IoUring

open Outcome Act RequestRegistry Board

def EntryState.claimed : EntryState → Bool
  | .terminalClaimed _ | .completionPending _ | .publishing _ => true
  | .reserved | .prepared | .issued _ | .shotInFlight _ => false

def EntryState.early : EntryState → Bool
  | .reserved | .prepared => true
  | _ => false

def EntryState.mode : EntryState → Option CancellationMode
  | .issued mode | .shotInFlight mode => some mode
  | _ => none

def EntryState.completion : EntryState → Option Completion
  | .completionPending completion | .publishing completion => some completion
  | _ => none

def RequestRegistry.Op.claims : Op → Bool
  | .claimTerminal .. | .claimCancel .. | .claimCancellableAtSlot .. => true
  | _ => false

def RequestRegistry.Op.token : Op → Option RequestId
  | .rollback reservation | .commit reservation => some reservation.id
  | .issue prepared _ => some prepared.id
  | .beginNonterminalShot issued | .beginSideEffect issued | .abortNonterminalShot issued
  | .claimTerminalAfterNonterminalShot issued _ | .publishNonterminal issued _ _ => some issued.id
  | .claimTerminal id _ | .beginProviderCancel id | .finishProviderCancel id _ => some id
  | .claimCancel (.request id) _ | .selectProviderCancelCandidate (.request id) _ _ => some id
  | .finishTerminal permit _ _ => some permit.id
  | .publish token | .discardCompletion token => some token.id
  | .commitPublication publication | .rollbackPublication publication
  | .rollbackNonterminalPublication publication => some publication.id
  | .reserve _ | .claimCancellableAtSlot .. | .claimCancel .. | .selectProviderCancelCandidate ..
  | .observeCompletionHead _ | .beginClose | .beginDraining | .discardPublished | .finishClose | .progress => none

structure Turn (op : Op) (response : Response) (id : RequestId) (e : RequestEntry) (next : Option EntryState) :
    Prop where
  reserved : ∀ reservation, response ≠ .reserved reservation
  permitted : ∀ permit, response = .permitted permit →
    permit.id = id ∧ e.state.claimed = false ∧ next = some (.terminalClaimed permit.cause)
  kept : (∀ permit, response ≠ .permitted permit) → ∀ s, next = some s → s.claimed = e.state.claimed
  published : ∀ publication, response = .published publication →
    publication.id = id ∧ (publication.terminal = true → next = none ∧ e.state = .publishing publication.completion)
  issued : ∀ issued, response = .issued issued →
    issued.id = id ∧ e.state = .prepared ∧ next = some (.issued issued.cancellationMode)
  mode : ∀ s, next = some s → s.mode = none ∨ s.mode = e.state.mode ∨ ∃ issued, response = .issued issued
  early : ∀ s, next = some s → s.early = true → e.state.early = true
  completion : ∀ s, next = some s → ∀ completion, s.completion = some completion →
    e.state.completion = some completion ∨ completion.userData = e.descriptor.userData
  claims : op.claims = true → ∀ permit, response = .permitted permit → Claims permit.cause e.state

namespace Board

variable {b b' : Board} {op : Op} {response : Response} {id : RequestId}

theorem Claims.unclaimed {cause : TerminalCause} {state : EntryState} (h : Claims cause state) :
    state.claimed = false := by
  rcases h with rfl | ⟨mode, rfl, _⟩
  · rfl
  · rfl

end Board

def Response.plain : Response → Bool
  | .prepared _ | .completed _ | .planned _ | .selected _ | .passed _ | .done => true
  | .reserved _ | .issued _ | .permitted _ | .published _ => false

section Turn

variable {op : Op} {response : Response} {id : RequestId} {e : RequestEntry} {s s' : EntryState}

theorem Turn.plain (hplain : response.plain = true) (hstate : e.state = s) (hclaimed : s'.claimed = s.claimed)
    (hmode : s'.mode = none ∨ s'.mode = s.mode) (hearly : s'.early = true → s.early = true)
    (hcompletion : ∀ completion, s'.completion = some completion →
      s.completion = some completion ∨ completion.userData = e.descriptor.userData) : Turn op response id e
        (some s') where
  reserved := by
    rintro _ rfl
    cases hplain
  permitted := by
    rintro _ rfl
    cases hplain
  kept := by
    rintro - _ ⟨⟩
    rw [hstate, hclaimed]
  published := by
    rintro _ rfl
    cases hplain
  issued := by
    rintro _ rfl
    cases hplain
  mode := by
    rintro _ ⟨⟩
    rw [hstate]
    exact hmode.imp (fun h => h) .inl
  early := by
    rintro _ ⟨⟩
    rw [hstate]
    exact hearly
  completion := by
    rintro _ ⟨⟩
    rw [hstate]
    exact hcompletion
  claims := by
    rintro _ _ rfl
    cases hplain

theorem Turn.leave (hplain : response.plain = true) : Turn op response id e none where
  reserved := by
    rintro _ rfl
    cases hplain
  permitted := by
    rintro _ rfl
    cases hplain
  kept := nofun
  published := by
    rintro _ rfl
    cases hplain
  issued := by
    rintro _ rfl
    cases hplain
  mode := nofun
  early := nofun
  completion := nofun
  claims := by
    rintro _ _ rfl
    cases hplain

theorem Turn.permit {permit : TerminalPermit} (hclaimed : e.state.claimed = false)
    (hclaims : op.claims = true → Board.Claims permit.cause e.state) :
    Turn op (.permitted permit) permit.id e (some (.terminalClaimed permit.cause)) where
  reserved := nofun
  permitted := by
    rintro _ ⟨⟩
    exact ⟨rfl, hclaimed, rfl⟩
  kept := fun hnot => absurd rfl (hnot permit)
  published := nofun
  issued := nofun
  mode := by
    rintro _ ⟨⟩
    exact .inl rfl
  early := by
    rintro _ ⟨⟩ ⟨⟩
  completion := by
    rintro _ ⟨⟩ _ ⟨⟩
  claims := by
    rintro hop _ ⟨⟩
    exact hclaims hop

theorem Turn.issue {issued : IssuedRequest} (hstate : e.state = .prepared) :
    Turn op (.issued issued) issued.id e (some (.issued issued.cancellationMode)) where
  reserved := nofun
  permitted := nofun
  kept := by
    rintro - _ ⟨⟩
    rw [hstate]
    rfl
  published := nofun
  issued := by
    rintro _ ⟨⟩
    exact ⟨rfl, hstate, rfl⟩
  mode := by
    rintro _ ⟨⟩
    exact .inr (.inr ⟨issued, rfl⟩)
  early := by
    rintro _ ⟨⟩ ⟨⟩
  completion := by
    rintro _ ⟨⟩ _ ⟨⟩
  claims := fun _ => nofun

theorem Turn.finish {publication : CompletionPublication} (hstate : e.state = .publishing publication.completion) :
    Turn op (.published publication) publication.id e none where
  reserved := nofun
  permitted := nofun
  kept := nofun
  published := by
    rintro _ ⟨⟩
    exact ⟨rfl, fun _ => ⟨rfl, hstate⟩⟩
  issued := nofun
  mode := nofun
  early := nofun
  completion := nofun
  claims := fun _ => nofun

theorem Turn.more {publication : CompletionPublication} {mode : CancellationMode}
    (hstate : e.state = .shotInFlight mode) (hterminal : publication.terminal = false) :
    Turn op (.published publication) publication.id e (some (.issued mode)) where
  reserved := nofun
  permitted := nofun
  kept := by
    rintro - _ ⟨⟩
    rw [hstate]
    rfl
  published := by
    rintro _ ⟨⟩
    refine ⟨rfl, fun hfinal => ?_⟩
    rw [hterminal] at hfinal
    cases hfinal
  issued := nofun
  mode := by
    rintro _ ⟨⟩
    rw [hstate]
    exact .inr (.inl rfl)
  early := by
    rintro _ ⟨⟩ ⟨⟩
  completion := by
    rintro _ ⟨⟩ _ ⟨⟩
  claims := fun _ => nofun

end Turn

namespace Board

variable {b b' : Board} {op : Op} {response : Response} {id : RequestId}

/-- A step adds a request under a new id, moves one, or only shows in the
bookkeeping of publications. -/
theorem Step.turns (h : b.Step op response b') :
    (∃ id descriptor sequence, response = .reserved ⟨id, descriptor⟩ ∧ id ∉ b.used ∧ b.entries id = none ∧
      b'.used = id :: b.used ∧ b'.entries = Function.update b.entries id (some ⟨descriptor, sequence, .reserved⟩)) ∨
    (∃ id e next, b.entries id = some e ∧ b'.used = b.used ∧ Turn op response id e next ∧
      b'.entries = Function.update b.entries id (next.map fun s => { e with state := s })) ∨
    b'.used = b.used ∧ b'.entries = b.entries ∧ response.plain = true := by
  cases h with
  | reserve hused hnone => exact .inl ⟨_, _, _, rfl, hused, hnone, rfl, rfl⟩
  | publishNonterminal | skipSlot | idle | passed => exact .inr (.inr ⟨rfl, rfl, rfl⟩)
  | rollback he | discardCompletion he => exact .inr (.inl ⟨_, _, none, he, rfl, .leave rfl, rfl⟩)
  | commitTerminal he hstate => exact .inr (.inl ⟨_, _, none, he, rfl, .finish hstate, rfl⟩)
  | commitNonterminal he hstate _ hterminal => exact .inr (.inl ⟨_, _, some _, he, rfl, .more hstate hterminal, rfl⟩)
  | issue he hstate => exact .inr (.inl ⟨_, _, some _, he, rfl, .issue hstate, rfl⟩)
  | commit he hstate =>
      refine .inr (.inl ⟨_, _, some _, he, rfl, ?_, rfl⟩)
      exact .plain rfl hstate rfl (.inl rfl) (fun _ => rfl) nofun
  | beginNonterminalShot he hstate | beginSideEffect he hstate | selectProviderCancelCandidate he hstate
  | beginProviderCancel he hstate | abortNonterminalShot he hstate | providerInFlight he hstate
  | rollbackNonterminalPublication he hstate =>
      refine .inr (.inl ⟨_, _, some _, he, rfl, ?_, rfl⟩)
      exact .plain rfl hstate rfl (.inr rfl) nofun nofun
  | finishTerminal he hstate =>
      refine .inr (.inl ⟨_, _, some _, he, rfl, ?_, rfl⟩)
      refine .plain rfl hstate rfl (.inl rfl) nofun ?_
      rintro _ ⟨⟩
      exact .inr rfl
  | publish he hstate | rollbackPublication he hstate =>
      refine .inr (.inl ⟨_, _, some _, he, rfl, ?_, rfl⟩)
      exact .plain rfl hstate rfl (.inl rfl) nofun fun _ => .inl
  | claimTerminalAfterNonterminalShot he hstate | providerCancelled he hstate =>
      refine .inr (.inl ⟨_, _, some _, he, rfl, ?_, rfl⟩)
      exact .permit (by rw [hstate]; rfl) nofun
  | claimCancellableAtSlot he hstate =>
      refine .inr (.inl ⟨_, _, some _, he, rfl, ?_, rfl⟩)
      exact .permit (by rw [hstate]; rfl) fun _ => .inr ⟨_, hstate, .inl rfl⟩
  | claimTerminal he hclaims | claimCancel he hclaims =>
      refine .inr (.inl ⟨_, _, some _, he, rfl, ?_, rfl⟩)
      exact .permit hclaims.unclaimed fun _ => hclaims

end Board

structure Record where
  op : Op
  response : Response

def Record.permits (id : RequestId) (record : Record) : Bool :=
  match record.response with
  | .permitted permit => permit.id = id
  | _ => false

namespace RequestRegistry

/-- The registries that any calls lead to, and the calls that returned, the
latest first. -/
inductive Trace (ring capacity cqEntries : Nat) : RequestRegistry → List Record → Prop
  | start {r : RequestRegistry} (h : new ring capacity cqEntries = .ok r) : Trace ring capacity cqEntries r []
  | step {r t : RequestRegistry} {trace : List Record} {op : Op} {response : Response}
      (h : Trace ring capacity cqEntries r trace)
      (hstep : respond op r = (.ok response, t)) : Trace ring capacity cqEntries t (⟨op, response⟩ :: trace)
  | failed {r t : RequestRegistry} {trace : List Record} {op : Op} {error : IoUringError}
      (h : Trace ring capacity cqEntries r trace) (hstep : respond op r = (.err error, t)) :
        Trace ring capacity cqEntries t trace

theorem Trace.respondAll {ring capacity cqEntries : Nat} {r t : RequestRegistry} {trace : List Record} {ops : List Op}
    {responses : List Response} (h : Trace ring capacity cqEntries r trace)
    (hrun : respondAll ops r = some (responses, t)) :
    Trace ring capacity cqEntries t ((List.zipWith Record.mk ops responses).reverse ++ trace) := by
  induction ops generalizing r trace responses with
  | nil =>
      cases hrun
      exact h
  | cons op ops ih =>
      rw [RequestRegistry.respondAll] at hrun
      split at hrun
      · rename_i response s hstep
        obtain ⟨⟨rest, t'⟩, hrest, heq⟩ := Option.map_eq_some_iff.mp hrun
        cases heq
        rw [List.zipWith_cons_cons, List.reverse_cons, List.append_assoc]
        exact ih (h.step hstep) hrest
      · cases hrun

end RequestRegistry

structure Told (b : Board) (trace : List Record) : Prop where
  used : ∀ id e, b.entries id = some e → id ∈ b.used
  past : ∀ record ∈ trace, ∀ publication, record.response = .published publication → publication.id ∈ b.used
  gone : ∀ record ∈ trace, ∀ publication, record.response = .published publication → publication.terminal = true →
    b.entries publication.id = none
  permits : ∀ id, trace.countP (Record.permits id) ≤ 1 ∧ (id ∉ b.used → trace.countP (Record.permits id) = 0) ∧
    ∀ e, b.entries id = some e → trace.countP (Record.permits id) = if e.state.claimed then 1 else 0
  descriptor : ∀ record ∈ trace, ∀ id descriptor, record.response = .reserved ⟨id, descriptor⟩ →
    id ∈ b.used ∧ ∀ e, b.entries id = some e → e.descriptor = descriptor
  completion : ∀ id e completion, b.entries id = some e → e.state.completion = some completion →
    completion.userData = e.descriptor.userData
  issued : ∀ record ∈ trace, ∀ issued, record.response = .issued issued →
    issued.id ∈ b.used ∧ ∀ e, b.entries issued.id = some e →
      e.state.early = false ∧ (e.state.mode = none ∨ e.state.mode = some issued.cancellationMode)

  delivered : ∀ record ∈ trace, ∀ publication, record.response = .published publication → publication.terminal = true →
    ∀ earlier ∈ trace, ∀ descriptor, earlier.response = .reserved ⟨publication.id, descriptor⟩ →
      publication.completion.userData = descriptor.userData
  last : trace.Pairwise fun later earlier => ∀ publication final, later.response = .published publication →
    earlier.response = .published final → final.terminal = true → publication.id ≠ final.id
  cancelled : ∀ record ∈ trace, record.op.claims = true → ∀ permit, record.response = .permitted permit →
    permit.cause = .cancelled ∨ permit.cause = .closing → ∀ other ∈ trace, ∀ issued, other.response = .issued issued →
      issued.id = permit.id → issued.cancellationMode = .cancellable

section Told

variable {b b' : Board} {trace : List Record} {op : Op} {response : Response} {id : RequestId} {e : RequestEntry}
  {next : Option EntryState}

/-- A request with a permit to its name is claimed for good. -/
theorem Told.unpermitted (h : Told b trace) (he : b.entries id = some e) (hclaimed : e.state.claimed = false) :
    ∀ record ∈ trace, ∀ permit, record.response = .permitted permit → permit.id ≠ id := by
  intro record hrecord permit hpermit hid
  have hzero := (h.permits id).2.2 e he
  rw [hclaimed, if_neg nofun, List.countP_eq_zero] at hzero
  refine hzero record hrecord ?_
  rw [Record.permits, hpermit]
  exact decide_eq_true hid

theorem Told.same (h : Told b trace) (hused : b'.used = b.used) (hentries : b'.entries = b.entries)
    (hplain : response.plain = true) : Told b' (⟨op, response⟩ :: trace) := by
  have hnot : (∀ p, response ≠ .published p) ∧ (∀ p, response ≠ .permitted p) ∧ (∀ x, response ≠ .reserved x) ∧
      ∀ i, response ≠ .issued i := by
    refine ⟨?_, ?_, ?_, ?_⟩ <;> (rintro _ rfl; cases hplain)
  obtain ⟨hpublished, hpermitted, hreserved, hissued⟩ := hnot
  have hcount : ∀ id, (⟨op, response⟩ :: trace).countP (Record.permits id) = trace.countP (Record.permits id) := by
    intro id
    rw [List.countP_cons_of_neg]
    cases response <;> first | cases hplain; done | simp [Record.permits]
  constructor
  · rw [hused, hentries]
    exact h.used
  · rw [hused, List.forall_mem_cons]
    exact ⟨fun p hp => absurd hp (hpublished p), h.past⟩
  · rw [hentries, List.forall_mem_cons]
    exact ⟨fun p hp => absurd hp (hpublished p), h.gone⟩
  · intro id
    rw [hcount, hused, hentries]
    exact h.permits id
  · rw [hused, hentries, List.forall_mem_cons]
    exact ⟨fun id descriptor hx => absurd hx (hreserved _), h.descriptor⟩
  · rw [hentries]
    exact h.completion
  · rw [hused, hentries, List.forall_mem_cons]
    exact ⟨fun i hi => absurd hi (hissued i), h.issued⟩
  · rw [List.forall_mem_cons]
    refine ⟨fun p hp => absurd hp (hpublished p), ?_⟩
    intro record hrecord publication hpublication hterminal
    rw [List.forall_mem_cons]
    exact ⟨fun descriptor hx => absurd hx (hreserved _), h.delivered record hrecord publication hpublication hterminal⟩
  · exact List.pairwise_cons.mpr ⟨fun _ _ p _ hp => absurd hp (hpublished p), h.last⟩
  · rw [List.forall_mem_cons]
    refine ⟨fun _ permit hpermit => absurd hpermit (hpermitted permit), ?_⟩
    intro record hrecord hclaims permit hpermit hcause
    rw [List.forall_mem_cons]
    exact ⟨fun i hi => absurd hi (hissued i), h.cancelled record hrecord hclaims permit hpermit hcause⟩

/-- A request appears under an id that was not used before. -/
theorem Told.add (h : Told b trace) {descriptor : RequestDescriptor} {sequence : Nat} (hid : id ∉ b.used)
    (hused : b'.used = id :: b.used)
    (hentries : b'.entries = Function.update b.entries id (some ⟨descriptor, sequence, .reserved⟩)) :
    Told b' (⟨op, .reserved ⟨id, descriptor⟩⟩ :: trace) := by
  have hmem : ∀ id', id' ∈ b.used → id' ∈ b'.used := by
    intro id' hin
    rw [hused]
    exact List.mem_cons_of_mem _ hin
  have hold : ∀ id' e, id' ∈ b.used → b'.entries id' = some e → b.entries id' = some e := by
    intro id' e hin he
    rw [hentries, Function.update_of_ne (by rintro rfl; exact hid hin)] at he
    exact he
  constructor
  · intro id' e he
    rw [hused, List.mem_cons]
    by_cases heq : id' = id
    · exact .inl heq
    · rw [hentries, Function.update_of_ne heq] at he
      exact .inr (h.used id' e he)
  · rw [List.forall_mem_cons]
    exact ⟨nofun, fun record hrecord publication hp => hmem _ (h.past record hrecord publication hp)⟩
  · rw [List.forall_mem_cons]
    refine ⟨nofun, ?_⟩
    intro record hrecord publication hp hterminal
    have hin := h.past record hrecord publication hp
    rw [hentries, Function.update_of_ne (by intro heq; exact hid (heq ▸ hin))]
    exact h.gone record hrecord publication hp hterminal
  · intro id'
    obtain ⟨hle, hfresh, hclaimed⟩ := h.permits id'
    rw [List.countP_cons_of_neg (by simp [Record.permits])]
    refine ⟨hle, ?_, ?_⟩
    · intro hnot
      exact hfresh fun hin => hnot (hmem id' hin)
    · intro e he
      by_cases heq : id' = id
      · subst heq
        rw [hentries, Function.update_self, Option.some.injEq] at he
        rw [← he]
        exact hfresh hid
      · rw [hentries, Function.update_of_ne heq] at he
        exact hclaimed e he
  · rw [List.forall_mem_cons]
    constructor
    · rintro id' descriptor' ⟨⟩
      refine ⟨hused ▸ List.mem_cons_self, ?_⟩
      intro e he
      rw [hentries, Function.update_self, Option.some.injEq] at he
      rw [← he]
    · intro record hrecord id' descriptor' hx
      obtain ⟨hin, hsame⟩ := h.descriptor record hrecord id' descriptor' hx
      exact ⟨hmem id' hin, fun e he => hsame e (hold id' e hin he)⟩
  · intro id' e completion he hcompletion
    by_cases heq : id' = id
    · subst heq
      rw [hentries, Function.update_self, Option.some.injEq] at he
      rw [← he] at hcompletion
      cases hcompletion
    · rw [hentries, Function.update_of_ne heq] at he
      exact h.completion id' e completion he hcompletion
  · rw [List.forall_mem_cons]
    refine ⟨nofun, ?_⟩
    intro record hrecord issued hissued
    obtain ⟨hin, hsame⟩ := h.issued record hrecord issued hissued
    exact ⟨hmem _ hin, fun e he => hsame e (hold _ e hin he)⟩
  · rw [List.forall_mem_cons]
    refine ⟨nofun, ?_⟩
    intro record hrecord publication hp hterminal
    rw [List.forall_mem_cons]
    refine ⟨?_, h.delivered record hrecord publication hp hterminal⟩
    rintro descriptor' ⟨⟩
    exact absurd (h.past record hrecord publication hp) hid
  · exact List.pairwise_cons.mpr ⟨fun _ _ _ _ => nofun, h.last⟩
  · rw [List.forall_mem_cons]
    refine ⟨fun _ => nofun, ?_⟩
    intro record hrecord hclaims permit hpermit hcause
    rw [List.forall_mem_cons]
    exact ⟨nofun, h.cancelled record hrecord hclaims permit hpermit hcause⟩

theorem Told.turn (h : Told b trace) (he : b.entries id = some e) (hused : b'.used = b.used)
    (hturn : Turn op response id e next)
    (hentries : b'.entries = Function.update b.entries id (next.map fun s => { e with state := s })) :
    Told b' (⟨op, response⟩ :: trace) := by
  have hid : id ∈ b'.used := hused ▸ h.used id e he
  have hown : ∀ e', b'.entries id = some e' → ∃ s, next = some s ∧ e' = { e with state := s } := by
    intro e' he'
    rw [hentries, Function.update_self, Option.map_eq_some_iff] at he'
    obtain ⟨s, hs, heq⟩ := he'
    exact ⟨s, hs, heq.symm⟩
  have hother : ∀ id', id' ≠ id → b'.entries id' = b.entries id' := by
    intro id' hne
    rw [hentries, Function.update_of_ne hne]
  constructor
  · intro id' e' he'
    by_cases heq : id' = id
    · exact heq ▸ hid
    · rw [hother id' heq] at he'
      exact hused ▸ h.used id' e' he'
  · rw [hused, List.forall_mem_cons]
    refine ⟨?_, h.past⟩
    intro publication hp
    rw [(hturn.published publication hp).1]
    exact h.used id e he
  · rw [List.forall_mem_cons]
    constructor
    · intro publication hp hterminal
      obtain ⟨heq, hfinal⟩ := hturn.published publication hp
      rw [heq, hentries, Function.update_self, (hfinal hterminal).1]
      rfl
    · intro record hrecord publication hp hterminal
      have hnone := h.gone record hrecord publication hp hterminal
      rw [hother, hnone]
      rintro heq
      rw [heq, he] at hnone
      cases hnone
  · intro id'
    obtain ⟨hle, hfresh, hclaimed⟩ := h.permits id'
    cases hresponse : response with
    | permitted permit =>
        obtain ⟨hpermit, hunclaimed, hnext⟩ := hturn.permitted permit hresponse
        by_cases heq : id' = id
        · subst heq
          have hzero := hclaimed e he
          rw [hunclaimed, if_neg nofun] at hzero
          rw [List.countP_cons_of_pos (by simp [Record.permits, hpermit]), hzero]
          refine ⟨le_rfl, fun hnot => absurd hid hnot, ?_⟩
          intro e' he'
          obtain ⟨s, hs, rfl⟩ := hown e' he'
          rw [hnext, Option.some.injEq] at hs
          rw [← hs]
          rfl
        · have hne : ¬permit.id = id' := fun hp => heq (hp.symm.trans hpermit)
          rw [List.countP_cons_of_neg (by simp [Record.permits, hne]), hused, hother id' heq]
          exact ⟨hle, hfresh, hclaimed⟩
    | reserved | prepared | issued | completed | planned | published | selected | passed | done =>
        rw [List.countP_cons_of_neg (by simp [Record.permits]), hused]
        refine ⟨hle, hfresh, ?_⟩
        intro e' he'
        by_cases heq : id' = id
        · subst heq
          obtain ⟨s, hs, rfl⟩ := hown e' he'
          rw [hturn.kept (by simp [hresponse]) s hs]
          exact hclaimed e he
        · rw [hother id' heq] at he'
          exact hclaimed e' he'
  · rw [hused, List.forall_mem_cons]
    refine ⟨fun id' descriptor hx => absurd hx (hturn.reserved _), ?_⟩
    intro record hrecord id' descriptor hx
    obtain ⟨hin, hsame⟩ := h.descriptor record hrecord id' descriptor hx
    refine ⟨hin, ?_⟩
    intro e' he'
    by_cases heq : id' = id
    · subst heq
      obtain ⟨s, _, rfl⟩ := hown e' he'
      exact hsame e he
    · rw [hother id' heq] at he'
      exact hsame e' he'
  · intro id' e' completion he' hcompletion
    by_cases heq : id' = id
    · subst heq
      obtain ⟨s, hs, rfl⟩ := hown e' he'
      rcases hturn.completion s hs completion hcompletion with hold | hdata
      · exact h.completion id' e completion he hold
      · exact hdata
    · rw [hother id' heq] at he'
      exact h.completion id' e' completion he' hcompletion
  · rw [hused, List.forall_mem_cons]
    constructor
    · intro issued hissued
      obtain ⟨hsame, _, hnext⟩ := hturn.issued issued hissued
      rw [hsame]
      refine ⟨h.used id e he, ?_⟩
      intro e' he'
      obtain ⟨s, hs, rfl⟩ := hown e' he'
      rw [hnext, Option.some.injEq] at hs
      rw [← hs]
      exact ⟨rfl, .inr rfl⟩
    · intro record hrecord issued hissued
      obtain ⟨hin, hsame⟩ := h.issued record hrecord issued hissued
      refine ⟨hin, ?_⟩
      intro e' he'
      by_cases heq : issued.id = id
      · rw [heq] at he' hsame
        obtain ⟨s, hs, rfl⟩ := hown e' he'
        obtain ⟨hearly, hmode⟩ := hsame e he
        constructor
        · cases hnext : s.early with
          | false => rfl
          | true =>
              rw [hturn.early s hs hnext] at hearly
              cases hearly
        · rcases hturn.mode s hs with hnone | hkept | ⟨issued', hissued'⟩
          · exact .inl hnone
          · exact hkept ▸ hmode
          · rw [(hturn.issued issued' hissued').2.1] at hearly
            cases hearly
      · rw [hother _ heq] at he'
        exact hsame e' he'
  · rw [List.forall_mem_cons]
    constructor
    · intro publication hp hterminal
      rw [List.forall_mem_cons]
      refine ⟨fun descriptor hx => absurd hx (hturn.reserved _), ?_⟩
      intro earlier hearlier descriptor hx
      obtain ⟨heq, hfinal⟩ := hturn.published publication hp
      rw [heq] at hx
      have hdata := h.completion id e publication.completion he (by rw [(hfinal hterminal).2]; rfl)
      rw [hdata, (h.descriptor earlier hearlier id descriptor hx).2 e he]
    · intro record hrecord publication hp hterminal
      rw [List.forall_mem_cons]
      exact ⟨fun descriptor hx => absurd hx (hturn.reserved _), h.delivered record hrecord publication hp hterminal⟩
  · refine List.pairwise_cons.mpr ⟨?_, h.last⟩
    intro earlier hearlier publication final hp hfinal hterminal heq
    have hnone := h.gone earlier hearlier final hfinal hterminal
    rw [← heq, (hturn.published publication hp).1, he] at hnone
    cases hnone
  · rw [List.forall_mem_cons]
    constructor
    · intro hclaims permit hpermit hcause
      rw [List.forall_mem_cons]
      refine ⟨fun issued hissued => absurd (hpermit.symm.trans hissued) nofun, ?_⟩
      intro other hmem issued hissued hsame
      rw [(hturn.permitted permit hpermit).1] at hsame
      have htold := (h.issued other hmem issued hissued).2
      rw [hsame] at htold
      obtain ⟨hearly, hmode⟩ := htold e he
      rcases hturn.claims hclaims permit hpermit with hprepared | ⟨mode, hstate, hallowed⟩
      · rw [hprepared] at hearly
        cases hearly
      · have hmode' : mode = .cancellable := by
          rcases hallowed with hcancellable | hcompleted
          · exact hcancellable
          · rw [hcompleted] at hcause
            rcases hcause with hcause | hcause <;> cases hcause
        rw [hstate, hmode'] at hmode
        rcases hmode with hmode | hmode
        · cases hmode
        · exact (Option.some.inj hmode).symm
    · intro record hrecord hclaims permit hpermit hcause
      rw [List.forall_mem_cons]
      refine ⟨?_, h.cancelled record hrecord hclaims permit hpermit hcause⟩
      intro issued hissued hsame
      obtain ⟨heq, hprepared, _⟩ := hturn.issued issued hissued
      refine absurd (hsame.symm.trans heq) (h.unpermitted he ?_ record hrecord permit hpermit)
      rw [hprepared]
      rfl

theorem told_nil (h : ∀ id e, b.entries id ≠ some e) : Told b [] where
  used := fun id e he => absurd he (h id e)
  past := fun _ hrecord => absurd hrecord List.not_mem_nil
  gone := fun _ hrecord => absurd hrecord List.not_mem_nil
  permits := fun id => ⟨Nat.zero_le _, fun _ => rfl, fun e he => absurd he (h id e)⟩
  descriptor := fun _ hrecord => absurd hrecord List.not_mem_nil
  completion := fun id e _ he => absurd he (h id e)
  issued := fun _ hrecord => absurd hrecord List.not_mem_nil
  delivered := fun _ hrecord => absurd hrecord List.not_mem_nil
  last := List.Pairwise.nil
  cancelled := fun _ hrecord => absurd hrecord List.not_mem_nil

theorem Told.step (h : Told b trace) (hstep : b.Step op response b') : Told b' (⟨op, response⟩ :: trace) := by
  rcases hstep.turns with ⟨id, descriptor, sequence, rfl, hid, -, hused, hentries⟩ |
    ⟨id, e, next, he, hused, hturn, hentries⟩ | ⟨hused, hentries, hresponse⟩
  · exact h.add hid hused hentries
  · exact h.turn he hused hturn hentries
  · exact h.same hused hentries hresponse

end Told

namespace RequestRegistry

variable {ring capacity cqEntries : Nat} {r : RequestRegistry} {trace : List Record} {op : Op} {id : RequestId}

theorem token_of_idle (h : op.Idle) : op.token = none := by
  cases op <;> first | rfl | exact h.elim

/-- A call that returns found the request that its token names. -/
theorem token_found {b b' : Board} {response : Response} (h : b.Step op response b') (hid : op.token = some id) :
    ∃ e, b.entries id = some e := by
  cases h with
  | @claimCancel selector _ _ _ he _ hnamed | @selectProviderCancelCandidate selector _ _ _ _ _ he _ hnamed =>
      cases selector with
      | request id' =>
          rw [Op.token, Option.some.injEq] at hid
          rw [← hid, hnamed id' rfl]
          exact ⟨_, he⟩
      | userData data => cases hid
      | timeoutUserData data => cases hid
  | reserve | claimCancellableAtSlot | skipSlot => cases hid
  | idle hidle | passed hidle =>
      rw [token_of_idle hidle] at hid
      cases hid
  | rollback he | commit he | issue he | beginNonterminalShot he | beginSideEffect he | abortNonterminalShot he
  | claimTerminalAfterNonterminalShot he | claimTerminal he | beginProviderCancel he | providerCancelled he
  | providerInFlight he | finishTerminal he | publish he | publishNonterminal he | commitTerminal he
  | commitNonterminal he | rollbackPublication he | rollbackNonterminalPublication he | discardCompletion he =>
      rw [Op.token, Option.some.injEq] at hid
      rw [← hid]
      exact ⟨_, he⟩

theorem found_initial (h : new ring capacity cqEntries = .ok r) (id : RequestId) (e : RequestEntry) :
    r.found id ≠ some e := by
  intro he
  have hslot := (entry_eq_ok.mp (found_eq_some.mp he)).2
  rw [new] at h
  split at h
  · cases h
  · split at h
    · cases h
    · cases h
      simp [initial, List.getElem?_replicate] at hslot

theorem Trace.told (h : Trace ring capacity cqEntries r trace) : ∃ used, Core r used ∧ Told (board r used) trace := by
  induction h with
  | start h =>
      exact ⟨[], core_initial h, told_nil (found_initial h)⟩
  | step h hstep ih =>
      obtain ⟨used, hcore, htold⟩ := ih
      obtain ⟨used', hcore', hboard⟩ := (hcore.respond _).ok_of hstep
      exact ⟨used', hcore', htold.step hboard⟩
  | failed h hstep ih =>
      obtain ⟨used, hcore, htold⟩ := ih
      rcases (hcore.respond _).err_of hstep with rfl | ⟨_, hcore', hboard⟩
      · exact ⟨used, hcore, htold⟩
      · exact ⟨used, hcore', hboard ▸ htold⟩

/-- A token of a generation that its slot has left is refused, and nothing
changes. -/
theorem stale_refused (h : Trace ring capacity cqEntries r trace) (hid : op.token = some id) {slot : RequestSlot}
    (hslot : r.slots[id.slot]? = some slot) (hstale : ∀ g, slot.generation = some g → id.generation < g) :
    ∃ error, respond op r = (.err error, r) := by
  obtain ⟨used, hcore, -⟩ := h.told
  have hspec := hcore.respond op
  rcases hres : respond op r with ⟨outcome, t⟩
  cases outcome with
  | ok response =>
      obtain ⟨used', -, hstep⟩ := hspec.ok_of hres
      obtain ⟨e, he⟩ := token_found hstep hid
      have hfound := (entry_eq_ok.mp (found_eq_some.mp he)).2
      rw [hslot, Option.some.injEq] at hfound
      rw [hfound] at hstale
      exact absurd (hstale _ rfl) (lt_irrefl _)
  | err error =>
      rcases hspec.err_of hres with rfl | ⟨hidle, -⟩
      · exact ⟨error, rfl⟩
      · rw [token_of_idle hidle] at hid
        cases hid
  | panic => exact (hspec.panic_of (by rw [hres])).elim

/-- Whatever the order of the calls, a request has one terminal completion with
its own data and nothing after it, one owner of the terminal transition, and no
cancellation that its mode excludes. -/
theorem terminal_once (h : Trace ring capacity cqEntries r trace) :
    (trace.Pairwise fun later earlier => ∀ publication final, later.response = .published publication →
      earlier.response = .published final → final.terminal = true → publication.id ≠ final.id) ∧
    (∀ record ∈ trace, ∀ publication, record.response = .published publication → publication.terminal = true →
      ∀ earlier ∈ trace, ∀ descriptor, earlier.response = .reserved ⟨publication.id, descriptor⟩ →
        publication.completion.userData = descriptor.userData) ∧
    (∀ id, trace.countP (Record.permits id) ≤ 1) ∧
    (∀ op id slot, op.token = some id → r.slots[id.slot]? = some slot →
      (∀ g, slot.generation = some g → id.generation < g) → ∃ error, respond op r = (.err error, r)) ∧
    ∀ record ∈ trace, record.op.claims = true → ∀ permit, record.response = .permitted permit →
      permit.cause = .cancelled ∨ permit.cause = .closing → ∀ other ∈ trace, ∀ issued, other.response = .issued issued →
        issued.id = permit.id → issued.cancellationMode ≠ .uncancellable ∧ issued.cancellationMode ≠
          .providerControlled := by
  obtain ⟨used, -, htold⟩ := h.told
  refine ⟨htold.last, htold.delivered, fun id => (htold.permits id).1, ?_, ?_⟩
  · intro op id slot hid hslot hstale
    exact stale_refused h hid hslot hstale
  · intro record hrecord hclaims permit hpermit hcause other hother issued hissued hsame
    rw [htold.cancelled record hrecord hclaims permit hpermit hcause other hother issued hissued hsame]
    exact ⟨nofun, nofun⟩

-- A `nop` completes, and the poll that gets its slot is cancelled.
def reusedOps : List Op :=
  [.reserve ⟨7, .nop⟩, .commit ⟨⟨1, 0, 1⟩, ⟨7, .nop⟩⟩, .issue ⟨⟨1, 0, 1⟩, ⟨7, .nop⟩⟩ none,
    .claimTerminal ⟨1, 0, 1⟩ .completed, .finishTerminal ⟨⟨1, 0, 1⟩, ⟨7, .nop⟩, .completed⟩ 0 0, .publish ⟨⟨1, 0, 1⟩⟩,
    .commitPublication ⟨⟨1, 0, 1⟩, ⟨7, 0, 0⟩, 0, 1, true⟩, .reserve ⟨9, .pollAdd⟩, .commit ⟨⟨1, 0, 2⟩, ⟨9, .pollAdd⟩⟩,
    .issue ⟨⟨1, 0, 2⟩, ⟨9, .pollAdd⟩⟩ none, .claimCancel (.userData 9) none]

def reusedResponses : List Response :=
  [.reserved ⟨⟨1, 0, 1⟩, ⟨7, .nop⟩⟩, .prepared ⟨⟨1, 0, 1⟩, ⟨7, .nop⟩⟩, .issued ⟨⟨1, 0, 1⟩, ⟨7, .nop⟩, .uncancellable⟩,
    .permitted ⟨⟨1, 0, 1⟩, ⟨7, .nop⟩, .completed⟩, .completed ⟨⟨1, 0, 1⟩⟩, .planned ⟨⟨1, 0, 1⟩, ⟨7, 0, 0⟩, 0, 1, true⟩,
    .published ⟨⟨1, 0, 1⟩, ⟨7, 0, 0⟩, 0, 1, true⟩, .reserved ⟨⟨1, 0, 2⟩, ⟨9, .pollAdd⟩⟩,
      .prepared ⟨⟨1, 0, 2⟩, ⟨9, .pollAdd⟩⟩,
    .issued ⟨⟨1, 0, 2⟩, ⟨9, .pollAdd⟩, .cancellable⟩, .permitted ⟨⟨1, 0, 2⟩, ⟨9, .pollAdd⟩, .cancelled⟩]

def reusedTrace : List Record := (List.zipWith Record.mk reusedOps reusedResponses).reverse

-- Both permits of the slot are of their own request, and the token of the first
-- request is refused after the second took the slot.
theorem terminal_once_reused : ∃ r, Trace 1 2 4 r reusedTrace ∧
    (reusedTrace.countP (Record.permits ⟨1, 0, 1⟩) = 1 ∧ reusedTrace.countP (Record.permits ⟨1, 0, 2⟩) = 1) ∧
    (∀ id, reusedTrace.countP (Record.permits id) ≤ 1) ∧
    (reusedTrace.Pairwise fun later earlier => ∀ publication final, later.response = .published publication →
      earlier.response = .published final → final.terminal = true → publication.id ≠ final.id) ∧
    (∃ slot, r.slots[0]? = some slot ∧ slot.generation = some 2 ∧ slot.entry.isSome) ∧
    ∃ error, respond (.claimTerminal ⟨1, 0, 1⟩ .cancelled) r = (.err error, r) := by
  have hrun : ∃ r, respondAll reusedOps (initial 1 2 4) = some (reusedResponses, r) ∧
      ∃ slot, r.slots[0]? = some slot ∧ slot.generation = some 2 ∧ slot.entry.isSome := ⟨_, rfl, _, rfl, rfl, rfl⟩
  obtain ⟨r, hrun, slot, hslot, hgeneration, hentry⟩ := hrun
  have htrace := Trace.respondAll (.start (show new 1 2 4 = .ok (initial 1 2 4) by decide)) hrun
  rw [List.append_nil] at htrace
  obtain ⟨hlast, -, hpermits, hstale, -⟩ := terminal_once htrace
  refine ⟨r, htrace, by decide, hpermits, hlast, ⟨slot, hslot, hgeneration, hentry⟩,
    hstale _ ⟨1, 0, 1⟩ slot rfl hslot ?_⟩
  intro g hg
  rw [hgeneration] at hg
  cases hg
  decide

end RequestRegistry

end TheKernel.IoUring
