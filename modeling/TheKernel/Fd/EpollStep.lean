import TheKernel.Fd.EpollQueue

namespace TheKernel.Fd.EpollCore

open Outcome Act

section

variable {U S V : Type} {c c' c'' : EpollCore U S} {token t : EpollToken} {e old : Entry U S} {slot : Nat}
  {cell cell' : Option (Entry U S)}

/-- The errors that do not tell of a broken queue. -/
def Expected (error : EpollError) : Prop := error ≠ .readyQueueFull ∧ error ≠ .rescanRequired

theorem Becomes.trans (h : Becomes c c' slot cell) (h' : Becomes c' c'' slot cell') : Becomes c c'' slot cell' where
  id := h'.id.trans h.id
  entries := by rw [h'.entries, h.entries, List.set_set]
  slot_lt := h.slot_lt
  sound := h'.sound

theorem Becomes.getElem? (h : Becomes c c' slot cell) (i : Nat) :
    c'.entries[i]? = if i = slot then some cell else c.entries[i]? := by
  rw [h.entries, List.getElem?_set]
  by_cases hi : slot = i
  · subst hi
    rw [if_pos rfl, if_pos h.slot_lt, if_pos rfl]
  · rw [if_neg hi, if_neg (Ne.symm hi)]

theorem Becomes.names (h : Becomes c c' slot (some e)) (ht : t.slot = slot) (hepoll : t.epoll = c.id)
    (hgen : e.generation = t.generation) : Names c' t e := by
  rw [names_set h.id h.entries h.slot_lt, if_pos ht]
  exact ⟨hepoll, rfl, hgen⟩

theorem allocateGeneration_spec (c : EpollCore U S) :
    Ensures allocateGeneration c (fun g t => g = c.nextGeneration ∧
      t = { c with nextGeneration := c.nextGeneration + 1 }) (fun error t => t = c ∧ Expected error) False := by
  refine ensures_get_bind ?_
  split
  · exact ensures_fail ⟨rfl, nofun, nofun⟩
  · next next hnext =>
      obtain ⟨rfl, _⟩ := checkedAdd_eq_some.mp hnext
      exact ⟨rfl, rfl⟩

theorem allocateDelivery_spec (c : EpollCore U S) :
    Ensures allocateDelivery c (fun n t => n = c.nextDelivery ∧ t = { c with nextDelivery := c.nextDelivery + 1 })
      (fun error t => t = c ∧ Expected error) False := by
  refine ensures_get_bind ?_
  split
  · exact ensures_fail ⟨rfl, nofun, nofun⟩
  · next next hnext =>
      obtain ⟨rfl, _⟩ := checkedAdd_eq_some.mp hnext
      exact ⟨rfl, rfl⟩

theorem validateMode_spec {ε : Type} (mode : InterestMode) (wrap : EpollError → ε) (c : EpollCore U S)
    {q : ε → EpollCore U S → Prop} (hq : ∀ error, Expected error → q (wrap error) c) :
    Ensures (lift ((validateMode mode).mapErr wrap) : Act (EpollCore U S) ε Unit) c (fun _ t => t = c) q False := by
  rw [validateMode]
  split
  · exact hq .unsupportedMode ⟨nofun, nofun⟩
  · exact rfl

theorem Sound.add (h : Sound c) (interest : EpollInterest U S) :
    Ensures (add interest) c
      (fun _ t => ∃ slot g, c.entries[slot]? = some none ∧ t.nextDelivery = c.nextDelivery ∧
        Becomes c t slot (some ⟨g, interest, true, false, none, 0, 0⟩))
      (fun error t => t = c ∧ Expected error.error) False := by
  refine ensures_get_bind ?_
  refine (validateMode_spec interest.mode _ c fun error he => ⟨rfl, he⟩).bind ?_
  rintro _ c rfl
  split
  · exact ensures_fail ⟨rfl, nofun, nofun⟩
  · split
    · exact ensures_fail ⟨rfl, nofun, nofun⟩
    · next slot hslot =>
        have hfree := getElem?_freeSlot hslot
        refine ((allocateGeneration_spec c).mono (fun _ _ h => h) (fun _ _ he => he) False.elim).mapErr.bind ?_
        rintro g _ ⟨rfl, rfl⟩
        refine ⟨slot, c.nextGeneration, hfree, rfl, ?_⟩
        have hlt : slot < c.entries.length := (List.getElem?_eq_some_iff.mp hfree).1
        refine h.becomes rfl rfl hlt h.fits rfl h.nodup rfl (fun _ _ => Iff.rfl) ?_ ?_ ?_
        · intro t ht
          constructor
          · intro hmem
            obtain ⟨x, hx, _⟩ := (h.queued t).mp hmem
            have hentry := hx.entry
            rw [ht, hfree] at hentry
            cases hentry
          · rintro ⟨x, ⟨_, ⟨⟩, _⟩, hq⟩
            cases hq
        · rintro _ ⟨⟩ _
          rfl
        · rintro _ ⟨⟩ hne
          exact absurd rfl hne

theorem Sound.modifyInterest (h : Sound c) (token : EpollToken) (replacement : EpollInterest U S) :
    Ensures (modifyInterest token replacement) c
      (fun _ t => ∃ old g, Names c token old ∧ t.nextDelivery = c.nextDelivery ∧
        Becomes c t token.slot (some (EpollCore.replaced c.id token g replacement old c.ready).1))
      (fun error t => t = c ∧ Expected error.error) False := by
  refine ensures_get_bind ?_
  refine (validateMode_spec replacement.mode _ c fun error he => ⟨rfl, he⟩).bind ?_
  rintro _ c rfl
  rcases entry_cases c token with ⟨old, hold, hn⟩ | ⟨hold, _⟩
  · simp only [hold]
    split
    · exact ensures_fail ⟨rfl, nofun, nofun⟩
    · refine ((allocateGeneration_spec c).mono (fun _ _ h => h) (fun _ _ he => he) False.elim).mapErr.bind ?_
      rintro g _ ⟨rfl, rfl⟩
      refine ⟨old, c.nextGeneration, hn, rfl, ?_⟩
      cases hq : (EpollCore.replaced c.id token c.nextGeneration replacement old c.ready).1.queued with
      | true =>
          have hold : old.queued = true := by
            simp only [EpollCore.replaced, Bool.and_eq_true] at hq
            exact hq.1
          refine h.replaced hn hold hq rfl rfl rfl rfl ?_ rfl
          simp only [EpollCore.replaced] at hq ⊢
          rw [if_pos hq]
      | false =>
          refine h.removed hn (by rintro _ ⟨⟩; exact hq) (by rintro _ ⟨⟩; exact ⟨rfl, rfl⟩) rfl rfl ?_ rfl
          simp only [EpollCore.replaced] at hq ⊢
          rw [if_neg (ne_true_of_eq_false hq)]
  · simp only [hold]
    exact ensures_fail ⟨rfl, nofun, nofun⟩

theorem Sound.remove (h : Sound c) (token : EpollToken) :
    Ensures (remove token) c
      (fun _ t => ∃ old, Names c token old ∧ t.nextDelivery = c.nextDelivery ∧ Becomes c t token.slot none)
      (fun error t => t = c ∧ Expected error) False := by
  refine ensures_get_bind ?_
  rcases entry_cases c token with ⟨old, hold, hn⟩ | ⟨hold, _⟩
  · rw [hold]
    exact ⟨old, hn, rfl, h.removed hn (by simp) (by simp) rfl rfl rfl rfl⟩
  · rw [hold]
    exact ⟨rfl, nofun, nofun⟩

theorem Sound.enqueue (h : Sound c) (hn : Names c token e) (hq : e.queued = false) (hidle : e.inDelivery = none) :
    Ensures (enqueue token) c
      (fun _ t => t.nextDelivery = c.nextDelivery ∧ Becomes c t token.slot (some { e with queued := true }))
      (fun _ _ => False) False := by
  refine ensures_get_bind ?_
  obtain ⟨queue, hpush, hbecomes⟩ := h.push (e := { e with queued := true }) hn hq rfl rfl
      (h.idle token e hn hidle) hidle
  rw [hpush]
  refine ensures_bind_of_eq rfl ?_
  rw [entry_eq_ok.mpr hn]
  exact ⟨rfl, hbecomes⟩

def notified (e : Entry U S) (bits : ReadyMask) : Entry U S :=
  if e.inDelivery.isSome then { e with duringDelivery := e.duringDelivery ||| bits }
  else { e with ready := e.ready ||| bits, queued := true }

/-- The call records bits: the interest is enabled, and bits are deliverable. -/
def Notifies (c : EpollCore U S) (token : EpollToken) (ready : ReadyMask) : Prop :=
  ∃ e, Names c token e ∧ e.enabled = true ∧ ready.deliverable e.interest.interest ≠ 0

theorem Sound.notify (h : Sound c) (token : EpollToken) (ready : ReadyMask) :
    Ensures (notify token ready) c
      (fun _ t => (t = c ∧ ¬ Notifies c token ready) ∨
        ∃ e, Names c token e ∧ t.nextDelivery = c.nextDelivery ∧
          Becomes c t token.slot (some (notified e (ready.deliverable e.interest.interest))))
      (fun error t => t = c ∧ ¬ Notifies c token ready ∧ Expected error) False := by
  refine ensures_get_bind ?_
  rcases entry_cases c token with ⟨e, he, hn⟩ | ⟨he, hnone⟩
  · rw [he]
    refine ensures_bind_of_eq rfl ?_
    split
    · next hen =>
        refine ensures_pure (.inl ⟨rfl, ?_⟩)
        rintro ⟨x, hx, henabled, _⟩
        exact hen (hx.unique hn ▸ henabled)
    · simp only
      split
      · next hempty =>
          refine ensures_pure (.inl ⟨rfl, ?_⟩)
          rintro ⟨x, hx, _, hne⟩
          obtain rfl := hx.unique hn
          exact hne hempty
      · split
        · next hflight =>
            refine ensures_bind_of_eq rfl (ensures_pure (.inr ⟨e, hn, rfl, ?_⟩))
            rw [notified, if_pos hflight]
            refine h.setEntry hn rfl rfl ?_ ?_
            · intro hnone
              simp only at hnone
              rw [hnone] at hflight
              cases hflight
            · exact h.inFlight token e hn
        · next hflight =>
            have hidle : e.inDelivery = none := by simpa using hflight
            have hset := h.setEntry (e := { e with ready := e.ready ||| ready.deliverable e.interest.interest })
                hn rfl rfl
              (h.idle token e hn) (fun hne => absurd hidle hne)
            have hnotified : notified e (ready.deliverable e.interest.interest) = _ := if_neg hflight
            refine ensures_bind_of_eq rfl ?_
            split
            · next hq =>
                refine ensures_pure (.inr ⟨e, hn, rfl, ?_⟩)
                rw [hnotified]
                simpa only [hq] using hset
            · next hq =>
                have hn' := hset.names (t := token) rfl hn.epoll hn.generation
                refine ((hset.sound.enqueue hn' (by simpa using hq) hidle).imp (fun _ _ ht => ht) False.elim).bind ?_
                rintro _ t ⟨hnext, hbecomes⟩
                refine ensures_pure (.inr ⟨e, hn, hnext, ?_⟩)
                rw [hnotified]
                exact hset.trans hbecomes
  · rw [he]
    exact ⟨rfl, fun ⟨x, hx, _⟩ => hnone x hx, nofun, nofun⟩

theorem Sound.isQueued (h : Sound c) (hpeek : c.ready.peek = some token) : c.isQueued token = true := by
  rw [Ring.peek_eq h.fits] at hpeek
  obtain ⟨e, hn, hq⟩ := (h.queued token).mp (List.mem_of_head? hpeek)
  rw [EpollCore.isQueued, entry_eq_ok.mpr hn]
  exact hq

theorem Sound.prepareDelivery (h : Sound c) :
    Ensures prepareDelivery c (fun _ t => t = c) (fun _ _ => False) False := by
  refine ensures_get_bind ?_
  refine Ensures.bind (p := fun _ t => t = c) ?_ ?_
  · cases c.ready.len with
    | zero => exact ensures_pure rfl
    | succ n =>
        refine ensures_get_bind ?_
        split
        · exact ensures_pure rfl
        · next token hpeek =>
            rw [if_pos (h.isQueued hpeek)]
            exact ensures_pure rfl
  · rintro candidate c rfl
    cases candidate with
    | some token => exact ensures_pure rfl
    | none =>
        rw [h.rescan]
        exact ensures_pure rfl

theorem Sound.commitDelivery (h : Sound c) (preparation : DeliveryPreparation) (userData : V) :
    Ensures (commitDelivery preparation userData) c
      (fun event t => ∃ e, Names c preparation.interest e ∧ e.queued = true ∧ t.nextDelivery = c.nextDelivery + 1 ∧
        event.delivery = ⟨preparation.interest, c.nextDelivery, e.ready⟩ ∧
        Becomes c t preparation.interest.slot
          (some { e with queued := false, inDelivery := some c.nextDelivery, ready := 0 }))
      (fun error t => t = c ∧ Expected error.error) False := by
  refine ensures_get_bind ?_
  simp only
  split
  · exact ensures_fail ⟨rfl, nofun, nofun⟩
  · next hvalid =>
      obtain ⟨hpeek, hqueued⟩ := not_not.mp hvalid
      refine ((allocateDelivery_spec c).mono (fun _ _ h => h) (fun _ _ he => he) False.elim).mapErr.bind ?_
      rintro n _ ⟨rfl, rfl⟩
      rcases entry_cases c preparation.interest with ⟨e, he, hn⟩ | ⟨he, _⟩
      · rw [EpollCore.isQueued, he] at hqueued
        rw [he]
        exact ⟨e, hn, hqueued, rfl, rfl, h.popped hn hpeek rfl (by simp) rfl rfl rfl rfl rfl⟩
      · rw [EpollCore.isQueued, he] at hqueued
        cases hqueued

theorem finished_fields (e : Entry U S) (events : ReadyMask) (outcome : DeliveryOutcome) :
    (e.finished events outcome).generation = e.generation ∧ (e.finished events outcome).queued = e.queued ∧
      (e.finished events outcome).inDelivery = none ∧ (e.finished events outcome).duringDelivery = 0 := by
  cases outcome <;> exact ⟨rfl, rfl, rfl, rfl⟩

def requeued (e : Entry U S) (events : ReadyMask) (outcome : DeliveryOutcome) : Entry U S :=
  { e.finished events outcome with
    queued := (e.finished events outcome).enabled && (e.finished events outcome).ready != 0 }

theorem Sound.finishDelivery (h : Sound c) (delivery : DeliveryToken) (outcome : DeliveryOutcome) :
    Ensures (finishDelivery delivery outcome) c
      (fun _ t => ∃ e, Names c delivery.interest e ∧ e.inDelivery = some delivery.serial ∧
        t.nextDelivery = c.nextDelivery ∧
        Becomes c t delivery.interest.slot (some (requeued e delivery.events outcome)))
      (fun error t => t = c ∧ Expected error) False := by
  refine ensures_get_bind ?_
  simp only
  rcases entry_cases c delivery.interest with ⟨e, he, hn⟩ | ⟨he, _⟩
  · rw [he]
    refine ensures_bind_of_eq rfl ?_
    split
    · exact ensures_fail ⟨rfl, nofun, nofun⟩
    · next hserial =>
        have hflight := not_not.mp hserial
        obtain ⟨hq, _⟩ := h.inFlight _ e hn (by simp [hflight])
        obtain ⟨hgen, hqueued, hidle, hduring⟩ := finished_fields e delivery.events outcome
        have hset := h.setEntry hn hgen hqueued (fun _ => hduring) (fun hne => absurd hidle hne)
        refine ensures_bind_of_eq rfl ?_
        split
        · next hready =>
            obtain ⟨henabled, hnonempty, hnot⟩ := hready
            have hn' := hset.names (t := delivery.interest) rfl hn.epoll (hgen.trans hn.generation)
            refine (hset.sound.enqueue hn' (hqueued.trans hq) hidle).imp ?_ False.elim
            rintro _ t ⟨hnext, hbecomes⟩
            refine ⟨e, hn, hflight, hnext, hset.trans ?_⟩
            have htrue : ((e.finished delivery.events outcome).enabled &&
                (e.finished delivery.events outcome).ready != 0) = true := by
              rw [henabled, bne_iff_ne.mpr hnonempty, Bool.and_self]
            rw [requeued, htrue]
            exact hbecomes
        · next hready =>
            refine ensures_pure ⟨e, hn, hflight, rfl, ?_⟩
            have hfalse : ((e.finished delivery.events outcome).enabled &&
                (e.finished delivery.events outcome).ready != 0) =
                (e.finished delivery.events outcome).queued := by
              rw [hqueued, hq] at hready ⊢
              simpa [and_comm] using hready
            rw [requeued, hfalse]
            exact hset
  · rw [he]
    exact ⟨rfl, nofun, nofun⟩

theorem Sound.rescanReady (h : Sound c) (token : RescanToken) (maxEntries : Nat) :
    Ensures (rescanReady token maxEntries) c (fun _ _ => False) (fun error t => t = c ∧ Expected error) False := by
  refine ensures_get_bind ?_
  rw [h.rescan]
  exact ensures_fail ⟨rfl, nofun, nofun⟩

end

inductive Op (U S V : Type) where
  | add (interest : EpollInterest U S)
  | modify (token : EpollToken) (replacement : EpollInterest U S)
  | remove (token : EpollToken)
  | notify (token : EpollToken) (ready : ReadyMask)
  | prepareDelivery
  | commitDelivery (preparation : DeliveryPreparation) (userData : V)
  | finishDelivery (delivery : DeliveryToken) (outcome : DeliveryOutcome)
  | rescanReady (token : RescanToken) (maxEntries : Nat)

variable {U S V : Type}

def perform : Op U S V → Act (EpollCore U S) EpollError (Option DeliveryToken)
  | .add interest => ((add interest).mapErr (·.error)) >>= fun _ => pure none
  | .modify token replacement => ((modifyInterest token replacement).mapErr (·.error)) >>= fun _ => pure none
  | .remove token => EpollCore.remove token >>= fun _ => pure none
  | .notify token ready => notify token ready >>= fun _ => pure none
  | .prepareDelivery => prepareDelivery >>= fun _ => pure none
  | .commitDelivery preparation userData =>
      ((commitDelivery preparation userData).mapErr (·.error)) >>= fun event => pure (some event.delivery)
  | .finishDelivery delivery outcome => finishDelivery delivery outcome >>= fun _ => pure none
  | .rescanReady token maxEntries => rescanReady token maxEntries >>= fun _ => pure none

inductive Effect (c : EpollCore U S) : Op U S V → Option DeliveryToken → EpollCore U S → Prop
  | same (op) (h : ∀ token ready, op = .notify token ready → ¬ Notifies c token ready) : Effect c op none c
  | add {c' slot g} (interest) (hfree : c.entries[slot]? = some none) (hnext : c'.nextDelivery = c.nextDelivery)
      (h : Becomes c c' slot (some ⟨g, interest, true, false, none, 0, 0⟩)) : Effect c (.add interest) none c'
  | modify {c' old g} (token replacement) (hn : Names c token old) (hnext : c'.nextDelivery = c.nextDelivery)
      (h : Becomes c c' token.slot (some (replaced c.id token g replacement old c.ready).1)) :
      Effect c (.modify token replacement) none c'
  | remove {c' old} (token) (hn : Names c token old) (hnext : c'.nextDelivery = c.nextDelivery)
      (h : Becomes c c' token.slot none) : Effect c (.remove token) none c'
  | notify {c' e} (token ready) (hn : Names c token e) (hnext : c'.nextDelivery = c.nextDelivery)
      (h : Becomes c c' token.slot (some (notified e (ready.deliverable e.interest.interest)))) :
      Effect c (.notify token ready) none c'
  | commit {c' e} (preparation userData) (hn : Names c preparation.interest e) (hq : e.queued = true)
      (hnext : c'.nextDelivery = c.nextDelivery + 1)
      (h : Becomes c c' preparation.interest.slot
        (some { e with queued := false, inDelivery := some c.nextDelivery, ready := 0 })) :
      Effect c (.commitDelivery preparation userData) (some ⟨preparation.interest, c.nextDelivery, e.ready⟩) c'
  | finish {c' e} (delivery outcome) (hn : Names c delivery.interest e) (hserial : e.inDelivery = some delivery.serial)
      (hnext : c'.nextDelivery = c.nextDelivery)
      (h : Becomes c c' delivery.interest.slot (some (requeued e delivery.events outcome))) :
      Effect c (.finishDelivery delivery outcome) none c'

variable {c c' : EpollCore U S} {token : EpollToken} {e : Entry U S}

theorem Sound.perform (h : Sound c) (op : Op U S V) :
    Ensures (perform op) c (fun out t => Effect c op out t) (fun error t => Effect c op none t ∧
      Expected error) False := by
  cases op with
  | add interest =>
      refine ((h.add interest).mono (fun _ _ ht => ht) ?_ False.elim).mapErr.bind ?_
      · rintro error _ ⟨rfl, he⟩
        exact ⟨.same _ nofun, he⟩
      · rintro _ t ⟨slot, g, hfree, hnext, ht⟩
        exact ensures_pure (.add interest hfree hnext ht)
  | modify token replacement =>
      refine ((h.modifyInterest token replacement).mono (fun _ _ ht => ht) ?_ False.elim).mapErr.bind ?_
      · rintro error _ ⟨rfl, he⟩
        exact ⟨.same _ nofun, he⟩
      · rintro _ t ⟨old, g, hn, hnext, ht⟩
        exact ensures_pure (.modify token replacement hn hnext ht)
  | remove token =>
      refine ((h.remove token).mono (fun _ _ ht => ht) ?_ False.elim).bind ?_
      · rintro error _ ⟨rfl, he⟩
        exact ⟨.same _ nofun, he⟩
      · rintro _ t ⟨old, hn, hnext, ht⟩
        exact ensures_pure (.remove token hn hnext ht)
  | notify token ready =>
      refine ((h.notify token ready).mono (fun _ _ ht => ht) ?_ False.elim).bind ?_
      · rintro error _ ⟨rfl, hnot, he⟩
        refine ⟨.same _ ?_, he⟩
        rintro _ _ ⟨⟩
        exact hnot
      · rintro _ t (⟨rfl, hnot⟩ | ⟨e, hn, hnext, ht⟩)
        · refine ensures_pure (.same _ ?_)
          rintro _ _ ⟨⟩
          exact hnot
        · exact ensures_pure (.notify token ready hn hnext ht)
  | prepareDelivery =>
      refine (h.prepareDelivery.imp (fun _ _ ht => ht) False.elim).bind ?_
      rintro _ _ rfl
      exact ensures_pure (.same _ nofun)
  | commitDelivery preparation userData =>
      refine ((h.commitDelivery preparation userData).mono (fun _ _ ht => ht) ?_ False.elim).mapErr.bind ?_
      · rintro error _ ⟨rfl, he⟩
        exact ⟨.same _ nofun, he⟩
      · rintro event t ⟨e, hn, hq, hnext, hevent, ht⟩
        rw [hevent]
        exact ensures_pure (.commit preparation userData hn hq hnext ht)
  | finishDelivery delivery outcome =>
      refine ((h.finishDelivery delivery outcome).mono (fun _ _ ht => ht) ?_ False.elim).bind ?_
      · rintro error _ ⟨rfl, he⟩
        exact ⟨.same _ nofun, he⟩
      · rintro _ t ⟨e, hn, hserial, hnext, ht⟩
        exact ensures_pure (.finish delivery outcome hn hserial hnext ht)
  | rescanReady token maxEntries =>
      refine ((h.rescanReady token maxEntries).mono (fun _ _ ht => ht) ?_ False.elim).bind ?_
      · rintro error _ ⟨rfl, he⟩
        exact ⟨.same _ nofun, he⟩
      · rintro _ _ ⟨⟩

theorem Effect.sound (h : Sound c) {op : Op U S V} {out : Option DeliveryToken} (heffect : Effect c op out c') :
    Sound c' := by
  cases heffect with
  | same => exact h
  | add _ _ _ hb | modify _ _ _ _ hb | remove _ _ _ hb | notify _ _ _ _ hb | commit _ _ _ _ _ hb
  | finish _ _ _ _ _ hb => exact hb.sound

def step (c : EpollCore U S) (op : Op U S V) : EpollCore U S := (perform op c).2

def run (id capacity : Nat) (ops : List (Op U S V)) : EpollCore U S := ops.foldl step (initial id capacity)

theorem not_names_initial (id capacity : Nat) (t : EpollToken) (e : Entry U S) :
    ¬ Names (initial id capacity : EpollCore U S) t e := by
  intro hn
  have hentry := hn.entry
  rw [initial, List.getElem?_replicate] at hentry
  split at hentry <;> cases hentry

theorem sound_initial (id capacity : Nat) : Sound (initial id capacity : EpollCore U S) := by
  have hcontents : (initial id capacity : EpollCore U S).ready.contents = [] := List.take_zero
  have hnames : ∀ t e, ¬ Names (initial id capacity : EpollCore U S) t e := not_names_initial id capacity
  refine ⟨Nat.zero_le _, ?_, ?_, ?_, fun t e hn => absurd hn (hnames t e), fun t e hn => absurd hn (hnames t e), rfl⟩
  · simp [initial, Ring.capacity]
  · rw [hcontents]
    exact List.nodup_nil
  · intro t
    rw [hcontents]
    simp [hnames]

theorem Sound.effect (h : Sound c) (op : Op U S V) : ∃ out, Effect c op out (c.step op) := by
  have hperform := h.perform op
  rw [Ensures] at hperform
  rw [EpollCore.step]
  rcases hres : EpollCore.perform op c with ⟨result, t⟩
  rw [hres] at hperform
  cases result with
  | ok out => exact ⟨out, hperform⟩
  | err error => exact ⟨none, hperform.1⟩
  | panic => exact hperform.elim

theorem sound_run (id capacity : Nat) (ops : List (Op U S V)) : Sound (run id capacity ops : EpollCore U S) := by
  rw [run]
  induction ops using List.reverseRecOn with
  | nil => exact sound_initial id capacity
  | append_singleton ops op ih =>
      rw [List.foldl_append]
      obtain ⟨out, heffect⟩ := ih.effect op
      exact heffect.sound ih

/-- The ready queue holds exactly the interests whose flag is set, each once.
A push of another live interest finds room, so that no call ends with an error
of the queue. -/
theorem ready_queue_exact (id capacity : Nat) (ops : List (Op U S V)) :
    let c : EpollCore U S := run id capacity ops
    c.ready.contents.Nodup ∧
    (∀ token e, Names c token e → (e.queued = true ↔ token ∈ c.ready.contents)) ∧
    (∀ token ∈ c.ready.contents, ∃ e, Names c token e) ∧
    (∀ token e, Names c token e → e.queued = false → (c.ready.push token).isSome = true) ∧
    ∀ op : Op U S V, (perform op c).1 ≠ .err .readyQueueFull ∧ (perform op c).1 ≠ .err .rescanRequired ∧
      (perform op c).1 ≠ .panic := by
  intro c
  have h : Sound c := sound_run id capacity ops
  refine ⟨h.nodup, fun token e hn => (h.mem_contents hn).symm, ?_, ?_, ?_⟩
  · intro token ht
    obtain ⟨e, hn, _⟩ := (h.queued token).mp ht
    exact ⟨e, hn⟩
  · intro token e hn hq
    obtain ⟨queue, hpush, _⟩ := Ring.push_spec (x := token) (h.len_lt hn hq)
    rw [hpush]
    rfl
  · intro op
    have hperform := h.perform op
    rw [Ensures] at hperform
    rcases hres : EpollCore.perform op c with ⟨result, t⟩
    rw [hres] at hperform
    cases result with
    | ok out => exact ⟨fun heq => by (cases heq), fun heq => by (cases heq), fun heq => by (cases heq)⟩
    | err error =>
        obtain ⟨_, hfull, hrescan⟩ := hperform
        exact ⟨fun heq => hfull (err.inj heq), fun heq => hrescan (err.inj heq), fun heq => by (cases heq)⟩
    | panic => exact hperform.elim

end TheKernel.Fd.EpollCore
