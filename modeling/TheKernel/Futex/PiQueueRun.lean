import Mathlib.Data.List.Perm.Subperm
import TheKernel.Futex.PiQueue

namespace TheKernel.Futex

open Function

section Queue

variable {stamp : Nat → Nat} {queue before after : List Waiter} {top w : Waiter} {pi : PiWaiter} {ids : List Nat}

theorem Ties.symm {a b : Waiter} (h : Ties a b) : Ties b a := by
  obtain ⟨ha, hb, p, p', hp, hp', heq⟩ := h
  exact ⟨hb, ha, p', p, hp', hp, heq.symm⟩

theorem ids_of_subperm {l l' : List Waiter} (h : l.Subperm l') (hnodup : (l'.map Waiter.id).Nodup) :
    l.map Waiter.id ⊆ l'.map Waiter.id ∧ (l.map Waiter.id).Nodup := by
  obtain ⟨m, hperm, hsub⟩ := h
  refine ⟨fun id hid => (hsub.map Waiter.id).subset ((hperm.map Waiter.id).mem_iff.mpr hid), ?_⟩
  exact (hperm.map Waiter.id).nodup_iff.mp ((hsub.map Waiter.id).nodup hnodup)

theorem Ordered.append {l l' : List Waiter} (h : Ordered stamp l) (h' : Ordered stamp l')
    (hcross : ∀ a ∈ l, ∀ b ∈ l', Ties a b → stamp a.id < stamp b.id) : Ordered stamp (l ++ l') :=
  List.pairwise_append.mpr ⟨h, h', hcross⟩

theorem ordered_filter : Ordered stamp (queue.filter (!·.cancelled)) ↔ Ordered stamp queue := by
  rw [Ordered, List.pairwise_filter]
  constructor
  · refine List.Pairwise.imp fun {a b} h hties => ?_
    exact h (by simp [hties.1]) (by simp [hties.2.1]) hties
  · exact List.Pairwise.imp fun {a b} h _ _ => h

theorem map_id_cancel : (cancel ids queue).map Waiter.id = queue.map Waiter.id := by
  rw [cancel, List.map_map]
  refine List.map_congr_left fun w _ => ?_
  by_cases hw : w.id ∈ ids <;> simp [hw]

theorem Ordered.cancel (h : Ordered stamp queue) : Ordered stamp (cancel ids queue) := by
  rw [Ordered, Futex.cancel, List.pairwise_map]
  refine List.Pairwise.imp (fun {a b} hab hties => ?_) h
  have hlive (w : Waiter) (hw : (if w.id ∈ ids then { w with cancelled := true } else w).cancelled = false) :
      w.id ∉ ids := by
    intro hid
    simp [hid] at hw
  have ha := hlive a hties.1
  have hb := hlive b hties.2.1
  rw [if_neg ha, if_neg hb] at hties ⊢
  exact hab hties

theorem claimTop_keeps (raced : List (List Nat)) (queue : List Waiter) :
    (claimTop raced queue).1.map Waiter.id = queue.map Waiter.id ∧
      ∀ stamp, Ordered stamp queue → Ordered stamp (claimTop raced queue).1 := by
  obtain ⟨⟨idss, heq⟩, -⟩ :=
    claimTop_eq (rfl : claimTop raced queue = ((claimTop raced queue).1, (claimTop raced queue).2))
  rw [heq]
  clear heq
  induction idss generalizing queue with
  | nil => exact ⟨rfl, fun _ h => h⟩
  | cons ids idss ih =>
      obtain ⟨hids, hordered⟩ := ih (cancel ids queue)
      exact ⟨hids.trans map_id_cancel, fun stamp h => hordered stamp h.cancel⟩

/-- The waiters before the target end up behind those after it. -/
theorem rotateOut_eq {target n : Nat} (hbefore : ∀ w ∈ before, w.id ≠ target) (htop : top.id = target)
    (hn : before.length < n) : rotateOut target n (before ++ top :: after) = (after ++ before, some top) := by
  induction before generalizing after n with
  | nil =>
      obtain ⟨n, rfl⟩ : ∃ m, n = m + 1 := ⟨n - 1, by simp only [List.length_nil] at hn; omega⟩
      rw [List.nil_append, rotateOut, if_pos htop, List.append_nil]
  | cons w before ih =>
      obtain ⟨n, rfl⟩ : ∃ m, n = m + 1 := ⟨n - 1, by simp only [List.length_cons] at hn; omega⟩
      rw [List.cons_append, rotateOut, if_neg (hbefore w (by simp))]
      have hrest : rotateOut target n (before ++ top :: (after ++ [w])) = _ :=
        ih (fun w' hw' => hbefore w' (by simp [hw'])) (by simpa using hn)
      simpa using hrest

theorem Selected.rotateOut (h : Selected queue before top pi after) (hnodup : (queue.map Waiter.id).Nodup) :
    rotateOut top.id queue.length queue = (after ++ before, some top) := by
  rw [h.split]
  refine rotateOut_eq (fun w hw heq => ?_) rfl (by simp)
  rw [h.split, List.map_append, List.map_cons, List.nodup_append] at hnodup
  exact hnodup.2.2 w.id (List.mem_map_of_mem hw) top.id (by simp) heq

theorem Selected.ordered_rest (h : Selected queue before top pi after) (hordered : Ordered stamp queue) :
    Ordered stamp before ∧ Ordered stamp after := by
  rw [Ordered, h.split, List.pairwise_append] at hordered
  exact ⟨hordered.1, (List.pairwise_cons.mp hordered.2.1).2⟩

/-- What a scan over `todo` does, when the waiters behind it are all cancelled: it
moves a number of live waiters from the front, and the next one to the back. -/
theorem moveRest_spec {budget total moved : Nat} {todo done dst src' dst' : List Waiter} {valid : Bool}
    (hdone : ∀ w ∈ done, w.cancelled = true)
    (h : moveRest budget todo.length (todo ++ done) dst moved = (src', dst', total, valid)) :
    ∃ mv, dst' = dst ++ mv.map requeued ∧ (src' ++ mv).Perm (todo ++ done) ∧
      ∀ others m, others = todo.filter (!·.cancelled) → m = min (budget - moved) (others.takeWhile
        (·.pi.isSome)).length →
        src'.filter (!·.cancelled) = (others.drop m).tail ++ (others.drop m).head?.toList := by
  induction todo generalizing done dst moved with
  | nil =>
      obtain ⟨rfl, heq⟩ := Prod.mk.inj h
      obtain ⟨rfl, -⟩ := Prod.mk.inj heq
      refine ⟨[], by simp, by simp, ?_⟩
      rintro others m rfl -
      have hnone : done.filter (!·.cancelled) = [] := List.filter_eq_nil_iff.mpr fun w hw => by simp [hdone w hw]
      simpa using hnone
  | cons w todo ih =>
      have hlive : done.filter (!·.cancelled) = [] := List.filter_eq_nil_iff.mpr fun w hw => by simp [hdone w hw]
      rw [List.cons_append, List.length_cons, moveRest] at h
      split at h
      case isTrue hw =>
          rw [List.append_assoc] at h
          have hdone' : ∀ w' ∈ done ++ [w], w'.cancelled = true := by
            intro w' hw'
            rcases List.mem_append.mp hw' with hw' | hw'
            · exact hdone w' hw'
            · rw [List.mem_singleton.mp hw']
              exact hw
          obtain ⟨mv, hdst, hperm, hsrc⟩ := ih hdone' h
          refine ⟨mv, hdst, hperm.trans ?_, fun others m hothers hm => hsrc others m (by simpa [hw] using hothers) hm⟩
          rw [← List.append_assoc]
          exact List.perm_append_singleton w (todo ++ done)
      case isFalse hw =>
          -- a waiter that stops the scan goes to the back
          have hstop (hstop : (todo ++ done ++ [w], dst) = (src', dst'))
              (hzero : ∀ others m, others = (w :: todo).filter (!·.cancelled) →
                m = min (budget - moved) (others.takeWhile (·.pi.isSome)).length → m = 0) :
              ∃ mv, dst' = dst ++ mv.map requeued ∧ (src' ++ mv).Perm (w :: (todo ++ done)) ∧
                ∀ others m, others = (w :: todo).filter (!·.cancelled) →
                  m = min (budget - moved) (others.takeWhile (·.pi.isSome)).length →
                  src'.filter (!·.cancelled) = (others.drop m).tail ++ (others.drop m).head?.toList := by
            obtain ⟨rfl, rfl⟩ := Prod.mk.inj hstop
            refine ⟨[], by simp, by simpa using List.perm_append_singleton w (todo ++ done),
              fun others m hothers hm => ?_⟩
            rw [hzero others m hothers hm, hothers]
            simp [hw, hlive]
          split at h
          case isTrue hbudget =>
              simp only [Prod.mk.injEq] at h
              exact hstop (by rw [← h.1, ← h.2.1]) fun others m _ hm => by omega
          case isFalse hbudget =>
              split at h
              case isTrue hplain =>
                  simp only [Prod.mk.injEq] at h
                  refine hstop (by rw [← h.1, ← h.2.1]) fun others m hothers hm => ?_
                  have hnone : w.pi.isSome = false := by simpa using hplain
                  rw [hm, hothers]
                  simp [hw, hnone]
              case isFalse hpi =>
                  obtain ⟨mv, hdst, hperm, hsrc⟩ := ih hdone h
                  refine ⟨w :: mv, by rw [hdst]; simp, ?_, fun others m hothers hm => ?_⟩
                  · exact List.perm_middle.trans (hperm.cons w)
                  · have hsome : w.pi.isSome = true := by
                      cases hwpi : w.pi with
                      | none => simp [hwpi] at hpi
                      | some p => rfl
                    have hothers' : others = w :: todo.filter (!·.cancelled) := by simpa [hw] using hothers
                    have hlength : (others.takeWhile (·.pi.isSome)).length =
                        ((todo.filter (!·.cancelled)).takeWhile (·.pi.isSome)).length + 1 := by
                      rw [hothers']
                      simp [hsome]
                    have hm' : m = min (budget - (moved + 1)) ((todo.filter (!·.cancelled)).takeWhile
                        (·.pi.isSome)).length + 1 := by
                      rw [hm, hlength]
                      omega
                    rw [hsrc _ _ rfl rfl, hothers', hm', List.drop_succ_cons]

theorem piUnlock_cases (raced : List (List Nat)) (publish : Option Nat → Bool) (hnodup : (queue.map Waiter.id).Nodup) :
    ((piUnlock raced publish queue).1 = (claimTop raced queue).1 ∧ ∀ tid, (piUnlock raced publish queue).2.2 ≠
      .handedOff tid) ∨ ∃ before top pi after, Selected (claimTop raced queue).1 before top pi after ∧
        piUnlock raced publish queue = (after ++ before, [top], .handedOff pi.tid) := by
  rw [← (claimTop_keeps raced queue).1] at hnodup
  rcases hclaim : claimTop raced queue with ⟨queue', claimed⟩
  rw [hclaim] at hnodup
  cases claimed with
  | none =>
      rw [piUnlock, hclaim]
      refine .inl ⟨rfl, fun tid => ?_⟩
      simp only
      split <;> simp
  | some claimed =>
      obtain ⟨top, pi⟩ := claimed
      obtain ⟨before, after, hsel⟩ := (claimTop_eq hclaim).2 top pi rfl
      rw [piUnlock, hclaim]
      by_cases hpublish : publish (some pi.tid) = true
      · simp only [hpublish, Bool.not_true, Bool.false_eq_true, if_false, hsel.rotateOut hnodup]
        exact .inr ⟨before, top, pi, after, hsel, rfl⟩
      · refine .inl ⟨?_, ?_⟩ <;> simp [hpublish]

/-- What a requeue does to the two queues: `new` are the waiters that it puts on
the target. -/
theorem piRequeue_cases {raced : List (List Nat)} {publish : Nat → Option PiRequeueTarget} {nrWake nrRequeue : Nat}
    {src dst : List Waiter} {r : PiRequeue} (hnodup : (src.map Waiter.id).Nodup)
    (hcall : piRequeue raced publish nrWake nrRequeue src dst = r) :
    (r.dst = dst ∧ r.woken = [] ∧ (r.src = src ∨ r.src = (claimTop raced src).1)) ∨
      ∃ before top pi after new, Selected (claimTop raced src).1 before top pi after ∧ r.dst = dst ++ new.map requeued ∧
        (r.src ++ new).Subperm (claimTop raced src).1 ∧ (r.woken = [] ∨ r.woken = [top]) ∧
        r.src.filter (!·.cancelled) =
          (stay nrWake nrRequeue before after).tail ++ (stay nrWake nrRequeue before after).head?.toList := by
  rw [← (claimTop_keeps raced src).1] at hnodup
  rcases hclaim : claimTop raced src with ⟨src', claimed⟩
  rw [hclaim] at hnodup
  rw [piRequeue, hclaim] at hcall
  split at hcall
  case isTrue =>
      subst hcall
      exact .inl ⟨rfl, rfl, .inl rfl⟩
  case isFalse =>
      cases claimed with
      | none =>
          subst hcall
          exact .inl ⟨rfl, rfl, .inr rfl⟩
      | some claimed =>
          obtain ⟨top, pi⟩ := claimed
          obtain ⟨before, after, hsel⟩ := (claimTop_eq hclaim).2 top pi rfl
          simp only [hsel.rotateOut hnodup] at hcall
          split at hcall
          case h_1 =>
              subst hcall
              exact .inl ⟨rfl, rfl, .inr rfl⟩
          case h_2 mode hmode =>
              have hperm : (top :: (after ++ before)).Perm src' := by
                rw [hsel.split]
                exact (List.perm_append_comm.cons top).trans List.perm_middle.symm
              cases mode with
              | contended =>
                  rcases hmove : moveRest (min (nrWake + nrRequeue) (2 ^ 64 - 1)) (after ++ before).length
                    (after ++ before) (dst ++ [requeued top]) 1 with ⟨src'', dst'', moved, valid⟩
                  simp only [Option.toList_some, List.map_cons, List.map_nil, List.length_singleton, hmove] at hcall
                  subst hcall
                  obtain ⟨mv, hdst, hmoved, hsrc⟩ := @moveRest_spec _ _ _ (after ++ before) [] _ _ _ _ (by simp)
                    ((congrArg (moveRest _ _ · _ _) (List.append_nil _)).trans hmove)
                  rw [List.append_nil] at hmoved
                  refine .inr ⟨before, top, pi, after, top :: mv, hsel, by rw [hdst]; simp, ?_, .inl rfl,
                    hsrc _ _ rfl rfl⟩
                  exact (List.perm_middle.trans ((hmoved.cons top).trans hperm)).subperm
              | promoted =>
                  rcases hmove : moveRest (min (nrWake + nrRequeue) (2 ^ 64 - 1) - 1) (after ++ before).length
                    (after ++ before) dst 0 with ⟨src'', dst'', moved, valid⟩
                  simp only [hmove] at hcall
                  subst hcall
                  obtain ⟨mv, hdst, hmoved, hsrc⟩ := @moveRest_spec _ _ _ (after ++ before) [] _ _ _ _ (by simp)
                    ((congrArg (moveRest _ _ · _ _) (List.append_nil _)).trans hmove)
                  rw [List.append_nil] at hmoved
                  refine .inr ⟨before, top, pi, after, mv, hsel, hdst, ?_, .inr rfl,
                    hsrc _ _ rfl (by rw [Nat.sub_zero])⟩
                  exact hmoved.subperm.trans ((List.sublist_cons_self top _).subperm.trans hperm.subperm)

/-- The live waiters that a calm requeue leaves behind are in order. -/
theorem Selected.ordered_stay {nrWake nrRequeue : Nat} (h : Selected queue before top pi after)
    (hordered : Ordered stamp queue) (hcalm : CalmRequeue nrWake nrRequeue queue) :
    Ordered stamp ((stay nrWake nrRequeue before after).tail ++ (stay nrWake nrRequeue before after).head?.toList) := by
  obtain ⟨hbefore, hafter⟩ := h.ordered_rest hordered
  obtain ⟨hcross, hfirst⟩ := hcalm before top pi after h
  have hstay : Ordered stamp (stay nrWake nrRequeue before after) := by
    obtain ⟨m, hm⟩ : ∃ m, stay nrWake nrRequeue before after = (after.filter (!·.cancelled) ++ before.filter
        (!·.cancelled)).drop m :=
      ⟨_, by rw [stay, List.filter_append]⟩
    rw [hm, List.drop_append] at hcross ⊢
    refine Ordered.append ?_ ?_ fun a ha b hb hties => ?_
    · exact (ordered_filter.mpr hafter).sublist (List.drop_sublist _ _)
    · exact (ordered_filter.mpr hbefore).sublist (List.drop_sublist _ _)
    · have ha' := (List.mem_filter.mp (List.mem_of_mem_drop ha)).1
      have hb' := (List.mem_filter.mp (List.mem_of_mem_drop hb)).1
      exact absurd hties (hcross b hb' a ha' (List.mem_append_right _ hb) (List.mem_append_left _ ha))
  cases hlist : stay nrWake nrRequeue before after with
  | nil => exact .nil
  | cons w rest =>
      rw [hlist] at hstay
      refine Ordered.append (List.pairwise_cons.mp hstay).2 (List.pairwise_singleton _ _) fun a ha b hb hties => ?_
      obtain rfl : b = w := by simpa using hb
      exact absurd hties (hfirst b rest hlist a ha)

theorem restamp_of_not_mem {clock id : Nat} (h : id ∉ ids) : restamp clock ids stamp id = stamp id := if_neg h

theorem restamp_of_mem {clock id : Nat} (h : id ∈ ids) :
    clock ≤ restamp clock ids stamp id ∧ restamp clock ids stamp id < clock + ids.length := by
  rw [restamp, if_pos h]
  have hlt := List.idxOf_lt_length_of_mem h
  omega

theorem restamp_pairwise {clock : Nat} (hnodup : ids.Nodup) :
    ids.Pairwise fun a b => restamp clock ids stamp a < restamp clock ids stamp b := by
  refine List.pairwise_iff_getElem.mpr fun i j hi hj hij => ?_
  rw [restamp, restamp, if_pos (List.getElem_mem hi), if_pos (List.getElem_mem hj), hnodup.idxOf_getElem,
    hnodup.idxOf_getElem]
  omega

end Queue

/-- A waiter is on one queue, once, and the ties of each queue are in the order
of their stamps. -/
structure PiSound (s : PiSystem) : Prop where
  nodup : ∀ q, ((s.queues q).map Waiter.id).Nodup
  apart : ∀ q q', q ≠ q' → ∀ w ∈ s.queues q, ∀ w' ∈ s.queues q', w.id ≠ w'.id
  past : ∀ q, ∀ w ∈ s.queues q, s.stamp w.id < s.clock
  ordered : ∀ q, Ordered s.stamp (s.queues q)

namespace PiSound

variable {s s' : PiSystem} {q : Nat}

theorem change {l : List Waiter} (h : PiSound s) (hids : l.map Waiter.id ⊆ (s.queues q).map Waiter.id)
    (hnodup : (l.map Waiter.id).Nodup) (hordered : Ordered s.stamp l) :
    PiSound { s with queues := update s.queues q l } := by
  have hmem (q' : Nat) (w : Waiter) (hw : w ∈ update s.queues q l q') : ∃ w' ∈ s.queues q', w'.id = w.id := by
    by_cases hq : q' = q
    · subst hq
      rw [update_self] at hw
      obtain ⟨w', hw', hid⟩ := List.mem_map.mp (hids (List.mem_map_of_mem hw))
      exact ⟨w', hw', hid⟩
    · rw [update_of_ne hq] at hw
      exact ⟨w, hw, rfl⟩
  refine ⟨fun q' => ?_, fun q₁ q₂ hne w₁ hw₁ w₂ hw₂ => ?_, fun q' w hw => ?_, fun q' => ?_⟩
  · by_cases hq : q' = q
    · subst hq
      simpa only [update_self] using hnodup
    · simpa only [update_of_ne hq] using h.nodup q'
  · obtain ⟨w₁', hw₁', hid₁⟩ := hmem q₁ w₁ hw₁
    obtain ⟨w₂', hw₂', hid₂⟩ := hmem q₂ w₂ hw₂
    rw [← hid₁, ← hid₂]
    exact h.apart q₁ q₂ hne w₁' hw₁' w₂' hw₂'
  · obtain ⟨w', hw', hid⟩ := hmem q' w hw
    rw [← hid]
    exact h.past q' w' hw'
  · by_cases hq : q' = q
    · subst hq
      simpa only [update_self] using hordered
    · simpa only [update_of_ne hq] using h.ordered q'

theorem enqueue (h : PiSound s) (new : List Waiter) (hnodup : (new.map Waiter.id).Nodup)
    (hfresh : ∀ q', ∀ w ∈ s.queues q', w.id ∉ new.map Waiter.id) :
    PiSound ⟨update s.queues q (s.queues q ++ new), s.clock + new.length,
      restamp s.clock (new.map Waiter.id) s.stamp⟩ := by
  have hold (q' : Nat) (w : Waiter) (hw : w ∈ s.queues q') : restamp s.clock (new.map Waiter.id) s.stamp w.id =
      s.stamp w.id :=
    restamp_of_not_mem (hfresh q' w hw)
  have hkept (q' : Nat) : Ordered (restamp s.clock (new.map Waiter.id) s.stamp) (s.queues q') := by
    refine List.Pairwise.imp_of_mem (fun {a b} ha hb hab hties => ?_) (h.ordered q')
    rw [hold q' a ha, hold q' b hb]
    exact hab hties
  refine ⟨fun q' => ?_, fun q₁ q₂ hne w₁ hw₁ w₂ hw₂ => ?_, fun q' w hw => ?_, fun q' => ?_⟩
  · by_cases hq : q' = q
    · subst hq
      simp only [update_self, List.map_append]
      refine List.nodup_append.mpr ⟨h.nodup q', hnodup, ?_⟩
      rintro a ha b hb rfl
      obtain ⟨w, hw, rfl⟩ := List.mem_map.mp ha
      exact hfresh q' w hw hb
    · simpa only [update_of_ne hq] using h.nodup q'
  · have hcases (q' : Nat) (w : Waiter) (hw : w ∈ update s.queues q (s.queues q ++ new) q') :
        w ∈ s.queues q' ∨ q' = q ∧ w ∈ new := by
      by_cases hq : q' = q
      · subst hq
        rw [update_self, List.mem_append] at hw
        exact hw.imp_right fun hw => ⟨rfl, hw⟩
      · rw [update_of_ne hq] at hw
        exact .inl hw
    rcases hcases q₁ w₁ hw₁ with hold₁ | ⟨hq₁, hnew₁⟩
    · rcases hcases q₂ w₂ hw₂ with hold₂ | ⟨-, hnew₂⟩
      · exact h.apart q₁ q₂ hne w₁ hold₁ w₂ hold₂
      · intro heq
        exact hfresh q₁ w₁ hold₁ (heq ▸ List.mem_map_of_mem hnew₂)
    · rcases hcases q₂ w₂ hw₂ with hold₂ | ⟨hq₂, -⟩
      · intro heq
        exact hfresh q₂ w₂ hold₂ (heq ▸ List.mem_map_of_mem hnew₁)
      · exact absurd (hq₁.trans hq₂.symm) hne
  · have hcase : w ∈ s.queues q' ∨ w ∈ new := by
      by_cases hq : q' = q
      · subst hq
        simpa only [update_self, List.mem_append] using hw
      · simp only [update_of_ne hq] at hw
        exact .inl hw
    show restamp s.clock (new.map Waiter.id) s.stamp w.id < s.clock + new.length
    rcases hcase with hw | hw
    · rw [hold q' w hw]
      exact Nat.lt_add_right _ (h.past q' w hw)
    · simpa using (@restamp_of_mem s.stamp _ s.clock _ (List.mem_map_of_mem hw)).2
  · by_cases hq : q' = q
    · subst hq
      simp only [update_self]
      refine Ordered.append (hkept q') ?_ fun a ha b hb _ => ?_
      · have hnew := @restamp_pairwise s.stamp (new.map Waiter.id) s.clock hnodup
        rw [List.pairwise_map] at hnew
        exact List.Pairwise.imp (fun {a b} hab (_ : Ties a b) => hab) hnew
      · rw [hold q' a ha]
        exact lt_of_lt_of_le (h.past q' a ha) (restamp_of_mem (List.mem_map_of_mem hb)).1
    · simpa only [update_of_ne hq] using hkept q'

theorem unlock {raced : List (List Nat)} {publish : Option Nat → Bool} (h : PiSound s)
    (hcalm : CalmUnlock (claimTop raced (s.queues q)).1) :
    PiSound { s with queues := update s.queues q (piUnlock raced publish (s.queues q)).1 } := by
  obtain ⟨hids, hordered⟩ := claimTop_keeps raced (s.queues q)
  have hqueue := hordered s.stamp (h.ordered q)
  rcases piUnlock_cases raced publish (h.nodup q) with ⟨heq, -⟩ | ⟨before, top, pi, after, hsel, heq⟩
  · rw [heq]
    refine h.change ?_ ?_ hqueue
    · rw [hids]
      exact List.Subset.refl _
    · rw [hids]
      exact h.nodup q
  · rw [heq]
    have hperm : (top :: (after ++ before)).Perm (claimTop raced (s.queues q)).1 := by
      rw [hsel.split]
      exact (List.perm_append_comm.cons top).trans List.perm_middle.symm
    obtain ⟨hsub, hnodup⟩ := ids_of_subperm ((List.sublist_cons_self top _).subperm.trans hperm.subperm)
      (by rw [hids]; exact h.nodup q)
    rw [hids] at hsub
    obtain ⟨hbefore, hafter⟩ := hsel.ordered_rest hqueue
    refine h.change hsub hnodup (hafter.append hbefore fun a ha b hb hties => ?_)
    exact absurd hties.symm (hcalm before top pi after hsel b hb a ha)

theorem requeue {src dst nrWake nrRequeue : Nat} {raced : List (List Nat)} {publish : Nat → Option PiRequeueTarget}
    {r : PiRequeue}
    (h : PiSound s) (hne : src ≠ dst)
    (hcall : piRequeue raced publish nrWake nrRequeue (s.queues src) (s.queues dst) = r)
    (hcalm : CalmRequeue nrWake nrRequeue (claimTop raced (s.queues src)).1) :
    PiSound ⟨update (update s.queues src r.src) dst r.dst, s.clock + (r.dst.length - (s.queues dst).length),
      restamp s.clock ((r.dst.drop (s.queues dst).length).map Waiter.id) s.stamp⟩ := by
  obtain ⟨hids, hordered⟩ := claimTop_keeps raced (s.queues src)
  have hqueue := hordered s.stamp (h.ordered src)
  -- the source loses waiters, and then the target gets them
  have hnodup : ((claimTop raced (s.queues src)).1.map Waiter.id).Nodup := by
    rw [hids]
    exact h.nodup src
  obtain ⟨new, hdst, ⟨hsub, hdistinct⟩, hsrc⟩ : ∃ new, r.dst = s.queues dst ++ new.map requeued ∧
      ((r.src ++ new).map Waiter.id ⊆ (s.queues src).map Waiter.id ∧ ((r.src ++ new).map Waiter.id).Nodup) ∧
      Ordered s.stamp r.src := by
    rcases piRequeue_cases (h.nodup src) hcall with ⟨hdst, -, hsrc⟩ | ⟨before, top, pi, after, new, hsel,
      hdst, hsub, -, hstay⟩
    · refine ⟨[], by simpa using hdst, ?_, ?_⟩
      · rcases hsrc with hsrc | hsrc
        · rw [hsrc, List.append_nil]
          exact ⟨List.Subset.refl _, h.nodup src⟩
        · rw [hsrc, List.append_nil, hids]
          exact ⟨List.Subset.refl _, h.nodup src⟩
      · rcases hsrc with hsrc | hsrc
        · rw [hsrc]
          exact h.ordered src
        · rw [hsrc]
          exact hqueue
    · refine ⟨new, hdst, ?_, ?_⟩
      · rw [← hids]
        exact ids_of_subperm hsub hnodup
      · rw [← ordered_filter, hstay]
        exact hsel.ordered_stay hqueue hcalm
  rw [List.map_append] at hsub hdistinct
  have hnew : (new.map requeued).map Waiter.id = new.map Waiter.id := by
    rw [List.map_map]
    rfl
  have hchanged : PiSound { s with queues := update s.queues src r.src } :=
    h.change (fun id hid => hsub (List.mem_append_left _ hid)) (List.nodup_append.mp hdistinct).1 hsrc
  have henqueued := hchanged.enqueue (q := dst) (new.map requeued)
      (by rw [hnew]; exact (List.nodup_append.mp hdistinct).2.1)
    (by
      intro q' w hw hmem
      rw [hnew] at hmem
      by_cases hq : q' = src
      · subst hq
        simp only [update_self] at hw
        exact (List.nodup_append.mp hdistinct).2.2 w.id (List.mem_map_of_mem hw) w.id hmem rfl
      · simp only [update_of_ne hq] at hw
        obtain ⟨w', hw', hid⟩ := List.mem_map.mp (hsub (List.mem_append_right _ hmem))
        exact h.apart src q' (Ne.symm hq) w' hw' w hw hid)
  simp only [update_of_ne (Ne.symm hne)] at henqueued
  rw [hdst, List.drop_left, List.length_append, Nat.add_sub_cancel_left]
  exact henqueued

end PiSound

theorem PiStep.sound {s s' : PiSystem} (h : PiSound s) (hstep : PiStep true s s') : PiSound s' := by
  cases hstep with
  | @register q w hfresh =>
      exact h.enqueue [w] (by simp) (by simpa using hfresh)
  | @cancel q ids =>
      refine h.change ?_ ?_ (h.ordered q).cancel
      · rw [map_id_cancel]
        exact List.Subset.refl _
      · rw [map_id_cancel]
        exact h.nodup q
  | @remove q id hcancelled =>
      have hsub : ((s.queues q).eraseP (·.id = id)).Sublist (s.queues q) := List.eraseP_sublist
      exact h.change (hsub.map _).subset ((hsub.map _).nodup (h.nodup q)) (List.Pairwise.sublist hsub (h.ordered q))
  | unlock hcalm => exact h.unlock (hcalm rfl)
  | requeue hne hcall hcalm => exact h.requeue hne hcall (hcalm rfl)

theorem PiRun.sound {s : PiSystem} (h : PiRun true s) : PiSound s := by
  induction h with
  | start =>
      exact ⟨fun _ => List.nodup_nil, fun _ _ _ _ hw => (by cases hw), fun _ _ hw => (by cases hw),
        fun _ => List.Pairwise.nil⟩
  | step _ hstep ih => exact hstep.sound ih

/-- After every run in which no call moves a waiter behind a later one of its
priority, each hand-off goes to the strongest live PI waiter, and of those to the
one that was put on the queue first. -/
theorem handoff_strongest_first {s : PiSystem} (h : PiRun true s) (raced : List (List Nat)) :
    (∀ q publish tid, (piUnlock raced publish (s.queues q)).2.2 = .handedOff tid →
      ∃ top pi, (piUnlock raced publish (s.queues q)).2.1 = [top] ∧ top.pi = some pi ∧ pi.tid = tid ∧
        Deserves s.stamp (claimTop raced (s.queues q)).1 top) ∧
    ∀ src dst nrWake nrRequeue publish,
      ∀ top ∈ (piRequeue raced publish nrWake nrRequeue (s.queues src) (s.queues dst)).woken,
      Deserves s.stamp (claimTop raced (s.queues src)).1 top := by
  have hsound := h.sound
  have hqueue (q : Nat) := (claimTop_keeps raced (s.queues q)).2 s.stamp (hsound.ordered q)
  refine ⟨fun q publish tid htid => ?_, fun src dst nrWake nrRequeue publish top htop => ?_⟩
  · rcases piUnlock_cases raced publish (hsound.nodup q) with
      ⟨-, hnone⟩ | ⟨before, top, pi, after, hsel, heq⟩
    · exact absurd htid (hnone tid)
    · rw [heq] at htid ⊢
      obtain rfl := PiUnlockOutcome.handedOff.inj htid
      exact ⟨top, pi, rfl, hsel.payload, rfl, hsel.deserves (hqueue q)⟩
  · rcases piRequeue_cases (hsound.nodup src) (rfl : piRequeue raced publish nrWake nrRequeue (s.queues src)
      (s.queues dst) = _) with ⟨-, hnone, -⟩ | ⟨before, top', pi, after, new, hsel, -, -, hwoken, -⟩
    · rw [hnone] at htop
      cases htop
    · rcases hwoken with hnone | hwoken
      · rw [hnone] at htop
        cases htop
      · rw [hwoken, List.mem_singleton] at htop
        subst htop
        exact hsel.deserves (hqueue src)

def niceWaiter (id : Nat) (nice : Int) : Waiter := ⟨id, some (.new id ⟨.normal, nice, 0⟩), false, false⟩

theorem handoff_strongest_first_two : ∃ s top, PiRun true s ∧ (piUnlock [] (fun _ => true) (s.queues 0)).2 =
    ([top], .handedOff 2) ∧ Deserves s.stamp (s.queues 0) top := by
  have hfirst : PiRun true _ := .step .start (.register (q := 0) (w := niceWaiter 1 10) fun _ _ hw => by cases hw)
  have hsecond : PiRun true _ := .step hfirst (.register (q := 0) (w := niceWaiter 2 5) fun q' w' hw => by
    rcases q' with _ | q'
    · rw [List.mem_singleton.mp (show w' ∈ [niceWaiter 1 10] from hw)]
      decide
    · cases hw)
  obtain ⟨top, pi, hwoken, -, -, hdeserves⟩ := (handoff_strongest_first hsecond []).1 0 (fun _ => true) 2 rfl
  exact ⟨_, top, hsecond, Prod.ext hwoken rfl, hdeserves⟩

/-- The hand-off to the second waiter puts the first one behind the third, and the
next hand-off goes to the third. -/
theorem third_overtakes_first : ∃ s top, PiRun false s ∧ (piUnlock [] (fun _ => true) (s.queues 0)).2.1 = [top] ∧
    ¬ Deserves s.stamp (s.queues 0) top := by
  have hfirst : PiRun false _ := .step .start (.register (q := 0) (w := niceWaiter 1 10) fun _ _ hw => by cases hw)
  have hsecond : PiRun false _ := .step hfirst (.register (q := 0) (w := niceWaiter 2 5) fun q' w' hw => by
    rcases q' with _ | q'
    · rw [List.mem_singleton.mp (show w' ∈ [niceWaiter 1 10] from hw)]
      decide
    · cases hw)
  have hthird : PiRun false _ := .step hsecond (.register (q := 0) (w := niceWaiter 3 10) fun q' w' hw => by
    rcases q' with _ | q'
    · have hids : ∀ w ∈ [niceWaiter 1 10, niceWaiter 2 5], w.id ≠ 3 := by decide
      exact hids w' hw
    · cases hw)
  have hrun : PiRun false _ := .step hthird (@PiStep.unlock false _ 0 [] (fun _ => true) fun h => by cases h)
  refine ⟨_, niceWaiter 3 10, hrun, rfl, ?_⟩
  rintro ⟨-, -, pi, hpi, hleast⟩
  obtain rfl := Option.some.inj hpi
  have hlt := (hleast (niceWaiter 1 10) (by decide) rfl _ rfl).2 rfl (by decide)
  exact absurd hlt (by decide)

end TheKernel.Futex
