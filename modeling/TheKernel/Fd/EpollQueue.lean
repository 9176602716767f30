import Mathlib.Data.Finset.Card
import TheKernel.Fd.Epoll

namespace TheKernel.Fd.EpollCore

open Outcome Act

variable {U S V : Type} {c c' : EpollCore U S} {token t : EpollToken} {e old : Entry U S} {slot : Nat}
  {cell : Option (Entry U S)}

structure Names (c : EpollCore U S) (token : EpollToken) (e : Entry U S) : Prop where
  epoll : token.epoll = c.id
  entry : c.entries[token.slot]? = some (some e)
  generation : e.generation = token.generation

theorem entry_eq_ok : c.entry token = .ok e ↔ Names c token e := by
  rw [entry]
  split
  · next h => exact ⟨nofun, fun hn => absurd hn.epoll h⟩
  · next h =>
      split
      · next x hx =>
          split
          · next hg =>
              rw [ok.injEq]
              constructor
              · rintro rfl
                exact ⟨not_not.mp h, hx, hg⟩
              · intro hn
                have heq := hx.symm.trans hn.entry
                rw [Option.some.injEq, Option.some.injEq] at heq
                exact heq
          · next hg =>
              refine ⟨nofun, fun hn => ?_⟩
              have heq := hx.symm.trans hn.entry
              rw [Option.some.injEq, Option.some.injEq] at heq
              exact absurd (heq ▸ hn.generation) hg
      · next hx => exact ⟨nofun, fun hn => absurd hn.entry (hx e)⟩

theorem entry_cases (c : EpollCore U S) (token : EpollToken) :
    (∃ e, c.entry token = .ok e ∧ Names c token e) ∨ (c.entry token = .err .staleToken ∧ ∀ e, ¬ Names c token e) := by
  cases h : c.entry token with
  | ok e => exact .inl ⟨e, rfl, entry_eq_ok.mp h⟩
  | err error =>
      refine .inr ⟨?_, fun e he => by simp [entry_eq_ok.mpr he] at h⟩
      rw [entry] at h
      split at h
      · exact h.symm ▸ rfl
      · split at h
        · split at h
          · cases h
          · exact h.symm ▸ rfl
        · exact h.symm ▸ rfl
  | panic =>
      rw [entry] at h
      split at h
      · cases h
      · split at h
        · split at h <;> cases h
        · cases h

theorem Names.unique (h : Names c token e) (h' : Names c token old) : e = old := by
  have heq := h.entry.symm.trans h'.entry
  rw [Option.some.injEq, Option.some.injEq] at heq
  exact heq

theorem Names.eq_of_slot (h : Names c token e) (h' : Names c t old) (hslot : token.slot = t.slot) : token = t := by
  have hentry := h.entry
  rw [hslot] at hentry
  have heq := hentry.symm.trans h'.entry
  rw [Option.some.injEq, Option.some.injEq] at heq
  subst heq
  exact EpollToken.ext (h.epoll.trans h'.epoll.symm) hslot (h.generation.symm.trans h'.generation)

theorem Names.slot_lt (h : Names c token e) : token.slot < c.entries.length := (List.getElem?_eq_some_iff.mp h.entry).1

structure Sound (c : EpollCore U S) : Prop where
  fits : c.ready.Fits
  capacity : c.ready.capacity = c.entries.length
  nodup : c.ready.contents.Nodup
  queued : ∀ t, t ∈ c.ready.contents ↔ ∃ e, Names c t e ∧ e.queued = true
  idle : ∀ t e, Names c t e → e.inDelivery = none → e.duringDelivery = 0
  inFlight : ∀ t e, Names c t e → e.inDelivery ≠ none → e.queued = false ∧ e.ready = 0
  rescan : c.rescan = none

theorem Sound.len_lt (h : Sound c) (hn : Names c token e) (hq : e.queued = false) : c.ready.len < c.ready.capacity := by
  rw [h.capacity, ← Ring.length_contents h.fits]
  have hnodup : (token.slot :: c.ready.contents.map (·.slot)).Nodup := by
    rw [List.nodup_cons]
    constructor
    · intro hmem
      obtain ⟨t, ht, hslot⟩ := List.mem_map.mp hmem
      obtain ⟨x, hx, hxq⟩ := (h.queued t).mp ht
      have htoken := hx.eq_of_slot hn hslot
      subst htoken
      rw [hx.unique hn, hq] at hxq
      cases hxq
    · refine h.nodup.map_on fun x hx y hy hxy => ?_
      obtain ⟨ex, hex, _⟩ := (h.queued x).mp hx
      obtain ⟨ey, hey, _⟩ := (h.queued y).mp hy
      exact hex.eq_of_slot hey hxy
  have hcard := Finset.card_le_card (s := (token.slot :: c.ready.contents.map (·.slot)).toFinset)
    (t := Finset.range c.entries.length) ?_
  · rw [List.toFinset_card_of_nodup hnodup, Finset.card_range, List.length_cons, List.length_map] at hcard
    omega
  · intro i hi
    simp only [List.toFinset_cons, Finset.mem_insert, List.mem_toFinset, List.mem_map] at hi
    rw [Finset.mem_range]
    rcases hi with rfl | ⟨t, ht, rfl⟩
    · exact hn.slot_lt
    · obtain ⟨x, hx, _⟩ := (h.queued t).mp ht
      exact hx.slot_lt

/-- What every operation does to the interests: at most one slot changes. -/
structure Becomes (c c' : EpollCore U S) (slot : Nat) (cell : Option (Entry U S)) : Prop where
  id : c'.id = c.id
  entries : c'.entries = c.entries.set slot cell
  slot_lt : slot < c.entries.length
  sound : Sound c'

theorem names_set (hid : c'.id = c.id) (hentries : c'.entries = c.entries.set slot cell)
    (hlt : slot < c.entries.length) :
    Names c' t e ↔
      if t.slot = slot then t.epoll = c.id ∧ cell = some e ∧ e.generation = t.generation
      else Names c t e := by
  constructor
  · intro h
    have hentry := h.entry
    rw [hentries, List.getElem?_set] at hentry
    split
    · next hs =>
        rw [if_pos hs.symm, if_pos (hs ▸ hlt), Option.some.injEq] at hentry
        exact ⟨hid ▸ h.epoll, hentry, h.generation⟩
    · next hs =>
        rw [if_neg (Ne.symm hs)] at hentry
        exact ⟨hid ▸ h.epoll, hentry, h.generation⟩
  · intro h
    split at h
    · next hs => exact ⟨h.1.trans hid.symm, by rw [hentries, hs, List.getElem?_set_self hlt, h.2.1], h.2.2⟩
    · next hs => exact ⟨h.epoll.trans hid.symm, by rw [hentries, List.getElem?_set_ne (Ne.symm hs), h.entry],
        h.generation⟩

/-- The interest in a slot changes; the queue changes at most for its tokens. -/
theorem Sound.becomes (h : Sound c) (hid : c'.id = c.id) (hentries : c'.entries = c.entries.set slot cell)
    (hlt : slot < c.entries.length) (hfits : c'.ready.Fits) (hcap : c'.ready.capacity = c.ready.capacity)
    (hnodup : c'.ready.contents.Nodup) (hrescan : c'.rescan = c.rescan)
    (hothers : ∀ t, t.slot ≠ slot → (t ∈ c'.ready.contents ↔ t ∈ c.ready.contents))
    (hqueued : ∀ t, t.slot = slot →
      (t ∈ c'.ready.contents ↔ ∃ e, (t.epoll = c.id ∧ cell = some e ∧ e.generation = t.generation) ∧ e.queued = true))
    (hidle : ∀ e, cell = some e → e.inDelivery = none → e.duringDelivery = 0)
    (hflight : ∀ e, cell = some e → e.inDelivery ≠ none → e.queued = false ∧ e.ready = 0) : Becomes c c' slot cell where
  id := hid
  entries := hentries
  slot_lt := hlt
  sound :=
    { fits := hfits
      capacity := by rw [hcap, hentries, List.length_set, h.capacity]
      nodup := hnodup
      queued := by
        intro t
        simp only [names_set hid hentries hlt]
        by_cases hs : t.slot = slot
        · simpa only [hs, if_true] using hqueued t hs
        · simpa only [hs, if_false, hothers t hs] using h.queued t
      idle := by
        intro t e hn
        rw [names_set hid hentries hlt] at hn
        split at hn
        · exact hidle e hn.2.1
        · exact h.idle t e hn
      inFlight := by
        intro t e hn
        rw [names_set hid hentries hlt] at hn
        split at hn
        · exact hflight e hn.2.1
        · exact h.inFlight t e hn
      rescan := hrescan.trans h.rescan }

theorem Sound.mem_contents (h : Sound c) (hn : Names c token e) : token ∈ c.ready.contents ↔ e.queued = true := by
  rw [h.queued]
  constructor
  · rintro ⟨x, hx, hq⟩
    exact hx.unique hn ▸ hq
  · intro hq
    exact ⟨e, hn, hq⟩

/-- The queue holds no other token of a live interest's slot. -/
theorem Sound.eq_of_mem (h : Sound c) (hn : Names c token e) (ht : t ∈ c.ready.contents) (hslot : t.slot = token.slot) :
    t = token := by
  obtain ⟨x, hx, _⟩ := (h.queued t).mp ht
  exact hx.eq_of_slot hn hslot

theorem Sound.setEntry (h : Sound c) (hn : Names c token old) (hgen : e.generation = old.generation)
    (hq : e.queued = old.queued) (hidle : e.inDelivery = none → e.duringDelivery = 0)
    (hflight : e.inDelivery ≠ none → e.queued = false ∧ e.ready = 0) :
    Becomes c (setEntry token.slot (some e) c) token.slot (some e) := by
  refine h.becomes rfl rfl hn.slot_lt h.fits rfl h.nodup rfl (fun _ _ => Iff.rfl) ?_ ?_ ?_
  · intro t ht
    constructor
    · intro hmem
      obtain rfl := h.eq_of_mem hn hmem ht
      exact ⟨e, ⟨hn.epoll, rfl, hgen.trans hn.generation⟩, hq.trans ((h.mem_contents hn).mp hmem)⟩
    · rintro ⟨x, ⟨hepoll, ⟨⟩, hx⟩, hxq⟩
      obtain rfl : t = token :=
        EpollToken.ext (hepoll.trans hn.epoll.symm) ht (hx.symm.trans (hgen.trans hn.generation))
      exact (h.mem_contents hn).mpr (hq.symm.trans hxq)
  · rintro _ ⟨⟩
    exact hidle
  · rintro _ ⟨⟩
    exact hflight

theorem Sound.push (h : Sound c) (hn : Names c token old) (hold : old.queued = false)
    (hgen : e.generation = old.generation)
    (hq : e.queued = true) (hidle : e.duringDelivery = 0) (hflight : e.inDelivery = none) :
    ∃ queue, c.ready.push token = some queue ∧
      Becomes c { EpollCore.setEntry token.slot (some e) c with ready := queue } token.slot (some e) := by
  obtain ⟨queue, hpush, hcontents, hcap, hfits⟩ := Ring.push_spec (x := token) (h.len_lt hn hold)
  refine ⟨queue, hpush, ?_⟩
  have hnot : token ∉ c.ready.contents := by
    rw [h.mem_contents hn, hold]
    exact Bool.false_ne_true
  refine h.becomes rfl rfl hn.slot_lt hfits hcap ?_ rfl ?_ ?_ ?_ ?_
  · rw [hcontents, List.nodup_append]
    refine ⟨h.nodup, List.nodup_singleton token, ?_⟩
    rintro x hx y hy rfl
    rw [List.mem_singleton] at hy
    exact hnot (hy ▸ hx)
  · intro t ht
    rw [hcontents, List.mem_append, List.mem_singleton]
    constructor
    · rintro (hmem | rfl)
      · exact hmem
      · exact absurd rfl ht
    · exact .inl
  · intro t ht
    rw [hcontents, List.mem_append, List.mem_singleton]
    constructor
    · intro hmem
      obtain rfl : t = token := by
        rcases hmem with hmem | rfl
        · exact h.eq_of_mem hn hmem ht
        · rfl
      exact ⟨e, ⟨hn.epoll, rfl, hgen.trans hn.generation⟩, hq⟩
    · rintro ⟨x, ⟨hepoll, ⟨⟩, hx⟩, _⟩
      exact .inr (EpollToken.ext (hepoll.trans hn.epoll.symm) ht (hx.symm.trans (hgen.trans hn.generation)))
  · rintro _ ⟨⟩ _
    exact hidle
  · rintro _ ⟨⟩ hne
    exact absurd hflight hne

theorem Sound.leaves (h : Sound c) (hn : Names c token old) {queue : ReadyQueue} (hfits : queue.Fits)
    (hcap : queue.capacity = c.ready.capacity) (hnodup : queue.contents.Nodup)
    (hmem : ∀ t, t ∈ queue.contents ↔ t ∈ c.ready.contents ∧ t ≠ token)
    (hq : ∀ e, cell = some e → e.queued = false)
    (hidle : ∀ e, cell = some e → e.inDelivery = none → e.duringDelivery = 0)
    (hflight : ∀ e, cell = some e → e.inDelivery ≠ none → e.ready = 0) {c' : EpollCore U S} (hid : c'.id = c.id)
    (hentries : c'.entries = c.entries.set token.slot cell) (hready : c'.ready = queue)
    (hrescan : c'.rescan = c.rescan) : Becomes c c' token.slot cell := by
  subst hready
  refine h.becomes hid hentries hn.slot_lt hfits hcap hnodup hrescan ?_ ?_ hidle fun e he hne =>
    ⟨hq e he, hflight e he hne⟩
  · intro t ht
    rw [hmem]
    exact ⟨fun hm => hm.1, fun hm => ⟨hm, fun heq => ht (heq ▸ rfl)⟩⟩
  · intro t ht
    constructor
    · intro hm
      obtain ⟨hm, hne⟩ := (hmem t).mp hm
      exact absurd (h.eq_of_mem hn hm ht) hne
    · rintro ⟨e, ⟨_, he, _⟩, heq⟩
      rw [hq e he] at heq
      cases heq

theorem Sound.removed (h : Sound c) (hn : Names c token old) (hq : ∀ e, cell = some e → e.queued = false)
    (hidle : ∀ e, cell = some e → e.inDelivery = none ∧ e.duringDelivery = 0) {c' : EpollCore U S} (hid : c'.id = c.id)
    (hentries : c'.entries = c.entries.set token.slot cell) (hready : c'.ready = c.ready.remove token)
    (hrescan : c'.rescan = c.rescan) : Becomes c c' token.slot cell := by
  obtain ⟨hcontents, hcap, hfits⟩ := Ring.remove_spec token h.fits
  refine h.leaves hn hfits hcap ?_ ?_ hq (fun e he _ => (hidle e he).2) (fun e he hne => absurd (hidle e he).1 hne) hid
    hentries hready hrescan
  · rw [hcontents]
    exact h.nodup.filter _
  · intro t
    rw [hcontents, List.mem_filter, decide_eq_true_eq]

theorem Sound.popped (h : Sound c) (hn : Names c token old) (hpeek : c.ready.peek = some token) (hq : e.queued = false)
    (hflight : e.inDelivery ≠ none) (hready : e.ready = 0) {c' : EpollCore U S} (hid : c'.id = c.id)
    (hentries : c'.entries = c.entries.set token.slot (some e)) (hpop : c'.ready = c.ready.pop.2)
    (hrescan : c'.rescan = c.rescan) : Becomes c c' token.slot (some e) := by
  rw [Ring.peek_eq h.fits] at hpeek
  obtain ⟨rest, hcontents⟩ : ∃ rest, c.ready.contents = token :: rest := by
    cases hc : c.ready.contents with
    | nil => simp [hc] at hpeek
    | cons x rest =>
        rw [hc, List.head?_cons, Option.some.injEq] at hpeek
        exact ⟨rest, by rw [hpeek]⟩
  obtain ⟨_, hrest, hcap, hfits⟩ := Ring.pop_spec h.fits hcontents
  have hnodup := h.nodup
  rw [hcontents, List.nodup_cons] at hnodup
  refine h.leaves hn hfits hcap (hrest ▸ hnodup.2) ?_ ?_ ?_ ?_ hid hentries hpop hrescan
  · intro t
    rw [hrest, hcontents, List.mem_cons]
    constructor
    · intro ht
      exact ⟨.inr ht, fun heq => hnodup.1 (heq ▸ ht)⟩
    · rintro ⟨rfl | ht, hne⟩
      · exact absurd rfl hne
      · exact ht
  · rintro _ ⟨⟩
    exact hq
  · rintro _ ⟨⟩ hnone
    exact absurd hnone hflight
  · rintro _ ⟨⟩ _
    exact hready

theorem Sound.replaced (h : Sound c) (hn : Names c token old) (hold : old.queued = true) (hq : e.queued = true)
    (hidle : e.duringDelivery = 0) (hflight : e.inDelivery = none) {c' : EpollCore U S} (hid : c'.id = c.id)
    (hentries : c'.entries = c.entries.set token.slot (some e))
    (hready : c'.ready = c.ready.replace token ⟨c.id, token.slot, e.generation⟩) (hrescan : c'.rescan = c.rescan) :
    Becomes c c' token.slot (some e) := by
  obtain ⟨hcontents, hcap, hfits⟩ := Ring.replace_spec token ⟨c.id, token.slot, e.generation⟩ h.fits
  have hmem : ∀ t, t ∈ c'.ready.contents ↔
      (t ∈ c.ready.contents ∧ t ≠ token) ∨ t = ⟨c.id, token.slot, e.generation⟩ := by
    intro t
    rw [hready, hcontents, List.mem_map]
    constructor
    · rintro ⟨x, hx, rfl⟩
      split
      · exact .inr rfl
      · next hne => exact .inl ⟨hx, hne⟩
    · rintro (⟨ht, hne⟩ | rfl)
      · exact ⟨t, ht, if_neg hne⟩
      · exact ⟨token, (h.mem_contents hn).mpr hold, if_pos rfl⟩
  refine h.becomes hid hentries hn.slot_lt (hready ▸ hfits) (hready ▸ hcap) ?_ hrescan ?_ ?_ ?_ ?_
  · rw [hready, hcontents]
    refine h.nodup.map_on fun x hx y hy hxy => ?_
    -- two tokens that both come to name the slot named it before
    split at hxy
    · next hxt =>
        split at hxy
        · next hyt => rw [hxt, hyt]
        · exact hxt.trans (h.eq_of_mem hn hy (by rw [← hxy])).symm
    · split at hxy
      · next hyt => exact (h.eq_of_mem hn hx (by rw [hxy])).trans hyt.symm
      · exact hxy
  · intro t ht
    rw [hmem]
    constructor
    · rintro (⟨hm, _⟩ | rfl)
      · exact hm
      · exact absurd rfl ht
    · intro hm
      exact .inl ⟨hm, fun heq => ht (heq ▸ rfl)⟩
  · intro t ht
    rw [hmem]
    constructor
    · rintro (⟨hm, hne⟩ | rfl)
      · exact absurd (h.eq_of_mem hn hm ht) hne
      · exact ⟨e, ⟨rfl, rfl, rfl⟩, hq⟩
    · rintro ⟨x, ⟨hepoll, ⟨⟩, hx⟩, _⟩
      exact .inr (EpollToken.ext hepoll ht hx.symm)
  · rintro _ ⟨⟩ _
    exact hidle
  · rintro _ ⟨⟩ hne
    exact absurd hflight hne

end TheKernel.Fd.EpollCore
