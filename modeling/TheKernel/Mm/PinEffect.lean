import Mathlib.Logic.Relation
import TheKernel.Lib.Issuers
import TheKernel.Mm.Pin

namespace TheKernel.Mm

open Act

namespace PinAccounting

@[simp] theorem zero_pages : (0 : PinAccounting).pages = 0 := rfl

@[simp] theorem zero_bytes : (0 : PinAccounting).bytes = 0 := rfl

@[simp] theorem zero_tokens : (0 : PinAccounting).tokens = 0 := rfl

@[simp] theorem add_pages (a b : PinAccounting) : (a + b).pages = a.pages + b.pages := rfl

@[simp] theorem add_bytes (a b : PinAccounting) : (a + b).bytes = a.bytes + b.bytes := rfl

@[simp] theorem add_tokens (a b : PinAccounting) : (a + b).tokens = a.tokens + b.tokens := rfl

instance : AddCancelCommMonoid PinAccounting where
  add_assoc a b c := by ext <;> simp [Nat.add_assoc]
  zero_add a := by ext <;> simp
  add_zero a := by ext <;> simp
  add_comm a b := by ext <;> simp [Nat.add_comm]
  nsmul := nsmulRec
  add_left_cancel a b c h := by
    have hpages := congrArg pages h
    have hbytes := congrArg bytes h
    have htokens := congrArg tokens h
    simp only [add_pages, add_bytes, add_tokens, Nat.add_left_cancel_iff] at hpages hbytes htokens
    ext <;> assumption

theorem checkedAdd_eq_ok {usage charge total : PinAccounting} (h : usage.checkedAdd charge = .ok total) :
    total = usage + charge := by
  rw [checkedAdd] at h
  split at h
  · cases h
    rfl
  · cases h

theorem checkedAdd_ne_panic (usage charge : PinAccounting) : usage.checkedAdd charge ≠ .panic := by
  rw [checkedAdd]
  split <;> simp

theorem checkedSub_add (rest charge : PinAccounting) : (rest + charge).checkedSub charge = .ok rest := by
  rw [checkedSub, if_pos (by simp)]
  congr 1
  ext <;> simp

theorem forRange_ne_panic (range : PageRange) : forRange range ≠ .panic := by
  rw [forRange]
  split <;> simp

theorem forRange_tokens {range : PageRange} {charge : PinAccounting} (h : forRange range = .ok charge) :
    charge.tokens = 1 := by
  rw [forRange] at h
  split at h
  · cases h
    rfl
  · cases h

end PinAccounting

theorem PinQuota.admits_zero (quota : PinQuota) : quota.admits 0 = true := by
  simp [PinQuota.admits]

theorem PinQuota.admits_left {quota : PinQuota} {a b : PinAccounting} (h : quota.admits (a + b) = true) :
    quota.admits a = true := by
  simp only [PinQuota.admits, Bool.and_eq_true, decide_eq_true_eq, PinAccounting.add_pages, PinAccounting.add_bytes,
    PinAccounting.add_tokens] at h ⊢
  omega

theorem PageRange.covering_ne_panic (range : UserRange) (pageSize : PageSize) : covering range pageSize ≠ .panic := by
  rw [covering, PageSize.alignUp]
  split
  · rw [Outcome.ok_bind, withPageSize]
    split
    · split
      · simp
      · split <;> simp
    · simp
  · simp

def PinRecord.chargeTo (owner : PinOwner) (record : PinRecord) : PinAccounting :=
  if record.request.owner = owner then record.charge else 0

theorem following_spent {next : Option Nat} {raw n : Nat} (h : Spent next raw) (hn : next = some n) :
    Spent (following n) raw := by
  intro m hm
  have hraw := h n hn
  rw [following] at hm
  split at hm
  · cases hm
    omega
  · cases hm

theorem spent_following (n : Nat) : Spent (following n) n := by
  intro m hm
  rw [following] at hm
  split at hm
  · cases hm
    omega
  · cases hm

namespace PinBudget

structure Sound (b : PinBudget) : Prop where
  usage : b.usage = slotTotal PinBudgetRecord.accounting b.records
  admits : b.quota.admits b.usage = true

inductive Effect (b : PinBudget) : BudgetCall → Outcome MmError PinReply → PinBudget → Prop
  | refused {call : BudgetCall} {e : MmError} : Effect b call (.err e) b
  | charged {request : PinRequest} {i token : Nat} {range : PageRange} {accounting : PinAccounting}
      (hfree : b.records[i]? = some none) (hquota : b.quota.admits (b.usage + accounting) = true)
      (hnext : b.nextCharge = some token) :
      Effect b (.reserve request) (.ok (.charged ⟨b.identity, token⟩)) { b with
        nextCharge := following token
        usage := b.usage + accounting
        records := b.records.set i (some ⟨⟨b.identity, token⟩, range, accounting⟩) }
  | released {charge : PinBudgetCharge} {i : Nat} {record : PinBudgetRecord} {rest : PinAccounting}
      (hlive : b.records[i]? = some (some record)) (hrest : b.usage = rest + record.accounting) :
      Effect b (.release charge) (.ok .done) { b with records := b.records.set i none, usage := rest }

theorem Sound.effect {b t : PinBudget} {call : BudgetCall} {result : Outcome MmError PinReply} (hs : Sound b)
    (h : Effect b call result t) : Sound t := by
  cases h with
  | refused => exact hs
  | charged hfree hquota hnext =>
      refine ⟨?_, hquota⟩
      rw [slotTotal_fill hfree, ← hs.usage]
  | released hlive hrest =>
      have hadmits := hs.admits
      rw [hrest] at hadmits
      refine ⟨?_, PinQuota.admits_left hadmits⟩
      have htotal := slotTotal_clear (w := PinBudgetRecord.accounting) hlive
      rw [← hs.usage, hrest] at htotal
      exact (add_right_cancel htotal).symm

theorem reserve_effect (b : PinBudget) (request : PinRequest) :
    Ensures (reserve request) b (fun charge t => Effect b (.reserve request) (.ok (.charged charge)) t)
      (fun _ t => t = b) False := by
  apply ensures_get_bind
  refine ensures_lift_bind (fun range _ => ?_) (fun _ _ => rfl) (PageRange.covering_ne_panic _ _)
  refine ensures_okOr_bind (fun i hi => ?_) (fun _ => rfl)
  refine ensures_lift_bind (fun accounting _ => ?_) (fun _ _ => rfl) (PinAccounting.forRange_ne_panic _)
  refine ensures_lift_bind (fun newUsage hnew => ?_) (fun _ _ => rfl) (PinAccounting.checkedAdd_ne_panic _ _)
  cases PinAccounting.checkedAdd_eq_ok hnew
  split
  · exact ensures_fail rfl
  case isFalse hquota =>
    refine ensures_okOr_bind (fun token htoken => ?_) (fun _ => rfl)
    apply ensures_modify_bind
    apply ensures_pure
    exact .charged (getElem?_freeSlot hi) (by simpa using hquota) htoken

theorem release_effect {b : PinBudget} (hs : Sound b) (charge : PinBudgetCharge) :
    Ensures (release charge) b (fun _ t => Effect b (.release charge) (.ok .done) t) (fun _ t => t = b) False := by
  have hindex : Ensures (recordIndex charge) b (fun found t => t = b ∧ b.records[found.1]? = some (some found.2))
      (fun _ t => t = b) False := by
    apply ensures_get_bind
    split
    · exact ensures_fail rfl
    · cases hfind : findSlot (fun record : PinBudgetRecord => record.charge = charge) b.records with
      | none => exact (rfl : b = b)
      | some found => exact ensures_pure ⟨rfl, (findSlot_eq_some hfind).1⟩
  refine hindex.bind ?_
  rintro ⟨i, record⟩ t ⟨rfl, hlive⟩
  apply ensures_get_bind
  have husage : t.usage = slotTotal PinBudgetRecord.accounting (t.records.set i none) + record.accounting := by
    rw [hs.usage]
    exact (slotTotal_clear hlive).symm
  rw [husage, PinAccounting.checkedSub_add]
  exact ensures_modify (.released hlive husage)

theorem effect_of_run {b : PinBudget} (hs : Sound b) (call : BudgetCall) :
    Ensures call.run b (fun reply t => Effect b call (.ok reply) t) (fun e t => Effect b call (.err e) t) False := by
  cases call with
  | reserve request =>
      refine Ensures.bind ((reserve_effect b request).mono (fun _ _ h => h) ?_ id) (fun _ _ h => ensures_pure h)
      rintro e t rfl
      exact .refused
  | release charge =>
      refine Ensures.bind ((release_effect hs charge).mono (fun _ _ h => h) ?_ id) (fun _ _ h => ensures_pure h)
      rintro e t rfl
      exact .refused

end PinBudget

namespace PinRegistry

/-- The two ledgers are what the live records add up to, and the records are
as the registry made them. -/
structure Sound (r : PinRegistry) : Prop where
  global : r.globalUsage = slotTotal PinRecord.charge r.records
  globalAdmits : r.globalQuota.admits r.globalUsage = true
  owner : ∀ account, some account ∈ r.owners → account.usage = slotTotal (PinRecord.chargeTo account.owner) r.records
  ownerAdmits : ∀ account, some account ∈ r.owners → account.quota.admits account.usage = true
  unique : KeyedSlots OwnerAccount.owner r.owners
  configured : ∀ record, some record ∈ r.records → ∃ account, some account ∈ r.owners ∧
    account.owner = record.request.owner
  charge : ∀ record, some record ∈ r.records → PinAccounting.forRange record.range = .ok record.charge
  issued : ∀ record, some record ∈ r.records → record.token.registry = r.identity ∧
    Spent r.nextToken record.token.sequence
  distinct : KeyedSlots PinRecord.token r.records
  segments : ∀ record, some record ∈ r.records → record.range.start + record.validatedMappings ≤ record.validatedUntil
  closed : r.state = .closed → ∀ record, some record ∉ r.records
  capacity : r.records.length ≤ wordMax

inductive Refunds (r : PinRegistry) (index : Nat) (record : PinRecord) : PinRegistry → Prop
  | intro {k : Nat} {account : OwnerAccount} {ownerUsage globalUsage : PinAccounting}
      (hlive : r.records[index]? = some (some record)) (hk : r.owners[k]? = some (some account))
      (howner : account.owner = record.request.owner) (hrest : account.usage = ownerUsage + record.charge)
      (hglobal : r.globalUsage = globalUsage + record.charge) :
      Refunds r index record { r with
        records := r.records.set index none
        owners := r.owners.set k (some { account with usage := ownerUsage })
        globalUsage := globalUsage }

def Drains : PinRegistry → PinRegistry → Prop :=
  Relation.ReflTransGen fun r t => ∃ index record, record.state = .reserved ∧ Refunds r index record t

inductive Effect (r : PinRegistry) : RegistryCall → Outcome MmError PinReply → PinRegistry → Prop
  | refused {call : RegistryCall} {e : MmError} (hteardown : call = .beginTeardown → r.state = .closed) :
      Effect r call (.err e) r
  | quotaSet {owner : PinOwner} {quota : PinQuota} {k : Nat} {account : OwnerAccount}
      (hk : r.owners[k]? = some (some account)) (hquota : quota.admits account.usage = true) :
      Effect r (.configureOwner owner quota) (.ok .done)
        { r with owners := r.owners.set k (some { account with quota := quota }) }
  | ownerAdded {owner : PinOwner} {quota : PinQuota} {k : Nat} (hk : r.owners[k]? = some none)
      (hfresh : ∀ account, some account ∈ r.owners → account.owner ≠ owner) :
      Effect r (.configureOwner owner quota) (.ok .done)
        { r with owners := r.owners.set k (some ⟨owner, quota, ⟨0, 0, 0⟩⟩) }
  | ownerRemoved {owner : PinOwner} {k : Nat} {account : OwnerAccount} (hk : r.owners[k]? = some (some account))
      (hzero : account.usage = ⟨0, 0, 0⟩) :
      Effect r (.removeOwner owner) (.ok .done) { r with owners := r.owners.set k none }
  | reserved {request : PinRequest} {addressSpace : AddressSpaceId} {k i token : Nat} {account : OwnerAccount}
      {range : PageRange} {charge : PinAccounting} (hopen : r.state = .opened)
      (hrange : PageRange.covering request.range r.pageSize = .ok range)
      (hk : r.owners[k]? = some (some account)) (howner : account.owner = request.owner)
      (hfree : r.records[i]? = some none) (hcharge : PinAccounting.forRange range = .ok charge)
      (hquota : account.quota.admits (account.usage + charge) = true)
      (hglobal : r.globalQuota.admits (r.globalUsage + charge) = true) (hnext : r.nextToken = some token) :
      Effect r (.reserve request addressSpace) (.ok (.reserved ⟨⟨r.identity, token⟩⟩)) { r with
        nextToken := following token
        owners := r.owners.set k (some { account with usage := account.usage + charge })
        globalUsage := r.globalUsage + charge
        records := r.records.set i (some ⟨⟨r.identity, token⟩, request, range, ⟨addressSpace, range⟩, range.start, 0,
          charge, .reserved⟩) }
  | validated {reservation : PinReservation} {expected : ExpectedMapping} {current : MappingSnapshot}
      {covered : PageRange} {i : Nat} {record : PinRecord} (hlive : r.records[i]? = some (some record))
      (htoken : record.token = reservation.token) (hreserved : record.state = .reserved)
      (hvalid : r.validation record expected current covered = .ok ()) :
      Effect r (.revalidateNext reservation expected current covered) (.ok .done) { r with
        records := r.records.set i (some { record with
          validatedUntil := covered.stop
          validatedMappings := record.validatedMappings + 1 }) }
  | rolledBack {reservation : PinReservation} {expected : ExpectedMapping} {current : MappingSnapshot}
      {covered : PageRange} {i : Nat} {record : PinRecord} {e : MmError} {t : PinRegistry}
      (htoken : record.token = reservation.token) (hreserved : record.state = .reserved)
      (hvalid : r.validation record expected current covered = .err e) (hrefund : Refunds r i record t) :
      Effect r (.revalidateNext reservation expected current covered) (.err e) t
  | committed {reservation : PinReservation} {i : Nat} {record : PinRecord}
      (hlive : r.records[i]? = some (some record)) (htoken : record.token = reservation.token)
      (hreserved : record.state = .reserved) (huntil : record.validatedUntil = record.range.stop)
      (hmappings : record.validatedMappings ≠ 0) :
      Effect r (.commit reservation) (.ok (.committed record.token))
        { r with records := r.records.set i (some { record with state := .active }) }
  | cancelled {reservation : PinReservation} {i : Nat} {record : PinRecord} {t : PinRegistry}
      (hrefund : Refunds r i record t) : Effect r (.cancelReservation reservation) (.ok .done) t
  | released {token : PinToken} {i : Nat} {record : PinRecord} {t : PinRegistry}
      (hrefund : Refunds r i record t) : Effect r (.release token) (.ok .done) t
  | closing {progress : LifecycleProgress} (hstate : r.state = .opened ∨ r.state = .closing) :
      Effect r .beginClose (.ok (.progress progress)) { r with state := .closing }
  | tornDown {report : TeardownReport} {t : PinRegistry} (hstate : r.state ≠ .closed)
      (hdrain : Drains { r with state := .tearingDown } t) :
      Effect r .beginTeardown (.ok (.report report)) t
  | finished (hempty : ∀ record, some record ∉ r.records) :
      Effect r .finishTeardown (.ok .done) { r with state := .closed }

theorem Sound.ownerIndex_eq {r : PinRegistry} {record : PinRecord} (hs : Sound r) (h : some record ∈ r.records) :
    ∃ k account, r.ownerIndex record.request.owner = some (k, account) := by
  obtain ⟨account, haccount, howner⟩ := hs.configured record h
  exact findSlot_isSome haccount (by simpa using howner)

theorem ownerIndex_spec {r : PinRegistry} {owner : PinOwner} {k : Nat} {account : OwnerAccount}
    (h : r.ownerIndex owner = some (k, account)) : r.owners[k]? = some (some account) ∧ account.owner = owner := by
  obtain ⟨hk, howner⟩ := findSlot_eq_some h
  exact ⟨hk, by simpa using howner⟩

theorem recordIndex_spec {r : PinRegistry} {token : PinToken} {i : Nat} {record : PinRecord}
    (h : r.recordIndex token = some (i, record)) : r.records[i]? = some (some record) ∧ record.token = token := by
  obtain ⟨hi, htoken⟩ := findSlot_eq_some h
  exact ⟨hi, by simpa using htoken⟩

/-- The charge of a live record stands in both ledgers, so it can be taken out
of both. -/
theorem removeRecord_refunds {r : PinRegistry} {i : Nat} {record : PinRecord} (hs : Sound r)
    (h : r.records[i]? = some (some record)) : ∃ t, removeRecord i r = (.ok (), t) ∧ Refunds r i record t := by
  obtain ⟨k, account, hindex⟩ := hs.ownerIndex_eq (List.mem_of_getElem? h)
  obtain ⟨hk, howner⟩ := ownerIndex_spec hindex
  have hrest : account.usage = slotTotal (PinRecord.chargeTo account.owner) (r.records.set i none) + record.charge := by
    have htotal := slotTotal_clear (w := PinRecord.chargeTo account.owner) h
    rw [PinRecord.chargeTo, if_pos howner.symm] at htotal
    rw [hs.owner account (List.mem_of_getElem? hk), htotal]
  have hglobal : r.globalUsage = slotTotal PinRecord.charge (r.records.set i none) + record.charge := by
    rw [hs.global, slotTotal_clear h]
  refine ⟨_, ?_, .intro h hk howner hrest hglobal⟩
  rw [removeRecord, get_bind, h]
  simp only [Option.join_some, okOr, bind_apply, modify_apply, hindex, lift_apply, hrest, hglobal,
    PinAccounting.checkedSub_add]

theorem slotTotal_other {l : List (Option PinRecord)} {i : Nat} {o : Option PinRecord} {owner : PinOwner}
    (h : l[i]? = some o) {v : Option PinRecord} (ho : ∀ record, o = some record → record.request.owner ≠ owner)
    (hv : ∀ record, v = some record → record.request.owner ≠ owner) :
    slotTotal (PinRecord.chargeTo owner) (l.set i v) = slotTotal (PinRecord.chargeTo owner) l := by
  have hzero : ∀ w : Option PinRecord, (∀ record, w = some record → record.request.owner ≠ owner) →
      w.elim 0 (PinRecord.chargeTo owner) = 0 := by
    intro w hw
    cases w with
    | none => rfl
    | some record => exact if_neg (hw record rfl)
  have hset := slotTotal_set (w := PinRecord.chargeTo owner) (v := v) h
  rwa [hzero o ho, hzero v hv, add_zero, add_zero] at hset

/-- One account and the records of its owner change together. -/
theorem Sound.owner_set {r : PinRegistry} {k : Nat} {account updated : OwnerAccount} {records : List (Option PinRecord)}
    (hs : Sound r) (hk : r.owners[k]? = some (some account)) (howner : updated.owner = account.owner)
    (hself : updated.usage = slotTotal (PinRecord.chargeTo account.owner) records)
    (hother : ∀ owner, owner ≠ account.owner →
      slotTotal (PinRecord.chargeTo owner) records = slotTotal (PinRecord.chargeTo owner) r.records) :
    ∀ a, some a ∈ r.owners.set k (some updated) → a.usage = slotTotal (PinRecord.chargeTo a.owner) records := by
  intro a ha
  obtain ⟨j, hj⟩ := List.mem_iff_getElem?.mp ha
  rcases getElem?_set_some hj with ⟨_, hj⟩ | ⟨hne, hj⟩
  · cases hj
    rw [howner, hself]
  · have hdiff : a.owner ≠ account.owner := by
      intro heq
      exact hne (hs.unique j k a account hj hk heq).symm
    rw [hother a.owner hdiff]
    exact hs.owner a (List.mem_of_getElem? hj)

theorem Sound.ownerAdmits_set {r : PinRegistry} {k : Nat} {updated : OwnerAccount} (hs : Sound r)
    (h : updated.quota.admits updated.usage = true) :
    ∀ a, some a ∈ r.owners.set k (some updated) → a.quota.admits a.usage = true := by
  intro a ha
  rcases mem_of_mem_set ha with ha | ha
  · exact hs.ownerAdmits a ha
  · cases ha
    exact h

theorem Sound.configured_set {r : PinRegistry} {k : Nat} {account updated : OwnerAccount} (hs : Sound r)
    (hk : r.owners[k]? = some (some account)) (howner : updated.owner = account.owner) {record : PinRecord}
    (h : some record ∈ r.records) : ∃ a, some a ∈ r.owners.set k (some updated) ∧ a.owner = record.request.owner := by
  obtain ⟨a, ha, hrecord⟩ := hs.configured record h
  obtain ⟨b, hb, hba⟩ := exists_mem_replace OwnerAccount.owner hk howner ha
  exact ⟨b, hb, hba.trans hrecord⟩

theorem Sound.refunds {r t : PinRegistry} {i : Nat} {record : PinRecord} (hs : Sound r) (h : Refunds r i record t) :
    Sound t := by
  obtain ⟨hlive, hk, howner, hrest, hglobal⟩ := h
  have hmem : ∀ a, some a ∈ r.records.set i none → some a ∈ r.records := fun a => mem_of_mem_set_none
  constructor
  case global =>
    have htotal := slotTotal_clear (w := PinRecord.charge) hlive
    rw [← hs.global, hglobal] at htotal
    exact (add_right_cancel htotal).symm
  case globalAdmits =>
    have hadmits := hs.globalAdmits
    rw [hglobal] at hadmits
    exact PinQuota.admits_left hadmits
  case owner =>
    refine hs.owner_set hk ?_ ?_ ?_
    · rfl
    · have htotal := slotTotal_clear (w := PinRecord.chargeTo record.request.owner) hlive
      rw [PinRecord.chargeTo, if_pos rfl, ← howner, ← hs.owner _ (List.mem_of_getElem? hk), hrest] at htotal
      exact (add_right_cancel htotal).symm
    · intro owner hne
      apply slotTotal_other hlive
      · rintro _ ⟨⟩ heq
        exact hne (heq ▸ howner.symm)
      · rintro _ ⟨⟩
  case ownerAdmits =>
    apply hs.ownerAdmits_set
    have hadmits := hs.ownerAdmits _ (List.mem_of_getElem? hk)
    rw [hrest] at hadmits
    exact PinQuota.admits_left hadmits
  case unique => exact hs.unique.replace hk rfl
  case configured =>
    intro a ha
    refine hs.configured_set hk ?_ (hmem a ha)
    rfl
  case charge => exact fun a ha => hs.charge a (hmem a ha)
  case issued => exact fun a ha => hs.issued a (hmem a ha)
  case distinct => exact hs.distinct.clear i
  case segments => exact fun a ha => hs.segments a (hmem a ha)
  case closed => exact fun hstate a ha => hs.closed hstate a (hmem a ha)
  case capacity => simpa using hs.capacity

theorem Sound.drains {r t : PinRegistry} (hs : Sound r) (h : Drains r t) : Sound t := by
  induction h with
  | refl => exact hs
  | tail _ hstep ih =>
      obtain ⟨i, record, _, hrefund⟩ := hstep
      exact ih.refunds hrefund

theorem Sound.withOwners {r : PinRegistry} {owners : List (Option OwnerAccount)} (hs : Sound r)
    (howner : ∀ a, some a ∈ owners → a.usage = slotTotal (PinRecord.chargeTo a.owner) r.records)
    (hadmits : ∀ a, some a ∈ owners → a.quota.admits a.usage = true) (hunique : KeyedSlots OwnerAccount.owner owners)
    (hconfigured : ∀ record, some record ∈ r.records → ∃ a, some a ∈ owners ∧ a.owner = record.request.owner) :
    Sound { r with owners := owners } :=
  ⟨hs.global, hs.globalAdmits, howner, hadmits, hunique, hconfigured, hs.charge, hs.issued, hs.distinct,
    hs.segments, hs.closed, hs.capacity⟩

theorem Sound.quotaSet {r : PinRegistry} {k : Nat} {account : OwnerAccount} {quota : PinQuota} (hs : Sound r)
    (hk : r.owners[k]? = some (some account)) (hquota : quota.admits account.usage = true) :
    Sound { r with owners := r.owners.set k (some { account with quota := quota }) } := by
  apply hs.withOwners
  · refine hs.owner_set hk ?_ ?_ ?_
    · rfl
    · exact hs.owner account (List.mem_of_getElem? hk)
    · exact fun _ _ => rfl
  · exact hs.ownerAdmits_set hquota
  · exact hs.unique.replace hk rfl
  · intro record h
    refine hs.configured_set hk ?_ h
    rfl

/-- A new owner has no records: theirs are configured already. -/
theorem Sound.ownerAdded {r : PinRegistry} {k : Nat} {owner : PinOwner} {quota : PinQuota} (hs : Sound r)
    (hk : r.owners[k]? = some none) (hfresh : ∀ account, some account ∈ r.owners → account.owner ≠ owner) :
    Sound { r with owners := r.owners.set k (some ⟨owner, quota, ⟨0, 0, 0⟩⟩) } := by
  apply hs.withOwners
  · intro a ha
    rcases mem_of_mem_set ha with ha | ha
    · exact hs.owner a ha
    · cases ha
      symm
      apply slotTotal_of_vacant
      intro record hrecord
      obtain ⟨account, haccount, howner⟩ := hs.configured record hrecord
      apply if_neg
      rw [← howner]
      exact hfresh account haccount
  · exact hs.ownerAdmits_set quota.admits_zero
  · exact hs.unique.fill hfresh
  · intro record hrecord
    obtain ⟨account, haccount, howner⟩ := hs.configured record hrecord
    exact ⟨account, (mem_set_some hk).mpr (.inl haccount), howner⟩

/-- An owner with records has a usage: each of them charges a token. -/
theorem Sound.ownerRemoved {r : PinRegistry} {k : Nat} {account : OwnerAccount} (hs : Sound r)
    (hk : r.owners[k]? = some (some account)) (hzero : account.usage = ⟨0, 0, 0⟩) :
    Sound { r with owners := r.owners.set k none } := by
  apply hs.withOwners
  · exact fun a ha => hs.owner a (mem_of_mem_set_none ha)
  · exact fun a ha => hs.ownerAdmits a (mem_of_mem_set_none ha)
  · exact hs.unique.clear k
  · intro record hrecord
    obtain ⟨a, ha, howner⟩ := hs.configured record hrecord
    obtain ⟨j, hj⟩ := List.mem_iff_getElem?.mp ha
    refine ⟨a, List.mem_iff_getElem?.mpr ⟨j, ?_⟩, howner⟩
    rw [List.getElem?_set_ne]
    · exact hj
    · rintro rfl
      rw [hk] at hj
      cases hj
      obtain ⟨i, hi⟩ := List.mem_iff_getElem?.mp hrecord
      have htotal := slotTotal_clear (w := PinRecord.chargeTo account.owner) hi
      rw [PinRecord.chargeTo, if_pos howner.symm, ← hs.owner account ha, hzero] at htotal
      have htokens := congrArg PinAccounting.tokens htotal
      rw [PinAccounting.add_tokens, PinAccounting.forRange_tokens (hs.charge record hrecord)] at htokens
      simp at htokens

theorem Sound.reserved {r : PinRegistry} {request : PinRequest} {addressSpace : AddressSpaceId} {k i token : Nat}
    {account : OwnerAccount} {range : PageRange} {charge : PinAccounting} (hs : Sound r) (hopen : r.state = .opened)
    (hk : r.owners[k]? = some (some account)) (howner : account.owner = request.owner)
    (hfree : r.records[i]? = some none) (hcharge : PinAccounting.forRange range = .ok charge)
    (hquota : account.quota.admits (account.usage + charge) = true)
    (hglobal : r.globalQuota.admits (r.globalUsage + charge) = true) (hnext : r.nextToken = some token) :
    Sound { r with
      nextToken := following token
      owners := r.owners.set k (some { account with usage := account.usage + charge })
      globalUsage := r.globalUsage + charge
      records := r.records.set i (some ⟨⟨r.identity, token⟩, request, range, ⟨addressSpace, range⟩, range.start, 0,
        charge, .reserved⟩) } := by
  constructor
  case global =>
    rw [slotTotal_fill hfree, ← hs.global]
  case globalAdmits => exact hglobal
  case owner =>
    refine hs.owner_set hk ?_ ?_ ?_
    · rfl
    · rw [slotTotal_fill hfree, ← hs.owner account (List.mem_of_getElem? hk), PinRecord.chargeTo, if_pos howner.symm]
    · intro owner hne
      apply slotTotal_other hfree
      · rintro _ ⟨⟩
      · rintro _ ⟨⟩ heq
        exact hne (heq ▸ howner.symm)
  case ownerAdmits => exact hs.ownerAdmits_set hquota
  case unique => exact hs.unique.replace hk rfl
  case configured =>
    intro record hrecord
    rcases (mem_set_some hfree).mp hrecord with hrecord | rfl
    · refine hs.configured_set hk ?_ hrecord
      rfl
    · exact ⟨_, List.mem_set (List.getElem?_eq_some_iff.mp hk).1 _, howner⟩
  case charge =>
    intro record hrecord
    rcases (mem_set_some hfree).mp hrecord with hrecord | rfl
    · exact hs.charge record hrecord
    · exact hcharge
  case issued =>
    intro record hrecord
    rcases (mem_set_some hfree).mp hrecord with hrecord | rfl
    · exact ⟨(hs.issued record hrecord).1, following_spent (hs.issued record hrecord).2 hnext⟩
    · exact ⟨rfl, spent_following token⟩
  case distinct =>
    apply hs.distinct.fill
    intro record hrecord heq
    have hspent := (hs.issued record hrecord).2 token hnext
    rw [heq] at hspent
    exact Nat.lt_irrefl _ hspent
  case segments =>
    intro record hrecord
    rcases (mem_set_some hfree).mp hrecord with hrecord | rfl
    · exact hs.segments record hrecord
    · exact Nat.le_refl _
  case closed =>
    intro hclosed
    rw [hopen] at hclosed
    cases hclosed
  case capacity => simpa using hs.capacity

/-- A record moves on: its request, range, token and charge stay. -/
theorem Sound.replaced {r : PinRegistry} {i : Nat} {record updated : PinRecord} (hs : Sound r)
    (hlive : r.records[i]? = some (some record)) (hrequest : updated.request = record.request)
    (hrange : updated.range = record.range) (htoken : updated.token = record.token)
    (hcharge : updated.charge = record.charge)
    (hsegments : updated.range.start + updated.validatedMappings ≤ updated.validatedUntil) :
    Sound { r with records := r.records.set i (some updated) } := by
  have hmem := List.mem_of_getElem? hlive
  constructor
  case global => rw [slotTotal_replace hlive hcharge, hs.global]
  case globalAdmits => exact hs.globalAdmits
  case owner =>
    intro account haccount
    rw [slotTotal_replace hlive, hs.owner account haccount]
    rw [PinRecord.chargeTo, PinRecord.chargeTo, hrequest, hcharge]
  case ownerAdmits => exact hs.ownerAdmits
  case unique => exact hs.unique
  case configured =>
    intro a ha
    rcases mem_of_mem_set ha with ha | ha
    · exact hs.configured a ha
    · cases ha
      rw [hrequest]
      exact hs.configured record hmem
  case charge =>
    intro a ha
    rcases mem_of_mem_set ha with ha | ha
    · exact hs.charge a ha
    · cases ha
      rw [hrange, hcharge]
      exact hs.charge record hmem
  case issued =>
    intro a ha
    rcases mem_of_mem_set ha with ha | ha
    · exact hs.issued a ha
    · cases ha
      rw [htoken]
      exact hs.issued record hmem
  case distinct => exact hs.distinct.replace hlive htoken
  case segments =>
    intro a ha
    rcases mem_of_mem_set ha with ha | ha
    · exact hs.segments a ha
    · cases ha
      exact hsegments
  case closed =>
    intro hclosed
    exact absurd hmem (hs.closed hclosed record)
  case capacity => simpa using hs.capacity

theorem Sound.withState {r : PinRegistry} {state : PinRegistryState} (hs : Sound r)
    (hclosed : state = .closed → ∀ record, some record ∉ r.records) : Sound { r with state := state } :=
  ⟨hs.global, hs.globalAdmits, hs.owner, hs.ownerAdmits, hs.unique, hs.configured, hs.charge, hs.issued, hs.distinct,
    hs.segments, hclosed, hs.capacity⟩

theorem validation_eq_ok {r : PinRegistry} {record : PinRecord} {expected : ExpectedMapping} {current : MappingSnapshot}
    {covered : PageRange} (h : r.validation record expected current covered = .ok ()) :
    covered.start = record.validatedUntil ∧ record.range.contains covered = true := by
  rw [validation, Outcome.guard_eq_ok] at h
  obtain ⟨hguard, _⟩ := h
  simp only [not_or, ne_eq, not_not] at hguard
  exact ⟨hguard.2.1, by simpa using hguard.2.2⟩

theorem sound_new {identity firstToken : Nat} {pageSize : PageSize} {quota : PinQuota}
    {ownerCapacity tokenCapacity : BitVec 64} :
    Sound ⟨identity, pageSize, quota, ⟨0, 0, 0⟩, List.replicate ownerCapacity.toNat none,
      List.replicate tokenCapacity.toNat none, some firstToken, .opened⟩ := by
  constructor
  case global => exact (slotTotal_replicate _).symm
  case globalAdmits => exact quota.admits_zero
  case unique => exact keyedSlots_replicate _
  case distinct => exact keyedSlots_replicate _
  case capacity =>
    have hlt := tokenCapacity.isLt
    simp only [List.length_replicate, wordMax]
    omega
  all_goals simp

theorem Sound.effect {r t : PinRegistry} {call : RegistryCall} {result : Outcome MmError PinReply} (hs : Sound r)
    (h : Effect r call result t) : Sound t := by
  cases h with
  | refused => exact hs
  | quotaSet hk hquota => exact hs.quotaSet hk hquota
  | ownerAdded hk hfresh => exact hs.ownerAdded hk hfresh
  | ownerRemoved hk hzero => exact hs.ownerRemoved hk hzero
  | reserved hopen _ hk howner hfree hcharge hquota hglobal hnext =>
      exact hs.reserved hopen hk howner hfree hcharge hquota hglobal hnext
  | @validated _ _ _ covered _ record hlive _ _ hvalid =>
      obtain ⟨hstart, _⟩ := validation_eq_ok hvalid
      have hsegments := hs.segments record (List.mem_of_getElem? hlive)
      have hnonempty : covered.start < covered.stop := covered.range.nonempty
      exact hs.replaced hlive rfl rfl rfl rfl (by simp only; omega)
  | rolledBack _ _ _ hrefund => exact hs.refunds hrefund
  | committed hlive =>
      have hsegments := hs.segments _ (List.mem_of_getElem? hlive)
      exact hs.replaced hlive rfl rfl rfl rfl hsegments
  | cancelled hrefund => exact hs.refunds hrefund
  | released hrefund => exact hs.refunds hrefund
  | closing => exact hs.withState (by rintro ⟨⟩)
  | tornDown _ hdrain => exact (hs.withState (by rintro ⟨⟩)).drains hdrain
  | finished hempty => exact hs.withState (fun _ => hempty)

end PinRegistry

end TheKernel.Mm
