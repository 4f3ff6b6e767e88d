import Statement.Account.ChangeRun
import Statement.Account.Create
import Statement.System.Sound

/-! Creations, updates and deletions among the other parties.

A creation holds the unique entries it has claimed. A change that has matched its
row holds the row: a version says which content a row has, so the row it matched
is the one it loaded. -/
namespace Statement.System
open Domain Foundation Account

variable {E : Set Payment.PaymentMessage} {H : Set Lock} {d d' : Database}

/-! ### Creations -/

/-- The account's keys are claimed and still free. -/
structure Claimed (H : Set Lock) (d : Database) (c : CustomerAccountCreate) : Prop where
  key : .accountKey c.entityId ∈ H
  pair : .customerCurrency c.customerId c.currency ∈ H
  free : ¬ d.customerAccount.conflicts c.account

def CreateHolds (H : Set Lock) (d : Database) (c : Create) : Prop :=
  match c.phase with
  | .begun | .raised => True
  | .inserted | .flushed => Claimed H d c.request

theorem create_statement {c c' : Create} {ks : List Lock} (h : CreateHolds H d c)
    (hst : c.statement d = some (ks, c')) : CreateHolds (H ∪ {k | k ∈ ks}) d c' := by
  obtain ⟨r, phase⟩ := c
  cases phase with
  | begun =>
    simp only [Create.statement] at hst
    split at hst
    · rename_i hfree
      cases hst
      exact ⟨.inr (by simp), .inr (by simp), hfree.2⟩
    · cases hst
      exact trivial
  | inserted =>
    simp only [Create.statement] at hst
    split at hst
    · cases hst
      exact trivial
    · cases hst
      exact ⟨.inl h.key, .inl h.pair, h.free⟩
  | flushed => cases hst
  | raised => cases hst

theorem Claimed.absent {c : CustomerAccountCreate} (h : Claimed H d c) :
    d.findById c.entityId = none :=
  Database.findById_none.mpr fun b hb he => h.free ⟨b, hb, .inl he⟩

theorem create_ready {c : Create} (hs : Sound E d) (h : CreateHolds H d c) (hp : c.phase = .flushed) :
    ∃ d', c.commit d = some d' := by
  obtain ⟨r, phase⟩ := c
  subst hp
  have hclaimed : Claimed H d r := h
  have hrow : ¬ d.customerAccountLedger.conflicts r.openingRow := by
    rintro ⟨b, hb, hba, _⟩
    have hmem : b ∈ d.ledgerOf r.entityId := Database.mem_ledgerOf.mpr ⟨hb, hba⟩
    rw [hs.owned _ hclaimed.absent] at hmem
    cases hmem
  obtain ⟨accounts, ha, _⟩ := Table.insert_of_free hclaimed.free
  obtain ⟨ledger, hl, _⟩ := Table.insert_of_free hrow
  exact ⟨_, by simp [Create.commit, ha, hl]; rfl⟩

/-- In `d'` the account and its opening row are new, and the rest is as it was. -/
structure Opens (c : CustomerAccountCreate) (d d' : Database) : Prop where
  account : d.customerAccount.insert c.account = some d'.customerAccount
  row : d.customerAccountLedger.insert c.openingRow = some d'.customerAccountLedger
  rest : d' = { d with customerAccount := d'.customerAccount,
                       customerAccountLedger := d'.customerAccountLedger }

namespace Opens
variable {c : CustomerAccountCreate} {a : UUID}

theorem absent (h : Opens c d d') : d.findById c.entityId = none :=
  (Database.findById_insert h.account c.entityId).1

theorem opened (h : Opens c d d') : d'.findById c.entityId = some c.account := by
  have hfind := (Database.findById_insert h.account c.entityId).2
  rwa [if_pos (show c.account.id = c.entityId from rfl)] at hfind

theorem ledgerOf_opened (h : Opens c d d') : d'.ledgerOf c.entityId = d.ledgerOf c.entityId ++ [c.openingRow] := by
  have hledger := Database.ledgerOf_insert h.row c.entityId
  rwa [if_pos (show c.openingRow.accountId = c.entityId from rfl)] at hledger

theorem other (h : Opens c d d') (hne : c.entityId ≠ a) :
    d'.findById a = d.findById a ∧ d'.ledgerOf a = d.ledgerOf a := by
  have hfind := (Database.findById_insert h.account a).2
  have hledger := Database.ledgerOf_insert h.row a
  rw [if_neg (show ¬ c.account.id = a from hne)] at hfind
  rw [if_neg (show ¬ c.openingRow.accountId = a from hne), List.append_nil] at hledger
  exact ⟨hfind, hledger⟩

/-- The accounts that were there are others. -/
theorem existing (h : Opens c d d') {row : CustomerAccount} (hrow : d.findById a = some row) :
    d'.findById a = some row ∧ d'.ledgerOf a = d.ledgerOf a := by
  have hne : c.entityId ≠ a := by
    rintro rfl
    rw [h.absent] at hrow
    cases hrow
  rw [← hrow]
  exact h.other hne

theorem grows (h : Opens c d d') (a : UUID) : d.ledgerOf a <+: d'.ledgerOf a :=
  ⟨_, (Database.ledgerOf_insert h.row a).symm⟩

theorem sound (h : Opens c d d') (hs : Sound E d) : Sound E d' := by
  refine ⟨fun a row hrow => ?_, fun a hnone => ?_, fun k hk => ?_, ?_⟩
  · by_cases ha : c.entityId = a
    · subst ha
      rw [h.ledgerOf_opened, hs.owned _ h.absent]
      exact .start rfl ⟨rfl, rfl, rfl, rfl⟩
    · obtain ⟨hfind, hledger⟩ := h.other ha
      rw [hledger]
      exact hs.ledger a row (hfind ▸ hrow)
  · by_cases ha : c.entityId = a
    · rw [← ha, h.opened] at hnone
      cases hnone
    · obtain ⟨hfind, hledger⟩ := h.other ha
      rw [hledger]
      exact hs.owned a (hfind ▸ hnone)
  · rw [h.rest] at hk
    obtain ⟨r, hr, hrk⟩ := hs.checkpoint k hk
    exact ⟨r, (h.grows _).subset hr, hrk⟩
  · rw [h.rest]
    exact hs.noIncident

/-- Only what claims the account's own keys conflicts with the new account. -/
theorem accountFree (h : Opens c d d') (hclaimed : Claimed H d c) {b : CustomerAccount}
    (hfree : ¬ d.customerAccount.conflicts b) (hkey : .accountKey b.id ∉ H)
    (hpair : .customerCurrency b.customerId b.currency ∉ H) : ¬ d'.customerAccount.conflicts b := by
  rintro ⟨x, hx, hxb⟩
  rw [(Table.insert_some h.account).2] at hx
  rcases List.mem_append.mp hx with hx | hx
  · exact hfree ⟨x, hx, hxb⟩
  · obtain rfl : x = c.account := List.mem_singleton.mp hx
    rcases hxb with hid | ⟨hcustomer, hcurrency⟩
    · exact hkey (hid ▸ hclaimed.key)
    · exact hpair (hcustomer ▸ hcurrency ▸ hclaimed.pair)

theorem evolves (h : Opens c d d') (hclaimed : Claimed H d c) : Evolves H d d' where
  customer := by rw [h.rest]
  ledgerGrows := h.grows
  ledgerKept _ _ hrow _ := (h.existing hrow).2
  account _ row hrow := ⟨row, (h.existing hrow).1, .inl rfl⟩
  accountFree _ hfree hkey hpair := h.accountFree hclaimed hfree hkey hpair
  historyFree _ hfree _ := by
    rw [h.rest]
    exact hfree

end Opens

theorem create_commit {c : Create} (hs : Sound E d) (h : CreateHolds H d c)
    (hc : c.commit d = some d') : Sound E d' ∧ Evolves H d d' := by
  obtain ⟨r, phase⟩ := c
  obtain ⟨hp, accounts, ledger, ha, hl, rfl⟩ := Create.commit_some hc
  cases hp
  have hopens : Opens r d { d with customerAccount := accounts, customerAccountLedger := ledger } :=
    ⟨ha, hl, rfl⟩
  exact ⟨hopens.sound hs, hopens.evolves h⟩

theorem create_stable {c : Create} {H' : Set Lock} (hg : Evolves H d d') (hcompatible : Compatible H H')
    (h : CreateHolds H' d c) : CreateHolds H' d' c := by
  obtain ⟨r, phase⟩ := c
  have hclaimed : Claimed H' d r → Claimed H' d' r := fun hc =>
    ⟨hc.key, hc.pair, hg.accountFree r.account hc.free (hcompatible.exclusive_right List.mem_cons_self hc.key)
      (hcompatible.exclusive_right List.mem_cons_self hc.pair)⟩
  cases phase with
  | begun => exact trivial
  | inserted => exact hclaimed h
  | flushed => exact hclaimed h
  | raised => exact trivial

/-! ### Updates and deletions -/

/-- A request that was let through for what was loaded. -/
structure Admitted (mac : VersionToken.Digest) (r : ChangeRequest) (loaded : CustomerAccount) :
    Prop where
  account : loaded.id = r.accountId
  letThrough : r.letThrough mac (some loaded) = .ok loaded

/-- The row is the one that was loaded, or a later version of it. -/
def NotBefore (d : Database) (loaded : CustomerAccount) : Prop :=
  ∃ row, d.findById loaded.id = some row ∧ (row = loaded ∨ loaded.version < row.version)

/-- The versioned update matched: the row is locked, and it is what was loaded. -/
structure Matched (mac : VersionToken.Digest) (H : Set Lock) (d : Database) (r : ChangeRequest)
    (loaded current : CustomerAccount) (history : CustomerAccountHistory) (now : Timestamp) : Prop where
  admitted : Admitted mac r loaded
  lock : .accountRow loaded.id ∈ H
  row : d.findById loaded.id = some loaded
  changes : r.assign loaded ≠ loaded
  current : current = { r.assign loaded with version := loaded.version + 1 }
  history : history = ⟨loaded, now⟩

def ChangePhaseHolds (mac : VersionToken.Digest) (H : Set Lock) (d : Database) (r : ChangeRequest) :
    ChangePhase → Prop
  | .begun => True
  | .assigned loaded current => Admitted mac r loaded ∧ NotBefore d loaded ∧ current = r.assign loaded
  | .unchanged loaded => Admitted mac r loaded ∧ NotBefore d loaded ∧ r.assign loaded = loaded
  | .updated loaded current history now => Matched mac H d r loaded current history now
  | .archived loaded current history now => Matched mac H d r loaded current history now ∧
      .historyKey loaded.id loaded.version ∈ H ∧ ¬ d.customerAccountHistory.conflicts history
  | .raised _ => True

def ChangeHolds (mac : VersionToken.Digest) (H : Set Lock) (d : Database) (c : Change) : Prop :=
  ChangePhaseHolds mac H d c.request c.phase

theorem Matched.mono {mac : VersionToken.Digest} {H' : Set Lock} {r : ChangeRequest}
    {loaded current : CustomerAccount} {history : CustomerAccountHistory} {now : Timestamp}
    (h : Matched mac H d r loaded current history now) (hH : H ⊆ H') :
    Matched mac H' d r loaded current history now := { h with lock := hH h.lock }

variable {mac : VersionToken.Digest}

/-- A row that still has the version that was loaded is the row that was loaded. -/
theorem NotBefore.row_eq {loaded : CustomerAccount} (h : NotBefore d loaded)
    (hmatched : ∃ row ∈ d.customerAccount.rows, matched loaded row) :
    d.findById loaded.id = some loaded := by
  obtain ⟨row, hrow, hlater⟩ := h
  obtain ⟨x, hx, hid, hversion⟩ := hmatched
  have hfound := Database.findById_of_mem hx
  rw [hid, hrow] at hfound
  cases hfound
  rcases hlater with rfl | hlt
  · exact hrow
  · omega

theorem change_statement {c c' : Change} {now : Timestamp} {ks : List Lock} (h : ChangeHolds mac H d c)
    (hst : c.statement mac now d = some (ks, c')) : ChangeHolds mac (H ∪ {k | k ∈ ks}) d c' := by
  obtain ⟨r, phase⟩ := c
  obtain ⟨r', phase'⟩ := c'
  obtain ⟨rfl, hstep⟩ := Change.statement_some mac hst
  cases hstep with
  | refused _ => exact trivial
  | read hlet =>
    have hfound := (ChangeRequest.letThrough_ok.mp hlet).1
    have hid := (Database.findById_mem hfound).2
    exact ⟨⟨hid, hfound ▸ hlet⟩, ⟨_, hid ▸ hfound, .inl rfl⟩, rfl⟩
  | @kept loaded current hsame =>
    obtain ⟨hadmitted, hlater, hcurrent⟩ := h
    obtain rfl : current = r'.assign loaded := hcurrent
    rw [createVersion_eq loaded _ now (r'.assign_version loaded)] at hsame
    by_cases heq : r'.assign loaded = loaded
    · exact ⟨hadmitted, hlater, heq⟩
    · rw [if_neg heq] at hsame
      cases hsame
  | stale _ _ => exact trivial
  | @updated loaded current _ _ hversion hmatched =>
    obtain ⟨hadmitted, hlater, hcurrent⟩ := h
    obtain rfl : current = r'.assign loaded := hcurrent
    rw [createVersion_eq loaded _ now (r'.assign_version loaded)] at hversion
    by_cases heq : r'.assign loaded = loaded
    · rw [if_pos heq] at hversion
      cases hversion
    · rw [if_neg heq] at hversion
      cases hversion
      exact ⟨hadmitted, .inr (by simp), hlater.row_eq hmatched, heq, rfl, rfl⟩
  | conflicting _ => exact trivial
  | archived hfree => exact ⟨Matched.mono h Set.subset_union_left, .inr (by simp), hfree⟩

theorem change_ready {c : Change} {loaded current : CustomerAccount} {history : CustomerAccountHistory}
    {at_ : Timestamp} (h : ChangeHolds mac H d c) (hp : c.phase = .archived loaded current history at_) :
    ∃ d', c.commit d = some d' := by
  obtain ⟨r, phase⟩ := c
  subst hp
  obtain ⟨t, ht, _⟩ := Table.insert_of_free
    (show ¬ (d.updateAccount loaded current at_).customerAccountHistory.conflicts history from h.2.2)
  exact ⟨_, by simp [Change.commit, ht]; rfl⟩

/-- In `d'` the account is one version on and what it was is in the history; the rest
is as it was. -/
structure Versions (mac : VersionToken.Digest) (H : Set Lock) (r : ChangeRequest)
    (loaded current : CustomerAccount) (history : CustomerAccountHistory) (at_ : Timestamp)
    (d d' : Database) : Prop where
  matched : Matched mac H d r loaded current history at_
  key : .historyKey loaded.id loaded.version ∈ H
  archived : d.customerAccountHistory.insert history = some d'.customerAccountHistory
  rest : d' = { d.updateAccount loaded current at_ with
                  customerAccountHistory := d'.customerAccountHistory }

/-- What the commit of a change does: one row, one version on. -/
theorem change_committed {r : ChangeRequest} {loaded current : CustomerAccount}
    {history : CustomerAccountHistory} {at_ : Timestamp}
    (h : Matched mac H d r loaded current history at_) (a : UUID) :
    (d.updateAccount loaded current at_).findById a =
      if a = loaded.id then some (setColumns loaded current at_ loaded) else d.findById a := by
  rw [Database.findById_updateAccount]
  by_cases ha : a = loaded.id
  · rw [if_pos ha, ha, h.row, Option.map_some, updateRow_loaded]
  · rw [if_neg ha]
    cases hf : d.findById a with
    | none => rfl
    | some row =>
      have hid := (Database.findById_mem hf).2
      rw [Option.map_some, updateRow_other _ _ (hid ▸ ha)]

namespace Versions
variable {r : ChangeRequest} {loaded current : CustomerAccount} {history : CustomerAccountHistory}
  {at_ : Timestamp} {a : UUID}

theorem ledgerOf (h : Versions mac H r loaded current history at_ d d') (a : UUID) :
    d'.ledgerOf a = d.ledgerOf a :=
  Database.ledgerOf_congr (congrArg Database.customerAccountLedger h.rest) a

theorem findById (h : Versions mac H r loaded current history at_ d d') (a : UUID) :
    d'.findById a = if a = loaded.id then some (setColumns loaded current at_ loaded) else d.findById a :=
  (Database.findById_congr (congrArg Database.customerAccount h.rest) a).trans (change_committed h.matched a)

/-- The change makes and removes no account. -/
theorem findById_eq_none (h : Versions mac H r loaded current history at_ d d') :
    d'.findById a = none ↔ d.findById a = none := by
  rw [h.findById a]
  by_cases ha : a = loaded.id
  · rw [if_pos ha, ha, h.matched.row]
    simp
  · rw [if_neg ha]

theorem version_lt (h : Versions mac H r loaded current history at_ d d') :
    loaded.version < (setColumns loaded current at_ loaded).version := by
  simp only [setColumns, h.matched.current]
  omega

theorem sound (h : Versions mac H r loaded current history at_ d d') (hs : Sound E d) : Sound E d' := by
  refine ⟨fun a row' hrow' => ?_, fun a hnone => ?_, fun k hk => ?_, ?_⟩
  · rw [h.ledgerOf]
    cases ha : d.findById a with
    | none =>
      rw [h.findById_eq_none.mpr ha] at hrow'
      cases hrow'
    | some row => exact hs.ledger a row ha
  · rw [h.ledgerOf]
    exact hs.owned a (h.findById_eq_none.mp hnone)
  · rw [h.ledgerOf]
    rw [h.rest] at hk
    exact hs.checkpoint k hk
  · rw [h.rest]
    exact hs.noIncident

theorem account (h : Versions mac H r loaded current history at_ d d') {row : CustomerAccount}
    (hrow : d.findById a = some row) :
    ∃ row', d'.findById a = some row' ∧ (row' = row ∨ (.accountRow a ∈ H ∧ row.version < row'.version)) := by
  by_cases ha : a = loaded.id
  · obtain rfl : row = loaded := Option.some.inj ((ha ▸ hrow).symm.trans h.matched.row)
    exact ⟨_, by rw [h.findById, if_pos ha], .inr ⟨ha ▸ h.matched.lock, h.version_lt⟩⟩
  · exact ⟨row, by rw [h.findById, if_neg ha, hrow], .inl rfl⟩

/-- Only the key of the version that is left conflicts with its history. -/
theorem historyFree (h : Versions mac H r loaded current history at_ d d') {b : CustomerAccountHistory}
    (hfree : ¬ d.customerAccountHistory.conflicts b)
    (hkey : .historyKey b.account.id b.account.version ∉ H) : ¬ d'.customerAccountHistory.conflicts b := by
  rintro ⟨x, hx, hxb⟩
  rw [(Table.insert_some h.archived).2] at hx
  rcases List.mem_append.mp hx with hx | hx
  · exact hfree ⟨x, hx, hxb⟩
  · rw [List.mem_singleton.mp hx, h.matched.history] at hxb
    exact hkey (hxb.1 ▸ hxb.2 ▸ h.key)

theorem evolves (h : Versions mac H r loaded current history at_ d d') : Evolves H d d' where
  customer := by
    rw [h.rest]
    rfl
  ledgerGrows a := by rw [h.ledgerOf]
  ledgerKept a _ _ _ := h.ledgerOf a
  account _ _ hrow := h.account hrow
  accountFree b hfree _ _ := by
    rw [h.rest]
    exact fun hbad => hfree ((Database.conflicts_updateAccount d loaded current at_ b).mp hbad)
  historyFree _ hfree hkey := h.historyFree hfree hkey

end Versions

theorem change_commit {c : Change} (hs : Sound E d) (h : ChangeHolds mac H d c)
    (hc : c.commit d = some d') : Sound E d' ∧ Evolves H d d' := by
  obtain ⟨r, phase⟩ := c
  rcases Change.commit_some hc with ⟨_, rfl⟩ | ⟨loaded, current, history, at_, t, hp, ht, rfl⟩
  · exact ⟨hs, .refl H d'⟩
  · cases hp
    obtain ⟨hm, hkey, _⟩ := h
    have hversions : Versions mac H r loaded current history at_ d
        { d.updateAccount loaded current at_ with customerAccountHistory := t } := ⟨hm, hkey, ht, rfl⟩
    exact ⟨hversions.sound hs, hversions.evolves⟩

theorem NotBefore.evolves {loaded : CustomerAccount} {H' : Set Lock} (h : NotBefore d loaded)
    (hg : Evolves H' d d') : NotBefore d' loaded := by
  obtain ⟨row, hrow, hlater⟩ := h
  obtain ⟨row', hrow', rfl | ⟨_, hlt⟩⟩ := hg.account _ row hrow
  · exact ⟨row', hrow', hlater⟩
  · refine ⟨row', hrow', .inr ?_⟩
    rcases hlater with rfl | hlt'
    · exact hlt
    · exact hlt'.trans hlt

theorem change_stable {c : Change} {H' : Set Lock} (hg : Evolves H d d') (hcompatible : Compatible H H')
    (h : ChangeHolds mac H' d c) : ChangeHolds mac H' d' c := by
  obtain ⟨r, phase⟩ := c
  have hmatched : ∀ {loaded current history now}, Matched mac H' d r loaded current history now →
      Matched mac H' d' r loaded current history now := fun hm =>
    { hm with row := (hg.kept hm.row (hcompatible.exclusive_right List.mem_cons_self hm.lock)).1 }
  cases phase with
  | begun => exact trivial
  | assigned loaded current => exact ⟨h.1, h.2.1.evolves hg, h.2.2⟩
  | unchanged loaded => exact ⟨h.1, h.2.1.evolves hg, h.2.2⟩
  | updated loaded current history at_ => exact hmatched h
  | archived loaded current history at_ =>
    obtain ⟨hm, hkey, hfree⟩ := h
    refine ⟨hmatched hm, hkey, hg.historyFree history hfree ?_⟩
    rw [hm.history]
    exact hcompatible.exclusive_right List.mem_cons_self hkey
  | raised f => exact trivial

end Statement.System
