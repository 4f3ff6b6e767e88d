import Statement.Verification.Scan

/-! What a clean verification says about the stored rows.

The chain is checked on every row past the anchor and the balance on the anchor
row itself. The anchor row may be gone, though: the row after it is then compared
with the checkpoint, and nothing says that a verified row is missing. -/
namespace Statement.Verification
open Domain Foundation

/-- A row that passes is the position itself, or continues it. -/
theorem check_eq_none {p : Position} {r : CustomerAccountLedger} (h : p.no ≤ r.no) :
    check p r = none ↔ (r.no = p.no ∧ r.balance = p.balance) ∨
      (r.no = p.no + 1 ∧ r.balance.cents = p.balance.cents + r.amount.cents) := by
  by_cases heq : r.no = p.no
  · have hlt : ¬ p.no < r.no := by omega
    have hsucc : ¬ p.no = p.no + 1 := by omega
    by_cases hb : r.balance = p.balance <;> simp [check, flag, heq, hb]
  · have hlt : p.no < r.no := by omega
    by_cases hno : r.no = p.no + 1 <;>
      by_cases hb : r.balance.cents = p.balance.cents + r.amount.cents <;>
      simp [check, flag, heq, hno, hb, hlt]

/-- Rows that continue a position: every number from it on, each balance the one
before plus the row's amount. -/
structure Continues (s last : Position) (rows : List CustomerAccountLedger) : Prop where
  dense : ∀ n, s.no < n → n ≤ last.no → ∃ r ∈ rows, r.no = n
  anchor : ∀ r ∈ rows, r.no = s.no → r.balance = s.balance
  chain : ∀ r ∈ rows, s.no < r.no →
    (r.no = s.no + 1 ∧ r.balance.cents = s.balance.cents + r.amount.cents) ∨
      ∃ q ∈ rows, q.no = r.no - 1 ∧ r.balance.cents = q.balance.cents + r.amount.cents
  within : ∀ r ∈ rows, r.no ≤ last.no

/-- What a walk without a break has seen. -/
theorem continues_of_clean {s last : Position} {rows : List CustomerAccountLedger}
    (hs : rows.Pairwise fun r q => r.no < q.no) (hge : ∀ r ∈ rows, s.no ≤ r.no)
    (h : walk check position s rows = .clean last) : Continues s last rows := by
  induction rows generalizing s with
  | nil =>
    cases h
    exact ⟨fun n h₁ h₂ => by omega, by simp, by simp, by simp⟩
  | cons r rows ih =>
    obtain ⟨hr, hs⟩ := List.pairwise_cons.mp hs
    have hsr := hge r List.mem_cons_self
    cases hc : check s r with
    | some k =>
      rw [walk_cons_broken _ hc] at h
      cases h
    | none =>
      rw [walk_cons_ok _ hc] at h
      have ih := ih hs (fun q hq => le_of_lt (hr q hq)) h
      have hno : (position r).no = r.no := rfl
      have hlast : r.no ≤ last.no := by
        cases rows with
        | nil =>
          cases h
          exact le_rfl
        | cons q rows => exact (le_of_lt (hr q List.mem_cons_self)).trans (ih.within q List.mem_cons_self)
      have hstep := (check_eq_none hsr).mp hc
      refine ⟨fun n hn hle => ?_, fun q hq hqs => ?_, fun q hq hsq => ?_, fun q hq => ?_⟩
      · by_cases hnr : r.no < n
        · obtain ⟨q, hq, hqn⟩ := ih.dense n hnr hle
          exact ⟨q, List.mem_cons_of_mem r hq, hqn⟩
        · refine ⟨r, List.mem_cons_self, ?_⟩
          rcases hstep with ⟨hn', _⟩ | ⟨hn', _⟩ <;> omega
      · rcases List.mem_cons.mp hq with rfl | hq
        · rcases hstep with ⟨_, hb⟩ | ⟨hn, _⟩
          · exact hb
          · omega
        · have := hr q hq
          omega
      · rcases List.mem_cons.mp hq with rfl | hq
        · rcases hstep with ⟨hn, _⟩ | hnext
          · omega
          · exact .inl hnext
        · rcases ih.chain q hq (hr q hq) with ⟨hn, hb⟩ | ⟨x, hx, hxn, hb⟩
          · exact .inr ⟨r, List.mem_cons_self, by omega, hb⟩
          · exact .inr ⟨x, List.mem_cons_of_mem r hx, hxn, hb⟩
      · rcases List.mem_cons.mp hq with rfl | hq
        · exact hlast
        · exact ih.within q hq

/-- What a verification without a break should mean: the documented chain holds
on the stored rows from the anchor, or the first row, to the last one read. -/
structure Verified (d : Database) (v : CustomerAccountVerification) : Prop where
  dense : ∀ n, max v.anchorNo 1 ≤ n → n ≤ v.batchLastNo → ∃ r ∈ d.ledgerOf v.accountId, r.no = n
  anchor : 1 ≤ v.anchorNo → ∃ c, d.findLatestCheckpoint v.accountId = some c ∧
    ∃ r ∈ d.ledgerOf v.accountId, r.no = v.anchorNo ∧ r.balance = c.balance
  chain : ∀ r ∈ d.ledgerOf v.accountId, max v.anchorNo 1 < r.no → r.no ≤ v.batchLastNo →
    ∃ q ∈ d.ledgerOf v.accountId, q.no = r.no - 1 ∧
      r.balance.cents = q.balance.cents + r.amount.cents
  first : d.findLatestCheckpoint v.accountId = none → 1 ≤ v.batchLastNo ∧
    ∃ r ∈ d.ledgerOf v.accountId, r.no = 1 ∧ r.balance = r.amount

/-- The row that the latest checkpoint names is still there. -/
def AnchorStored (d : Database) (a : UUID) : Prop :=
  ∀ c, d.findLatestCheckpoint a = some c → 1 ≤ c.throughNo → ∃ r ∈ d.ledgerOf a, r.no = c.throughNo

theorem row_unique {d : Database} {a : UUID} {r q : CustomerAccountLedger} (hr : r ∈ d.ledgerOf a)
    (hq : q ∈ d.ledgerOf a) (h : r.no = q.no) : r = q := by
  have : Std.Symm fun r q : CustomerAccountLedger => r.no ≠ q.no := ⟨fun _ _ => Ne.symm⟩
  by_contra hne
  exact (ledgerOf_distinct d a).forall hr hq hne h

/-- A row no further than the last one read was read. -/
theorem mem_window_of_le {d : Database} {p : BatchParams} {t : Target} {r last : CustomerAccountLedger}
    (hr : r ∈ d.ledgerOf t.accountId) (hge : t.anchorNo ≤ r.no) (hlast : last ∈ window d p t)
    (hle : r.no ≤ last.no) : r ∈ window d p t := by
  have hmem : r ∈ orderBy (·.no) ((d.ledgerOf t.accountId).filter (t.anchorNo ≤ ·.no)) := by
    simp [hr, hge]
  rw [← List.take_append_drop p.windowRows (orderBy _ _), List.mem_append] at hmem
  rcases hmem with hmem | hmem
  · exact hmem
  · have hs := orderBy_sorted (·.no) ((d.ledgerOf t.accountId).filter (t.anchorNo ≤ ·.no))
    rw [← List.take_append_drop p.windowRows (orderBy _ _)] at hs
    have hle' := (List.pairwise_append.mp hs).2.2 last hlast r hmem
    have := row_unique hr (mem_window hlast).1 (by omega)
    exact this ▸ hlast

/-- A first window gets past number zero, whatever is stored there. -/
theorem one_le_last {d : Database} {p : BatchParams} {a : UUID} {last : CustomerAccountLedger}
    (hp : 1 ≤ p.rowsPerAccount) (hrow : ∃ l ∈ d.ledgerOf a, 0 < l.no)
    (hlast : last ∈ window d p (target a none))
    (hle : ∀ r ∈ window d p (target a none), r.no ≤ last.no) : 1 ≤ last.no := by
  by_contra hlt
  obtain ⟨l, hl, hpos⟩ := hrow
  have hzero : ∀ r ∈ window d p (target a none), r = last := by
    intro r hr
    obtain ⟨hmem, hge⟩ := mem_window hr
    refine row_unique hmem (mem_window hlast).1 ?_
    have h₁ := hle r hr
    have h₂ : (0 : Int) ≤ r.no := hge
    have h₃ : (0 : Int) ≤ last.no := (mem_window hlast).2
    omega
  -- the window has one row only, so it was not cut, and `l` is in it
  have hlen : (window d p (target a none)).length ≤ 1 := by
    rcases hw : window d p (target a none) with _ | ⟨r, _ | ⟨q, rest⟩⟩
    · exact Nat.zero_le 1
    · exact le_rfl
    · have hs := window_sorted d p (target a none)
      rw [hw] at hs hzero
      have := (List.pairwise_cons.mp hs).1 q List.mem_cons_self
      rw [hzero r List.mem_cons_self, hzero q (by simp)] at this
      omega
  have hmem : l ∈ orderBy (·.no) ((d.ledgerOf a).filter (throughNo none ≤ ·.no)) := by
    simp [hl, throughNo, le_of_lt hpos]
  have hall : window d p (target a none) =
      orderBy (·.no) ((d.ledgerOf a).filter (throughNo none ≤ ·.no)) := by
    refine List.take_of_length_le ?_
    rw [window, List.length_take] at hlen
    simp only [BatchParams.windowRows, target] at hlen ⊢
    omega
  have := hle l (hall ▸ hmem)
  omega

section
variable {d : Database} {p : BatchParams} {t : Target} {last : CustomerAccountLedger}

/-- The anchor's own row, where it has one to have, is the first that is read. -/
theorem anchor_read (ht : t = target t.accountId (d.findLatestCheckpoint t.accountId))
    (hlast : last ∈ window d p t) (h : Continues t.start (position last) (window d p t))
    (hanchor : AnchorStored d t.accountId) (hpos : 1 ≤ t.anchorNo) :
    ∃ c, d.findLatestCheckpoint t.accountId = some c ∧
      ∃ r ∈ window d p t, r.no = t.anchorNo ∧ r.balance = t.anchorBalance ∧ r.balance = c.balance := by
  cases hc : d.findLatestCheckpoint t.accountId with
  | none =>
    rw [hc] at ht
    rw [ht] at hpos
    exact absurd hpos (by simp [target, throughNo])
  | some c =>
    rw [hc] at ht
    have hno : t.anchorNo = c.throughNo := congrArg Target.anchorNo ht
    have hbalance : t.anchorBalance = c.balance := congrArg Target.anchorBalance ht
    obtain ⟨r, hr, hrn⟩ := hanchor c hc (by omega)
    have hrw := mem_window_of_le hr (by omega) hlast (by have := (mem_window hlast).2; omega)
    have hrb : r.balance = t.anchorBalance := h.anchor r hrw (by rw [hrn, ← hno]; rfl)
    exact ⟨c, rfl, r, hrw, by omega, hrb, hrb.trans hbalance⟩

/-- Of an account without a checkpoint the first row is read, and starts from zero. -/
theorem first_read (ht : t = target t.accountId (d.findLatestCheckpoint t.accountId))
    (hnone : d.findLatestCheckpoint t.accountId = none) (hp : 1 ≤ p.rowsPerAccount)
    (hrow : ∃ l ∈ d.ledgerOf t.accountId, t.anchorNo < l.no) (hlast : last ∈ window d p t)
    (h : Continues t.start (position last) (window d p t)) :
    1 ≤ last.no ∧ ∃ r ∈ window d p t, r.no = 1 ∧ r.balance = r.amount := by
  rw [hnone] at ht
  have hno : t.anchorNo = 0 := congrArg Target.anchorNo ht
  have hzero : t.start.balance.cents = 0 := by
    rw [ht]
    rfl
  have hone : 1 ≤ last.no := by
    have hwithin : ∀ r ∈ window d p t, r.no ≤ last.no := h.within
    rw [hno] at hrow
    rw [ht] at hlast hwithin
    exact one_le_last hp hrow hlast hwithin
  obtain ⟨r, hr, hrn⟩ := h.dense 1 (show t.anchorNo < 1 by omega) hone
  refine ⟨hone, r, hr, hrn, Numeric.ext ?_⟩
  rcases h.chain r hr (show t.anchorNo < r.no by omega) with ⟨_, hrb⟩ | ⟨q, hq, hqn, hqb⟩
  · omega
  · have hqz : q.balance = t.start.balance := h.anchor q hq (show q.no = t.anchorNo by omega)
    rw [hqz] at hqb
    omega

theorem verified_of_continues (ht : t = target t.accountId (d.findLatestCheckpoint t.accountId))
    (hp : 1 ≤ p.rowsPerAccount) (hrow : ∃ l ∈ d.ledgerOf t.accountId, t.anchorNo < l.no)
    (hlast : last ∈ window d p t) (h : Continues t.start (position last) (window d p t))
    (hanchor : AnchorStored d t.accountId) {v : CustomerAccountVerification}
    (hv : v.accountId = t.accountId) (hvAnchor : v.anchorNo = t.anchorNo)
    (hvLast : v.batchLastNo = last.no) : Verified d v := by
  have hfound := anchor_read ht hlast h hanchor
  refine ⟨fun n hge hle => ?_, fun hpos => ?_, fun r hr hlt hle => ?_, fun hnone => ?_⟩
  · rw [hvAnchor] at hge
    rw [hvLast] at hle
    by_cases hn : t.anchorNo < n
    · obtain ⟨r, hr, hrn⟩ := h.dense n hn hle
      exact ⟨r, hv ▸ (mem_window hr).1, hrn⟩
    · obtain ⟨_, _, r, hr, hrn, _⟩ := hfound (by omega)
      exact ⟨r, hv ▸ (mem_window hr).1, by omega⟩
  · rw [hvAnchor] at hpos ⊢
    obtain ⟨c, hc, r, hr, hrn, _, hrb⟩ := hfound hpos
    exact ⟨c, hv ▸ hc, r, hv ▸ (mem_window hr).1, hrn, hrb⟩
  · rw [hv] at hr ⊢
    rw [hvAnchor] at hlt
    rw [hvLast] at hle
    have hrw := mem_window_of_le hr (by omega) hlast hle
    have hlt' : t.start.no < r.no := show t.anchorNo < r.no by omega
    rcases h.chain r hrw hlt' with ⟨hrn, hrb⟩ | ⟨q, hq, hqn, hqb⟩
    · have hrn' : r.no = t.anchorNo + 1 := hrn
      obtain ⟨_, _, q, hq, hqn, hqb, _⟩ := hfound (by omega)
      exact ⟨q, (mem_window hq).1, by omega, hqb ▸ hrb⟩
    · exact ⟨q, (mem_window hq).1, hqn, hqb⟩
  · obtain ⟨hone, r, hr, hrn, hrb⟩ := first_read ht (hv ▸ hnone) hp hrow hlast h
    exact ⟨hvLast ▸ hone, r, hv ▸ (mem_window hr).1, hrn, hrb⟩

end

/-- The checkpoint's row is where a verification can be wrong: of an account
reported clean, the chain holds exactly when that row is stored. -/
theorem clean_verified_iff (d : Database) (p : BatchParams) (scan : List CustomerAccount)
    (hscan : scan.Perm d.customerAccount.rows) (hp : 1 ≤ p.rowsPerAccount)
    (batch : List CustomerAccountVerification) (hbatch : nextBatch d p scan = some batch)
    (v : CustomerAccountVerification) (hv : v ∈ batch) (hclean : v.breakKind = none) :
    Verified d v ↔ AnchorStored d v.accountId := by
  rw [(nextBatch_some hbatch).2] at hv
  obtain ⟨t, ht, rfl⟩ := mem_finalSelect (Database.accountIds_nodup hscan) hv
  obtain ⟨a, _, rfl, _, _, hrow⟩ := target_mem ht
  set t := target a.id (d.findLatestCheckpoint a.id) with htdef
  constructor
  · intro h c hc hpos
    have hno : t.anchorNo = c.throughNo := by
      rw [report_accountId] at hc
      rw [htdef, show d.findLatestCheckpoint a.id = some c from hc]
      rfl
    obtain ⟨_, _, r, hr, hrn, _⟩ := h.anchor (by rw [report_anchorNo]; omega)
    exact ⟨r, hr, by rw [report_anchorNo] at hrn; omega⟩
  · intro hanchor
    rw [report_accountId] at hanchor
    obtain ⟨s, hs⟩ := (report_clean p t _).mp hclean
    obtain ⟨init, last, hw⟩ := (List.eq_nil_or_concat _).resolve_left (window_ne_nil ht)
    rw [List.concat_eq_append] at hw
    have hlast : last ∈ window d p t := hw ▸ by simp
    have hsl : s = position last := by
      rw [walk_clean_last hs, hw, List.getLast?_concat]
      rfl
    refine verified_of_continues rfl hp hrow hlast (hsl ▸ continues_of_clean (window_sorted d p t)
      (fun r hr => (mem_window hr).2) hs) hanchor (report_accountId ..) (report_anchorNo ..) ?_
    rw [report_batchLastNo, hw, List.getLast?_concat]
    rfl

/-! ### A missing anchor -/

def five : Numeric := ⟨500, by decide⟩

def ten : Numeric := ⟨1000, by decide⟩

def fifteen : Numeric := ⟨1500, by decide⟩

def sampleRow (no : Int) (amount balance : Numeric) (operationId : UUID) : CustomerAccountLedger :=
  { accountId := 1, no, amount, balance, operationType := .deposit, operationId, createdAt := 0
    createdBy := none }

/-- One account with the given rows. -/
def sampleLedger (rows : List CustomerAccountLedger) (h : rows.Pairwise fun a b => ¬ a.clash b) :
    Database :=
  { Database.empty .empty with
    customerAccount := ⟨[.create 1 2 .eur none 3 0], List.pairwise_singleton _ _⟩
    customerAccountLedger := ⟨rows, h⟩ }

def missingAnchor : Database :=
  { sampleLedger [sampleRow 1 .zero .zero 1, sampleRow 3 five fifteen 5] (by decide) with
    customerAccountLedgerVerified := ⟨[⟨1, 2, ten, 0⟩], List.pairwise_singleton _ _⟩ }

def missingAnchorParams : BatchParams := ⟨100, 1, 0, 1⟩

/-- Row 2 is checkpointed and gone; the run reports rows 2 to 3 clean. -/
theorem missingAnchor_batch : ∃ batch,
    nextBatch missingAnchor missingAnchorParams missingAnchor.customerAccount.rows = some batch ∧
      ∃ v ∈ batch, v.accountId = 1 ∧ v.breakKind = none ∧ v.anchorNo = 2 ∧ v.batchLastNo = 3 := by
  have hfields : (nextBatch missingAnchor missingAnchorParams missingAnchor.customerAccount.rows).map
      (·.map fun v => (v.accountId, v.breakKind, v.anchorNo, v.batchLastNo)) = some [(1, none, 2, 3)] := by decide
  obtain ⟨batch, hbatch, hfields⟩ := Option.map_eq_some_iff.mp hfields
  obtain ⟨v, rest, hv, hfields, _⟩ := List.map_eq_cons_iff.mp hfields
  simp only [Prod.mk.injEq] at hfields
  exact ⟨batch, hbatch, v, hv ▸ List.mem_cons_self, hfields⟩

theorem missing_anchor_unverified : ∃ batch,
    nextBatch missingAnchor missingAnchorParams missingAnchor.customerAccount.rows = some batch ∧
      ∃ v ∈ batch, v.breakKind = none ∧ ¬ Verified missingAnchor v := by
  obtain ⟨batch, hbatch, v, hv, haccount, hkind, hanchor, hlast⟩ := missingAnchor_batch
  refine ⟨batch, hbatch, v, hv, hkind, fun h => ?_⟩
  have hrow := h.dense 2 (by omega) (by omega)
  rw [haccount] at hrow
  exact absurd hrow (by decide)

theorem missing_anchor_verified_iff : ∃ batch,
    nextBatch missingAnchor missingAnchorParams missingAnchor.customerAccount.rows = some batch ∧
      ∃ v ∈ batch, v.accountId = 1 ∧ (Verified missingAnchor v ↔ AnchorStored missingAnchor v.accountId) := by
  obtain ⟨batch, hbatch, v, hv, haccount, hkind, _⟩ := missingAnchor_batch
  exact ⟨batch, hbatch, v, hv, haccount, clean_verified_iff missingAnchor missingAnchorParams _ (.refl _)
    (by decide) batch hbatch v hv hkind⟩

end Statement.Verification
