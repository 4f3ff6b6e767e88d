import Statement.Verification.Clean

/-! The batch query against the scan it stands for.

The scan reads one account's rows from left to right and remembers where it is,
how many rows it has read and the first that failed. It is told nothing but the
account's latest checkpoint and its own ledger. The query, over all accounts at
once, returns the scans of the accounts it selects, unless it raises, which it does
only where a row lies further from a fresh checkpoint than a `BIGINT` goes
(`batch_sequential`). -/
namespace Statement.Verification
open Domain Foundation

/-- What a row has wrong, for a scan from `anchor` that comes from `previous`. -/
def fault (anchor previous : Position) (row : CustomerAccountLedger) : Option LedgerDiscrepancyKind :=
  if row.no = anchor.no then
    if row.balance = anchor.balance then none else some .anchorBalance
  else if row.no = previous.no + 1 then
    if row.balance.cents = previous.balance.cents + row.amount.cents then none else some .balance
  else
    if row.balance.cents = previous.balance.cents + row.amount.cents then some .gap else some .gapBalance

/-- A scan under way. -/
structure Scan where
  previous : Position
  rows : Nat
  /-- The first row that failed, with the position before it. -/
  broken : Option (Position × CustomerAccountLedger × LedgerDiscrepancyKind)

def Scan.read (anchor : Position) (s : Scan) (row : CustomerAccountLedger) : Scan :=
  { previous := position row, rows := s.rows + 1
    broken := s.broken.or ((fault anchor s.previous row).map fun kind => (s.previous, row, kind)) }

/-- The account's first `rowsPerAccount + 1` rows from its checkpoint on. -/
def nextRows (rowsPerAccount : Nat) (anchor : Position) (ledger : List CustomerAccountLedger) :
    List CustomerAccountLedger :=
  (orderBy (·.no) (ledger.filter (anchor.no ≤ ·.no))).take (rowsPerAccount + 1)

/-- What is reported of a scan that has read its rows. -/
def Scan.report (s : Scan) (rowsPerAccount : Nat) (accountId : UUID) (anchor : Position) :
    CustomerAccountVerification :=
  { accountId, anchorNo := anchor.no, anchorBalance := anchor.balance
    batchRows := s.rows, batchLimit := rowsPerAccount + 1
    batchLastNo := s.previous.no, batchLastBalance := s.previous.balance
    breakNo := s.broken.map (·.2.1.no), breakKind := s.broken.map (·.2.2)
    breakAmount := s.broken.map (·.2.1.amount), breakBalance := s.broken.map (·.2.1.balance)
    breakPrevNo := s.broken.map (·.1.no), breakPrevBalance := s.broken.map (·.1.balance) }

/-- The scan of an account from its latest checkpoint. -/
def sequentialScan (rowsPerAccount : Nat) (accountId : UUID)
    (checkpoint : Option CustomerAccountLedgerVerified) (ledger : List CustomerAccountLedger) :
    CustomerAccountVerification :=
  let anchor : Position := ⟨throughNo checkpoint, (checkpoint.map (·.balance)).getD .zero⟩
  let s := (nextRows rowsPerAccount anchor ledger).foldl (Scan.read anchor) ⟨anchor, 0, none⟩
  s.report rowsPerAccount accountId anchor

/-- An account that the query may select. -/
structure Eligible (d : Database) (p : BatchParams) (a : UUID) : Prop where
  stored : ∃ account ∈ d.customerAccount.rows, account.id = a
  noIncident : d.findOpenDiscrepancy a = none
  unverified : ∃ row ∈ d.ledgerOf a, throughNo (d.findLatestCheckpoint a) < row.no
  due : d.findLatestCheckpoint a = none ∨
    (∃ v, d.findLatestCheckpoint a = some v ∧ v.verifiedAt < p.now - p.maxCheckpointAge) ∨
    ∃ row ∈ d.ledgerOf a, (p.rowsPerAccount : Int) ≤ row.no - throughNo (d.findLatestCheckpoint a)

/-- From the anchor itself, or from a row after it, the query's check is the scan's. -/
theorem fault_eq_check {anchor previous : Position} {row : CustomerAccountLedger}
    (h : previous = anchor ∧ anchor.no ≤ row.no ∨ anchor.no ≤ previous.no ∧ previous.no < row.no) :
    fault anchor previous row = check previous row := by
  have hnos : row.no = anchor.no ∧ previous = anchor ∨ anchor.no < row.no ∧ row.no ≠ previous.no ∧
      previous.no < row.no := by
    rcases h with ⟨rfl, hle⟩ | ⟨hanchor, hlt⟩
    · by_cases heq : row.no = previous.no
      · exact .inl ⟨heq, rfl⟩
      · exact .inr ⟨by omega, heq, by omega⟩
    · exact .inr ⟨by omega, by omega, hlt⟩
  rcases hnos with ⟨heq, rfl⟩ | ⟨hanchor, hne, hlt⟩
  · by_cases hbalance : row.balance = previous.balance <;> simp [fault, check, flag, heq, hbalance]
  · have hne' : row.no ≠ anchor.no := by omega
    rw [fault, if_neg hne', check, flag]
    by_cases hno : row.no = previous.no + 1 <;>
      by_cases hbalance : row.balance.cents = previous.balance.cents + row.amount.cents <;>
      simp [hne, hlt, hno, hbalance]

/-- Once a row has failed, reading on moves the position and nothing else. -/
theorem foldl_broken (anchor : Position) (s : Scan)
    {b : Position × CustomerAccountLedger × LedgerDiscrepancyKind} (hb : s.broken = some b)
    (rows : List CustomerAccountLedger) :
    rows.foldl (Scan.read anchor) s =
      ⟨(rows.getLast?.map position).getD s.previous, s.rows + rows.length, some b⟩ := by
  induction rows generalizing s with
  | nil => rw [← hb]; rfl
  | cons row rows ih =>
    rw [List.foldl_cons, ih (s.read anchor row) (by simp [Scan.read, hb]), List.getLast?_cons]
    cases rows.getLast? <;> simp [Scan.read, Nat.add_assoc, Nat.add_comm 1]

/-- The scan of rows in order is the query's walk over them. -/
theorem foldl_read {anchor previous : Position} {rows : List CustomerAccountLedger} (n : Nat)
    (hs : rows.Pairwise fun r s => r.no < s.no) (hle : ∀ r ∈ rows, anchor.no ≤ r.no)
    (hprev : previous = anchor ∨ anchor.no ≤ previous.no ∧ ∀ r ∈ rows, previous.no < r.no) :
    rows.foldl (Scan.read anchor) ⟨previous, n, none⟩ =
      ⟨(rows.getLast?.map position).getD previous, n + rows.length,
        match walk check position previous rows with
        | .clean _ => none
        | .broken before row kind => some (before, row, kind)⟩ := by
  induction rows generalizing previous n with
  | nil => rfl
  | cons row rows ih =>
    obtain ⟨hrow, hs⟩ := List.pairwise_cons.mp hs
    have hcheck : fault anchor previous row = check previous row := by
      refine fault_eq_check (hprev.imp (fun h => ⟨h, hle row List.mem_cons_self⟩) fun h => ?_)
      exact ⟨h.1, h.2 row List.mem_cons_self⟩
    rw [List.foldl_cons, List.getLast?_cons]
    cases hc : check previous row with
    | none =>
      have hread : Scan.read anchor ⟨previous, n, none⟩ row = ⟨position row, n + 1, none⟩ := by
        simp [Scan.read, hcheck, hc]
      have hnext := @ih (position row) (n + 1) hs
        (fun r hr => hle r (List.mem_cons_of_mem _ hr)) (.inr ⟨hle row List.mem_cons_self, hrow⟩)
      rw [hread, hnext, walk_cons_ok _ hc]
      cases rows.getLast? <;> simp [Nat.add_assoc, Nat.add_comm 1]
    | some kind =>
      have hbroken : (Scan.read anchor ⟨previous, n, none⟩ row).broken = some (previous, row, kind) := by
        simp [Scan.read, hcheck, hc]
      rw [foldl_broken anchor _ hbroken, walk_cons_broken _ hc]
      cases rows.getLast? <;> simp [Scan.read, Nat.add_assoc, Nat.add_comm 1]

/-- A report of the query is the scan of its account. -/
theorem report_eq_sequentialScan (d : Database) (p : BatchParams) (a : UUID) :
    report p (target a (d.findLatestCheckpoint a)) (window d p (target a (d.findLatestCheckpoint a))) =
      sequentialScan p.rowsPerAccount a (d.findLatestCheckpoint a) (d.ledgerOf a) := by
  have hfold := @foldl_read (target a (d.findLatestCheckpoint a)).start _ _ 0
    (window_sorted d p _) (fun r hr => (mem_window hr).2) (.inl rfl)
  have hscan : sequentialScan p.rowsPerAccount a (d.findLatestCheckpoint a) (d.ledgerOf a) =
      ((window d p (target a (d.findLatestCheckpoint a))).foldl
        (Scan.read (target a (d.findLatestCheckpoint a)).start)
        ⟨(target a (d.findLatestCheckpoint a)).start, 0, none⟩).report p.rowsPerAccount a
          (target a (d.findLatestCheckpoint a)).start := rfl
  rw [hscan, hfold, Nat.zero_add, report]
  cases walk check position (target a (d.findLatestCheckpoint a)).start
      (window d p (target a (d.findLatestCheckpoint a))) with
  | clean last => rfl
  | broken previous row kind => rfl

theorem target_eligible {d : Database} {p : BatchParams} {scan : List CustomerAccount}
    (hscan : scan.Perm d.customerAccount.rows) {t : Target} (ht : t ∈ targets d p scan) :
    t = target t.accountId (d.findLatestCheckpoint t.accountId) ∧ Eligible d p t.accountId := by
  obtain ⟨a, ha, rfl, hdue, hnone, hrow⟩ := target_mem ht
  refine ⟨rfl, ⟨a, hscan.mem_iff.mp ha, rfl⟩, hnone, hrow, ?_⟩
  rcases hdue with hstale | hbehind
  · cases hv : d.findLatestCheckpoint a.id with
    | none => exact .inl hv
    | some v =>
      rw [hv] at hstale
      exact .inr (.inl ⟨v, hv, hstale⟩)
  · exact .inr (.inr hbehind)

theorem length_targets (d : Database) (p : BatchParams) (scan : List CustomerAccount) :
    (targets d p scan).length =
      min p.accountsPerRun (scan.filter fun a => selected d p a.id (d.findLatestCheckpoint a.id)).length := by
  rw [targets, List.length_map, List.length_take, length_orderBy, List.filter_map, List.length_map]
  rfl

/-- A row that lies further from a checkpoint that is not due again than a `BIGINT`
goes. -/
structure FarOff (d : Database) (p : BatchParams) (a : UUID) (v : CustomerAccountLedgerVerified)
    (row : CustomerAccountLedger) : Prop where
  latest : d.findLatestCheckpoint a = some v
  fresh : ¬ p.stale v
  stored : row ∈ d.ledgerOf a
  outside : ¬ Bigint (row.no - v.throughNo)

theorem farOff_of_raises {d : Database} {p : BatchParams} {scan : List CustomerAccount}
    (h : nextBatch d p scan = none) : ∃ a ∈ scan, ∃ v row, FarOff d p a.id v row := by
  by_contra hnone
  have hsome : nextBatch d p scan = some (finalSelect d p scan) := by
    refine nextBatch_of_range fun a ha v hv => ?_
    by_cases hstale : p.stale v
    · exact .inl hstale
    · refine .inr fun row hrow => ?_
      by_contra houtside
      exact hnone ⟨a, ha, v, row, hv, hstale, hrow, houtside⟩
  rw [h] at hsome
  cases hsome

theorem finalSelect_sequential (d : Database) (p : BatchParams) {scan : List CustomerAccount}
    (hscan : scan.Perm d.customerAccount.rows) {v : CustomerAccountVerification}
    (hv : v ∈ finalSelect d p scan) :
    Eligible d p v.accountId ∧ v = sequentialScan p.rowsPerAccount v.accountId
      (d.findLatestCheckpoint v.accountId) (d.ledgerOf v.accountId) := by
  obtain ⟨t, ht, rfl⟩ := mem_finalSelect (Database.accountIds_nodup hscan) hv
  obtain ⟨htarget, heligible⟩ := target_eligible hscan ht
  rw [report_accountId]
  refine ⟨heligible, ?_⟩
  rw [← report_eq_sequentialScan, ← htarget]

/-- **The batch query is a sequential scan of each account that it selects**, where it
does not raise for a row that is far off. -/
theorem batch_sequential (d : Database) (p : BatchParams) (scan : List CustomerAccount)
    (hscan : scan.Perm d.customerAccount.rows) :
    (nextBatch d p scan = none → ∃ a ∈ d.customerAccount.rows, ∃ v row, FarOff d p a.id v row) ∧
    ∀ batch, nextBatch d p scan = some batch →
      batch.length ≤ p.accountsPerRun ∧ (batch.map (·.accountId)).Nodup ∧
      batch.length =
        min p.accountsPerRun
          (scan.filter fun a => selected d p a.id (d.findLatestCheckpoint a.id)).length ∧
      ∀ v ∈ batch, Eligible d p v.accountId ∧
        v = sequentialScan p.rowsPerAccount v.accountId (d.findLatestCheckpoint v.accountId)
          (d.ledgerOf v.accountId) := by
  refine ⟨fun hraises => ?_, fun batch hbatch => ?_⟩
  · obtain ⟨a, ha, hfar⟩ := farOff_of_raises hraises
    exact ⟨a, hscan.mem_iff.mp ha, hfar⟩
  · obtain ⟨_, rfl⟩ := nextBatch_some hbatch
    have hids := Database.accountIds_nodup hscan
    have hlength : (finalSelect d p scan).length = (targets d p scan).length := by
      rw [finalSelect_eq d p hids, List.length_map]
    rw [hlength, length_targets]
    refine ⟨Nat.min_le_left _ _, ?_, rfl, fun v hv => finalSelect_sequential d p hscan hv⟩
    rw [finalSelect_eq d p hids, List.map_map]
    simpa [Function.comp_def] using targets_nodup d p hids

theorem missingAnchor_scanned : ∃ batch,
    nextBatch missingAnchor missingAnchorParams missingAnchor.customerAccount.rows = some batch ∧
      ∃ v ∈ batch, v = sequentialScan 1 1 (missingAnchor.findLatestCheckpoint 1) (missingAnchor.ledgerOf 1) := by
  obtain ⟨batch, hbatch, v, hv, haccount, _⟩ := missingAnchor_batch
  obtain ⟨_, hscans⟩ := batch_sequential missingAnchor missingAnchorParams _ (List.Perm.refl _)
  have hscan := ((hscans batch hbatch).2.2.2 v hv).2
  rw [haccount] at hscan
  exact ⟨batch, hbatch, v, hv, hscan⟩

/-! ### A row that is far off -/

/-- Row 2 is checkpointed and row 3 is not; the number of a third row is as low as its
column takes. -/
def farOff : Database :=
  { sampleLedger [sampleRow (-2 ^ 63) .zero .zero 1, sampleRow 2 ten ten 2, sampleRow 3 five fifteen 3]
      (by decide) with
    customerAccountLedgerVerified := .single ⟨1, 2, ten, 5⟩ }

def farOffParams : BatchParams := ⟨100, 10, 60, 6⟩

/-- The account is not due, and the query that has to find this out raises. -/
theorem farOff_raises : (farOff.ledgerOf 1).map (·.no) = [-2 ^ 63, 2, 3] ∧
    farOff.findOpenDiscrepancy 1 = none ∧ farOff.findLatestCheckpoint 1 = some ⟨1, 2, ten, 5⟩ ∧
    ¬ farOffParams.stale ⟨1, 2, ten, 5⟩ ∧
    nextBatch farOff farOffParams farOff.customerAccount.rows = none := by decide

end Statement.Verification
