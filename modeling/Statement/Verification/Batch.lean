import Statement.Domain.Database

/-! The batch query of the ledger verifier, one definition a CTE.

`targets` picks accounts and the checkpoints to start from, `windowed` reads each
one's next rows with their predecessors, `chained` falls back to the checkpoint
where a row has none, `flagged` names what is wrong with a row, `firstBreak` and
`batchTail` keep one row an account, and the final select joins them. SQL leaves
the order of equal sort keys open: the account table is given as a `scan`, in
whatever order it is read, and the sort is stable. -/
namespace Statement.Verification
open Domain Foundation

structure BatchParams where
  accountsPerRun : Nat
  rowsPerAccount : Nat
  maxCheckpointAge : Timestamp
  now : Timestamp

def BatchParams.windowRows (p : BatchParams) : Nat := p.rowsPerAccount + 1

/-- A checkpoint is due again once it is older than the limit. -/
def BatchParams.stale (p : BatchParams) (v : CustomerAccountLedgerVerified) : Prop :=
  v.verifiedAt < p.now - p.maxCheckpointAge

instance (p : BatchParams) (v : CustomerAccountLedgerVerified) : Decidable (p.stale v) :=
  inferInstanceAs (Decidable (_ < _))

structure Target where
  accountId : UUID
  anchorNo : Int
  anchorBalance : Numeric
  deriving DecidableEq

/-- `COALESCE(v.through_no, 0)`. -/
def throughNo (v : Option CustomerAccountLedgerVerified) : Int := (v.map (·.throughNo)).getD 0

/-- The `WHERE` of `targets`, for an account and its latest checkpoint, where the
subtraction in it is in range. -/
def selected (d : Database) (p : BatchParams) (a : UUID)
    (v : Option CustomerAccountLedgerVerified) : Prop :=
  ((match v with
    | none => True
    | some v => p.stale v) ∨
    ∃ l ∈ d.ledgerOf a, (p.rowsPerAccount : Int) ≤ l.no - throughNo v) ∧
  d.findOpenDiscrepancy a = none ∧ ∃ l ∈ d.ledgerOf a, throughNo v < l.no

instance (d : Database) (p : BatchParams) (a : UUID) (v : Option CustomerAccountLedgerVerified) :
    Decidable (selected d p a v) :=
  have : Decidable (match v with
    | none => True
    | some v => p.stale v) := match v with
    | none => inferInstanceAs (Decidable True)
    | some v => inferInstanceAs (Decidable (p.stale v))
  inferInstanceAs (Decidable (_ ∧ _))

/-- What a `BIGINT` can be. -/
def Bigint (n : Int) : Prop := -2 ^ 63 ≤ n ∧ n < 2 ^ 63

instance decidableBigint (n : Int) : Decidable (Bigint n) := inferInstanceAs (Decidable (_ ∧ _))

/-- The `EXISTS` over `l.no - COALESCE(v.through_no, 0)` comes to a row for which this is
out of range before it comes to one that is far enough on. -/
def outOfRange (p : BatchParams) (throughNo : Int) : List CustomerAccountLedger → Bool
  | [] => false
  | l :: rows => !decide (Bigint (l.no - throughNo)) ||
      decide (l.no - throughNo < p.rowsPerAccount) && outOfRange p throughNo rows

/-- The query raises `bigint out of range`. The disjunction in its `WHERE` comes to the
subtraction where there is a checkpoint that is not due again. -/
def raises (d : Database) (p : BatchParams) (scan : List CustomerAccount) : Bool :=
  scan.any fun a => (d.findLatestCheckpoint a.id).any fun v =>
    !decide (p.stale v) && outOfRange p v.throughNo (d.ledgerOf a.id)

/-- `ORDER BY v.verified_at ASC NULLS FIRST`. -/
def verifiedAt : Option CustomerAccountLedgerVerified → WithBot Timestamp
  | none => ⊥
  | some v => v.verifiedAt

def target (a : UUID) (v : Option CustomerAccountLedgerVerified) : Target :=
  ⟨a, throughNo v, (v.map (·.balance)).getD .zero⟩

def targets (d : Database) (p : BatchParams) (scan : List CustomerAccount) : List Target :=
  let joined := scan.map fun a => (a.id, d.findLatestCheckpoint a.id)
  let eligible := joined.filter fun x => selected d p x.1 x.2
  ((orderBy (fun x => verifiedAt x.2) eligible).take p.accountsPerRun).map fun x => target x.1 x.2

/-- The lateral join of `windowed`: a target's rows from its anchor on. -/
def window (d : Database) (p : BatchParams) (t : Target) : List CustomerAccountLedger :=
  (orderBy (·.no) ((d.ledgerOf t.accountId).filter (t.anchorNo ≤ ·.no))).take p.windowRows

structure Windowed where
  target : Target
  row : CustomerAccountLedger
  batchRows : Nat
  previous : Option CustomerAccountLedger

/-- A joined row with its partition's count and its predecessor. -/
def windowedRow (joined : List (Target × CustomerAccountLedger)) (x : Target × CustomerAccountLedger) :
    Windowed :=
  { target := x.1, row := x.2
    batchRows := (joined.filter fun y => y.1.accountId = x.1.accountId).length
    previous := (lag (·.1.accountId) (·.2.no) joined x).map (·.2) }

def windowed (d : Database) (p : BatchParams) (ts : List Target) : List Windowed :=
  let joined := ts.flatMap fun t => (window d p t).map fun l => (t, l)
  joined.map (windowedRow joined)

structure Chained extends Windowed where
  chainPrevNo : Int
  chainPrevBalance : Numeric

def chained (w : Windowed) : Chained :=
  { w with
    chainPrevNo := (w.previous.map (·.no)).getD w.target.anchorNo
    chainPrevBalance := (w.previous.map (·.balance)).getD w.target.anchorBalance }

structure Flagged extends Chained where
  kind : Option LedgerDiscrepancyKind

/-- The `CASE` of `flagged`, from the anchor, the predecessor and the row. -/
def flag (anchorNo : Int) (anchorBalance : Numeric) (chainPrevNo : Int) (chainPrevBalance : Numeric)
    (row : CustomerAccountLedger) : Option LedgerDiscrepancyKind :=
  if row.no = anchorNo ∧ row.balance ≠ anchorBalance then some .anchorBalance
  else if anchorNo < row.no ∧ row.no ≠ chainPrevNo + 1 ∧
      row.balance.cents ≠ chainPrevBalance.cents + row.amount.cents then some .gapBalance
  else if anchorNo < row.no ∧ row.no ≠ chainPrevNo + 1 then some .gap
  else if anchorNo < row.no ∧ row.balance.cents ≠ chainPrevBalance.cents + row.amount.cents then
    some .balance
  else none

def flagged (c : Chained) : Flagged :=
  { c with kind := flag c.target.anchorNo c.target.anchorBalance c.chainPrevNo c.chainPrevBalance c.row }

def firstBreak (rows : List Flagged) : List Flagged :=
  distinctOn (·.target.accountId)
    (orderBy (fun f => toLex (f.target.accountId, f.row.no)) (rows.filter (·.kind.isSome)))

def batchTail (rows : List Flagged) : List Flagged :=
  distinctOn (·.target.accountId)
    (orderBy (fun f => toLex (f.target.accountId, OrderDual.toDual f.row.no)) rows)

structure CustomerAccountVerification where
  accountId : UUID
  anchorNo : Int
  anchorBalance : Numeric
  batchRows : Nat
  batchLimit : Nat
  batchLastNo : Int
  batchLastBalance : Numeric
  breakNo : Option Int
  breakKind : Option LedgerDiscrepancyKind
  breakAmount : Option Numeric
  breakBalance : Option Numeric
  breakPrevNo : Option Int
  breakPrevBalance : Option Numeric
  deriving DecidableEq

/-- One row of the final select, with what a left join leaves null. -/
def verification (p : BatchParams) (t : Target) (bt : Flagged) (fb : Option Flagged) :
    CustomerAccountVerification :=
  { accountId := t.accountId, anchorNo := t.anchorNo, anchorBalance := t.anchorBalance
    batchRows := bt.batchRows, batchLimit := p.windowRows
    batchLastNo := bt.row.no, batchLastBalance := bt.row.balance
    breakNo := fb.map (·.row.no), breakKind := fb.bind (·.kind)
    breakAmount := fb.map (·.row.amount), breakBalance := fb.map (·.row.balance)
    breakPrevNo := fb.map (·.chainPrevNo), breakPrevBalance := fb.map (·.chainPrevBalance) }

/-- `LEFT JOIN`: the matches, or one null row. -/
def leftJoin {α : Type} (matches_ : List α) : List (Option α) :=
  if matches_.isEmpty then [none] else matches_.map some

/-- The select at the end, over what its CTEs come to. -/
def finalSelect (d : Database) (p : BatchParams) (scan : List CustomerAccount) :
    List CustomerAccountVerification :=
  let ts := targets d p scan
  let rows := ((windowed d p ts).map chained).map flagged
  ts.flatMap fun t =>
    ((batchTail rows).filter (·.target.accountId = t.accountId)).flatMap fun bt =>
      (leftJoin ((firstBreak rows).filter (·.target.accountId = t.accountId))).map fun fb =>
        verification p t bt fb

/-- `next_batch`; `none` is an exception. -/
def nextBatch (d : Database) (p : BatchParams) (scan : List CustomerAccount) :
    Option (List CustomerAccountVerification) :=
  if raises d p scan then none else some (finalSelect d p scan)

theorem nextBatch_some {d : Database} {p : BatchParams} {scan : List CustomerAccount}
    {batch : List CustomerAccountVerification} (h : nextBatch d p scan = some batch) :
    raises d p scan = false ∧ batch = finalSelect d p scan := by
  unfold nextBatch at h
  split at h
  · cases h
  · rename_i hfree
    exact ⟨Bool.eq_false_iff.mpr hfree, (Option.some.inj h).symm⟩

theorem raises_iff {d : Database} {p : BatchParams} {scan : List CustomerAccount} :
    raises d p scan = true ↔ ∃ a ∈ scan, ∃ v, d.findLatestCheckpoint a.id = some v ∧ ¬ p.stale v ∧
      outOfRange p v.throughNo (d.ledgerOf a.id) = true := by
  simp only [raises, List.any_eq_true, Option.any_eq_true, Bool.and_eq_true, Bool.not_eq_true',
    decide_eq_false_iff_not]

theorem outOfRange_eq_false {p : BatchParams} {throughNo : Int} {rows : List CustomerAccountLedger}
    (h : ∀ l ∈ rows, Bigint (l.no - throughNo)) : outOfRange p throughNo rows = false := by
  induction rows with
  | nil => rfl
  | cons l rows ih =>
    have hrest := ih fun x hx => h x (List.mem_cons_of_mem l hx)
    simp [outOfRange, h l List.mem_cons_self, hrest]

/-- Where every checkpoint is due again, or what is subtracted is in range, the query
goes through. -/
theorem nextBatch_of_range {d : Database} {p : BatchParams} {scan : List CustomerAccount}
    (h : ∀ a ∈ scan, ∀ v, d.findLatestCheckpoint a.id = some v → p.stale v ∨
      ∀ l ∈ d.ledgerOf a.id, Bigint (l.no - v.throughNo)) :
    nextBatch d p scan = some (finalSelect d p scan) := by
  rw [nextBatch, if_neg]
  intro hraises
  obtain ⟨a, ha, v, hv, hfresh, hout⟩ := raises_iff.mp hraises
  rcases h a ha v hv with hstale | hrange
  · exact hfresh hstale
  · rw [outOfRange_eq_false hrange] at hout
    cases hout

namespace CustomerAccountVerification

def lastGoodNo (v : CustomerAccountVerification) : Int := v.breakPrevNo.getD v.batchLastNo

def lastGoodBalance (v : CustomerAccountVerification) : Numeric :=
  v.breakPrevBalance.getD v.batchLastBalance

def shouldCheckpoint (v : CustomerAccountVerification) : Bool := v.anchorNo < v.lastGoodNo

def expectedBalance (v : CustomerAccountVerification) : Option Int :=
  match v.breakKind with
  | none | some .gap => none
  | some .anchorBalance => some v.anchorBalance.cents
  | some .balance | some .gapBalance =>
    some (Decimal.add ((v.breakPrevBalance.map (·.cents)).getD 0) ((v.breakAmount.map (·.cents)).getD 0))

end CustomerAccountVerification
end Statement.Verification
