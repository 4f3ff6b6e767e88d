import Statement.Verification.Run

/-! What a run leaves behind, account by account.

All the verifier ever reads back of its own tables is an account's open incident
and its latest checkpoint: its `outcome`. Recording one account's verification
changes that account's outcome, and nobody else's. -/
namespace Statement.Verification
open Domain Foundation

structure Incident where
  no : Int
  kind : LedgerDiscrepancyKind
  prevNo : Int
  expectedBalance : Option Numeric
  actualBalance : Numeric
  deriving DecidableEq

/-- How far a ledger was walked: a number and the balance there. -/
structure Position where
  no : Int
  balance : Numeric
  deriving DecidableEq

/-- An account's open incident and its latest checkpoint, without times and ids. -/
structure Outcome where
  incident : Option Incident
  checkpoint : Option Position
  deriving DecidableEq

def outcome (d : Database) (a : UUID) : Outcome :=
  { incident := (d.findOpenDiscrepancy a).map fun i =>
      ⟨i.no, i.kind, i.prevNo, i.expectedBalance, i.actualBalance⟩
    checkpoint := (d.findLatestCheckpoint a).map fun c => ⟨c.throughNo, c.balance⟩ }

/-- Where the next walk of an account starts. -/
def Outcome.start (o : Outcome) : Position := o.checkpoint.getD ⟨0, .zero⟩

/-- What a verification with a break records, if it can. -/
def CustomerAccountVerification.incident (v : CustomerAccountVerification) : Option Incident := do
  let no ← v.breakNo
  let kind ← v.breakKind
  let expectedBalance ← v.storedExpectedBalance
  some ⟨no, kind, v.breakPrevNo.getD 0, expectedBalance, v.breakBalance.getD .zero⟩

/-- Where a run leaves every table but its own two. -/
structure Untouched (d d' : Database) : Prop where
  customer : d'.customer = d.customer
  account : d'.customerAccount = d.customerAccount
  history : d'.customerAccountHistory = d.customerAccountHistory
  ledger : d'.customerAccountLedger = d.customerAccountLedger

/-! ### The two inserts -/

theorem outcome_addCheckpoint {d : Database} {a : UUID} {n : Int} (balance : Numeric) (now : Timestamp)
    (h : ∀ c, d.findLatestCheckpoint a = some c → c.throughNo < n) (b : UUID) :
    outcome (d.addCheckpoint a n balance now) b =
      if b = a then ⟨(outcome d a).incident, some ⟨n, balance⟩⟩ else outcome d b := by
  have hbelow : ∀ c ∈ d.customerAccountLedgerVerified.rows.filter (·.accountId = a),
      c.throughNo < n := by
    intro c hc
    cases hl : d.findLatestCheckpoint a with
    | none =>
      rw [Database.findLatestCheckpoint, head_orderBy_none] at hl
      rw [hl] at hc
      cases hc
    | some latest =>
      have hle : c.throughNo ≤ latest.throughNo := (head_orderBy_le hl).2 c hc
      have := h latest hl
      omega
  have hrows : (d.addCheckpoint a n balance now).customerAccountLedgerVerified.rows =
      d.customerAccountLedgerVerified.rows ++ [⟨a, n, balance, now⟩] := by
    rcases d.customerAccountLedgerVerified.insertOrIgnore_cases ⟨a, n, balance, now⟩ with
      ⟨⟨c, hc, hca, hcn⟩, _⟩ | ⟨_, hr⟩
    · have hcn : c.throughNo = n := hcn
      have := hbelow c (List.mem_filter.mpr ⟨hc, by simpa using hca⟩)
      omega
    · exact hr
  have hopen : (d.addCheckpoint a n balance now).findOpenDiscrepancy b = d.findOpenDiscrepancy b := rfl
  have hlatest : (d.addCheckpoint a n balance now).findLatestCheckpoint b =
      if b = a then some ⟨a, n, balance, now⟩ else d.findLatestCheckpoint b := by
    rw [Database.findLatestCheckpoint, hrows, List.filter_append]
    by_cases hb : b = a
    · subst hb
      rw [if_pos rfl, List.filter_cons, if_pos (by simp), List.filter_nil]
      exact head_orderBy_append fun c hc => hbelow c hc
    · rw [if_neg hb, List.filter_cons, if_neg (by simpa using Ne.symm hb), List.filter_nil,
        List.append_nil]
      rfl
  rw [outcome, hopen, hlatest]
  by_cases hb : b = a
  · subst hb
    rw [if_pos rfl, if_pos rfl]
    rfl
  · rw [if_neg hb, if_neg hb]
    rfl

theorem lt_nextDiscrepancyId {d : Database} {i : CustomerAccountLedgerDiscrepancy}
    (h : i ∈ d.customerAccountLedgerDiscrepancy.rows) : i.discrepancyId < d.nextDiscrepancyId := by
  have hle : ∀ l : List Nat, ∀ n ∈ l, n ≤ l.foldr max 0 := by
    intro l
    induction l with
    | nil => simp
    | cons m l ih =>
      intro n hn
      rcases List.mem_cons.mp hn with rfl | hn
      · exact le_max_left _ _
      · exact (ih n hn).trans (le_max_right _ _)
  exact Nat.lt_succ_of_le (hle _ _ (List.mem_map_of_mem h))

theorem recordDiscrepancy_none {v : CustomerAccountVerification} {now : Timestamp} {d : Database} :
    recordDiscrepancy v now d = none ↔ v.incident = none := by
  unfold recordDiscrepancy CustomerAccountVerification.incident
  cases v.breakNo <;> cases v.breakKind <;> cases v.storedExpectedBalance <;> simp

/-- A new incident, on an account that has none open. -/
theorem findOpenDiscrepancy_insert {d d' : Database} {i : CustomerAccountLedgerDiscrepancy}
    (hid : i.discrepancyId = d.nextDiscrepancyId) (hresolved : i.resolvedAt = none)
    (hopen : d.findOpenDiscrepancy i.accountId = none)
    (h : d'.customerAccountLedgerDiscrepancy = d.customerAccountLedgerDiscrepancy.insertOrIgnore i)
    (b : UUID) : d'.findOpenDiscrepancy b =
      if b = i.accountId then some i else d.findOpenDiscrepancy b := by
  have hrows : d'.customerAccountLedgerDiscrepancy.rows =
      d.customerAccountLedgerDiscrepancy.rows ++ [i] := by
    rw [h]
    rcases d.customerAccountLedgerDiscrepancy.insertOrIgnore_cases i with ⟨⟨j, hj, hji⟩, _⟩ | ⟨_, hr⟩
    · rcases hji with hji | ⟨haccount, hnone, _⟩
      · have := lt_nextDiscrepancyId hj
        omega
      · have hfree : j.accountId = i.accountId → ¬ j.resolvedAt = none := by
          simpa using List.find?_eq_none.mp hopen j hj
        exact absurd hnone (hfree haccount)
    · exact hr
  rw [Database.findOpenDiscrepancy, hrows, List.find?_append]
  by_cases hb : b = i.accountId
  · subst hb
    rw [if_pos rfl]
    rw [Database.findOpenDiscrepancy] at hopen
    rw [hopen]
    simp [hresolved]
  · rw [if_neg hb, List.find?_cons_of_neg (by simpa using fun he => absurd he.symm hb)]
    simp [Database.findOpenDiscrepancy]

theorem outcome_recordDiscrepancy {v : CustomerAccountVerification} {now : Timestamp}
    {d d' : Database} (hopen : d.findOpenDiscrepancy v.accountId = none)
    (h : recordDiscrepancy v now d = some d') :
    Untouched d d' ∧ d'.customerAccountLedgerVerified = d.customerAccountLedgerVerified ∧
      ∀ b, outcome d' b =
        if b = v.accountId then ⟨v.incident, (outcome d b).checkpoint⟩ else outcome d b := by
  unfold recordDiscrepancy at h
  split at h
  · rename_i no kind hno hkind
    simp only [Option.bind_eq_bind, Option.bind_eq_some_iff, Option.some.injEq] at h
    obtain ⟨expected, hexpected, rfl⟩ := h
    refine ⟨⟨rfl, rfl, rfl, rfl⟩, rfl, fun b => ?_⟩
    have hincident : v.incident =
        some ⟨no, kind, v.breakPrevNo.getD 0, expected, v.breakBalance.getD .zero⟩ := by
      simp [CustomerAccountVerification.incident, hno, hkind, hexpected]
    rw [outcome, findOpenDiscrepancy_insert rfl rfl hopen rfl b]
    by_cases hb : b = v.accountId
    · rw [if_pos hb, if_pos hb, hincident]
      rfl
    · rw [if_neg hb, if_neg hb]
      rfl
  · cases h

/-! ### One account of the batch -/

/-- What the verification assumes of the tables it is recorded in: it started at
the latest checkpoint, and no incident is open. -/
structure Fresh (d : Database) (v : CustomerAccountVerification) : Prop where
  incident : (outcome d v.accountId).incident = none
  anchor : (outcome d v.accountId).start.no = v.anchorNo

/-- The outcome of an account that a run has verified. -/
def CustomerAccountVerification.outcome (v : CustomerAccountVerification) (before : Outcome) : Outcome :=
  { incident := v.incident
    checkpoint :=
      if v.shouldCheckpoint then some ⟨v.lastGoodNo, v.lastGoodBalance⟩ else before.checkpoint }

/-- A break that cannot be recorded, because its expected balance does not fit. -/
def CustomerAccountVerification.unrecordable (v : CustomerAccountVerification) : Prop :=
  v.breakKind.isSome ∧ v.incident = none

structure Recorded (clock : Write → Timestamp) (d d' : Database) (v : CustomerAccountVerification) :
    Prop where
  untouched : Untouched d d'
  outcome : ∀ b, Verification.outcome d' b =
    if b = v.accountId then v.outcome (Verification.outcome d b) else Verification.outcome d b
  times : ∀ c ∈ d'.customerAccountLedgerVerified.rows,
    c ∈ d.customerAccountLedgerVerified.rows ∨ c.verifiedAt = clock (.verified v)

theorem outcome_recordVerified {v : CustomerAccountVerification} (now : Timestamp) {d : Database}
    (h : (outcome d v.accountId).start.no = v.anchorNo) (hc : v.shouldCheckpoint = true) (b : UUID) :
    outcome (recordVerified v now d) b = if b = v.accountId then
      ⟨(outcome d b).incident, some ⟨v.lastGoodNo, v.lastGoodBalance⟩⟩ else outcome d b := by
  rw [recordVerified, outcome_addCheckpoint]
  · by_cases hb : b = v.accountId
    · rw [if_pos hb, if_pos hb, hb]
    · rw [if_neg hb, if_neg hb]
  · intro c hl
    have hlt : v.anchorNo < v.lastGoodNo := by
      simpa [CustomerAccountVerification.shouldCheckpoint] using hc
    simp only [outcome, Outcome.start, hl, Option.map_some, Option.getD_some] at h
    omega

theorem recordVerified_times (v : CustomerAccountVerification) (now : Timestamp) (d : Database)
    {c : CustomerAccountLedgerVerified}
    (hc : c ∈ (recordVerified v now d).customerAccountLedgerVerified.rows) :
    c ∈ d.customerAccountLedgerVerified.rows ∨ c.verifiedAt = now := by
  rcases Table.mem_insertOrIgnore hc with hc | rfl
  · exact .inl hc
  · exact .inr rfl

/-- The second half of the loop's body. -/
theorem record_checkpoint (clock : Write → Timestamp) {d : Database} {v : CustomerAccountVerification}
    (h : (outcome d v.accountId).start.no = v.anchorNo) :
    ∃ d', (if v.shouldCheckpoint then [Write.verified v] else []).foldlM
        (fun d w => w.apply (clock w) d) d = some d' ∧ Untouched d d' ∧
      (∀ b, outcome d' b = if b = v.accountId then ⟨(outcome d b).incident,
          if v.shouldCheckpoint then some ⟨v.lastGoodNo, v.lastGoodBalance⟩
          else (outcome d b).checkpoint⟩ else outcome d b) ∧
      ∀ c ∈ d'.customerAccountLedgerVerified.rows,
        c ∈ d.customerAccountLedgerVerified.rows ∨ c.verifiedAt = clock (.verified v) := by
  by_cases hc : v.shouldCheckpoint = true
  · refine ⟨recordVerified v (clock (.verified v)) d, ?_, ⟨rfl, rfl, rfl, rfl⟩, fun b => ?_,
      fun c hm => recordVerified_times v _ d hm⟩
    · rw [if_pos hc]
      rfl
    · rw [outcome_recordVerified _ h hc, if_pos hc]
  · refine ⟨d, ?_, ⟨rfl, rfl, rfl, rfl⟩, fun b => ?_, fun c hm => .inl hm⟩
    · rw [if_neg hc]
      rfl
    · rw [if_neg hc]
      exact (ite_self _).symm

/-- Recording a verification raises exactly when its break cannot be recorded. -/
theorem record_cases (clock : Write → Timestamp) {d : Database} {v : CustomerAccountVerification}
    (h : Fresh d v) : (v.unrecordable ∧ record clock d v = none) ∨
      (¬ v.unrecordable ∧ ∃ d', record clock d v = some d' ∧ Recorded clock d d' v) := by
  have hopen : d.findOpenDiscrepancy v.accountId = none := by simpa [outcome] using h.incident
  cases hk : v.breakKind with
  | none =>
    have hincident : v.incident = none := by
      simp [CustomerAccountVerification.incident, hk]
    obtain ⟨d', hd', huntouched, houtcome, htimes⟩ := record_checkpoint clock h.anchor
    refine .inr ⟨by simp [CustomerAccountVerification.unrecordable, hk], d', ?_, huntouched,
      fun b => ?_, htimes⟩
    · simpa [record, writes, hk] using hd'
    · rw [houtcome b, CustomerAccountVerification.outcome, hincident]
      by_cases hb : b = v.accountId
      · rw [if_pos hb, if_pos hb, hb, h.incident]
      · rw [if_neg hb, if_neg hb]
  | some k =>
    have hrecord : record clock d v = (recordDiscrepancy v (clock (.discrepancy v)) d).bind fun d =>
        (if v.shouldCheckpoint then [Write.verified v] else []).foldlM
          (fun d w => w.apply (clock w) d) d := by
      simp only [record, writes, hk, Option.isSome_some, if_true, List.cons_append, List.nil_append,
        List.foldlM_cons]
      rfl
    cases hr : recordDiscrepancy v (clock (.discrepancy v)) d with
    | none =>
      refine .inl ⟨⟨by simp [hk], recordDiscrepancy_none.mp hr⟩, ?_⟩
      rw [hrecord, hr]
      rfl
    | some d₁ =>
      have hsome : v.incident ≠ none := fun hn => by
        rw [recordDiscrepancy_none.mpr hn] at hr
        cases hr
      obtain ⟨huntouched₁, hverified₁, houtcome₁⟩ := outcome_recordDiscrepancy hopen hr
      have hanchor₁ : (outcome d₁ v.accountId).start.no = v.anchorNo := by
        rw [houtcome₁, if_pos rfl]
        exact h.anchor
      obtain ⟨d', hd', huntouched, houtcome, htimes⟩ := record_checkpoint clock hanchor₁
      refine .inr ⟨fun hu => hsome hu.2, d', ?_, ?_, fun b => ?_, fun c hm => ?_⟩
      · rw [hrecord, hr]
        exact hd'
      · exact ⟨huntouched.customer.trans huntouched₁.customer,
          huntouched.account.trans huntouched₁.account,
          huntouched.history.trans huntouched₁.history, huntouched.ledger.trans huntouched₁.ledger⟩
      · rw [houtcome b, houtcome₁ b]
        by_cases hb : b = v.accountId <;> simp only [hb, if_true, if_false]
        rfl
      · exact hverified₁ ▸ htimes c hm

/-! ### The whole batch -/

structure RunEffect (clock : Write → Timestamp) (d d' : Database)
    (batch : List CustomerAccountVerification) : Prop where
  untouched : Untouched d d'
  verified : ∀ v ∈ batch, outcome d' v.accountId = v.outcome (outcome d v.accountId)
  others : ∀ b, (∀ v ∈ batch, v.accountId ≠ b) → outcome d' b = outcome d b
  times : ∀ c ∈ d'.customerAccountLedgerVerified.rows,
    c ∈ d.customerAccountLedgerVerified.rows ∨ ∃ w, c.verifiedAt = clock w

/-- A run raises exactly when some break of its batch cannot be recorded; else it
gives every account of the batch its outcome. -/
theorem batch_cases (clock : Write → Timestamp) {d : Database}
    {batch : List CustomerAccountVerification} (hn : (batch.map (·.accountId)).Nodup)
    (h : ∀ v ∈ batch, Fresh d v) :
    ((∃ v ∈ batch, v.unrecordable) ∧ batch.foldlM (record clock) d = none) ∨
      ((∀ v ∈ batch, ¬ v.unrecordable) ∧
        ∃ d', batch.foldlM (record clock) d = some d' ∧ RunEffect clock d d' batch) := by
  induction batch generalizing d with
  | nil => exact .inr ⟨by simp, d, rfl, ⟨rfl, rfl, rfl, rfl⟩, by simp, fun _ _ => rfl, fun c hc => .inl hc⟩
  | cons v batch ih =>
    obtain ⟨hv, hn⟩ := List.nodup_cons.mp hn
    rcases record_cases clock (h v List.mem_cons_self) with ⟨hu, hr⟩ | ⟨hu, d₁, hr, hrec⟩
    · exact .inl ⟨⟨v, List.mem_cons_self, hu⟩, by rw [List.foldlM_cons, hr]; rfl⟩
    have hother : ∀ b, b ≠ v.accountId → outcome d₁ b = outcome d b := fun b hb => by
      rw [hrec.outcome b, if_neg hb]
    have hne : ∀ x ∈ batch, x.accountId ≠ v.accountId := fun x hx he =>
      hv (List.mem_map.mpr ⟨x, hx, he⟩)
    have hfresh : ∀ x ∈ batch, Fresh d₁ x := by
      intro x hx
      obtain ⟨hincident, hanchor⟩ := h x (List.mem_cons_of_mem v hx)
      rw [← hother _ (hne x hx)] at hincident hanchor
      exact ⟨hincident, hanchor⟩
    have hfold : (v :: batch).foldlM (record clock) d = batch.foldlM (record clock) d₁ := by
      rw [List.foldlM_cons, hr]
      rfl
    rcases ih hn hfresh with ⟨⟨x, hx, hxu⟩, hnone⟩ | ⟨hall, d', hd', heffect⟩
    · exact .inl ⟨⟨x, List.mem_cons_of_mem v hx, hxu⟩, hfold.trans hnone⟩
    · refine .inr ⟨?_, d', hfold.trans hd', ?_, fun x hx => ?_, fun b hb => ?_, fun c hc => ?_⟩
      · intro x hx
        rcases List.mem_cons.mp hx with rfl | hx
        · exact hu
        · exact hall x hx
      · exact ⟨heffect.untouched.customer.trans hrec.untouched.customer,
          heffect.untouched.account.trans hrec.untouched.account,
          heffect.untouched.history.trans hrec.untouched.history,
          heffect.untouched.ledger.trans hrec.untouched.ledger⟩
      · rcases List.mem_cons.mp hx with rfl | hx
        · rw [heffect.others _ hne, hrec.outcome, if_pos rfl]
        · rw [heffect.verified x hx, hother _ (hne x hx)]
      · rw [heffect.others b fun x hx => hb x (List.mem_cons_of_mem v hx),
          hother b (Ne.symm (hb v List.mem_cons_self))]
      · rcases heffect.times c hc with hc | ht
        · exact (hrec.times c hc).imp_right fun ht => ⟨_, ht⟩
        · exact .inr ht

end Statement.Verification
