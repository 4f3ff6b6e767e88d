import Statement.Verification.Clean
import Statement.Verification.Run
import Statement.Wiring.Request

/-! Resolving an incident: `resolve_customer_account_ledger_discrepancy`.

The handler reads and writes through the verification repository only, and that
is on the `get_session` session; the `get_tx_session` session it asks for stays
empty. Under `fast_deps` a 204 therefore says that something is accepted which no
commit has written. -/
namespace Statement.Domain.Database

/-- What `resolve_discrepancy` sets on the incident. -/
def resolveRow (discrepancyId : Nat) (resolvedBy : UUID) (now : Timestamp)
    (i : CustomerAccountLedgerDiscrepancy) : CustomerAccountLedgerDiscrepancy :=
  if i.discrepancyId = discrepancyId then { i with resolvedAt := some now, resolvedBy := some resolvedBy }
  else i

/-- Resolving an incident closes no other's place in the partial index. -/
theorem resolveRow_clash (discrepancyId : Nat) (resolvedBy : UUID) (now : Timestamp)
    (i j : CustomerAccountLedgerDiscrepancy)
    (h : (resolveRow discrepancyId resolvedBy now i).clash (resolveRow discrepancyId resolvedBy now j)) :
    i.clash j := by
  unfold resolveRow at h
  rcases h with h | ⟨h₁, h₂, h₃⟩
  · refine .inl ?_
    split_ifs at h <;> exact h
  · split_ifs at h₁ h₂ h₃
    exact .inr ⟨h₁, h₂, h₃⟩

def resolveDiscrepancy (d : Database) (discrepancyId : Nat) (resolvedBy : UUID) (now : Timestamp) :
    Database :=
  { d with customerAccountLedgerDiscrepancy :=
      d.customerAccountLedgerDiscrepancy.update _ (resolveRow_clash discrepancyId resolvedBy now) }

def findDiscrepancy (d : Database) (discrepancyId : Nat) (accountId : UUID) :
    Option CustomerAccountLedgerDiscrepancy :=
  d.customerAccountLedgerDiscrepancy.rows.find? fun i =>
    i.discrepancyId = discrepancyId ∧ i.accountId = accountId

end Statement.Domain.Database

namespace Statement.Wiring
open Domain Foundation

/-- The body, as its schema admits it. -/
structure LedgerDiscrepancyResolve where
  throughNo : Option Int
  positive : ∀ n, throughNo = some n → 1 ≤ n

structure ResolveRequest where
  accountId : UUID
  resolution : LedgerDiscrepancyResolve
  /-- The caller, `principal.sub`. -/
  sub : UUID
  /-- The clock, at the two writes. -/
  verifiedAt : Timestamp
  resolvedAt : Timestamp

inductive ResolveFailure where
  | noOpenDiscrepancy
  /-- `through_no` is required for an `anchor_balance` discrepancy. -/
  | throughNoRequired
  | notPastAnchor (anchorNo : Int)
  | noLedgerRow (throughNo : Int)
  /-- The number does not fit the column it is compared with. -/
  | outOfRange
  /-- `scalar_one` on an incident that is not there. -/
  | noResultFound

def ResolveFailure.status : ResolveFailure → Nat
  | .noOpenDiscrepancy => 404
  | .throughNoRequired | .notPastAnchor _ | .noLedgerRow _ => 422
  | .outOfRange | .noResultFound => 500

namespace ResolveRequest

def anchorNo (d : Database) (accountId : UUID) : Int :=
  match d.findLatestCheckpoint accountId with
  | some checkpoint => checkpoint.throughNo
  | none => 0

/-- The row up to which the ledger is accepted; for a break on the anchor itself
the caller has to say. -/
def throughNo (r : ResolveRequest) (i : CustomerAccountLedgerDiscrepancy) : Option Int :=
  match r.resolution.throughNo with
  | some n => some n
  | none => if i.kind = .anchorBalance then none else some i.no

/-- The checks of the handler, on what its repository reads. -/
def accept (r : ResolveRequest) (d : Database) :
    Except ResolveFailure (CustomerAccountLedgerDiscrepancy × Int × Numeric) :=
  match d.findOpenDiscrepancy r.accountId with
  | none => .error .noOpenDiscrepancy
  | some discrepancy =>
    match r.throughNo discrepancy with
    | none => .error .throughNoRequired
    | some throughNo =>
      if throughNo ≤ anchorNo d r.accountId then .error (.notPastAnchor (anchorNo d r.accountId))
      else if 2 ^ 63 ≤ throughNo then .error .outOfRange
      else match d.findLedgerBalance r.accountId throughNo with
        | none => .error (.noLedgerRow throughNo)
        | some balance => .ok (discrepancy, throughNo, balance)

section
variable {S : Type} [DecidableEq S] (P : Providers S)

/-- The handler: every read and write is the repository's. -/
def handle (r : ResolveRequest) (x : Sessions S Database) : Except ResolveFailure (Sessions S Database) :=
  let repo := P.resolve .getSession
  match r.accept (x.view repo) with
  | .error f => .error f
  | .ok (discrepancy, throughNo, balance) =>
    let x := x.write repo fun d => d.addCheckpoint r.accountId throughNo balance r.verifiedAt
    match (x.view repo).findDiscrepancy discrepancy.discrepancyId discrepancy.accountId with
    | none => .error .noResultFound
    | some found =>
      .ok (x.write repo fun d => d.resolveDiscrepancy found.discrepancyId r.sub r.resolvedAt)

def respond (r : ResolveRequest) (d : Database) : Response Database :=
  Wiring.respond P 204 ResolveFailure.status d (r.handle P (.fresh d))

end

/-! ### What a 204 promises -/

/-- The ledger up to `throughNo` can be accepted in place of the incident `i`. -/
structure Acceptable (r : ResolveRequest) (d : Database) (i : CustomerAccountLedgerDiscrepancy)
    (throughNo : Int) (balance : Numeric) : Prop where
  named : r.throughNo i = some throughNo
  past : anchorNo d r.accountId < throughNo
  inRange : throughNo < 2 ^ 63
  stored : d.findLedgerBalance r.accountId throughNo = some balance

/-- `d'` is `d` with the checkpoint added and the incident resolved by the caller. -/
structure Resolved (r : ResolveRequest) (i : CustomerAccountLedgerDiscrepancy) (throughNo : Int)
    (balance : Numeric) (d d' : Database) : Prop where
  checkpoint : ∃ verifiedAt, d'.customerAccountLedgerVerified.rows =
    d.customerAccountLedgerVerified.rows ++ [⟨r.accountId, throughNo, balance, verifiedAt⟩]
  incident : ∃ resolvedAt, d'.customerAccountLedgerDiscrepancy.rows =
    d.customerAccountLedgerDiscrepancy.rows.map (Database.resolveRow i.discrepancyId r.sub resolvedAt)
  customer : d'.customer = d.customer
  account : d'.customerAccount = d.customerAccount
  history : d'.customerAccountHistory = d.customerAccountHistory
  ledger : d'.customerAccountLedger = d.customerAccountLedger

/-- A 204 has resolved the incident `i`; any other answer has changed nothing. -/
def Durable (r : ResolveRequest) (i : CustomerAccountLedgerDiscrepancy) (d : Database)
    (response : Response Database) : Prop :=
  if response.status = 204 then
    ∃ throughNo balance, r.Acceptable d i throughNo balance ∧
      r.Resolved i throughNo balance d response.committed
  else response.committed = d

variable {r : ResolveRequest} {d : Database} {i : CustomerAccountLedgerDiscrepancy}

theorem findOpen_mem (h : d.findOpenDiscrepancy r.accountId = some i) :
    i ∈ d.customerAccountLedgerDiscrepancy.rows ∧ i.accountId = r.accountId ∧ i.resolvedAt = none := by
  have hp := List.find?_some h
  simp only [decide_eq_true_eq] at hp
  exact ⟨List.mem_of_find?_eq_some h, hp⟩

/-- The checks pass for an acceptable request, and only for one. -/
theorem accept_cases (hi : d.findOpenDiscrepancy r.accountId = some i) :
    (∃ throughNo balance, r.accept d = .ok (i, throughNo, balance) ∧ r.Acceptable d i throughNo balance) ∨
      (∃ f, r.accept d = .error f) ∧ ∀ throughNo balance, ¬ r.Acceptable d i throughNo balance := by
  simp only [accept, hi]
  cases hn : r.throughNo i with
  | none =>
    refine .inr ⟨⟨_, rfl⟩, fun throughNo balance h => ?_⟩
    have := h.named
    rw [hn] at this
    cases this
  | some n =>
    have hnamed : ∀ {throughNo balance}, r.Acceptable d i throughNo balance → throughNo = n :=
      fun h => Option.some.inj (h.named.symm.trans hn)
    by_cases hpast : n ≤ anchorNo d r.accountId
    · refine .inr ⟨⟨_, if_pos hpast⟩, fun throughNo balance h => ?_⟩
      exact absurd h.past (hnamed h ▸ not_lt.mpr hpast)
    · by_cases hrange : 2 ^ 63 ≤ n
      · refine .inr ⟨⟨.outOfRange, by simp only [hpast, hrange, if_true, if_false]⟩, ?_⟩
        intro throughNo balance h
        exact absurd h.inRange (hnamed h ▸ not_lt.mpr hrange)
      · simp only [hpast, hrange, if_false]
        cases hb : d.findLedgerBalance r.accountId n with
        | none =>
          refine .inr ⟨⟨_, rfl⟩, fun throughNo balance h => ?_⟩
          have := h.stored
          rw [hnamed h, hb] at this
          cases this
        | some balance =>
          exact .inl ⟨n, balance, rfl, ⟨hn, not_le.mp hpast, not_le.mp hrange, hb⟩⟩

/-- An incident is found by its id. -/
theorem findDiscrepancy_of_mem (h : i ∈ d.customerAccountLedgerDiscrepancy.rows) :
    d.findDiscrepancy i.discrepancyId i.accountId = some i := by
  have hsymm : ∀ a b : CustomerAccountLedgerDiscrepancy, a.clash b → b.clash a := fun a b hab =>
    hab.imp Eq.symm fun ⟨h₁, h₂, h₃⟩ => ⟨h₁.symm, h₃, h₂⟩
  cases hf : d.findDiscrepancy i.discrepancyId i.accountId with
  | none =>
    have := List.find?_eq_none.mp hf i h
    simp at this
  | some j =>
    have hj := List.find?_some hf
    simp only [decide_eq_true_eq] at hj
    rw [Table.eq_of_clash hsymm (List.mem_of_find?_eq_some hf) h (.inl hj.1)]

/-- What the handler leaves in its sessions for a request it accepts. -/
theorem handle_ok {S : Type} [DecidableEq S] (P : Providers S) {throughNo : Int} {balance : Numeric}
    (hi : d.findOpenDiscrepancy r.accountId = some i) (h : r.accept d = .ok (i, throughNo, balance)) :
    r.handle P (.fresh d) = .ok
      (((Sessions.fresh d).write (P.resolve .getSession)
        fun d => d.addCheckpoint r.accountId throughNo balance r.verifiedAt).write (P.resolve .getSession)
        fun d => d.resolveDiscrepancy i.discrepancyId r.sub r.resolvedAt) := by
  have hfound : (d.addCheckpoint r.accountId throughNo balance r.verifiedAt).findDiscrepancy
      i.discrepancyId i.accountId = some i := findDiscrepancy_of_mem (findOpen_mem hi).1
  simp only [handle, Sessions.view_fresh, h, Sessions.view_write_self, hfound]

theorem handle_error {S : Type} [DecidableEq S] (P : Providers S) {f : ResolveFailure}
    (h : r.accept d = .error f) : r.handle P (.fresh d) = .error f := by
  simp only [handle, Sessions.view_fresh, h]

theorem ResolveFailure.status_ne (f : ResolveFailure) : f.status ≠ 204 := by
  cases f <;> simp [ResolveFailure.status]

/-- An open incident is not resolved by leaving everything as it is. -/
theorem not_resolved_self {throughNo : Int} {balance : Numeric}
    (hi : d.findOpenDiscrepancy r.accountId = some i) : ¬ r.Resolved i throughNo balance d d := by
  intro h
  obtain ⟨resolvedAt, hrows⟩ := h.incident
  obtain ⟨hmem, _, hopen⟩ := findOpen_mem hi
  -- the incident's row comes out resolved, and every row is its own image
  have hresolved : Database.resolveRow i.discrepancyId r.sub resolvedAt i = i :=
    List.map_inj_left.mp (hrows.symm.trans (List.map_id _).symm) i hmem
  rw [Database.resolveRow, if_pos rfl] at hresolved
  have := congrArg (·.resolvedAt) hresolved
  simp [hopen] at this

/-- **Resolving an incident is not durable**: under `fast_deps` the answer keeps its
promise exactly when the request cannot be accepted. -/
theorem resolve_durable_iff (r : ResolveRequest) (d : Database) (i : CustomerAccountLedgerDiscrepancy)
    (hi : d.findOpenDiscrepancy r.accountId = some i) :
    r.Durable i d (r.respond fastDeps d) ↔ ¬ ∃ throughNo balance, r.Acceptable d i throughNo balance := by
  rcases accept_cases hi with ⟨throughNo, balance, hok, hacceptable⟩ | ⟨⟨f, herror⟩, hnot⟩
  · have hresponse : r.respond fastDeps d = ⟨204, d⟩ := by
      rw [respond, handle_ok fastDeps hi hok]
      exact respond_getSession rfl rfl
    rw [hresponse, Durable, if_pos rfl]
    refine ⟨fun ⟨_, _, _, hresolved⟩ => absurd hresolved (not_resolved_self hi), fun h => ?_⟩
    exact absurd ⟨throughNo, balance, hacceptable⟩ h
  · have hresponse : r.respond fastDeps d = ⟨f.status, d⟩ := by
      rw [respond, handle_error fastDeps herror]
      rfl
    rw [hresponse, Durable, if_neg (ResolveFailure.status_ne f)]
    exact ⟨fun _ ⟨throughNo, balance, h⟩ => hnot throughNo balance h, fun _ => rfl⟩

/-- No checkpoint lies past the latest. -/
theorem not_conflicts_of_past {a : UUID} {throughNo : Int} (h : anchorNo d a < throughNo)
    (balance : Numeric) (now : Timestamp) :
    ¬ d.customerAccountLedgerVerified.conflicts ⟨a, throughNo, balance, now⟩ := by
  rintro ⟨c, hc, hca, hct⟩
  have hca : c.accountId = a := hca
  have hct : c.throughNo = throughNo := hct
  have hmem : c ∈ d.customerAccountLedgerVerified.rows.filter (·.accountId = a) :=
    List.mem_filter.mpr ⟨hc, decide_eq_true hca⟩
  cases hl : d.findLatestCheckpoint a with
  | none =>
    rw [Database.findLatestCheckpoint, head_orderBy_none] at hl
    rw [hl] at hmem
    cases hmem
  | some latest =>
    have hle : c.throughNo ≤ latest.throughNo := (head_orderBy_le hl).2 c hmem
    simp only [anchorNo, hl] at h
    omega

/-- With the one session of the tests every answer keeps its promise, so that no
test sees the difference. -/
theorem testClient_durable (r : ResolveRequest) (d : Database) (i : CustomerAccountLedgerDiscrepancy)
    (hi : d.findOpenDiscrepancy r.accountId = some i) : r.Durable i d (r.respond testClient d) := by
  rcases accept_cases hi with ⟨throughNo, balance, hok, hacceptable⟩ | ⟨⟨f, herror⟩, _⟩
  · rw [respond, handle_ok testClient hi hok, respond_testClient, Durable, if_pos rfl]
    refine ⟨throughNo, balance, hacceptable, ⟨r.verifiedAt, ?_⟩, ⟨r.resolvedAt, rfl⟩, rfl, rfl, rfl, rfl⟩
    rcases d.customerAccountLedgerVerified.insertOrIgnore_cases
      ⟨r.accountId, throughNo, balance, r.verifiedAt⟩ with ⟨hconflict, _⟩ | ⟨_, hrows⟩
    · exact absurd hconflict (not_conflicts_of_past hacceptable.past _ _)
    · exact hrows
  · rw [respond, handle_error testClient herror, Wiring.respond, Durable,
      if_neg (ResolveFailure.status_ne f)]

/-! ### An incident -/

/-- Row 2 is gone, and the verifier has said so. -/
def quarantined : Database :=
  { Verification.sampleLedger [Verification.sampleRow 1 .zero .zero 1,
      Verification.sampleRow 3 Verification.five Verification.five 3] (by decide) with
    customerAccountLedgerDiscrepancy :=
      ⟨[⟨1, 1, 3, .gap, 1, none, Verification.five, 7, none, none⟩], List.pairwise_singleton _ _⟩ }

/-- Accept the broken row, as the default is. -/
def acceptRow : ResolveRequest := ⟨1, ⟨none, fun _ h => nomatch h⟩, 9, 10, 11⟩

theorem acceptRow_lost : ∃ i, quarantined.findOpenDiscrepancy acceptRow.accountId = some i ∧
    (acceptRow.respond fastDeps quarantined).status = 204 ∧
    ¬ acceptRow.Durable i quarantined (acceptRow.respond fastDeps quarantined) := by
  refine ⟨_, rfl, by decide, fun h => ?_⟩
  rw [Durable, if_pos (by decide)] at h
  obtain ⟨_, _, _, hresolved⟩ := h
  have hsame : (acceptRow.respond fastDeps quarantined).committed = quarantined := by decide
  exact not_resolved_self rfl (hsame ▸ hresolved)

/-- A request up to a row that is not there. -/
def acceptMissing : ResolveRequest := ⟨1, ⟨some 2, by rintro _ ⟨⟩; decide⟩, 9, 10, 11⟩

theorem acceptMissing_durable : ∃ i, quarantined.findOpenDiscrepancy acceptMissing.accountId = some i ∧
    acceptMissing.Durable i quarantined (acceptMissing.respond fastDeps quarantined) := by
  refine ⟨_, rfl, (resolve_durable_iff acceptMissing quarantined _ rfl).mpr ?_⟩
  rintro ⟨throughNo, balance, hnamed, _, _, hstored⟩
  obtain rfl : 2 = throughNo := Option.some.inj hnamed
  exact absurd hstored (by decide +revert)

end ResolveRequest
end Statement.Wiring
