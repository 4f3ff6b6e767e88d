import Statement.Account.ChangeRun
import Statement.Wiring.Request

/-! Updating and deleting an account, as the two handlers are wired.

The account is loaded through the repository, on the `get_session` session; the
handler adds it to the `get_tx_session` session, flushes that and lets it commit.
A session refuses an instance that another open session holds, so under
`fast_deps` no request that passes the checks gets further than `session.add`. -/
namespace Statement.Wiring
open Domain Foundation Account

/-- The `INSERT` of an archived version whose key the flush has found free. -/
def archiveAccount (history : CustomerAccountHistory) (d : Database) : Database :=
  { d with customerAccountHistory := d.customerAccountHistory.insertOrIgnore history }

theorem archiveAccount_findById (history : CustomerAccountHistory) (d : Database) (a : UUID) :
    (archiveAccount history d).findById a = d.findById a := Database.findById_congr rfl a

section
variable {S : Type} [DecidableEq S] (P : Providers S) (mac : VersionToken.Digest) (now : Timestamp)

/-- `session.flush()` with one dirty account. -/
def flushAccount (session : S) (loaded current : CustomerAccount) (x : Sessions S Database) :
    Except ChangeFailure (Sessions S Database) :=
  match createVersion loaded current now with
  | none => .ok x
  | some (history, bumped) =>
    if ∃ row ∈ (x.view session).customerAccount.rows, matched loaded row then
      if (x.view session).customerAccountHistory.conflicts history then .error .integrityError
      else .ok ((x.write session fun d => d.updateAccount loaded bumped now).write session
        (archiveAccount history))
    else .error .staleData

/-- `updated_customer_account` and `delete_customer_account`. -/
def handleChange (r : ChangeRequest) (x : Sessions S Database) :
    Except ChangeFailure (Sessions S Database) :=
  let repo := P.resolve .getSession
  let session := P.resolve .getTxSession
  match r.letThrough mac ((x.view repo).findById r.accountId) with
  | .error f => .error f
  | .ok account =>
    -- `session.add` of an instance that the repository's session holds
    if session ≠ repo then .error .alreadyAttached
    else flushAccount now session account (r.assign account) x

def respondChange (r : ChangeRequest) (d : Database) : Response Database :=
  respond P 204 ChangeFailure.status d (handleChange P mac now r (.fresh d))

end

/-! ### What a request promises -/

/-- The caller asks for a row that is there, under its current version's token. -/
structure Entitled (mac : VersionToken.Digest) (r : ChangeRequest) (d : Database)
    (row : CustomerAccount) : Prop where
  stored : d.findById r.accountId = some row
  notDeleted : row.status ≠ .deleted
  current : r.version = VersionToken.issue mac row.id row.version

def requestedName (r : ChangeRequest) (row : CustomerAccount) : Option String :=
  match r.action with
  | .patch body => body.name.or row.name
  | .delete _ _ => row.name

def requestedStatus (r : ChangeRequest) (row : CustomerAccount) : CustomerAccountStatus :=
  match r.action with
  | .patch body => body.status.getD row.status
  | .delete _ _ => .deleted

/-- `row'` is `row` with what was asked for, by the caller. -/
structure Applied (r : ChangeRequest) (row row' : CustomerAccount) : Prop where
  name : row'.name = requestedName r row
  status : row'.status = requestedStatus r row
  updatedBy : row'.updatedBy = r.sub
  id : row'.id = row.id
  customerId : row'.customerId = row.customerId
  currency : row'.currency = row.currency
  createdAt : row'.createdAt = row.createdAt

/-- An entitled request is applied; any answer but 204 leaves row and history. -/
def Effective (mac : VersionToken.Digest) (r : ChangeRequest) (d : Database)
    (response : Response Database) : Prop :=
  (∀ row, Entitled mac r d row → response.status = 204 ∧
    ∃ row', response.committed.findById r.accountId = some row' ∧ Applied r row row') ∧
  (response.status ≠ 204 → response.committed.findById r.accountId = d.findById r.accountId ∧
    response.committed.customerAccountHistory = d.customerAccountHistory)

section
variable {mac : VersionToken.Digest} {r : ChangeRequest} {d : Database} {row : CustomerAccount}

/-- The checks let exactly the entitled requests through. -/
theorem letThrough_entitled : r.letThrough mac (d.findById r.accountId) = .ok row ↔ Entitled mac r d row := by
  rw [ChangeRequest.letThrough_ok]
  constructor
  · rintro ⟨hfound, hstatus, hverify⟩
    exact ⟨hfound, hstatus, VersionToken.verify_true mac hverify⟩
  · rintro ⟨hfound, hstatus, hcurrent⟩
    refine ⟨hfound, hstatus, ?_⟩
    rw [hcurrent]
    exact VersionToken.verify_issue mac row.id row.version

theorem ChangeFailure.status_ne (f : ChangeFailure) : f.status ≠ 204 := by
  cases f <;> decide

/-- What is assigned is what was asked for. -/
theorem assign_applied (r : ChangeRequest) (row : CustomerAccount) : Applied r row (r.assign row) := by
  obtain ⟨accountId, action, sub⟩ := r
  cases action with
  | patch body =>
    refine ⟨?_, ?_, rfl, rfl, rfl, rfl, rfl⟩
    · simp only [ChangeRequest.assign, requestedName]
      cases body.name <;> rfl
    · simp only [ChangeRequest.assign, requestedStatus]
      cases body.status <;> rfl
  | delete version h => exact ⟨rfl, rfl, rfl, rfl, rfl, rfl, rfl⟩

/-- **No update takes effect**: under `fast_deps` a request keeps its promise
exactly when it is not entitled to a change. -/
theorem change_effective_iff (mac : VersionToken.Digest) (now : Timestamp) (r : ChangeRequest)
    (d : Database) :
    Effective mac r d (respondChange fastDeps mac now r d) ↔ ¬ ∃ row, Entitled mac r d row := by
  have herror : ∃ f, handleChange fastDeps mac now r (.fresh d) = .error f := by
    simp only [handleChange, Sessions.view_fresh]
    cases hlet : r.letThrough mac (d.findById r.accountId) with
    | error f => exact ⟨f, rfl⟩
    | ok account => exact ⟨.alreadyAttached, if_pos (by decide)⟩
  obtain ⟨f, hf⟩ := herror
  have hresponse : respondChange fastDeps mac now r d = ⟨f.status, d⟩ := by
    rw [respondChange, hf, respond]
  rw [hresponse]
  constructor
  · rintro ⟨happlied, _⟩ ⟨row, hrow⟩
    exact ChangeFailure.status_ne f (happlied row hrow).1
  · intro hnone
    exact ⟨fun row hrow => absurd ⟨row, hrow⟩ hnone, fun _ => ⟨rfl, rfl⟩⟩

/-! ### One session -/

theorem flushAccount_fresh (now : Timestamp) (loaded current : CustomerAccount) (d : Database) :
    flushAccount now () loaded current (.fresh d) =
      match createVersion loaded current now with
      | none => .ok (.fresh d)
      | some (history, bumped) =>
        if ∃ row ∈ d.customerAccount.rows, matched loaded row then
          if d.customerAccountHistory.conflicts history then .error .integrityError
          else .ok (((Sessions.fresh d).write () fun d => d.updateAccount loaded bumped now).write ()
            (archiveAccount history))
        else .error .staleData := rfl

theorem handleChange_testClient_ok (now : Timestamp)
    (h : r.letThrough mac (d.findById r.accountId) = .ok row) :
    handleChange testClient mac now r (.fresh d) =
      flushAccount now () row (r.assign row) (.fresh d) := by
  simp only [handleChange, Sessions.view_fresh, h, ne_eq, not_true, if_false]

/-- `Change` is the handler on one session: run alone it raises what the handler
raises, and commits what the session sees when the handler returns. -/
theorem handleChange_testClient (mac : VersionToken.Digest) (now : Timestamp) (r : ChangeRequest)
    (d : Database) :
    ∃ c : Change, Relation.ReflTransGen (fun c c' => ∃ ks, c.statement mac now d = some (ks, c'))
        ⟨r, .begun⟩ c ∧
      match handleChange testClient mac now r (.fresh d) with
      | .error f => c.phase = .raised f
      | .ok x => c.commit d = some (x.view ()) := by
  cases hlet : r.letThrough mac (d.findById r.accountId) with
  | error f =>
    refine ⟨⟨r, .raised f⟩, .single ⟨[], by simp only [Change.statement, hlet]⟩, ?_⟩
    simp only [handleChange, Sessions.view_fresh, hlet]
  | ok loaded =>
    have hassigned : Relation.ReflTransGen
        (fun c c' : Change => ∃ ks, c.statement mac now d = some (ks, c')) ⟨r, .begun⟩
        ⟨r, .assigned loaded (r.assign loaded)⟩ := .single ⟨[], by simp only [Change.statement, hlet]⟩
    rw [handleChange_testClient_ok now hlet, flushAccount_fresh]
    cases hversion : createVersion loaded (r.assign loaded) now with
    | none =>
      refine ⟨⟨r, .unchanged loaded⟩, hassigned.tail ⟨[], ?_⟩, rfl⟩
      simp only [Change.statement, hversion]
    | some archived =>
      obtain ⟨history, bumped⟩ := archived
      simp only
      by_cases hmatch : ∃ row ∈ d.customerAccount.rows, matched loaded row
      · have hupdated := hassigned.tail (c := ⟨r, .updated loaded bumped history now⟩)
          ⟨[.accountRow loaded.id], by simp only [Change.statement, hversion, if_pos hmatch]⟩
        rw [if_pos hmatch]
        by_cases hconflict : d.customerAccountHistory.conflicts history
        · refine ⟨⟨r, .raised .integrityError⟩, hupdated.tail ⟨[], ?_⟩, by rw [if_pos hconflict]⟩
          simp only [Change.statement, if_pos hconflict]
        · refine ⟨⟨r, .archived loaded bumped history now⟩,
            hupdated.tail ⟨[.historyKey loaded.id loaded.version], ?_⟩, ?_⟩
          · simp only [Change.statement, if_neg hconflict]
          · have hfree : ¬ (d.updateAccount loaded bumped now).customerAccountHistory.conflicts history :=
              hconflict
            obtain ⟨t, ht, _⟩ := Table.insert_of_free hfree
            rw [if_neg hconflict]
            simp [Change.commit, archiveAccount, Table.insertOrIgnore, ht]
      · refine ⟨⟨r, .raised .staleData⟩, hassigned.tail ⟨[], ?_⟩, by rw [if_neg hmatch]⟩
        simp only [Change.statement, hversion, if_neg hmatch]

/-- On the row that was loaded an update sets what was assigned. -/
theorem setColumns_applied (r : ChangeRequest) (row : CustomerAccount) (version : Nat) (now : Timestamp) :
    Applied r row (setColumns row { r.assign row with version } now row) := by
  have h := assign_applied r row
  refine ⟨?_, ?_, ?_, rfl, rfl, rfl, rfl⟩
  · rw [← h.name]
    exact ite_eq_right_iff.mpr Eq.symm
  · rw [← h.status]
    exact ite_eq_right_iff.mpr Eq.symm
  · rw [← h.updatedBy]
    exact ite_eq_right_iff.mpr Eq.symm

/-- The two ways in which the one session of the tests answers an entitled request. -/
theorem respondChange_testClient {now : Timestamp} (h : Entitled mac r d row)
    (hfree : ¬ d.customerAccountHistory.conflicts ⟨row, now⟩) :
    respondChange testClient mac now r d = ⟨204, if r.assign row = row then d else
      archiveAccount ⟨row, now⟩
        (d.updateAccount row { r.assign row with version := row.version + 1 } now)⟩ := by
  have hmatch : ∃ x ∈ d.customerAccount.rows, matched row x :=
    ⟨row, (Database.findById_mem h.stored).1, rfl, rfl⟩
  rw [respondChange, handleChange_testClient_ok now (letThrough_entitled.mpr h), flushAccount_fresh,
    createVersion_eq row (r.assign row) now (r.assign_version row)]
  by_cases hsame : r.assign row = row
  · rw [if_pos hsame, if_pos hsame]
    exact respond_testClient _
  · rw [if_neg hsame, if_neg hsame]
    simp only [if_pos hmatch, if_neg hfree]
    rw [respond_testClient, Sessions.view_write_self, Sessions.view_write_self, Sessions.view_fresh]

/-- With the one session of the tests every request keeps its promise, as long as
the history has no row of a version yet to be archived. -/
theorem testClient_effective (mac : VersionToken.Digest) (now : Timestamp) (r : ChangeRequest)
    (d : Database) (hhistory : ∀ row ∈ d.customerAccount.rows, ∀ archived ∈ d.customerAccountHistory.rows,
      archived.account.id = row.id → archived.account.version ≠ row.version) :
    Effective mac r d (respondChange testClient mac now r d) := by
  cases hlet : r.letThrough mac (d.findById r.accountId) with
  | error f =>
    have hresponse : respondChange testClient mac now r d = ⟨f.status, d⟩ := by
      simp only [respondChange, handleChange, Sessions.view_fresh, hlet, respond]
    rw [hresponse]
    refine ⟨fun row hrow => ?_, fun _ => ⟨rfl, rfl⟩⟩
    rw [letThrough_entitled.mpr hrow] at hlet
    cases hlet
  | ok row =>
    have hrow := letThrough_entitled.mp hlet
    have hfree : ¬ d.customerAccountHistory.conflicts ⟨row, now⟩ := by
      rintro ⟨archived, ha, haid, hav⟩
      exact hhistory row (Database.findById_mem hrow.stored).1 archived ha haid hav
    rw [respondChange_testClient hrow hfree]
    refine ⟨fun row' hrow' => ⟨rfl, ?_⟩, fun hne => absurd rfl hne⟩
    obtain rfl : row' = row := Option.some.inj (hrow'.stored.symm.trans hrow.stored)
    by_cases hsame : r.assign row' = row'
    · have happlied := assign_applied r row'
      rw [hsame] at happlied
      exact ⟨row', by rw [if_pos hsame]; exact hrow.stored, happlied⟩
    · refine ⟨_, ?_, setColumns_applied r row' (row'.version + 1) now⟩
      rw [if_neg hsame]
      show (archiveAccount _ _).findById _ = _
      rw [archiveAccount_findById, Database.findById_updateAccount, hrow.stored, Option.map_some,
        updateRow_loaded]

/-! ### A request -/

def sampleMac : VersionToken.Digest := fun _ => 0

/-- One account, at its first version. -/
def oneAccount : Database :=
  { Database.empty .empty with
    customerAccount := ⟨[.create 1 2 .eur (some "main") 3 0], List.pairwise_singleton _ _⟩ }

/-- A caller who has just read the account renames it. -/
def rename : ChangeRequest :=
  ⟨1, .patch .renamed, 9⟩

theorem rename_refused : (respondChange fastDeps sampleMac 5 rename oneAccount).status = 500 ∧
    ¬ Effective sampleMac rename oneAccount (respondChange fastDeps sampleMac 5 rename oneAccount) := by
  have hentitled : Entitled sampleMac rename oneAccount (.create 1 2 .eur (some "main") 3 0) :=
    ⟨rfl, by decide, rfl⟩
  have hstatus : (respondChange fastDeps sampleMac 5 rename oneAccount).status = 500 := by decide
  refine ⟨hstatus, fun h => ?_⟩
  have hdone := (h.1 _ hentitled).1
  rw [hstatus] at hdone
  exact absurd hdone (by decide)

end
end Statement.Wiring
