import Statement.Foundation.Audit
import Statement.Foundation.Versioned
import Statement.System.Service

/-! What the commits of a running service do to an account.

`Answer` is what a request that answers 204 leaves in the log of a history.
`CommitEffect` lists what a commit of any party can be for an account: nothing,
its creation, a request with no net change or one that moves its version on. -/
namespace Statement.System
open Domain Foundation Account

/-- A request that answered 204. -/
structure Answer where
  request : ChangeRequest
  /-- The row it read. -/
  loaded : CustomerAccount
  /-- When it flushed, if it had anything to write. -/
  flushedAt : Option Timestamp

namespace Answer

/-- Handling the request on its own. -/
def apply (c : Answer) (row : CustomerAccount) : CustomerAccount :=
  match c.flushedAt with
  | none => c.request.assign row
  | some now => { c.request.assign row with version := row.version + 1, updatedAt := now }

def changes (c : Answer) : Bool := c.flushedAt.isSome

/-- An account is versioned by its answers. -/
def versioned : Versioned CustomerAccount Answer where
  version row := row.version
  read c := c.loaded
  apply := apply
  changes := changes

end Answer

/-- What a request has read. -/
def loadedOf (c : Change) : Option CustomerAccount :=
  match c.phase with
  | .assigned loaded _ | .unchanged loaded | .updated loaded _ _ _ | .archived loaded _ _ _ => some loaded
  | .begun | .raised _ => none

/-- The answer of a request that commits. -/
def answerOf : Party → Option Answer
  | .change ⟨r, .unchanged loaded⟩ => some ⟨r, loaded, none⟩
  | .change ⟨r, .archived loaded _ _ now⟩ => some ⟨r, loaded, some now⟩
  | _ => none

abbrev History (T : Type) := Audit T Database Party Lock

/-- The answers of the requests on an account, in the order of their commits. -/
def answers {T : Type} (x : History T) (a : UUID) : List Answer :=
  (x.commits.filterMap answerOf).filter (·.loaded.id = a)

/-- The committed rows of an account, from the first. -/
def rows {T : Type} (x : History T) (a : UUID) : List CustomerAccount :=
  x.states.filterMap (·.findById a)

/-- Handling a request on the row it read is what its commit does to it. -/
theorem setColumns_loaded (r : ChangeRequest) (row : CustomerAccount) (now : Timestamp) :
    setColumns row { r.assign row with version := row.version + 1 } now row =
      (Answer.mk r row (some now)).apply row := by
  obtain ⟨hcustomer, hcurrency, hcreated, _⟩ := r.assign_kept row
  refine CustomerAccount.ext (r.assign_id row).symm hcustomer.symm hcurrency.symm ?_ ?_ hcreated.symm rfl
    ?_ rfl
  · exact ite_eq_right_iff.mpr Eq.symm
  · exact ite_eq_right_iff.mpr Eq.symm
  · exact ite_eq_right_iff.mpr Eq.symm

theorem answerOf_some {l : Party} {answer : Answer} (h : answerOf l = some answer) :
    ∃ c, l = .change c ∧ loadedOf c = some answer.loaded := by
  cases l with
  | change c =>
    obtain ⟨r, phase⟩ := c
    refine ⟨_, rfl, ?_⟩
    cases phase <;> cases h <;> rfl
  | create c => cases h
  | payment j => cases h
  | verify v => cases h

/-- A request reads a committed row, and once. -/
theorem loadedOf_statement {mac : VersionToken.Digest} {now : Timestamp} {d : Database} {c c' : Change}
    {ks : List Lock} {loaded : CustomerAccount} (hst : c.statement mac now d = some (ks, c'))
    (h : loadedOf c' = some loaded) : loadedOf c = some loaded ∨ d.findById loaded.id = some loaded := by
  obtain ⟨r, phase⟩ := c
  obtain ⟨r', phase'⟩ := c'
  obtain ⟨rfl, hstep⟩ := Change.statement_some mac hst
  cases hstep with
  | refused _ => cases h
  | read hlet =>
    cases h
    have hfound := (ChangeRequest.letThrough_ok.mp hlet).1
    exact .inr ((Database.findById_mem hfound).2 ▸ hfound)
  | kept _ => exact .inl h
  | stale _ _ => cases h
  | updated _ _ => exact .inl h
  | conflicting _ => cases h
  | archived _ => exact .inl h

/-! ### What a commit does to an account -/

inductive CommitEffect (mac : VersionToken.Digest) (a : UUID) (l : Party) (d d' : Database) : Prop where
  /-- Nothing: it is about something else. -/
  | other (hrow : d'.findById a = d.findById a) (hanswer : ∀ c, answerOf l = some c → c.loaded.id ≠ a)
  | created (row : CustomerAccount) (hanswer : answerOf l = none) (hnone : d.findById a = none)
      (hrow : d'.findById a = some row) (hversion : row.version = 1)
  /-- A request with no net change. -/
  | kept (c : Answer) (hanswer : answerOf l = some c) (hid : c.loaded.id = a)
      (hadmitted : Admitted mac c.request c.loaded) (hflushed : c.flushedAt = none)
      (happly : c.apply c.loaded = c.loaded) (hrow : d'.findById a = d.findById a)
  /-- A request that moves the version of the row on. -/
  | moved (c : Answer) (hanswer : answerOf l = some c) (hid : c.loaded.id = a)
      (hadmitted : Admitted mac c.request c.loaded) (hflushed : c.flushedAt.isSome = true)
      (hread : d.findById a = some c.loaded) (hrow : d'.findById a = some (c.apply c.loaded))

theorem change_effect {mac : VersionToken.Digest} {H : Set Lock} {d d' : Database} {c : Change}
    (h : ChangeHolds mac H d c) (hc : c.commit d = some d') (a : UUID) :
    CommitEffect mac a (.change c) d d' := by
  obtain ⟨r, phase⟩ := c
  rcases Change.commit_some hc with ⟨⟨loaded, hp⟩, rfl⟩ | ⟨loaded, current, history, now, t, hp, _, rfl⟩
  · cases hp
    obtain ⟨hadmitted, _, hsame⟩ := h
    by_cases ha : loaded.id = a
    · exact .kept ⟨r, loaded, none⟩ rfl ha hadmitted rfl hsame rfl
    · refine .other rfl fun c hc => ?_
      cases hc
      exact ha
  · cases hp
    obtain ⟨hmatched, _⟩ := h
    have hfind := change_committed hmatched a
    by_cases ha : loaded.id = a
    · refine .moved ⟨r, loaded, some now⟩ rfl ha hmatched.admitted rfl (ha ▸ hmatched.row) ?_
      rw [← setColumns_loaded, ← hmatched.current]
      exact hfind.trans (if_pos ha.symm)
    · refine .other (hfind.trans (if_neg (Ne.symm ha))) fun c hc => ?_
      cases hc
      exact ha

theorem create_effect {mac : VersionToken.Digest} {d d' : Database} {c : Create}
    (hc : c.commit d = some d') (a : UUID) : CommitEffect mac a (.create c) d d' := by
  obtain ⟨_, accounts, ledger, haccounts, _, rfl⟩ := Create.commit_some hc
  obtain ⟨hnone, hfind⟩ := @Database.findById_insert d
    { d with customerAccount := accounts, customerAccountLedger := ledger } _ haccounts a
  by_cases ha : c.request.entityId = a
  · exact .created c.request.account rfl (ha ▸ hnone) (hfind.trans (if_pos ha)) rfl
  · exact .other (hfind.trans (if_neg ha)) fun _ hanswer => by cases hanswer

theorem job_account {d d' : Database} {j : Payment.Job} (hc : j.commit d = some d') :
    d'.customerAccount = d.customerAccount := by
  rcases Payment.Job.commit_some hc with ⟨_, rfl⟩ | ⟨_, _, _, _, rfl⟩
  · rfl
  · rfl

theorem commit_effect {mac : VersionToken.Digest} {E : Set Payment.PaymentMessage} {H : Set Lock}
    {d d' : Database} {l : Party} (h : PartyHolds mac E H d l) (hc : l.commit d = some d') (a : UUID) :
    CommitEffect mac a l d d' := by
  cases l with
  | change c => exact change_effect h hc a
  | create c => exact create_effect hc a
  | payment j =>
    exact .other (Database.findById_congr (job_account hc) a) fun _ hanswer => nomatch hanswer
  | verify v =>
    have honly := (verifier_committed h hc).1
    exact .other (Database.findById_congr honly.account a) fun _ hanswer => nomatch hanswer

end Statement.System
