import Statement.Account.Change

/-! An update or a delete, one statement at a time, on one session that commits.

The handler reads the account, checks and assigns; the flush then issues the
versioned `UPDATE` and the `INSERT` of the archived version. A flush with no net
change issues nothing and so checks no version. -/
namespace Statement.Account
open Domain VersionToken

inductive ChangePhase where
  | begun
  /-- Read, admitted and assigned: what was loaded and what it became. -/
  | assigned (loaded current : CustomerAccount)
  /-- The flush had nothing to write. -/
  | unchanged (loaded : CustomerAccount)
  /-- The versioned update matched its row. -/
  | updated (loaded current : CustomerAccount) (history : CustomerAccountHistory) (now : Timestamp)
  /-- The archived version is inserted too. -/
  | archived (loaded current : CustomerAccount) (history : CustomerAccountHistory) (now : Timestamp)
  | raised (f : ChangeFailure)

structure Change where
  request : ChangeRequest
  phase : ChangePhase

namespace Change
variable (mac : Digest)

def statement (now : Timestamp) (d : Database) : Change → Option (List Lock × Change)
  | ⟨r, .begun⟩ =>
    match r.letThrough mac (d.findById r.accountId) with
    | .error f => some ([], ⟨r, .raised f⟩)
    | .ok account => some ([], ⟨r, .assigned account (r.assign account)⟩)
  | ⟨r, .assigned loaded current⟩ =>
    match createVersion loaded current now with
    | none => some ([], ⟨r, .unchanged loaded⟩)
    | some (history, bumped) =>
      if ∃ row ∈ d.customerAccount.rows, matched loaded row then
        some ([.accountRow loaded.id], ⟨r, .updated loaded bumped history now⟩)
      else some ([], ⟨r, .raised .staleData⟩)
  | ⟨r, .updated loaded current history at_⟩ =>
    if d.customerAccountHistory.conflicts history then some ([], ⟨r, .raised .integrityError⟩)
    else some ([.historyKey loaded.id loaded.version], ⟨r, .archived loaded current history at_⟩)
  | _ => none

/-- What a statement does: the locks it takes and the phase it leaves. -/
inductive Advances (now : Timestamp) (d : Database) (r : ChangeRequest) :
    ChangePhase → List Lock → ChangePhase → Prop where
  | refused {f : ChangeFailure} (hlet : r.letThrough mac (d.findById r.accountId) = .error f) :
      Advances now d r .begun [] (.raised f)
  | read {account : CustomerAccount} (hlet : r.letThrough mac (d.findById r.accountId) = .ok account) :
      Advances now d r .begun [] (.assigned account (r.assign account))
  | kept {loaded current : CustomerAccount} (hsame : createVersion loaded current now = none) :
      Advances now d r (.assigned loaded current) [] (.unchanged loaded)
  | stale {loaded current : CustomerAccount} (hchanged : createVersion loaded current now ≠ none)
      (hgone : ¬ ∃ row ∈ d.customerAccount.rows, matched loaded row) :
      Advances now d r (.assigned loaded current) [] (.raised .staleData)
  | updated {loaded current bumped : CustomerAccount} {history : CustomerAccountHistory}
      (hversion : createVersion loaded current now = some (history, bumped))
      (hmatched : ∃ row ∈ d.customerAccount.rows, matched loaded row) :
      Advances now d r (.assigned loaded current) [.accountRow loaded.id] (.updated loaded bumped history now)
  | conflicting {loaded current : CustomerAccount} {history : CustomerAccountHistory} {at_ : Timestamp}
      (htaken : d.customerAccountHistory.conflicts history) :
      Advances now d r (.updated loaded current history at_) [] (.raised .integrityError)
  | archived {loaded current : CustomerAccount} {history : CustomerAccountHistory} {at_ : Timestamp}
      (hfree : ¬ d.customerAccountHistory.conflicts history) :
      Advances now d r (.updated loaded current history at_) [.historyKey loaded.id loaded.version]
        (.archived loaded current history at_)

theorem statement_some {now : Timestamp} {d : Database} {r r' : ChangeRequest} {p p' : ChangePhase}
    {ks : List Lock} (h : statement mac now d ⟨r, p⟩ = some (ks, ⟨r', p'⟩)) :
    r' = r ∧ Advances mac now d r p ks p' := by
  cases p with
  | begun =>
    simp only [statement] at h
    split at h
    · rename_i hlet
      cases h
      exact ⟨rfl, .refused hlet⟩
    · rename_i hlet
      cases h
      exact ⟨rfl, .read hlet⟩
  | assigned loaded current =>
    simp only [statement] at h
    split at h
    · rename_i hsame
      cases h
      exact ⟨rfl, .kept hsame⟩
    · rename_i hversion
      split at h
      · rename_i hmatched
        cases h
        exact ⟨rfl, .updated hversion hmatched⟩
      · rename_i hgone
        cases h
        exact ⟨rfl, .stale (by simp [hversion]) hgone⟩
  | updated loaded current history at_ =>
    simp only [statement] at h
    split at h
    · rename_i htaken
      cases h
      exact ⟨rfl, .conflicting htaken⟩
    · rename_i hfree
      cases h
      exact ⟨rfl, .archived hfree⟩
  | unchanged loaded => cases h
  | archived loaded current history at_ => cases h
  | raised f => cases h

def commit (d : Database) : Change → Option Database
  | ⟨_, .unchanged _⟩ => some d
  | ⟨_, .archived loaded current history at_⟩ => do
    let d := d.updateAccount loaded current at_
    let t ← d.customerAccountHistory.insert history
    some { d with customerAccountHistory := t }
  | _ => none

/-- A change that had nothing to write commits nothing; one that had archives what
it has loaded. -/
theorem commit_some {d d' : Database} {c : Change} (h : c.commit d = some d') :
    ((∃ loaded, c.phase = .unchanged loaded) ∧ d' = d) ∨
      ∃ loaded current history now t, c.phase = .archived loaded current history now ∧
        d.customerAccountHistory.insert history = some t ∧
        d' = { d.updateAccount loaded current now with customerAccountHistory := t } := by
  obtain ⟨r, phase⟩ := c
  cases phase with
  | unchanged loaded =>
    cases h
    exact .inl ⟨⟨loaded, rfl⟩, rfl⟩
  | archived loaded current history now =>
    simp only [commit, Option.bind_eq_bind, Option.bind_eq_some_iff, Option.some.injEq] at h
    obtain ⟨t, ht, hd'⟩ := h
    exact .inr ⟨loaded, current, history, now, t, rfl, ht, hd'.symm⟩
  | begun => cases h
  | assigned loaded current => cases h
  | updated loaded current history now => cases h
  | raised f => cases h

end Change
end Statement.Account
