import Statement.Auth.TokenVerifier
import Statement.Wiring.Attestation

/-! What an operator is shown of an incident, and what a resolve request makes of it.

The display is put together from two statements. Nothing but an accepted request whose
session commits changes what either of them reads of an account with an open incident:
until then every display of it is the same, and with the rows that are stored it tells
the answer to any request. Where the repository's session does not commit, that is for
ever. -/
namespace Statement.Wiring
open Domain Foundation Verification Auth

/-- `LedgerDiscrepancyDisplay`. -/
structure LedgerDiscrepancyDisplay where
  id : UUID
  no : Int
  kind : LedgerDiscrepancyKind
  prevNo : Int
  expectedBalance : Option Numeric
  actualBalance : Numeric
  detectedAt : Timestamp
  verifiedThroughNo : Int
  deriving DecidableEq

/-- `get_customer_account_ledger_discrepancy`. The second statement finds `d'`, where the
first has found `d`. -/
def getCustomerAccountLedgerDiscrepancy (d d' : Database) (accountId : UUID) :
    Except HttpError LedgerDiscrepancyDisplay :=
  match d.findOpenDiscrepancy accountId with
  | none => .error ⟨404, "No open ledger discrepancy for this account"⟩
  | some discrepancy =>
    .ok { id := discrepancy.accountId, no := discrepancy.no, kind := discrepancy.kind
          prevNo := discrepancy.prevNo, expectedBalance := discrepancy.expectedBalance
          actualBalance := discrepancy.actualBalance, detectedAt := discrepancy.detectedAt
          verifiedThroughNo := ResolveRequest.anchorNo d' accountId }

/-- The `detail` of a refusal. -/
def ResolveFailure.detail : ResolveFailure → String
  | .noOpenDiscrepancy => "No open ledger discrepancy for this account"
  | .throughNoRequired => "through_no is required for an anchor_balance discrepancy: " ++
      "the break is on the row that is already checkpointed"
  | .notPastAnchor anchorNo => "through_no must be greater than " ++ toString anchorNo
  | .noLedgerRow throughNo => "No ledger row " ++ toString throughNo ++ " for this account"
  | .outOfRange | .noResultFound => "Internal Server Error"

def ResolveFailure.http (f : ResolveFailure) : HttpError := ⟨f.status, f.detail⟩

section
variable {S : Type} [DecidableEq S] (P : Providers S)

/-- What the client of a resolve request gets. -/
def ResolveRequest.answer (r : ResolveRequest) (d : Database) : Except HttpError Unit :=
  match r.handle P (.fresh d) with
  | .error f => .error f.http
  | .ok _ => .ok ()

/-- A step with the requests wired as `P`. -/
def QuarantineStep.nextUnder (d : Database) : QuarantineStep → Option Database
  | .verify run => QuarantineStep.next d (.verify run)
  | .resolve r => some (r.respond P d).committed
  | .append row => QuarantineStep.next d (.append row)

/-- From one database to another, with no request on the account accepted for good. -/
inductive Meanwhile (a : UUID) (d : Database) : Database → Prop
  | refl : Meanwhile a d d
  | step {d₁ d₂ : Database} (h : Meanwhile a d d₁) (step : QuarantineStep)
      (hstep : step.nextUnder P d₁ = some d₂)
      (hlifts : ∀ r, step = .resolve r → r.accountId = a → P.commits (P.resolve .getSession) = true →
        (r.respond P d₁).status ≠ 204) : Meanwhile a d d₂

end

/-- The answer to a request for `throughNo`, told from the display and from which rows
are stored. -/
def LedgerDiscrepancyDisplay.verdict (s : LedgerDiscrepancyDisplay) (stored : Int → Prop) [DecidablePred stored]
    (throughNo : Option Int) : Except HttpError Unit :=
  match throughNo.or (if s.kind = .anchorBalance then none else some s.no) with
  | none => .error (ResolveFailure.throughNoRequired).http
  | some n =>
    if n ≤ s.verifiedThroughNo then .error (ResolveFailure.notPastAnchor s.verifiedThroughNo).http
    else if 2 ^ 63 ≤ n then .error ResolveFailure.outOfRange.http
    else if stored n then .ok ()
    else .error (ResolveFailure.noLedgerRow n).http

/-- Is there a ledger row of the number? -/
def HasLedgerRow (d : Database) (a : UUID) (n : Int) : Prop := ∃ r ∈ d.ledgerOf a, r.no = n

instance HasLedgerRow.decidable (d : Database) (a : UUID) : DecidablePred (HasLedgerRow d a) := fun n =>
  inferInstanceAs (Decidable (∃ r ∈ d.ledgerOf a, r.no = n))

/-! ### One request -/

section
variable {S : Type} [DecidableEq S] {P : Providers S} {r : ResolveRequest} {d d' : Database}
  {i : CustomerAccountLedgerDiscrepancy}

theorem answer_error {f : ResolveFailure} (h : r.accept d = .error f) : r.answer P d = .error f.http := by
  rw [ResolveRequest.answer, ResolveRequest.handle_error P h]

theorem answer_ok (hi : d.findOpenDiscrepancy r.accountId = some i) {throughNo : Int} {balance : Numeric}
    (h : r.accept d = .ok (i, throughNo, balance)) : r.answer P d = .ok () := by
  rw [ResolveRequest.answer, ResolveRequest.handle_ok P hi h]

/-- A refused request leaves everything, and an accepted one too unless the
repository's session commits. -/
theorem respond_kept (P : Providers S) (r : ResolveRequest) (d : Database) :
    (r.respond P d).committed = d ∨ P.commits (P.resolve .getSession) = true ∧ (r.respond P d).status = 204 ∧
      ∃ i throughNo balance, d.findOpenDiscrepancy r.accountId = some i ∧
        (r.respond P d).committed = r.accepted i throughNo balance d := by
  cases haccept : r.accept d with
  | error f =>
    apply Or.inl
    rw [ResolveRequest.respond, ResolveRequest.handle_error P haccept]
    rfl
  | ok x =>
    cases hi : d.findOpenDiscrepancy r.accountId with
    | none =>
      rw [ResolveRequest.accept, hi] at haccept
      cases haccept
    | some i =>
      rcases ResolveRequest.accept_cases hi with ⟨throughNo, balance, hok, _⟩ | ⟨⟨f, herror⟩, _⟩
      · rw [ResolveRequest.respond, ResolveRequest.handle_ok P hi hok]
        simp only [respond]
        let x : Sessions S Database := ((Sessions.fresh d).write (P.resolve .getSession)
          fun d => d.addCheckpoint r.accountId throughNo balance r.verifiedAt).write (P.resolve .getSession)
          fun d => d.resolveDiscrepancy i.discrepancyId r.sub r.resolvedAt
        have honly : ∀ u, u ≠ P.resolve .getSession → x.pending u = [] := by
          intro u hu
          simp [x, Sessions.write, Sessions.fresh, hu]
        rcases @Sessions.close_of_only S Database _ P.commits x _ P.exits honly with hkept | ⟨hcommits, hview⟩
        · exact .inl hkept
        · refine .inr ⟨hcommits, trivial, i, throughNo, balance, rfl, ?_⟩
          show (x.close P.commits P.exits).committed = _
          rw [hview, Sessions.view_write_self, Sessions.view_write_self]
          rfl
      · rw [haccept] at herror
        cases herror

/-- The handler goes by what is shown. -/
theorem answer_verdict {s : LedgerDiscrepancyDisplay}
    (hs : getCustomerAccountLedgerDiscrepancy d d r.accountId = .ok s) :
    r.answer P d = s.verdict (HasLedgerRow d r.accountId) r.resolution.throughNo := by
  unfold getCustomerAccountLedgerDiscrepancy at hs
  split at hs
  · cases hs
  · rename_i i hi
    cases hs
    have hchosen : r.throughNo i =
        r.resolution.throughNo.or (if i.kind = .anchorBalance then none else some i.no) := by
      unfold ResolveRequest.throughNo
      cases r.resolution.throughNo <;> rfl
    simp only [LedgerDiscrepancyDisplay.verdict, ← hchosen]
    cases hn : r.throughNo i with
    | none => exact answer_error (by simp only [ResolveRequest.accept, hi, hn])
    | some n =>
      show r.answer P d = if n ≤ ResolveRequest.anchorNo d r.accountId then _ else _
      split
      · rename_i hpast
        exact answer_error (by simp only [ResolveRequest.accept, hi, hn, hpast, if_true])
      · rename_i hpast
        split
        · rename_i hrange
          exact answer_error (by simp only [ResolveRequest.accept, hi, hn, hpast, hrange, if_true, if_false])
        · rename_i hrange
          cases hb : d.findLedgerBalance r.accountId n with
          | none =>
            have hmissing : ¬ HasLedgerRow d r.accountId n := by
              intro hstored
              obtain ⟨balance, hbalance⟩ := Database.findLedgerBalance_isSome.mpr hstored
              rw [hb] at hbalance
              cases hbalance
            rw [if_neg hmissing]
            exact answer_error (by simp only [ResolveRequest.accept, hi, hn, hpast, hrange, hb, if_false])
          | some balance =>
            have hstored : HasLedgerRow d r.accountId n := Database.findLedgerBalance_isSome.mp ⟨balance, hb⟩
            have haccept : r.accept d = .ok (i, n, balance) := by
              simp only [ResolveRequest.accept, hi, hn, hpast, hrange, hb, if_false]
            rw [if_pos hstored]
            exact answer_ok hi haccept

end

/-! ### Until an incident is lifted -/

section
variable {S : Type} [DecidableEq S] {P : Providers S} {a : UUID} {d d' : Database}

/-- What one step keeps. -/
theorem nextUnder_sameRows (hopen : d.findOpenDiscrepancy a ≠ none) {step : QuarantineStep}
    (hstep : step.nextUnder P d = some d')
    (hlifts : ∀ r, step = .resolve r → r.accountId = a → P.commits (P.resolve .getSession) = true →
      (r.respond P d).status ≠ 204) : SameRows a d d' := by
  cases step with
  | verify run =>
    simp only [QuarantineStep.nextUnder, QuarantineStep.next] at hstep
    split at hstep
    · rename_i hscan
      cases hstep
      exact rerun_sameRows hscan hopen
    · cases hstep
  | resolve r =>
    cases hstep
    rcases respond_kept P r d with hkept | ⟨hcommits, hstatus, i, throughNo, balance, hi, haccepted⟩
    · rw [hkept]
      exact ⟨rfl, rfl⟩
    · rw [haccepted]
      apply accepted_sameRows hi
      intro ha
      exact hlifts r rfl ha.symm hcommits hstatus
  | append row =>
    simp only [QuarantineStep.nextUnder, QuarantineStep.next] at hstep
    split at hstep
    · obtain ⟨ledger, _, rfl⟩ := Option.map_eq_some_iff.mp hstep
      exact ⟨rfl, rfl⟩
    · cases hstep

theorem Meanwhile.sameRows (h : Meanwhile P a d d') (hopen : d.findOpenDiscrepancy a ≠ none) :
    SameRows a d d' := by
  induction h with
  | refl => exact ⟨rfl, rfl⟩
  | step _ step hstep hlifts ih =>
    apply ih.trans
    apply nextUnder_sameRows _ hstep hlifts
    rw [ih.findOpenDiscrepancy]
    exact hopen

theorem anchorNo_sameRows (h : SameRows a d d') :
    ResolveRequest.anchorNo d' a = ResolveRequest.anchorNo d a := by
  rw [ResolveRequest.anchorNo, ResolveRequest.anchorNo, h.findLatestCheckpoint]

theorem display_sameRows {d₀ : Database} {s : LedgerDiscrepancyDisplay}
    (hs : getCustomerAccountLedgerDiscrepancy d₀ d a = .ok s) {d₁ d₂ : Database} (h₁ : SameRows a d₀ d₁)
    (h₂ : SameRows a d d₂) : getCustomerAccountLedgerDiscrepancy d₁ d₂ a = .ok s := by
  rw [getCustomerAccountLedgerDiscrepancy, h₁.findOpenDiscrepancy, anchorNo_sameRows h₂]
  exact hs

theorem display_open {d₀ : Database} {s : LedgerDiscrepancyDisplay}
    (hs : getCustomerAccountLedgerDiscrepancy d₀ d a = .ok s) : d₀.findOpenDiscrepancy a ≠ none := by
  intro hnone
  rw [getCustomerAccountLedgerDiscrepancy, hnone] at hs
  cases hs

/-- On a session that does not commit nothing is accepted for good. -/
theorem Meanwhile.run (hcommits : P.commits (P.resolve .getSession) = false) {steps : List QuarantineStep}
    (hsteps : steps.foldlM (QuarantineStep.nextUnder P) d = some d') : Meanwhile P a d d' := by
  induction steps using List.reverseRecOn generalizing d' with
  | nil =>
    cases hsteps
    exact .refl
  | append_singleton steps step ih =>
    rw [List.foldlM_append] at hsteps
    obtain ⟨d₁, hd₁, hlast⟩ := Option.bind_eq_some_iff.mp hsteps
    have hstep : step.nextUnder P d₁ = some d' := by simpa using hlast
    refine .step (ih hd₁) step hstep fun r _ _ htrue => ?_
    rw [hcommits] at htrue
    cases htrue

end

/-- **The display stands until its incident is lifted**: whenever it is read again it is
the same, and with the stored rows it tells the answer to every request. On a session
that does not commit that is for ever. -/
theorem display_decides {S : Type} [DecidableEq S] (P : Providers S) (a : UUID) (d₀ d : Database)
    (s : LedgerDiscrepancyDisplay) (hbetween : Meanwhile P a d₀ d)
    (hs : getCustomerAccountLedgerDiscrepancy d₀ d a = .ok s) :
    (∀ d' d'', Meanwhile P a d d' → Meanwhile P a d' d'' →
      getCustomerAccountLedgerDiscrepancy d' d'' a = .ok s) ∧
    (∀ d' (r : ResolveRequest), Meanwhile P a d d' → r.accountId = a →
      r.answer P d' = s.verdict (HasLedgerRow d' a) r.resolution.throughNo) ∧
    (P.commits (P.resolve .getSession) = false → ∀ (steps : List QuarantineStep) (d' : Database),
      steps.foldlM (QuarantineStep.nextUnder P) d = some d' →
        getCustomerAccountLedgerDiscrepancy d' d' a = .ok s) := by
  have hbefore := hbetween.sameRows (display_open hs)
  have hopen : d.findOpenDiscrepancy a ≠ none := by
    rw [hbefore.findOpenDiscrepancy]
    exact display_open hs
  have hagain : ∀ d' d'', Meanwhile P a d d' → Meanwhile P a d' d'' →
      getCustomerAccountLedgerDiscrepancy d' d'' a = .ok s := by
    intro d' d'' h h'
    have hsame := h.sameRows hopen
    have hopen' : d'.findOpenDiscrepancy a ≠ none := by
      rw [hsame.findOpenDiscrepancy]
      exact hopen
    exact display_sameRows hs (hbefore.trans hsame) (hsame.trans (h'.sameRows hopen'))
  refine ⟨hagain, fun d' r h hr => ?_, fun hcommits steps d' hsteps => ?_⟩
  · subst hr
    exact answer_verdict (hagain d' d' h .refl)
  · exact hagain d' d' (.run hcommits hsteps) .refl

/-! ### An incident that is accepted in vain -/

/-- Under `fast_deps` the request is answered 204, and the display is as before. -/
theorem accepted_in_vain : ∃ s, getCustomerAccountLedgerDiscrepancy ResolveRequest.quarantined
      ResolveRequest.quarantined 1 = .ok s ∧
    ResolveRequest.acceptRow.answer fastDeps ResolveRequest.quarantined = .ok () ∧
    ∀ d', [QuarantineStep.resolve .acceptRow].foldlM (QuarantineStep.nextUnder fastDeps)
      ResolveRequest.quarantined = some d' → getCustomerAccountLedgerDiscrepancy d' d' 1 = .ok s := by
  obtain ⟨_, hanswers, hnever⟩ := display_decides fastDeps 1 ResolveRequest.quarantined
    ResolveRequest.quarantined _ .refl rfl
  refine ⟨_, rfl, ?_, hnever rfl [.resolve .acceptRow]⟩
  rw [hanswers _ .acceptRow .refl rfl]
  decide

end Statement.Wiring
