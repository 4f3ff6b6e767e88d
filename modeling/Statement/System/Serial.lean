import Statement.System.Answers
import Statement.System.LedgerIntegrity
import Statement.Verification.Recording

/-! The service against one transaction at a time.

A `Call` is a whole handler on a database that nobody else touches. Every state that
the service reaches, however its statements interleave, is one that calls reach one
after another (`serializable`). A creation, a change and a payment take effect where
they commit: until then the locks keep what they have read. A verifier's run takes
effect where it has read its batch: nobody else looks at the table that it writes,
and its advisory lock keeps other runs out until it commits. -/
namespace Statement.Account
open Domain

/-- `create_customer_account` from start to end; `none` is the `IntegrityError`. -/
def createCustomerAccount (d : Database) (c : CustomerAccountCreate) : Option Database :=
  if Create.customerExists d c then do
    let accounts ← d.customerAccount.insert c.account
    let ledger ← d.customerAccountLedger.insert c.openingRow
    some { d with customerAccount := accounts, customerAccountLedger := ledger }
  else none

/-- `updated_customer_account` and `delete_customer_account`, likewise. -/
def changeCustomerAccount (mac : VersionToken.Digest) (now : Timestamp) (d : Database)
    (r : ChangeRequest) : Except ChangeFailure Database :=
  match r.letThrough mac (d.findById r.accountId) with
  | .error f => .error f
  | .ok loaded =>
    match createVersion loaded (r.assign loaded) now with
    | none => .ok d
    | some (history, current) =>
      match d.customerAccountHistory.insert history with
      | none => .error .integrityError
      | some t => .ok { d.updateAccount loaded current now with customerAccountHistory := t }

end Statement.Account

namespace Statement.System
open Domain Foundation Account Payment Verification

/-- A request handled from start to end. -/
def Call (mac : VersionToken.Digest) (d d' : Database) : Request → Prop
  | .create c => createCustomerAccount d c = some d'
  | .change r => ∃ now, changeCustomerAccount mac now d r = .ok d'
  | .payment e => ∃ now, Job.onCreatePayment now d e = .ok d'
  | .verify r => ∃ now scan clock, scan.Perm d.customerAccount.rows ∧
      verifyCustomerAccountLedger (r.params now) scan clock d = some d'

/-- Requests handled one after another. -/
def Calls (mac : VersionToken.Digest) : List Request → Database → Database → Prop
  | [], d, d' => d' = d
  | q :: order, d, d' => ∃ d₁, Call mac d d₁ q ∧ Calls mac order d₁ d'

theorem Calls.append {mac : VersionToken.Digest} {order later : List Request} {d d₁ d₂ : Database}
    (h : Calls mac order d d₁) (h' : Calls mac later d₁ d₂) : Calls mac (order ++ later) d d₂ := by
  induction order generalizing d with
  | nil => exact (show d₁ = d from h) ▸ h'
  | cons q order ih =>
    obtain ⟨d₃, hcall, hrest⟩ := h
    exact ⟨d₃, hcall, ih hrest⟩

theorem Calls.single {mac : VersionToken.Digest} {q : Request} {d d' : Database} (h : Call mac d d' q) :
    Calls mac [q] d d' := ⟨d', h, rfl⟩

/-- Everything but a verifier's run. -/
def Request.moves : Request → Bool
  | .verify _ => false
  | _ => true

/-- The request of a party that commits something. -/
def requestOf : Party → Option Request
  | .create ⟨c, .flushed⟩ => some (.create c)
  | .change ⟨r, .archived _ _ _ _⟩ => some (.change r)
  | .payment ⟨e, .flushed _⟩ => some (.payment e)
  | .verify ⟨r, .writing _ _ _⟩ => some (.verify r)
  | _ => none

/-- The requests that have committed something, in the order of their commits. -/
def committedRequests {T : Type} (x : History T) : List Request := x.commits.filterMap requestOf

/-- The same requests, and those that move accounts and ledgers in the same order. -/
structure Reorders (order committed : List Request) : Prop where
  perm : order.Perm committed
  moves : order.filter Request.moves = committed.filter Request.moves

abbrev VerifiedTable := Table CustomerAccountLedgerVerified CustomerAccountLedgerVerified.clash

/-- The data with other checkpoints. -/
def withVerified (d : Database) (t : VerifiedTable) : Database :=
  { d with customerAccountLedgerVerified := t }

variable {mac : VersionToken.Digest} {E : Set PaymentMessage} {H : Set Lock} {d d' s : Database}
  {scheduleId : Nat} {customer : Table Customer Customer.clash}

/-! ### The handlers do not look at checkpoints -/

theorem createCustomerAccount_withVerified (d : Database) (c : CustomerAccountCreate) (t : VerifiedTable) :
    createCustomerAccount (withVerified d t) c = (createCustomerAccount d c).map (withVerified · t) := by
  have hexists : Create.customerExists (withVerified d t) c ↔ Create.customerExists d c := Iff.rfl
  unfold createCustomerAccount
  by_cases h : Create.customerExists d c
  · rw [if_pos h, if_pos (hexists.mpr h)]
    show (d.customerAccount.insert c.account).bind _ = Option.map _ ((d.customerAccount.insert c.account).bind _)
    cases d.customerAccount.insert c.account with
    | none => rfl
    | some accounts =>
      show (d.customerAccountLedger.insert c.openingRow).bind _ =
        Option.map _ ((d.customerAccountLedger.insert c.openingRow).bind _)
      cases d.customerAccountLedger.insert c.openingRow <;> rfl
  · rw [if_neg h, if_neg (mt hexists.mp h)]
    rfl

theorem changeCustomerAccount_withVerified {now : Timestamp} {r : ChangeRequest} (t : VerifiedTable)
    (h : changeCustomerAccount mac now d r = .ok d') :
    changeCustomerAccount mac now (withVerified d t) r = .ok (withVerified d' t) := by
  unfold changeCustomerAccount at h ⊢
  have hfind : (withVerified d t).findById r.accountId = d.findById r.accountId := rfl
  rw [hfind]
  split at h
  · cases h
  · split at h
    · cases h
      rfl
    · rename_i history current _
      have hhistory : (withVerified d t).customerAccountHistory = d.customerAccountHistory := rfl
      rw [hhistory]
      split at h
      · cases h
      · cases h
        rfl

theorem onCreatePayment_withVerified {now : Timestamp} {e : CreatePayment} (t : VerifiedTable)
    (h : Job.onCreatePayment now d e = .ok d') :
    Job.onCreatePayment now (withVerified d t) e = .ok (withVerified d' t) := by
  obtain ⟨⟨account, hfound, hactive⟩, ⟨hseen, rfl⟩ |
    ⟨previous, row, ledger, hunseen, hlast, hnonneg, hrow, hinsert, rfl⟩⟩ := Job.onCreatePayment_ok h
  · exact Job.onCreatePayment_seen (d := withVerified d' t) hfound hactive hseen
  · exact Job.onCreatePayment_stored (d := withVerified d t) hfound hactive hunseen hlast hnonneg hrow hinsert

theorem Call.withVerified {q : Request} (hq : q.moves = true) (h : Call mac d d' q) (t : VerifiedTable) :
    Call mac (withVerified d t) (withVerified d' t) q := by
  cases q with
  | create c =>
    have h : createCustomerAccount d c = some d' := h
    rw [Call, createCustomerAccount_withVerified, h]
    rfl
  | change r =>
    obtain ⟨now, h⟩ := h
    exact ⟨now, changeCustomerAccount_withVerified t h⟩
  | payment e =>
    obtain ⟨now, h⟩ := h
    exact ⟨now, onCreatePayment_withVerified t h⟩
  | verify r => cases hq

/-- They do not write them either. -/
theorem Call.verified_eq {q : Request} (hq : q.moves = true) (h : Call mac d d' q) :
    d'.customerAccountLedgerVerified = d.customerAccountLedgerVerified := by
  cases q with
  | create c =>
    have h : createCustomerAccount d c = some d' := h
    unfold createCustomerAccount at h
    split at h
    · simp only [Option.bind_eq_bind, Option.bind_eq_some_iff, Option.some.injEq] at h
      obtain ⟨_, _, _, _, rfl⟩ := h
      rfl
    · cases h
  | change r =>
    obtain ⟨now, h⟩ := h
    unfold changeCustomerAccount at h
    split at h
    · cases h
    · split at h
      · cases h
        rfl
      · split at h
        · cases h
        · cases h
          rfl
  | payment e =>
    obtain ⟨now, h⟩ := h
    rcases (Job.onCreatePayment_ok h).2 with ⟨_, rfl⟩ | ⟨_, _, _, _, _, _, _, _, rfl⟩
    · rfl
    · rfl
  | verify r => cases hq

/-! ### A commit is its handler's call -/

/-- A commit does nothing, or it is the call of its request. -/
structure Commits (mac : VersionToken.Digest) (d d' : Database) (l : Party) : Prop where
  nothing : requestOf l = none → d' = d
  call : ∀ q, requestOf l = some q → Call mac d d' q

theorem job_call {j : Job} (hs : Sound E d) (h : JobHolds E H d j) (hc : j.commit d = some d') :
    Commits mac d d' (.payment j) := by
  obtain ⟨e, phase⟩ := j
  rcases Job.commit_some hc with ⟨hphase, rfl⟩ | ⟨row, t, hphase, ht, rfl⟩
  · cases hphase
    exact ⟨fun _ => rfl, fun _ hq => nomatch hq⟩
  · cases hphase
    obtain ⟨⟨_, account, hfound, hactive⟩, previous, now, ⟨hunseen, hlast, hnonneg⟩, hrow⟩ := h.phase
    rw [← hs.findLast_eq hfound] at hlast
    refine ⟨fun hnone => (nomatch hnone), fun q hq => ?_⟩
    cases hq
    exact ⟨now, Job.onCreatePayment_stored hfound hactive hunseen hlast hnonneg hrow ht⟩

theorem create_call {c : Create}
    (hexists : c.phase = .inserted ∨ c.phase = .flushed → Create.customerExists d c.request)
    (hc : c.commit d = some d') : Commits mac d d' (.create c) := by
  obtain ⟨r, phase⟩ := c
  obtain ⟨hphase, accounts, ledger, haccounts, hledger, rfl⟩ := Create.commit_some hc
  cases hphase
  refine ⟨fun hnone => (nomatch hnone), fun q hq => ?_⟩
  cases hq
  have hexists : Create.customerExists d r := hexists (.inr rfl)
  simp [Call, createCustomerAccount, hexists, haccounts, hledger]

theorem change_call {c : Change} (h : ChangeHolds mac H d c) (hc : c.commit d = some d') :
    Commits mac d d' (.change c) := by
  obtain ⟨r, phase⟩ := c
  rcases Change.commit_some hc with ⟨⟨loaded, hphase⟩, rfl⟩ | ⟨loaded, current, history, now, t, hp, ht, rfl⟩
  · cases hphase
    exact ⟨fun _ => rfl, fun _ hq => nomatch hq⟩
  · cases hp
    obtain ⟨hmatched, _, _⟩ := h
    have hfound : d.findById r.accountId = some loaded := hmatched.admitted.account ▸ hmatched.row
    refine ⟨fun hnone => (nomatch hnone), fun q hq => ?_⟩
    cases hq
    refine ⟨now, ?_⟩
    simp only [changeCustomerAccount, hfound, hmatched.admitted.letThrough,
      createVersion_eq loaded _ now (r.assign_version loaded), if_neg hmatched.changes]
    rw [← hmatched.history, ht, hmatched.current]

/-! ### What a run writes, as one call -/

/-- The checkpoints after a run's writes. -/
def checkpoints (t : VerifiedTable) (done : List (Write × Timestamp)) : VerifiedTable :=
  done.foldl (fun t w => match w.1 with
    | .verified v => t.insertOrIgnore ⟨v.accountId, v.lastGoodNo, v.lastGoodBalance, w.2⟩
    | .discrepancy _ => t) t

theorem applyAll_checkpoints {done : List (Write × Timestamp)} (h : ∀ w ∈ done, Truthful s w.1)
    (d : Database) : Verifier.applyAll done d =
      some (withVerified d (checkpoints d.customerAccountLedgerVerified done)) := by
  induction done generalizing d with
  | nil => rfl
  | cons w done ih =>
    obtain ⟨w, now⟩ := w
    obtain ⟨v, hv, _⟩ := h (w, now) List.mem_cons_self
    obtain rfl : w = .verified v := hv
    have hstep := ih (fun x hx => h x (List.mem_cons_of_mem _ hx)) (recordVerified v now d)
    exact hstep

/-- Once all is written, what a run has written is the whole run on its snapshot. -/
theorem verified_call {r : VerifierRequest} {now : Timestamp} {scan : List CustomerAccount}
    {done : List (Write × Timestamp)} (hs : Sound E s) (hscan : scan.Perm s.customerAccount.rows)
    (hrange : raises s (r.params now) scan = false)
    (hdone : done.map (·.1) = (finalSelect s (r.params now) scan).flatMap writes) :
    Call mac s (withVerified s (checkpoints s.customerAccountLedgerVerified done)) (.verify r) := by
  obtain ⟨clock, hclock⟩ :=
    exists_clock (hdone ▸ batch_writes_nodup (finalSelect_nodup (Database.accountIds_nodup hscan)))
  have htruthful : ∀ w ∈ done, Truthful s w.1 := fun w hw =>
    writes_truthful hs hscan w.1 (hdone ▸ List.mem_map_of_mem hw)
  refine ⟨now, scan, clock, hscan, ?_⟩
  have hwritten := applyAll_checkpoints htruthful s
  rw [hclock, hdone, Verifier.applyAll_writes] at hwritten
  rw [verifyCustomerAccountLedger, nextBatch, hrange, if_neg Bool.false_ne_true, Option.bind_some]
  refine hwritten.trans (congrArg (fun x => some (withVerified s (checkpoints _ x))) ?_)
  rw [← hdone, ← hclock]

theorem moves_of_requestOf {l : Party} {q : Request}
    (hnot : ∀ r s done todo, l ≠ .verify ⟨r, .writing s done todo⟩) (hq : requestOf l = some q) :
    q.moves = true := by
  cases l with
  | verify v =>
    obtain ⟨r, phase⟩ := v
    cases phase with
    | writing s done todo => exact absurd rfl (hnot r s done todo)
    | begun => cases hq
    | locked => cases hq
    | skipped => cases hq
    | raised => cases hq
  | create c =>
    obtain ⟨r, phase⟩ := c
    cases phase <;> cases hq
    rfl
  | change c =>
    obtain ⟨r, phase⟩ := c
    cases phase <;> cases hq
    rfl
  | payment j =>
    obtain ⟨e, phase⟩ := j
    cases phase <;> cases hq
    rfl

/-! ### The locks -/

/-- The requests: payments that are enqueued, and runs of one schedule. -/
def Scheduled (E : Set PaymentMessage) (scheduleId : Nat) : Request → Prop
  | .verify r => r.scheduleId = scheduleId
  | r => Enqueued E r

/-- Whether a run has got its advisory lock. -/
def Exclusive (scheduleId : Nat) (H : Set Lock) (v : Verifier) : Prop :=
  match v.phase with
  | .locked | .writing _ _ _ => .advisory scheduleId ∈ H
  | _ => True

def SerialHolds (mac : VersionToken.Digest) (E : Set PaymentMessage) (scheduleId : Nat) (H : Set Lock)
    (d : Database) : Party → Prop
  | .create c => CreateHolds H d c ∧
      (c.phase = .inserted ∨ c.phase = .flushed → Create.customerExists d c.request)
  | .change c => ChangeHolds mac H d c
  | .payment j => JobHolds E H d j
  | .verify v => v.request.scheduleId = scheduleId ∧ VerifierHolds d v ∧ Exclusive scheduleId H v

theorem SerialHolds.partyHolds {l : Party} (h : SerialHolds mac E scheduleId H d l) :
    PartyHolds mac E H d l := by
  cases l with
  | create c => exact h.1
  | change c => exact h
  | payment j => exact h
  | verify v => exact h.2.1

theorem create_exists {c c' : Create} {ks : List Lock}
    (h : c.phase = .inserted ∨ c.phase = .flushed → Create.customerExists d c.request)
    (hst : c.statement d = some (ks, c')) :
    c'.phase = .inserted ∨ c'.phase = .flushed → Create.customerExists d c'.request := by
  obtain ⟨r, phase⟩ := c
  cases phase with
  | begun =>
    simp only [Create.statement] at hst
    split at hst
    · rename_i hfree
      cases hst
      exact fun _ => hfree.1
    · cases hst
      exact fun hp => by rcases hp with hp | hp <;> cases hp
  | inserted =>
    simp only [Create.statement] at hst
    split at hst
    · cases hst
      exact fun hp => by rcases hp with hp | hp <;> cases hp
    · cases hst
      exact fun _ => h (.inl rfl)
  | flushed => cases hst
  | raised => cases hst

theorem exclusive_statement {v v' : Verifier} {now : Timestamp} {scan : List CustomerAccount}
    {free : Lock → Bool} {ks : List Lock} (hschedule : v.request.scheduleId = scheduleId)
    (h : Exclusive scheduleId H v) (hst : v.statement now scan d free = some (ks, v')) :
    v'.request.scheduleId = scheduleId ∧ Exclusive scheduleId (H ∪ {k | k ∈ ks}) v' := by
  obtain ⟨r, phase⟩ := v
  obtain ⟨r', phase'⟩ := v'
  obtain ⟨rfl, hstep⟩ := Verifier.statement_some hst
  refine ⟨hschedule, ?_⟩
  cases hstep with
  | locked _ => exact .inr (by rw [← hschedule]; simp)
  | skipped _ => exact trivial
  | read _ _ => exact .inl h
  | outOfRange _ => exact trivial
  | refused _ _ => exact trivial
  | written _ _ => exact .inl h

def serialContract (mac : VersionToken.Digest) (E : Set PaymentMessage) (scheduleId : Nat) :
    Contract (service mac) (Scheduled E scheduleId) where
  Inv := Sound E
  Holds := SerialHolds mac E scheduleId
  Guarantee := Evolves
  start := by
    intro r d hr _
    cases r with
    | create c => exact ⟨trivial, fun h => by rcases h with h | h <;> cases h⟩
    | change r => exact trivial
    | payment e => exact ⟨hr, trivial⟩
    | verify r => exact ⟨hr, trivial, trivial⟩
  statement := by
    intro i d free H l ks l' hs h hst
    have hparty := (contract mac E).statement i d free H l ks l' hs h.partyHolds hst
    cases Party.statement_some hst with
    | create hc => exact ⟨hparty, create_exists h.2 hc⟩
    | change _ => exact hparty
    | payment _ => exact hparty
    | verify hv =>
      obtain ⟨hschedule, hexclusive⟩ := exclusive_statement h.1 h.2.2 hv
      exact ⟨hschedule, hparty, hexclusive⟩
  commit := fun d H l d' hs h hc => (contract mac E).commit d H l d' hs h.partyHolds hc
  stable := by
    intro d d' H H' l hs hg hcompatible h
    have hparty := (contract mac E).stable d d' H H' l hs hg hcompatible h.partyHolds
    cases l with
    | create c =>
      refine ⟨hparty, fun hp => ?_⟩
      rw [Create.customerExists, hg.customer]
      exact h.2 hp
    | change c => exact hparty
    | payment j => exact hparty
    | verify v => exact ⟨h.1, hparty, h.2.2⟩

theorem commits_call {l : Party} (hs : Sound E d) (h : SerialHolds mac E scheduleId H d l)
    (hmoves : ∀ r s done todo, l ≠ .verify ⟨r, .writing s done todo⟩) (hc : l.commit d = some d') :
    Commits mac d d' l := by
  cases l with
  | create c => exact create_call h.2 hc
  | change c => exact change_call h hc
  | payment j => exact job_call hs h hc
  | verify v =>
    obtain ⟨r, phase⟩ := v
    rcases Verifier.commit_some hc with ⟨hphase, rfl⟩ | ⟨snapshot, done, hphase, _⟩
    · cases hphase
      exact ⟨fun _ => rfl, fun _ hq => nomatch hq⟩
    · cases hphase
      exact absurd rfl (hmoves r snapshot done [])

/-! ### Runs -/

/-- A run that has read its batch from `s`: what was called before it, and what others
have called since, which they could have called after it. -/
structure Reading (mac : VersionToken.Digest) (start d : Database) (committed : List Request)
    (r : VerifierRequest) (s : Database) (done : List (Write × Timestamp)) (todo : List Write) :
    Prop where
  alone : d.customerAccountLedgerVerified = s.customerAccountLedgerVerified
  batch : ∃ now scan, scan.Perm s.customerAccount.rows ∧ raises s (r.params now) scan = false ∧
    done.map (·.1) ++ todo = (finalSelect s (r.params now) scan).flatMap writes
  calls : ∃ before later, Reorders (before ++ later) committed ∧ Calls mac before start s ∧
    ∀ t, Calls mac later (withVerified s t) (withVerified d t)

/-- The data is what the committed requests make of it one after another. -/
structure Serialized {T : Type} (mac : VersionToken.Digest) (E : Set PaymentMessage) (start : Database)
    (x : History T) : Prop where
  order : ∃ order, Reorders order (committedRequests x) ∧ Calls mac order start x.world.committed
  reading : ∀ t r s done todo, x.world.running t = some (.verify ⟨r, .writing s done todo⟩) →
    Sound E s ∧ Reading mac start x.world.committed (committedRequests x) r s done todo

theorem Reorders.snoc {order committed : List Request} (h : Reorders order committed) (q : Request) :
    Reorders (order ++ [q]) (committed ++ [q]) :=
  ⟨h.perm.append_right [q], by rw [List.filter_append, List.filter_append, h.moves]⟩

/-- A verifier's run may come earlier. -/
theorem Reorders.insert {before later committed : List Request} (h : Reorders (before ++ later) committed)
    {q : Request} (hq : q.moves = false) : Reorders (before ++ q :: later) (committed ++ [q]) := by
  refine ⟨?_, ?_⟩
  · calc (before ++ q :: later).Perm (q :: (before ++ later)) := List.perm_middle
      _ |>.Perm (q :: committed) := h.perm.cons q
      _ |>.Perm (committed ++ [q]) := (List.perm_append_singleton q committed).symm
  · have hmoves := h.moves
    rw [List.filter_append] at hmoves
    rw [List.filter_append, List.filter_append, List.filter_cons_of_neg (by simp [hq]),
      List.filter_cons_of_neg (by simp [hq]), List.filter_nil, List.append_nil, hmoves]

/-- Another's commit comes after what a run has read. -/
theorem Reading.call {start : Database} {committed : List Request} {r : VerifierRequest}
    {done : List (Write × Timestamp)} {todo : List Write} (h : Reading mac start d committed r s done todo)
    {q : Request} (hq : q.moves = true) (hcall : Call mac d d' q) :
    Reading mac start d' (committed ++ [q]) r s done todo := by
  obtain ⟨before, later, horder, hbefore, hlater⟩ := h.calls
  refine ⟨(hcall.verified_eq hq).trans h.alone, h.batch, before, later ++ [q], ?_, hbefore, fun t => ?_⟩
  · rw [← List.append_assoc]
    exact horder.snoc q
  · exact (hlater t).append (.single (hcall.withVerified hq t))

section
variable {T : Type} {x y : History T} {start : Database}

theorem committedRequests_commit [DecidableEq T] {t : T} {l : Party} (h : x.next (service mac) (.commit t) = some y)
    (hl : x.world.running t = some l) :
    committedRequests y = committedRequests x ++ (requestOf l).toList := by
  rw [committedRequests, (Audit.next_some h).2.2, Audit.committer, hl, Option.toList_some,
    List.filterMap_append, ← committedRequests]
  cases hf : requestOf l <;> simp [hf]

/-- A step that commits nothing, and after which every run that has read its batch had
read it before. -/
theorem Serialized.still (h : Serialized mac E start x)
    (hcommitted : y.world.committed = x.world.committed)
    (hrequests : committedRequests y = committedRequests x)
    (hreading : ∀ t r s done todo, y.world.running t = some (.verify ⟨r, .writing s done todo⟩) →
      Sound E s ∧ Reading mac start x.world.committed (committedRequests x) r s done todo) :
    Serialized mac E start y := by
  refine ⟨?_, ?_⟩
  · rw [hcommitted, hrequests]
    exact h.order
  · rw [hcommitted, hrequests]
    exact hreading

/-- A statement of a verifier reads the batch or writes some of it. -/
theorem Serialized.statement (h : Serialized mac E start x) (hs : Sound E x.world.committed) {t : T}
    {v v' : Verifier} {now : Timestamp} {scan : List CustomerAccount} {free : Lock → Bool} {ks : List Lock}
    (hv : x.world.running t = some (.verify v))
    (hst : v.statement now scan x.world.committed free = some (ks, v')) {r : VerifierRequest} {s : Database}
    {done : List (Write × Timestamp)} {todo : List Write} (hv' : v' = ⟨r, .writing s done todo⟩) :
    Sound E s ∧ Reading mac start x.world.committed (committedRequests x) r s done todo := by
  obtain ⟨r', phase⟩ := v
  subst hv'
  obtain ⟨rfl, hstep⟩ := Verifier.statement_some hst
  generalize hphase : (VerifierPhase.writing s done todo) = phase' at hstep
  cases hstep with
  | locked _ => cases hphase
  | skipped _ => cases hphase
  | outOfRange _ => cases hphase
  | refused _ _ => cases hphase
  | read hscan hrange =>
    cases hphase
    obtain ⟨order, horder, hcalls⟩ := h.order
    exact ⟨hs, rfl, ⟨now, scan, hscan, hrange, rfl⟩, order, [], by rwa [List.append_nil], hcalls, fun _ => rfl⟩
  | written _ _ =>
    cases hphase
    obtain ⟨hsound, hreading⟩ := h.reading t _ _ _ _ hv
    obtain ⟨now', scan', hscan, hrange, hbatch⟩ := hreading.batch
    refine ⟨hsound, { hreading with batch := ⟨now', scan', hscan, hrange, ?_⟩ }⟩
    rw [← hbatch, List.map_append, List.append_assoc]
    rfl

/-- What a run that had read its batch has committed is what it would have committed
when it read it. -/
theorem Serialized.verified (h : Serialized mac E start x) {t : T} {r : VerifierRequest}
    {done : List (Write × Timestamp)} {todo : List Write}
    (hv : x.world.running t = some (.verify ⟨r, .writing s done todo⟩))
    (hholds : VerifierHolds x.world.committed ⟨r, .writing s done todo⟩)
    (hc : Verifier.commit x.world.committed ⟨r, .writing s done todo⟩ = some d') :
    ∃ order, Reorders order (committedRequests x ++ [.verify r]) ∧ Calls mac order start d' := by
  rcases Verifier.commit_some hc with ⟨hphase, _⟩ | ⟨_, _, hphase, happlied⟩
  · cases hphase
  · cases hphase
    obtain ⟨hsound, hreading⟩ := h.reading t _ _ _ _ hv
    obtain ⟨now, scan, hscan, hrange, hbatch⟩ := hreading.batch
    obtain ⟨before, later, horder, hbefore, hlater⟩ := hreading.calls
    rw [List.append_nil] at hbatch
    rw [applyAll_checkpoints hholds.2.1, hreading.alone, Option.some.injEq] at happlied
    have hcall : Call mac s _ (.verify r) := verified_call hsound hscan hrange hbatch
    refine ⟨before ++ .verify r :: later, horder.insert rfl, hbefore.append ⟨_, hcall, ?_⟩⟩
    exact happlied ▸ hlater _

/-- Only one run at a time has its schedule's lock. -/
theorem writing_unique (hvalid : (serialContract mac E scheduleId).Valid x.world) {t u : T}
    {r q : VerifierRequest} {s₁ s₂ : Database} {done₁ done₂ : List (Write × Timestamp)}
    {todo₁ todo₂ : List Write} (ht : x.world.running t = some (.verify ⟨r, .writing s₁ done₁ todo₁⟩))
    (hu : x.world.running u = some (.verify ⟨q, .writing s₂ done₂ todo₂⟩)) : u = t := by
  have hheld : Lock.advisory scheduleId ∈ x.world.holds t := (hvalid.holds t _ ht).2.2
  have hheld' : Lock.advisory scheduleId ∈ x.world.holds u := (hvalid.holds u _ hu).2.2
  by_contra hut
  exact (hvalid.compatible t u hut).exclusive List.mem_cons_self hheld hheld'

variable [DecidableEq T]

theorem committedRequests_still {step : Step T} (h : x.next (service mac) step = some y)
    (hnone : Audit.committer x.world step = []) : committedRequests y = committedRequests x := by
  rw [committedRequests, (Audit.next_some h).2.2, hnone, List.append_nil]
  rfl

theorem Serialized.begin (h : Serialized mac E start x) {t : T} {q : Request}
    (hstep : x.next (service mac) (.begin t q) = some y) : Serialized mac E start y := by
  obtain ⟨_, hworld⟩ := World.next_begin (Audit.next_some hstep).1
  refine h.still (by rw [hworld]) (committedRequests_still hstep rfl) fun u r s done todo hu => ?_
  rw [hworld] at hu
  by_cases hut : u = t
  · simp only [hut, Function.update_self] at hu
    cases q <;> cases hu
  · simp only [Function.update_of_ne hut] at hu
    exact h.reading u r s done todo hu

theorem Serialized.statementStep (h : Serialized mac E start x) (hs : Sound E x.world.committed) {t : T}
    {i : Input} (hstep : x.next (service mac) (.statement t i) = some y) : Serialized mac E start y := by
  obtain ⟨l, ks, l', hl, hst, _, hworld⟩ := World.next_statement (Audit.next_some hstep).1
  refine h.still (by rw [hworld, World.grant_committed]) (committedRequests_still hstep rfl)
    fun u r s done todo hu => ?_
  rw [hworld, World.grant_running] at hu
  by_cases hut : u = t
  · simp only [hut, Function.update_self, Option.some.injEq] at hu
    cases Party.statement_some hst with
    | verify hv => exact h.statement hs hl hv (Party.verify.inj hu)
    | create _ => cases hu
    | change _ => cases hu
    | payment _ => cases hu
  · simp only [Function.update_of_ne hut] at hu
    exact h.reading u r s done todo hu

/-- Who runs once `t` has ended ran before. -/
theorem running_finish {w : Service T} {t u : T} {d : Database} {l : Party}
    (h : (w.finish t d).running u = some l) : u ≠ t ∧ w.running u = some l := by
  by_cases hut : u = t
  · simp [World.finish, hut] at h
  · exact ⟨hut, by simpa [World.finish, hut] using h⟩

theorem Serialized.rollback (h : Serialized mac E start x) {t : T}
    (hstep : x.next (service mac) (.rollback t) = some y) : Serialized mac E start y := by
  obtain ⟨_, hworld⟩ := World.next_rollback (Audit.next_some hstep).1
  refine h.still (by rw [hworld]; rfl) (committedRequests_still hstep rfl) fun u r s done todo hu => ?_
  rw [hworld] at hu
  exact h.reading u r s done todo (running_finish hu).2

theorem Serialized.commit (h : Serialized mac E start x)
    (hvalid : (serialContract mac E scheduleId).Valid x.world) {t : T}
    (hstep : x.next (service mac) (.commit t) = some y) : Serialized mac E start y := by
  obtain ⟨l, d', hl, hc, hworld⟩ := World.next_commit (Audit.next_some hstep).1
  have hrequests := committedRequests_commit hstep hl
  have hcommitted : y.world.committed = d' := by
    rw [hworld]
    rfl
  have hholds := hvalid.holds t l hl
  by_cases hwriting : ∃ r s done todo, l = .verify ⟨r, .writing s done todo⟩
  · obtain ⟨r, s, done, todo, rfl⟩ := hwriting
    refine ⟨?_, fun u r' s' done' todo' hu => ?_⟩
    · rw [hrequests, hcommitted]
      exact h.verified hl hholds.2.1 hc
    · rw [hworld] at hu
      obtain ⟨hut, hu⟩ := running_finish hu
      exact absurd (writing_unique hvalid hl hu) hut
  · have hnot : ∀ r s done todo, l ≠ .verify ⟨r, .writing s done todo⟩ := fun r s done todo he =>
      hwriting ⟨r, s, done, todo, he⟩
    obtain ⟨hnothing, hcall⟩ := commits_call hvalid.inv hholds hnot hc
    have hothers : ∀ u r s done todo, y.world.running u = some (.verify ⟨r, .writing s done todo⟩) →
        Sound E s ∧ Reading mac start x.world.committed (committedRequests x) r s done todo := by
      intro u r s done todo hu
      rw [hworld] at hu
      exact h.reading u r s done todo (running_finish hu).2
    cases hq : requestOf l with
    | none =>
      obtain rfl : d' = x.world.committed := hnothing hq
      rw [hq, Option.toList_none, List.append_nil] at hrequests
      exact h.still hcommitted hrequests hothers
    | some q =>
      have hmoves := moves_of_requestOf hnot hq
      have hcall := hcall q hq
      rw [hq, Option.toList_some] at hrequests
      refine ⟨?_, fun u r s done todo hu => ?_⟩
      · obtain ⟨order, horder, hcalls⟩ := h.order
        rw [hrequests, hcommitted]
        exact ⟨order ++ [q], horder.snoc q, hcalls.append (.single hcall)⟩
      · obtain ⟨hsound, hreading⟩ := hothers u r s done todo hu
        rw [hrequests, hcommitted]
        exact ⟨hsound, hreading.call hmoves hcall⟩

/-- What one step preserves. -/
theorem serialized_next (hvalid : (serialContract mac E scheduleId).Valid x.world)
    (h : Serialized mac E start x) {step : Step T} (hstep : x.next (service mac) step = some y) :
    Serialized mac E start y := by
  cases step with
  | begin t q => exact h.begin hstep
  | statement t i => exact h.statementStep hvalid.inv hstep
  | commit t => exact h.commit hvalid hstep
  | rollback t => exact h.rollback hstep

/-- **The service is serializable**: where all runs are of one schedule, the data is what
the requests that have committed something make of it one after another, each once,
and those that move accounts and ledgers in the order of their commits. -/
theorem serializable (mac : VersionToken.Digest) (customer : Table Customer Customer.clash)
    (scheduleId : Nat) (as : List (Step T)) (x : History T)
    (hrun : (Audit.start (.empty customer) : History T).run (service mac) as = some x)
    (hpayments : ∀ t e, Action.begin t (.payment e) ∈ as → ∃ m : PaymentMessage, m.command = e)
    (hschedule : ∀ t r, Action.begin t (.verify r) ∈ as → r.scheduleId = scheduleId) :
    ∃ order, order.Perm (committedRequests x) ∧
      order.filter Request.moves = (committedRequests x).filter Request.moves ∧
      Calls mac order (.empty customer) x.world.committed := by
  have hallowed : ∀ t r, Action.begin t r ∈ as → Scheduled Set.univ scheduleId r := by
    intro t r hr
    cases r with
    | verify r => exact hschedule t r hr
    | payment e =>
      obtain ⟨m, hm⟩ := hpayments t e hr
      exact ⟨m, Set.mem_univ m, hm⟩
    | create c => exact trivial
    | change r => exact trivial
  have hstart : Serialized mac Set.univ (.empty customer) (Audit.start (.empty customer) : History T) :=
    ⟨⟨[], ⟨.refl _, rfl⟩, rfl⟩, fun _ _ _ _ _ hv => nomatch hv⟩
  obtain ⟨_, hserialized⟩ := Audit.run_inv (serialContract mac Set.univ scheduleId)
    (Serialized mac Set.univ (.empty customer))
    (fun _ _ _ hvalid hx hnext => serialized_next hvalid hx hnext)
    ((serialContract mac Set.univ scheduleId).valid_initial _ (.empty customer)) hstart hallowed hrun
  obtain ⟨order, horder, hcalls⟩ := hserialized.order
  exact ⟨order, horder.perm, horder.moves, hcalls⟩

end

/-! ### A run -/

/-- A verifier reads its batch, a payment commits, and then the verifier writes. -/
def overlappingRun : List (Step Nat) :=
  let input : Input := ⟨6, [.create 1 2 .eur (some "main") 3 4]⟩
  [.begin 0 (.create .sample), .statement 0 input, .statement 0 input, .commit 0,
    .begin 1 (.verify ⟨0, 10, 1, 60⟩), .statement 1 input, .statement 1 input,
    .begin 2 (.payment openingDeposit.command), .statement 2 input, .statement 2 input,
    .statement 2 input, .statement 2 input, .commit 2, .statement 1 input, .commit 1]

theorem overlapping_run_serializable : ∃ x : History Nat,
    (x.world.committed.ledgerOf 1).length = 2 ∧
    x.world.committed.customerAccountLedgerVerified.rows = [⟨1, 1, .zero, 6⟩] ∧
    (committedRequests x).length = 3 ∧
    ∃ order, order.Perm (committedRequests x) ∧
      order.filter Request.moves = (committedRequests x).filter Request.moves ∧
      Calls (fun _ => 0) order (.empty openingCustomer) x.world.committed := by
  have hrun : ((Audit.start (.empty openingCustomer) : History Nat).run (service fun _ => 0)
      overlappingRun).map (fun x => ((x.world.committed.ledgerOf 1).length,
        x.world.committed.customerAccountLedgerVerified.rows, (committedRequests x).length)) =
      some (2, [⟨1, 1, .zero, 6⟩], 3) := by decide
  obtain ⟨x, hx, hfields⟩ := Option.map_eq_some_iff.mp hrun
  obtain ⟨hlength, hverified, hrequests⟩ := by simpa only [Prod.mk.injEq] using hfields
  refine ⟨x, hlength, hverified, hrequests,
    serializable _ openingCustomer 0 overlappingRun x hx (fun t e ht => ⟨openingDeposit, ?_⟩)
      fun t r hr => ?_⟩
  · simp only [overlappingRun, List.mem_cons, Action.begin.injEq, Request.payment.injEq, reduceCtorEq,
      and_false, false_or, List.not_mem_nil, or_false] at ht
    exact ht.2.symm
  · simp only [overlappingRun, List.mem_cons, Action.begin.injEq, Request.verify.injEq, reduceCtorEq,
      and_false, false_or, List.not_mem_nil, or_false] at hr
    rw [hr.2]

end Statement.System
