import Statement.Wiring.Attestation

/-! What the verifier no longer sees.

Once a checkpoint has passed a row, nothing of it but its number matters to a run or to
a resolve request, and that only where subtracting the checkpoint's is out of range. So
two databases whose rows and checkpoints are `Numbered` from 0 on, and that differ only
in rows behind their checkpoints, take the same runs and give the same answers, and stay
as they differ. What makes verification incremental is also what it is blind to. -/
namespace Statement.Wiring
open Domain Foundation Verification

/-- The tables are the same, but for ledger rows behind each account's checkpoint. -/
structure SameAhead (d e : Database) : Prop where
  account : e.customerAccount = d.customerAccount
  verified : e.customerAccountLedgerVerified = d.customerAccountLedgerVerified
  discrepancy : e.customerAccountLedgerDiscrepancy = d.customerAccountLedgerDiscrepancy
  ahead : ∀ a r, (outcome d a).start.no ≤ r.no → (r ∈ e.ledgerOf a ↔ r ∈ d.ledgerOf a)

/-- Ledger rows and checkpoints are numbered from 0 on, within what their columns take. -/
structure Numbered (d : Database) : Prop where
  row : ∀ a, ∀ r ∈ d.ledgerOf a, 0 ≤ r.no ∧ r.no < 2 ^ 63
  start : ∀ a, 0 ≤ (outcome d a).start.no ∧ (outcome d a).start.no < 2 ^ 63

/-- The query does not raise. -/
theorem Numbered.nextBatch {d : Database} (h : Numbered d) (p : BatchParams) (scan : List CustomerAccount) :
    nextBatch d p scan = some (finalSelect d p scan) := by
  refine nextBatch_of_range fun a _ v hv => .inr fun l hl => ?_
  have hstart := h.start a.id
  rw [← throughNo_eq, hv] at hstart
  have hno : 0 ≤ v.throughNo ∧ v.throughNo < 2 ^ 63 := hstart
  have hrow := h.row a.id l hl
  exact ⟨by omega, by omega⟩

/-- `e`, with the tables that the verifier writes taken from `d`. -/
def withTables (e d : Database) : Database :=
  { e with customerAccountLedgerVerified := d.customerAccountLedgerVerified
           customerAccountLedgerDiscrepancy := d.customerAccountLedgerDiscrepancy }

namespace SameAhead
variable {d e : Database} (h : SameAhead d e)
include h

theorem eq_withTables : e = withTables e d := by
  rw [withTables, ← h.verified, ← h.discrepancy]

theorem findOpenDiscrepancy (a : UUID) : e.findOpenDiscrepancy a = d.findOpenDiscrepancy a := by
  rw [Database.findOpenDiscrepancy, h.discrepancy, Database.findOpenDiscrepancy]

theorem findLatestCheckpoint (a : UUID) : e.findLatestCheckpoint a = d.findLatestCheckpoint a := by
  rw [Database.findLatestCheckpoint, h.verified, Database.findLatestCheckpoint]

theorem outcome (a : UUID) : Verification.outcome e a = Verification.outcome d a := by
  rw [Verification.outcome, h.findOpenDiscrepancy, h.findLatestCheckpoint, Verification.outcome]

/-! ### What a run reads -/

theorem selected_iff (p : BatchParams) (a : UUID) :
    selected e p a (d.findLatestCheckpoint a) ↔ selected d p a (d.findLatestCheckpoint a) := by
  have hahead : ∀ l : CustomerAccountLedger, throughNo (d.findLatestCheckpoint a) ≤ l.no →
      (l ∈ e.ledgerOf a ↔ l ∈ d.ledgerOf a) := by
    intro l hl
    rw [throughNo_eq] at hl
    exact h.ahead a l hl
  have hbehind : (∃ l ∈ e.ledgerOf a, (p.rowsPerAccount : Int) ≤ l.no - throughNo (d.findLatestCheckpoint a)) ↔
      ∃ l ∈ d.ledgerOf a, (p.rowsPerAccount : Int) ≤ l.no - throughNo (d.findLatestCheckpoint a) := by
    refine exists_congr fun l => and_congr_left fun hl => hahead l ?_
    omega
  have hpast : (∃ l ∈ e.ledgerOf a, throughNo (d.findLatestCheckpoint a) < l.no) ↔
      ∃ l ∈ d.ledgerOf a, throughNo (d.findLatestCheckpoint a) < l.no :=
    exists_congr fun l => and_congr_left fun hl => hahead l hl.le
  unfold selected
  rw [hbehind, hpast, h.findOpenDiscrepancy]

theorem targets_eq (p : BatchParams) (scan : List CustomerAccount) : targets e p scan = targets d p scan := by
  have hjoined : (scan.map fun a => (a.id, e.findLatestCheckpoint a.id)) =
      scan.map fun a => (a.id, d.findLatestCheckpoint a.id) :=
    List.map_congr_left fun a _ => by rw [h.findLatestCheckpoint]
  have hfilter : ((scan.map fun a => (a.id, d.findLatestCheckpoint a.id)).filter
      fun x => selected e p x.1 x.2) =
      (scan.map fun a => (a.id, d.findLatestCheckpoint a.id)).filter fun x => selected d p x.1 x.2 := by
    refine List.filter_congr fun x hx => ?_
    obtain ⟨a, _, rfl⟩ := List.mem_map.mp hx
    exact decide_eq_decide.mpr (h.selected_iff p a.id)
  simp only [targets, hjoined, hfilter]

theorem window_eq (p : BatchParams) {t : Target} (ht : t.start = (Verification.outcome d t.accountId).start) :
    window e p t = window d p t := by
  have hno : t.anchorNo = (Verification.outcome d t.accountId).start.no := congrArg Position.no ht
  rw [window, window]
  congr 1
  refine orderBy_congr ((ledgerOf_distinct e _).filter _) ((ledgerOf_distinct d _).filter _) fun r => ?_
  rw [List.mem_filter, List.mem_filter]
  refine and_congr_left fun hr => h.ahead t.accountId r ?_
  rw [← hno]
  exact of_decide_eq_true hr

/-- The batch is the same. -/
theorem finalSelect_eq (p : BatchParams) (scan : List CustomerAccount) :
    finalSelect e p scan = finalSelect d p scan := by
  have hwindows : windowed e p (targets d p scan) = windowed d p (targets d p scan) := by
    have hjoined : ((targets d p scan).flatMap fun t => (window e p t).map fun l => (t, l)) =
        (targets d p scan).flatMap fun t => (window d p t).map fun l => (t, l) :=
      List.flatMap_congr fun t ht => by rw [h.window_eq p (target_picked_start ht)]
    simp only [windowed, hjoined]
  simp only [finalSelect, h.targets_eq, hwindows]

theorem findLedgerBalance_eq {a : UUID} {n : Int} (hn : (Verification.outcome d a).start.no ≤ n) :
    e.findLedgerBalance a n = d.findLedgerBalance a n := by
  have hrow : ∀ {d : Database} {r : CustomerAccountLedger}, r ∈ d.ledgerOf a → r.no = n →
      d.findLedgerBalance a n = some r.balance := by
    intro d r hr hno
    obtain ⟨balance, hbalance⟩ := Database.findLedgerBalance_isSome.mpr ⟨r, hr, hno⟩
    obtain ⟨q, hq, rfl⟩ := Option.map_eq_some_iff.mp hbalance
    have hqno : q.no = n := by simpa using List.find?_some hq
    rw [hbalance, row_unique (List.mem_of_find?_eq_some hq) hr (hqno.trans hno.symm)]
  by_cases hex : ∃ r ∈ d.ledgerOf a, r.no = n
  · obtain ⟨r, hr, rfl⟩ := hex
    rw [hrow hr rfl, hrow ((h.ahead a r hn).mpr hr) rfl]
  · have hnone : ∀ {d : Database}, (¬ ∃ r ∈ d.ledgerOf a, r.no = n) → d.findLedgerBalance a n = none := by
      intro d hnot
      rw [← Database.findLedgerBalance_isSome] at hnot
      simpa [← Option.ne_none_iff_exists'] using hnot
    rw [hnone hex, hnone fun hex' => hex ?_]
    obtain ⟨r, hr, rfl⟩ := hex'
    exact ⟨r, (h.ahead a r hn).mp hr, rfl⟩

/-- The checks of a resolve request come out the same. -/
theorem accept_eq (r : ResolveRequest) : r.accept e = r.accept d := by
  have hanchor : ResolveRequest.anchorNo e r.accountId = ResolveRequest.anchorNo d r.accountId := by
    rw [ResolveRequest.anchorNo_eq, ResolveRequest.anchorNo_eq, h.outcome]
  cases hi : d.findOpenDiscrepancy r.accountId with
  | none => simp only [ResolveRequest.accept, h.findOpenDiscrepancy, hi]
  | some i =>
    simp only [ResolveRequest.accept, h.findOpenDiscrepancy, hi, hanchor]
    cases hn : r.throughNo i with
    | none => rfl
    | some n =>
      by_cases hpast : n ≤ ResolveRequest.anchorNo d r.accountId
      · simp only [if_pos hpast]
      · rw [not_le, ResolveRequest.anchorNo_eq] at hpast
        simp only [h.findLedgerBalance_eq hpast.le]

end SameAhead

/-! ### What a run and a request write -/

/-- The verifier writes the same whatever the other tables are. -/
theorem apply_withTables (e : Database) (w : Write) (now : Timestamp) (d : Database) :
    w.apply now (withTables e d) = (w.apply now d).map (withTables e) := by
  cases w with
  | verified v => rfl
  | discrepancy v =>
    simp only [Write.apply, recordDiscrepancy]
    cases v.breakNo <;> cases v.breakKind <;> cases v.storedExpectedBalance <;> rfl

theorem foldlM_commutes {α β : Type} {f : β → α → Option β} {g : β → β}
    (hf : ∀ b a, f (g b) a = (f b a).map g) (l : List α) (b : β) :
    l.foldlM f (g b) = (l.foldlM f b).map g := by
  induction l generalizing b with
  | nil => rfl
  | cons a l ih =>
    rw [List.foldlM_cons, List.foldlM_cons, hf]
    cases f b a with
    | none => rfl
    | some b' => exact ih b'

theorem record_withTables (e : Database) (clock : Write → Timestamp) (d : Database)
    (v : CustomerAccountVerification) :
    record clock (withTables e d) v = (record clock d v).map (withTables e) :=
  foldlM_commutes (fun d w => apply_withTables e w (clock w) d) (writes v) d

theorem verify_withTables {d e : Database} (h : SameAhead d e) (hd : Numbered d) (he : Numbered e)
    (run : RunInput) : run.verify e = (run.verify d).map (withTables e) := by
  have hfold := foldlM_commutes (fun d v => record_withTables e run.clock d v)
    (finalSelect d run.params run.scan) d
  rw [← h.eq_withTables] at hfold
  rw [RunInput.verify, verifyCustomerAccountLedger, he.nextBatch, h.finalSelect_eq, RunInput.verify,
    verifyCustomerAccountLedger, hd.nextBatch, Option.bind_some, Option.bind_some]
  exact hfold

theorem rerun_withTables {d e : Database} (h : SameAhead d e) (hd : Numbered d) (he : Numbered e)
    (run : RunInput) : run.rerun e = withTables e (run.rerun d) := by
  rw [RunInput.rerun, verify_withTables h hd he, RunInput.rerun]
  cases run.verify d with
  | none => exact h.eq_withTables
  | some d' => rfl

theorem respond_withTables {d e : Database} (h : SameAhead d e) (r : ResolveRequest) :
    r.respond testClient e =
      ⟨(r.respond testClient d).status, withTables e (r.respond testClient d).committed⟩ := by
  have haccept := h.accept_eq r
  have hsame := h.eq_withTables
  cases hi : d.findOpenDiscrepancy r.accountId with
  | none =>
    have hi' := (h.findOpenDiscrepancy r.accountId).trans hi
    rw [ResolveRequest.respond_none hi, ResolveRequest.respond_none hi', ← hsame]
  | some i =>
    have hi' := (h.findOpenDiscrepancy r.accountId).trans hi
    rcases ResolveRequest.accept_cases hi with ⟨throughNo, balance, hok, _⟩ | ⟨⟨f, herror⟩, _⟩
    · have haccepted : r.accepted i throughNo balance e = withTables e (r.accepted i throughNo balance d) :=
        congrArg (r.accepted i throughNo balance) hsame
      rw [ResolveRequest.respond, ResolveRequest.handle_ok testClient hi' (haccept.trans hok),
        respond_testClient, ResolveRequest.respond, ResolveRequest.handle_ok testClient hi hok,
        respond_testClient]
      exact congrArg (Response.mk 204) haccepted
    · rw [ResolveRequest.respond, ResolveRequest.handle_error testClient (haccept.trans herror),
        ResolveRequest.respond, ResolveRequest.handle_error testClient herror]
      exact congrArg (Response.mk f.status) hsame

/-! ### Run after run -/

/-- Every account's checkpoint stays where it is, or moves on to a stored row. -/
structure Onward (d d' : Database) : Prop where
  untouched : Untouched d d'
  start : ∀ a, (outcome d' a).start.no = (outcome d a).start.no ∨
    ∃ r ∈ d.ledgerOf a, (outcome d a).start.no ≤ r.no ∧ (outcome d' a).start.no = r.no

theorem Onward.refl (d : Database) : Onward d d := ⟨⟨rfl, rfl, rfl, rfl⟩, fun _ => .inl rfl⟩

theorem Onward.le {d d' : Database} (h : Onward d d') (a : UUID) :
    (outcome d a).start.no ≤ (outcome d' a).start.no := by
  rcases h.start a with hsame | ⟨r, _, hle, hno⟩
  · exact hsame.ge
  · exact hle.trans hno.ge

theorem rerun_onward {d : Database} {run : RunInput} (hscan : run.scan.Perm d.customerAccount.rows) :
    Onward d (run.rerun d) := by
  rcases run_cases hscan with ⟨_, hnone⟩ | ⟨d', hd', hadvanced⟩
  · rw [RunInput.rerun, hnone]
    exact .refl d
  · rw [RunInput.rerun, hd', Option.getD_some]
    refine ⟨hadvanced.untouched, fun a => ?_⟩
    by_cases ha : a ∈ picked d run.params run.scan
    · have hadvance := hadvanced.advances a ha
      have hwindow := (List.take_append_drop run.params.windowRows ((outcome d a).rest (d.ledgerOf a))).symm
      rw [Outcome.advance] at hadvance
      rw [(Outcome.settle_named (ledgerOf_distinct d a) hwindow hadvance).2]
      rcases @walk_reached _ _ _ check position (outcome d a).start
        (((outcome d a).rest (d.ledgerOf a)).take run.params.windowRows) with hstart | ⟨r, hr, hreached⟩
      · exact .inl (congrArg Position.no hstart)
      · obtain ⟨hmem, hle⟩ := Outcome.mem_rest.mp (List.mem_of_mem_take hr)
        exact .inr ⟨r, hmem, hle, congrArg Position.no hreached⟩
    · exact .inl (by rw [hadvanced.others a ha])

theorem respond_onward (r : ResolveRequest) (d : Database) : Onward d (r.respond testClient d).committed := by
  refine ⟨respond_untouched r d, fun a => ?_⟩
  by_cases ha : r.accountId = a
  · subst ha
    cases hi : d.findOpenDiscrepancy r.accountId with
    | none => exact .inl (by rw [ResolveRequest.respond_none hi])
    | some i =>
      rcases ResolveRequest.respond_cases hi with ⟨throughNo, balance, hacceptable, hrespond⟩ | ⟨⟨f, hf⟩, _⟩
      · obtain ⟨q, hq, hno⟩ := Database.findLedgerBalance_isSome.mp ⟨balance, hacceptable.stored⟩
        have hpast := hacceptable.past
        rw [ResolveRequest.anchorNo_eq] at hpast
        refine .inr ⟨q, hq, hno ▸ hpast.le, ?_⟩
        rw [hrespond, ResolveRequest.outcome_accepted hi hacceptable.past, if_pos rfl]
        exact hno.symm
      · exact .inl (by rw [hf])
  · exact .inl (by rw [(respond_sameRows r d ha).outcome])

/-- The step appends no row. -/
def QuarantineStep.Verifies : QuarantineStep → Prop
  | .append _ => False
  | _ => True

theorem step_onward {d d' : Database} {step : QuarantineStep} (hverifies : step.Verifies)
    (hstep : step.next d = some d') : Onward d d' := by
  cases step with
  | append row => exact hverifies.elim
  | resolve r =>
    cases hstep
    exact respond_onward r d
  | verify run =>
    simp only [QuarantineStep.next] at hstep
    split at hstep
    · rename_i hscan
      cases hstep
      exact rerun_onward hscan
    · cases hstep

theorem Numbered.onward {d d' : Database} (h : Numbered d) (hd' : Onward d d') : Numbered d' := by
  have hrow : ∀ a, ∀ r ∈ d'.ledgerOf a, 0 ≤ r.no ∧ r.no < 2 ^ 63 := by
    intro a r hr
    rw [Database.ledgerOf_congr hd'.untouched.ledger a] at hr
    exact h.row a r hr
  refine ⟨hrow, fun a => ?_⟩
  rcases hd'.start a with hsame | ⟨r, hr, _, hno⟩
  · rw [hsame]
    exact h.start a
  · rw [hno]
    exact h.row a r hr

/-- The statuses that the resolve requests are answered with. -/
def answers (d : Database) : List QuarantineStep → List Nat
  | [] => []
  | .resolve r :: rest => (r.respond testClient d).status :: answers (r.respond testClient d).committed rest
  | .verify run :: rest => ((QuarantineStep.next d (.verify run)).map fun d' => answers d' rest).getD []
  | .append row :: rest => ((QuarantineStep.next d (.append row)).map fun d' => answers d' rest).getD []

namespace SameAhead
variable {d d' e : Database}

/-- Checkpoints move forward only. -/
theorem onward (h : SameAhead d e) (hd' : Onward d d') : SameAhead d' (withTables e d') := by
  refine ⟨h.account.trans hd'.untouched.account.symm, rfl, rfl, fun a r hr => ?_⟩
  rw [Database.ledgerOf_congr hd'.untouched.ledger a]
  exact h.ahead a r ((hd'.le a).trans hr)

/-- What one step preserves. -/
theorem next (h : SameAhead d e) (hd : Numbered d) (he : Numbered e) {step : QuarantineStep}
    (hverifies : step.Verifies) : step.next e = (step.next d).map (withTables e) := by
  cases step with
  | append row => exact hverifies.elim
  | verify run =>
    simp only [QuarantineStep.next, h.account, rerun_withTables h hd he]
    by_cases hscan : run.scan.Perm d.customerAccount.rows
    · simp only [if_pos hscan, Option.map_some]
    · simp only [if_neg hscan, Option.map_none]
  | resolve r => simp only [QuarantineStep.next, respond_withTables h, Option.map_some]

end SameAhead

/-- **The verifier is blind to what its checkpoints have passed**: from databases that
differ only there, the same runs and requests leave the same in the verifier's tables,
and the requests get the same answers. -/
theorem verifier_blind (d e : Database) (h : SameAhead d e) (hd : Numbered d) (he : Numbered e)
    (steps : List QuarantineStep) (hsteps : ∀ step ∈ steps, step.Verifies) :
    steps.foldlM QuarantineStep.next e = (steps.foldlM QuarantineStep.next d).map (withTables e) ∧
      answers e steps = answers d steps := by
  induction steps generalizing d e with
  | nil => exact ⟨congrArg some h.eq_withTables, rfl⟩
  | cons step rest ih =>
    have hverifies := hsteps step List.mem_cons_self
    have hnext := h.next hd he hverifies
    have hrest : ∀ d', step.next d = some d' → rest.foldlM QuarantineStep.next (withTables e d') =
        (rest.foldlM QuarantineStep.next d').map (withTables e) ∧ answers (withTables e d') rest = answers d' rest := by
      intro d' hd'
      have honward := step_onward hverifies hd'
      have honward' : Onward e (withTables e d') := step_onward hverifies (by rw [hnext, hd', Option.map_some])
      exact ih d' (withTables e d') (h.onward honward) (hd.onward honward) (he.onward honward')
        fun s hs => hsteps s (List.mem_cons_of_mem step hs)
    refine ⟨?_, ?_⟩
    · rw [List.foldlM_cons, List.foldlM_cons, hnext]
      cases hd' : step.next d with
      | none => rfl
      | some d' => exact (hrest d' hd').1
    · cases step with
      | append row => exact hverifies.elim
      | resolve r =>
        rw [answers, answers, respond_withTables h, (hrest _ rfl).2]
      | verify run =>
        rw [answers, answers, hnext]
        cases hd' : QuarantineStep.next d (.verify run) with
        | none => rfl
        | some d' => exact (hrest d' hd').2

/-- Rows 1 to 3, of which the first two are checkpointed. -/
def checkpointed (first : CustomerAccountLedger)
    (h : [first, sampleRow 2 ten ten 2, sampleRow 3 five fifteen 3].Pairwise fun a b => ¬ a.clash b) : Database :=
  { sampleLedger [first, sampleRow 2 ten ten 2, sampleRow 3 five fifteen 3] h with
    customerAccountLedgerVerified := .single ⟨1, 2, ten, 0⟩ }

def laterRun : List QuarantineStep :=
  [.verify ⟨⟨100, 10, 0, 5⟩, [.create 1 2 .eur none 3 0], fun _ => 7⟩]

theorem checkpointed_same {first other : CustomerAccountLedger}
    {h : [first, sampleRow 2 ten ten 2, sampleRow 3 five fifteen 3].Pairwise fun a b => ¬ a.clash b}
    {h' : [other, sampleRow 2 ten ten 2, sampleRow 3 five fifteen 3].Pairwise fun a b => ¬ a.clash b}
    (hfirst : first.accountId = 1 ∧ first.no < 2) (hother : other.accountId = 1 ∧ other.no < 2) :
    SameAhead (checkpointed first h) (checkpointed other h') := by
  refine ⟨rfl, rfl, rfl, fun a r hr => ?_⟩
  rw [Database.mem_ledgerOf, Database.mem_ledgerOf]
  refine and_congr_left fun haccount => ?_
  have hrow : ∀ q : CustomerAccountLedger, q.accountId = 1 ∧ q.no < 2 → r ≠ q := by
    rintro q ⟨hq, hlt⟩ rfl
    obtain rfl : a = 1 := haccount.symm.trans hq
    have hstart : (outcome (checkpointed first h) 1).start.no = 2 := rfl
    omega
  show r ∈ [other, sampleRow 2 ten ten 2, sampleRow 3 five fifteen 3] ↔ r ∈ [first, _, _]
  simp only [List.mem_cons, hrow _ hother, hrow _ hfirst, false_or]

theorem checkpointed_numbered {first : CustomerAccountLedger}
    {h : [first, sampleRow 2 ten ten 2, sampleRow 3 five fifteen 3].Pairwise fun a b => ¬ a.clash b}
    (hfirst : 0 ≤ first.no ∧ first.no < 2) : Numbered (checkpointed first h) := by
  refine ⟨fun a r hr => ?_, fun a => ?_⟩
  · have hmem : r ∈ [first, sampleRow 2 ten ten 2, sampleRow 3 five fifteen 3] :=
      (Database.mem_ledgerOf.mp hr).1
    simp only [List.mem_cons, List.not_mem_nil, or_false] at hmem
    rcases hmem with rfl | rfl | rfl
    · omega
    · decide
    · decide
  · by_cases ha : a = 1
    · have hstart : (outcome (checkpointed first h) a).start.no = 2 := by rw [ha]; rfl
      omega
    · have hnone : (checkpointed first h).findLatestCheckpoint a = none := by
        rw [Database.findLatestCheckpoint, head_orderBy_none]
        simpa [checkpointed, Table.single] using Ne.symm ha
      rw [← throughNo_eq, hnone]
      decide

/-- Row 1 is tampered with after it was checkpointed. -/
theorem tampered_unseen :
    laterRun.foldlM QuarantineStep.next (checkpointed (sampleRow 1 five five 1) (by decide)) =
      (laterRun.foldlM QuarantineStep.next (checkpointed (sampleRow 1 .zero .zero 1) (by decide))).map
        (withTables (checkpointed (sampleRow 1 five five 1) (by decide))) := by
  have hverifies : ∀ step ∈ laterRun, step.Verifies := by
    intro step hstep
    rw [List.mem_singleton.mp hstep]
    exact trivial
  exact (verifier_blind _ _ (checkpointed_same (by decide) (by decide)) (checkpointed_numbered (by decide))
    (checkpointed_numbered (by decide)) laterRun hverifies).1

end Statement.Wiring
