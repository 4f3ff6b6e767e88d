import Statement.System.OptimisticLock

/-! The history of an account: every version that it has been, once.

Only the commit of a request that changes something writes to the history, and it
writes the row that the request has loaded under that row's lock. So the history
of an account goes through its versions in order and stops before the one that it
has, and each of its rows is the account as it was. -/
namespace Statement.System
open Domain Foundation Account

/-- The history rows of an account, in the order in which they were stored. -/
def historyOf (d : Database) (a : UUID) : List CustomerAccountHistory :=
  d.customerAccountHistory.rows.filter (·.account.id = a)

/-- What the commit of an answer archives. -/
def Answer.archived (c : Answer) : Option CustomerAccountHistory :=
  c.flushedAt.map fun now => ⟨c.loaded, now⟩

def archivedBy (l : Party) : List CustomerAccountHistory := ((answerOf l).bind Answer.archived).toList

theorem commit_history {mac : VersionToken.Digest} {E : Set Payment.PaymentMessage} {H : Set Lock}
    {d d' : Database} {l : Party} (h : PartyHolds mac E H d l) (hc : l.commit d = some d') :
    d'.customerAccountHistory.rows = d.customerAccountHistory.rows ++ archivedBy l := by
  cases l with
  | change c =>
    obtain ⟨r, phase⟩ := c
    rcases Change.commit_some hc with ⟨⟨loaded, hp⟩, rfl⟩ | ⟨loaded, current, history, now, t, hp, ht, rfl⟩
    · cases hp
      exact (List.append_nil _).symm
    · cases hp
      obtain ⟨hmatched, _⟩ := h
      rw [show archivedBy (.change ⟨r, .archived loaded current history now⟩) = [history] by
        rw [hmatched.history]
        rfl]
      exact (Table.insert_some ht).2
  | create c =>
    obtain ⟨_, _, _, _, _, rfl⟩ := Create.commit_some hc
    exact (List.append_nil _).symm
  | payment j =>
    rcases Payment.Job.commit_some hc with ⟨_, rfl⟩ | ⟨_, _, _, _, rfl⟩
    · exact (List.append_nil _).symm
    · exact (List.append_nil _).symm
  | verify v =>
    rw [(verifier_committed h hc).1.history]
    exact (List.append_nil _).symm

/-- What an account's part of the history is, beside the rows that it has been. -/
structure Archived (a : UUID) (rows : List CustomerAccount) (history : List CustomerAccountHistory)
    (current : Option CustomerAccount) : Prop where
  absent : current = none → history = []
  versions : ∀ row, current = some row →
    history.map (·.account.version) = List.range' 1 (row.version - 1)
  content : ∀ h ∈ history, h.account ∈ rows

namespace Archived
variable {a : UUID} {rows rows' : List CustomerAccount} {history : List CustomerAccountHistory}
  {current : Option CustomerAccount}

theorem seen (h : Archived a rows history current) (hrows : rows ⊆ rows') :
    Archived a rows' history current :=
  ⟨h.absent, h.versions, fun k hk => hrows (h.content k hk)⟩

theorem created (h : Archived a rows history none) {row : CustomerAccount} (hversion : row.version = 1) :
    Archived a rows history (some row) := by
  refine ⟨fun hnone => (nomatch hnone), fun row' hrow => ?_, h.content⟩
  cases hrow
  rw [h.absent rfl, hversion]
  rfl

/-- The version that was left comes to the end of the history. -/
theorem moved {loaded row : CustomerAccount} (h : Archived a rows history (some loaded))
    (hpos : 1 ≤ loaded.version) (hversion : row.version = loaded.version + 1) (hloaded : loaded ∈ rows)
    (now : Timestamp) : Archived a rows (history ++ [⟨loaded, now⟩]) (some row) := by
  refine ⟨fun hnone => (nomatch hnone), fun row' hrow => ?_, fun k hk => ?_⟩
  · cases hrow
    have hlength : row.version - 1 = (loaded.version - 1) + 1 := by omega
    rw [List.map_append, h.versions loaded rfl, hlength, List.range'_concat]
    simp only [List.map_cons, List.map_nil, List.append_cancel_left_eq, List.cons.injEq, and_true]
    omega
  · rcases List.mem_append.mp hk with hk | hk
    · exact h.content k hk
    · rw [List.mem_singleton.mp hk]
      exact hloaded

end Archived

section
variable {T : Type} [DecidableEq T] {mac : VersionToken.Digest} {E : Set Payment.PaymentMessage}
  {x y : History T} {a : UUID}

theorem historyOf_commit {H : Set Lock} {d d' : Database} {l : Party} (h : PartyHolds mac E H d l)
    (hc : l.commit d = some d') (a : UUID) :
    historyOf d' a = historyOf d a ++ (archivedBy l).filter (·.account.id = a) := by
  rw [historyOf, commit_history h hc, List.filter_append, ← historyOf]

theorem rows_subset {step : Step T} (h : x.next (service mac) step = some y) (a : UUID) :
    rows x a ⊆ rows y a := by
  rw [rows_next h]
  exact List.subset_append_left _ _

omit [DecidableEq T] in
/-- The row that an account is at is one that it has been, of version 1 at least. -/
theorem Tracked.current_mem (h : Tracked mac a x) {row : CustomerAccount}
    (hrow : x.world.committed.findById a = some row) : row ∈ rows x a ∧ 1 ≤ row.version := by
  obtain ⟨first, hversion, hserial⟩ := h.recorded.serial row hrow
  have hle := hserial.first_le_last
  rw [show Answer.versioned.version first = 1 from hversion] at hle
  exact ⟨hserial.last_mem, hle⟩

theorem Archived.next (h : Archived a (rows x a) (historyOf x.world.committed a)
      (x.world.committed.findById a)) (htracked : Tracked mac a x)
    (hvalid : (contract mac E).Valid x.world) {step : Step T}
    (hstep : x.next (service mac) step = some y) :
    Archived a (rows y a) (historyOf y.world.committed a) (y.world.committed.findById a) := by
  have hrows := rows_subset hstep a
  rcases World.next_committed (Audit.next_some hstep).1 with hsame | ⟨l, _, hl, hc⟩
  · rw [hsame]
    exact h.seen hrows
  · have hholds := hvalid.holds _ l hl
    rw [historyOf_commit hholds hc]
    rcases commit_effect hholds hc a with
      ⟨hrow, hanswer⟩ | ⟨row, hanswer, hnone, hrow, hversion⟩ |
      ⟨c, hanswer, hid, _, hflushed, _, hrow⟩ | ⟨c, hanswer, hid, _, hflushed, hread, hrow⟩
    · have hfilter : (archivedBy l).filter (·.account.id = a) = [] := by
        refine List.filter_eq_nil_iff.mpr fun k hk => ?_
        obtain ⟨c, hc, hk⟩ := Option.bind_eq_some_iff.mp (Option.mem_toList.mp hk)
        obtain ⟨now, _, rfl⟩ := Option.map_eq_some_iff.mp hk
        simpa using hanswer c hc
      rw [hfilter, List.append_nil, hrow]
      exact h.seen hrows
    · have hnothing : archivedBy l = [] := by
        rw [archivedBy, hanswer]
        rfl
      rw [hnothing, List.filter_nil, List.append_nil, hrow]
      rw [hnone] at h
      exact (h.created hversion).seen hrows
    · have hnothing : archivedBy l = [] := by
        rw [archivedBy, hanswer, Option.bind_some, Answer.archived, hflushed]
        rfl
      rw [hnothing, List.filter_nil, List.append_nil, hrow]
      exact h.seen hrows
    · obtain ⟨now, hnow⟩ := Option.isSome_iff_exists.mp hflushed
      have harchived : (archivedBy l).filter (·.account.id = a) = [⟨c.loaded, now⟩] := by
        rw [archivedBy, hanswer, Option.bind_some, Answer.archived, hnow]
        simp [hid]
      obtain ⟨hmem, hpos⟩ := htracked.current_mem hread
      rw [harchived, hrow]
      rw [hread] at h
      refine (h.moved hpos ?_ hmem now).seen hrows
      rw [Answer.apply, hnow]

theorem Reaches.archived (h : Reaches mac E x) (a : UUID) :
    Archived a (rows x a) (historyOf x.world.committed a) (x.world.committed.findById a) := by
  obtain ⟨customer, as, henqueued, hrun⟩ := h
  have hruns : RunsFrom mac E (initial T customer) as x.world := ⟨henqueued, Audit.run_world hrun⟩
  exact (Audit.run_inv (contract mac E) (fun x : History T => Tracked mac a x ∧
      Archived a (rows x a) (historyOf x.world.committed a) (x.world.committed.findById a))
    (fun _ _ _ hvalid h hstep => ⟨h.1.next hvalid hstep, h.2.next h.1 hvalid hstep⟩)
    ((contract mac E).valid_initial _ (.empty customer))
    ⟨tracked_start customer, fun _ => rfl, fun _ hrow => (nomatch hrow), fun _ hk => (nomatch hk)⟩
    hruns.allowed hrun).2.2

theorem Reaches.reachable (h : Reaches mac E x) : Reachable mac E x.world := by
  obtain ⟨customer, as, henqueued, hrun⟩ := h
  exact ⟨customer, as, henqueued, Audit.run_world hrun⟩

/-- A request that answers: without a net change it leaves everything as it is;
otherwise its account goes one version on, and the version that it leaves is
archived. -/
theorem change_answered {H : Set Lock} {d d' : Database} {c : Change} (h : ChangeHolds mac H d c)
    (hc : c.commit d = some d') : ∃ answer, answerOf (.change c) = some answer ∧
      (answer.request.assign answer.loaded = answer.loaded → d' = d) ∧
      (answer.request.assign answer.loaded ≠ answer.loaded → ∃ row now,
        d.findById answer.loaded.id = some answer.loaded ∧ d'.findById answer.loaded.id = some row ∧
        row.version = answer.loaded.version + 1 ∧
        d'.customerAccountHistory.rows = d.customerAccountHistory.rows ++ [⟨answer.loaded, now⟩]) := by
  have hhistory := commit_history (E := Set.univ) (l := .change c) h hc
  obtain ⟨r, phase⟩ := c
  rcases Change.commit_some hc with ⟨⟨loaded, hp⟩, rfl⟩ | ⟨loaded, current, history, now, t, hp, _, rfl⟩
  · cases hp
    exact ⟨⟨r, loaded, none⟩, rfl, fun _ => rfl, fun hne => absurd h.2.2 hne⟩
  · cases hp
    obtain ⟨hmatched, _⟩ := h
    refine ⟨⟨r, loaded, some now⟩, rfl, fun hsame => absurd hsame hmatched.changes, fun _ => ?_⟩
    refine ⟨_, now, hmatched.row, (change_committed hmatched loaded.id).trans (if_pos rfl), ?_, hhistory⟩
    rw [setColumns, hmatched.current]

/-- What a step of a request does. -/
structure RequestStep (x y : History T) (step : Step T) (c : Change) : Prop where
  /-- Before its commit nothing, and a request that fails has none. -/
  pending : step ≠ .commit step.actor → y.world.committed = x.world.committed
  answered : step = .commit step.actor → ∃ answer, answerOf (.change c) = some answer ∧
    (answer.request.assign answer.loaded = answer.loaded → y.world.committed = x.world.committed) ∧
    (answer.request.assign answer.loaded ≠ answer.loaded → ∃ row now,
      x.world.committed.findById answer.loaded.id = some answer.loaded ∧
      y.world.committed.findById answer.loaded.id = some row ∧
      row.version = answer.loaded.version + 1 ∧
      y.world.committed.customerAccountHistory.rows =
        x.world.committed.customerAccountHistory.rows ++ [⟨answer.loaded, now⟩])

theorem Reaches.requestStep (hx : Reaches mac E x) {step : Step T} {c : Change}
    (hstep : x.next (service mac) step = some y) (hc : x.world.running step.actor = some (.change c)) :
    RequestStep x y step c := by
  obtain ⟨hnext, _, _⟩ := Audit.next_some hstep
  refine ⟨fun hother => ?_, fun hcommit => ?_⟩
  · rcases World.next_committed hnext with hsame | ⟨_, hcommit, _⟩
    · exact hsame
    · exact absurd hcommit hother
  · rw [hcommit] at hnext
    obtain ⟨l, d, hl, hd, hy⟩ := World.next_commit hnext
    obtain rfl : Party.change c = l := Option.some.inj (hc.symm.trans hl)
    have hcommitted : y.world.committed = d := by
      rw [hy]
      rfl
    rw [hcommitted]
    exact change_answered (hx.reachable.valid.holds _ _ hc) hd

end

/-- **The history is complete**: it goes through the versions before the one that
the account has, each as the account was then; and a request writes to it exactly
when it answers and has changed something. -/
theorem complete_history {T : Type} [DecidableEq T] (mac : VersionToken.Digest) (x : History T)
    (hx : Reaches mac Set.univ x) :
    (∀ account ∈ x.world.committed.customerAccount.rows,
      (historyOf x.world.committed account.id).map (·.account.version) =
        List.range' 1 (account.version - 1) ∧
      ∀ h ∈ historyOf x.world.committed account.id, h.account ∈ rows x account.id ∧
        ∀ row ∈ rows x account.id, row.version = h.account.version → row = h.account) ∧
    ∀ (step : Step T) y c, x.next (service mac) step = some y →
      x.world.running step.actor = some (.change c) → RequestStep x y step c := by
  refine ⟨fun account ha => ?_, fun step y c hstep hc => hx.requestStep hstep hc⟩
  have harchived := hx.archived account.id
  have hfound := Database.findById_of_mem ha
  refine ⟨harchived.versions account hfound, fun h hh => ?_⟩
  obtain ⟨_, _, hserial⟩ := (hx.tracked account.id).recorded.serial account hfound
  have hmem := harchived.content h hh
  exact ⟨hmem, fun row hrow hversion => hserial.unique row hrow h.account hmem hversion⟩

/-- In the race of three requests one version is archived. -/
theorem raceRun_history : ∃ x : History Nat, ∃ account ∈ x.world.committed.customerAccount.rows,
    account.version = 2 ∧
      (historyOf x.world.committed account.id).map (·.account.version) = List.range' 1 1 := by
  have hrun : ((Audit.start (.empty openingCustomer) : History Nat).run (service fun _ => 0) raceRun).map
      (fun x => x.world.committed.customerAccount.rows.map (·.version)) = some [2] := by decide
  obtain ⟨x, hx, hrows⟩ := Option.map_eq_some_iff.mp hrun
  obtain ⟨account, _, hlist, hversion, _⟩ := List.map_eq_cons_iff.mp hrows
  have ha : account ∈ x.world.committed.customerAccount.rows := hlist ▸ List.mem_cons_self
  have hreaches : Reaches (fun _ => 0) Set.univ x := ⟨openingCustomer, raceRun, fun t e ht => by
    simp [raceRun] at ht, hx⟩
  have hhistory := ((complete_history _ x hreaches).1 account ha).1
  rw [hversion] at hhistory
  exact ⟨x, account, ha, hversion, hhistory⟩

end Statement.System
