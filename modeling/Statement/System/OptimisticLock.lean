import Statement.System.Answers
import Statement.System.LedgerIntegrity

/-! Optimistic locking: no update of an account is lost.

The handler compares the token with the version that it has read, and the flush
compares the version again, under the row's lock. A request with no net change
flushes nothing and so is checked once only; it commits whatever has happened
since, and changes nothing. `Tracked` ties the log of an account to the rows it
has been, and to what the requests that still run have read. -/
namespace Statement.System
open Domain Foundation Account

/-- The log of an account, the rows it has been and the row it is. -/
structure Recorded (mac : VersionToken.Digest) (a : UUID) (rows : List CustomerAccount)
    (answers : List Answer) (current : Option CustomerAccount) : Prop where
  absent : current = none → rows = [] ∧ answers = []
  serial : ∀ row, current = some row →
    ∃ first, first.version = 1 ∧ Answer.versioned.Serial rows answers first row
  admitted : ∀ c ∈ answers, c.loaded.id = a ∧ Admitted mac c.request c.loaded

namespace Recorded
variable {mac : VersionToken.Digest} {a : UUID} {rows : List CustomerAccount} {answers : List Answer}
  {current : Option CustomerAccount}

theorem seen (h : Recorded mac a rows answers current) :
    Recorded mac a (rows ++ current.toList) answers current := by
  refine ⟨fun hnone => ?_, fun row hrow => ?_, h.admitted⟩
  · rw [hnone, Option.toList_none, List.append_nil]
    exact h.absent hnone
  · obtain ⟨first, hversion, hserial⟩ := h.serial row hrow
    rw [hrow]
    exact ⟨first, hversion, hserial.stay⟩

theorem created (h : Recorded mac a rows answers none) {row : CustomerAccount} (hversion : row.version = 1) :
    Recorded mac a (rows ++ [row]) answers (some row) := by
  obtain ⟨hrows, hanswers⟩ := h.absent rfl
  subst hrows hanswers
  refine ⟨fun hnone => (nomatch hnone), fun row' hrow => ?_, h.admitted⟩
  cases hrow
  exact ⟨row, hversion, .start Answer.versioned row⟩

theorem admitted_append (h : Recorded mac a rows answers current) {c : Answer} (hid : c.loaded.id = a)
    (hadmitted : Admitted mac c.request c.loaded) :
    ∀ x ∈ answers ++ [c], x.loaded.id = a ∧ Admitted mac x.request x.loaded := by
  intro x hx
  rcases List.mem_append.mp hx with hx | hx
  · exact h.admitted x hx
  · exact List.mem_singleton.mp hx ▸ ⟨hid, hadmitted⟩

theorem kept (h : Recorded mac a rows answers current) {c : Answer} (hread : c.loaded ∈ rows)
    (hid : c.loaded.id = a) (hadmitted : Admitted mac c.request c.loaded) (hflushed : c.flushedAt = none)
    (happly : c.apply c.loaded = c.loaded) : Recorded mac a rows (answers ++ [c]) current := by
  refine ⟨fun hnone => ?_, fun row hrow => ?_, h.admitted_append hid hadmitted⟩
  · rw [(h.absent hnone).1] at hread
    cases hread
  · obtain ⟨first, hversion, hserial⟩ := h.serial row hrow
    have hchanges : Answer.versioned.changes c = false := by
      show c.flushedAt.isSome = false
      rw [hflushed]
      rfl
    exact ⟨first, hversion, hserial.keep hread hchanges happly⟩

theorem moved {c : Answer} (h : Recorded mac a rows answers (some c.loaded)) (hid : c.loaded.id = a)
    (hadmitted : Admitted mac c.request c.loaded) (hflushed : c.flushedAt.isSome = true) :
    Recorded mac a (rows ++ [c.apply c.loaded]) (answers ++ [c]) (some (c.apply c.loaded)) := by
  refine ⟨fun hnone => (nomatch hnone), fun row hrow => ?_, h.admitted_append hid hadmitted⟩
  cases hrow
  obtain ⟨first, hversion, hserial⟩ := h.serial c.loaded rfl
  obtain ⟨now, hnow⟩ := Option.isSome_iff_exists.mp hflushed
  have hnext : (c.apply c.loaded).version = c.loaded.version + 1 := by
    rw [Answer.apply, hnow]
  exact ⟨first, hversion, hserial.move rfl hflushed rfl hnext⟩

end Recorded

/-- What has happened to an account, and what the requests that run have read. -/
structure Tracked {T : Type} (mac : VersionToken.Digest) (a : UUID) (x : History T) : Prop where
  recorded : Recorded mac a (rows x a) (answers x a) (x.world.committed.findById a)
  running : ∀ t c loaded, x.world.running t = some (.change c) → loadedOf c = some loaded →
    loaded.id = a → loaded ∈ rows x a

theorem tracked_start {T : Type} {mac : VersionToken.Digest} {a : UUID}
    (customer : Table Customer Customer.clash) :
    Tracked mac a (Audit.start (.empty customer) : History T) :=
  ⟨⟨fun _ => ⟨rfl, rfl⟩, fun _ h => (nomatch h), fun _ h => nomatch h⟩, fun _ _ _ h => nomatch h⟩

section
variable {T : Type} [DecidableEq T] {mac : VersionToken.Digest} {E : Set Payment.PaymentMessage}
  {x y : History T} {a : UUID}

theorem rows_next {step : Step T} (h : x.next (service mac) step = some y) (a : UUID) :
    rows y a = rows x a ++ (y.world.committed.findById a).toList := by
  rw [rows, (Audit.next_some h).2.1, List.filterMap_append]
  cases hf : y.world.committed.findById a <;> simp [rows, hf]

/-- A step that commits nothing adds the row to the record and nothing else. -/
theorem Recorded.next (h : Tracked mac a x) {step : Step T} (hstep : x.next (service mac) step = some y)
    (hcommitted : y.world.committed = x.world.committed) (hcommits : y.commits = x.commits) :
    Recorded mac a (rows y a) (answers y a) (y.world.committed.findById a) := by
  rw [rows_next hstep, answers, hcommits, ← answers, hcommitted]
  exact h.recorded.seen

theorem answers_commit {t : T} {l : Party} (h : x.next (service mac) (.commit t) = some y)
    (hl : x.world.running t = some l) (a : UUID) :
    answers y a = answers x a ++ (answerOf l).toList.filter (·.loaded.id = a) := by
  rw [answers, (Audit.next_some h).2.2, Audit.committer, hl, Option.toList_some, List.filterMap_append,
    List.filter_append, ← answers]
  cases hf : answerOf l <;> simp [hf]

theorem Recorded.commit (h : Tracked mac a x) (hvalid : (contract mac E).Valid x.world) {t : T}
    (hstep : x.next (service mac) (.commit t) = some y) :
    Recorded mac a (rows y a) (answers y a) (y.world.committed.findById a) := by
  obtain ⟨hnext, _, _⟩ := Audit.next_some hstep
  obtain ⟨l, d, hl, hd, hy⟩ := World.next_commit hnext
  have hcommitted : y.world.committed = d := by
    rw [hy]
    rfl
  rw [rows_next hstep, answers_commit hstep hl, hcommitted]
  rcases commit_effect (hvalid.holds t l hl) hd a with
    ⟨hrow, hanswer⟩ | ⟨row, hanswer, hnone, hrow, hversion⟩ |
    ⟨c, hanswer, hid, hadmitted, hflushed, happly, hrow⟩ |
    ⟨c, hanswer, hid, hadmitted, hflushed, hread, hrow⟩
  · have hfilter : (answerOf l).toList.filter (·.loaded.id = a) = [] := by
      refine List.filter_eq_nil_iff.mpr fun c hc => ?_
      simpa using hanswer c (Option.mem_toList.mp hc)
    rw [hfilter, List.append_nil, hrow]
    exact h.recorded.seen
  · rw [hanswer, hrow, Option.toList_none, List.filter_nil, List.append_nil, Option.toList_some]
    have hrecorded := h.recorded
    rw [hnone] at hrecorded
    exact hrecorded.created hversion
  · have hfilter : (answerOf l).toList.filter (·.loaded.id = a) = [c] := by simp [hanswer, hid]
    rw [hfilter, hrow]
    obtain ⟨change, rfl, hloaded⟩ := answerOf_some hanswer
    have hread := h.running t change c.loaded hl hloaded hid
    exact (h.recorded.kept hread hid hadmitted hflushed happly).seen
  · have hfilter : (answerOf l).toList.filter (·.loaded.id = a) = [c] := by simp [hanswer, hid]
    rw [hfilter, hrow, Option.toList_some]
    have hrecorded := h.recorded
    rw [hread] at hrecorded
    exact hrecorded.moved hid hadmitted hflushed

/-- What a running request has read it had read before the step, or it is the
committed row. -/
theorem running_next {w w' : Service T} {step : Step T} (h : w.next (service mac) step = some w')
    {t : T} {c : Change} {loaded : CustomerAccount} (hc : w'.running t = some (.change c))
    (hloaded : loadedOf c = some loaded) :
    (∃ c₀, w.running t = some (.change c₀) ∧ loadedOf c₀ = some loaded) ∨
      (w'.committed = w.committed ∧ w.committed.findById loaded.id = some loaded) := by
  cases step with
  | begin u r =>
    obtain ⟨_, rfl⟩ := World.next_begin h
    by_cases htu : t = u
    · subst htu
      simp only [Function.update_self, Option.some.injEq] at hc
      cases r <;> cases hc
      cases hloaded
    · exact .inl ⟨c, by simpa [htu] using hc, hloaded⟩
  | statement u i =>
    obtain ⟨l, ks, l', hl, hst, _, rfl⟩ := World.next_statement h
    by_cases htu : t = u
    · subst htu
      simp only [World.grant_running, Function.update_self, Option.some.injEq] at hc
      subst hc
      -- only a change becomes one
      cases Party.statement_some hst with
      | change hc' =>
        exact (loadedOf_statement hc' hloaded).imp (fun hread => ⟨_, hl, hread⟩) fun hread => ⟨rfl, hread⟩
    · exact .inl ⟨c, by simpa [htu] using hc, hloaded⟩
  | commit u =>
    obtain ⟨l, d, _, _, rfl⟩ := World.next_commit h
    by_cases htu : t = u
    · subst htu
      simp [World.finish] at hc
    · exact .inl ⟨c, by simpa [World.finish, htu] using hc, hloaded⟩
  | rollback u =>
    obtain ⟨_, rfl⟩ := World.next_rollback h
    by_cases htu : t = u
    · subst htu
      simp [World.finish] at hc
    · exact .inl ⟨c, by simpa [World.finish, htu] using hc, hloaded⟩

theorem Tracked.next (h : Tracked mac a x) (hvalid : (contract mac E).Valid x.world) {step : Step T}
    (hstep : x.next (service mac) step = some y) : Tracked mac a y := by
  obtain ⟨hnext, _, hcommits⟩ := Audit.next_some hstep
  refine ⟨?_, fun t c loaded hc hloaded hid => ?_⟩
  · cases step with
    | commit t => exact Recorded.commit h hvalid hstep
    | begin t r =>
      obtain ⟨_, hy⟩ := World.next_begin hnext
      exact Recorded.next h hstep (by rw [hy]) (hcommits.trans (List.append_nil _))
    | statement t i =>
      obtain ⟨_, _, _, _, _, _, hy⟩ := World.next_statement hnext
      exact Recorded.next h hstep (by rw [hy, World.grant_committed]) (hcommits.trans (List.append_nil _))
    | rollback t =>
      obtain ⟨_, hy⟩ := World.next_rollback hnext
      exact Recorded.next h hstep (by rw [hy]; rfl) (hcommits.trans (List.append_nil _))
  · rw [rows_next hstep]
    rcases running_next hnext hc hloaded with ⟨c₀, hc₀, hread⟩ | ⟨hsame, hread⟩
    · exact List.mem_append_left _ (h.running t c₀ loaded hc₀ hread hid)
    · refine List.mem_append_right _ ?_
      rw [hsame, ← hid, hread]
      exact List.mem_singleton.mpr rfl

/-- A history of the service, from an empty ledger on. -/
def Reaches (mac : VersionToken.Digest) (E : Set Payment.PaymentMessage) (x : History T) : Prop :=
  ∃ customer as, (∀ t e, Action.begin t (.payment e) ∈ as → ∃ m ∈ E, m.command = e) ∧
    (Audit.start (.empty customer) : History T).run (service mac) as = some x

theorem Reaches.tracked (h : Reaches mac E x) (a : UUID) : Tracked mac a x := by
  obtain ⟨customer, as, henqueued, hrun⟩ := h
  have hruns : RunsFrom mac E (initial T customer) as x.world := ⟨henqueued, Audit.run_world hrun⟩
  exact (Audit.run_inv (contract mac E) (Tracked mac a) (fun _ _ _ hvalid h hstep => h.next hvalid hstep)
    ((contract mac E).valid_initial _ (.empty customer)) (tracked_start customer) hruns.allowed hrun).2

/-- A request that commits answers 204. -/
theorem answerOf_of_commit {c : Change} {d d' : Database} (h : c.commit d = some d') :
    ∃ answer, answerOf (.change c) = some answer := by
  obtain ⟨r, phase⟩ := c
  cases phase with
  | unchanged loaded => exact ⟨_, rfl⟩
  | archived loaded current history now => exact ⟨_, rfl⟩
  | begun => cases h
  | assigned loaded current => cases h
  | updated loaded current history now => cases h
  | raised f => cases h

end

/-- What the answers on an account have to do with the rows it has been: each was
given for a committed row, under that row's token, and left the row that it made
of it; no two changed one version; and together, in the order of the versions,
they have made the account what it is. -/
structure NoLostUpdate {T : Type} (mac : VersionToken.Digest) (x : History T)
    (account : CustomerAccount) : Prop where
  applied : ∀ c ∈ answers x account.id, c.request.accountId = account.id ∧
    c.request.version = VersionToken.issue mac account.id c.loaded.version ∧
    c.loaded ∈ rows x account.id ∧
    (∀ row ∈ rows x account.id, row.version = c.loaded.version → row = c.loaded) ∧
    c.apply c.loaded ∈ rows x account.id
  once : ((answers x account.id).filter Answer.changes).Pairwise fun b c =>
    b.loaded.version ≠ c.loaded.version
  version : account.version = 1 + ((answers x account.id).filter Answer.changes).length
  replay : ∃ first, (rows x account.id).head? = some first ∧ first.version = 1 ∧
    (orderBy Answer.versioned.order (answers x account.id)).foldl (fun row c => c.apply row) first = account

theorem Recorded.noLostUpdate {T : Type} {mac : VersionToken.Digest} {x : History T}
    {account : CustomerAccount} (h : Recorded mac account.id (rows x account.id) (answers x account.id)
      (some account)) : NoLostUpdate mac x account := by
  obtain ⟨first, hversion, hserial⟩ := h.serial account rfl
  refine ⟨fun c hc => ?_, hserial.changes_once, ?_, first, hserial.head, hversion, hserial.replay⟩
  · obtain ⟨hid, hadmitted⟩ := h.admitted c hc
    have hverify := (ChangeRequest.letThrough_ok.mp hadmitted.letThrough).2.2
    refine ⟨hadmitted.account.symm.trans hid, ?_, hserial.read c hc, fun row hrow hv => ?_,
      (hserial.applied c hc).1⟩
    · rw [VersionToken.verify_true mac hverify, hid]
    · exact hserial.unique row hrow _ (hserial.read c hc) hv
  · have := hserial.version_last
    rw [show Answer.versioned.version first = 1 from hversion] at this
    exact this

/-- **No update is lost**, and a request that does not answer 204 changes nothing:
of its steps only the commit that answers changes a table. -/
theorem no_lost_update {T : Type} [DecidableEq T] (mac : VersionToken.Digest) (x : History T)
    (hx : Reaches mac Set.univ x) :
    (∀ account ∈ x.world.committed.customerAccount.rows, NoLostUpdate mac x account) ∧
    ∀ (step : Step T) y c, x.next (service mac) step = some y →
      x.world.running step.actor = some (.change c) →
      y.world.committed = x.world.committed ∨ (step = .commit step.actor ∧
        ∃ answer, answerOf (.change c) = some answer ∧ y.commits = x.commits ++ [.change c]) := by
  refine ⟨fun account ha => ?_, fun step y c hstep hc => ?_⟩
  · have hrecorded := (hx.tracked account.id).recorded
    rw [Database.findById_of_mem ha] at hrecorded
    exact hrecorded.noLostUpdate
  · obtain ⟨hnext, _, hcommits⟩ := Audit.next_some hstep
    rcases World.next_committed hnext with hsame | ⟨l, hstep, hl, hcommit⟩
    · exact .inl hsame
    · rw [hc] at hl
      cases hl
      obtain ⟨answer, hanswer⟩ := answerOf_of_commit hcommit
      refine .inr ⟨hstep, answer, hanswer, ?_⟩
      rw [hcommits, hstep, Audit.committer, hc]
      rfl

/-! ### A race -/

/-- Three requests read the first version: a renaming that commits, one that asks
for the name there is already and commits later, and a disabling that is stale. -/
def raceRun : List (Step Nat) :=
  let input : Input := ⟨5, []⟩
  let rename : CustomerAccountUpdate := .renamed
  let same : CustomerAccountUpdate := .kept
  let disable : CustomerAccountUpdate := .disabled
  [.begin 0 (.create .sample), .statement 0 input, .statement 0 input,
    .commit 0, .begin 1 (.change ⟨1, .patch rename, 9⟩), .begin 2 (.change ⟨1, .patch same, 3⟩),
    .begin 3 (.change ⟨1, .patch disable, 9⟩), .statement 1 input, .statement 2 input,
    .statement 3 input, .statement 1 input, .statement 1 input, .commit 1, .statement 2 input,
    .statement 3 input, .rollback 3, .commit 2]

theorem raceRun_serial : ∃ x : History Nat, ∃ account ∈ x.world.committed.customerAccount.rows,
    account.version = 2 ∧ (answers x account.id).length = 2 ∧ NoLostUpdate (fun _ => 0) x account := by
  have hrun : ((Audit.start (.empty openingCustomer) : History Nat).run (service fun _ => 0) raceRun).map
      (fun x => (x.world.committed.customerAccount.rows.map fun row =>
        (row.version, (answers x row.id).length))) = some [(2, 2)] := by decide
  obtain ⟨x, hx, hrows⟩ := Option.map_eq_some_iff.mp hrun
  obtain ⟨account, _, hlist, hfields, _⟩ := List.map_eq_cons_iff.mp hrows
  obtain ⟨hversion, hanswers⟩ := Prod.mk.inj hfields
  have ha : account ∈ x.world.committed.customerAccount.rows := hlist ▸ List.mem_cons_self
  refine ⟨x, account, ha, hversion, hanswers, (no_lost_update _ x ⟨openingCustomer, raceRun, ?_, hx⟩).1
    account ha⟩
  intro t e ht
  simp [raceRun] at ht

end Statement.System
