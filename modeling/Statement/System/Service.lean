import Statement.Foundation.Transaction
import Statement.System.Accounts
import Statement.System.Payments
import Statement.System.Verifiers

/-! The service: every party on one database.

The parties are the requests that create and change accounts, the payment jobs
and the verifier's runs, any number of each at a time. `contract` puts their
step lemmas together, so that the invariant holds in every state that any
interleaving of their statements reaches. -/
namespace Statement.System
open Domain Foundation Account Payment Verification

inductive Request where
  | create (c : CustomerAccountCreate)
  | change (r : ChangeRequest)
  | payment (e : CreatePayment)
  | verify (r : VerifierRequest)

inductive Party where
  | create (c : Create)
  | change (c : Change)
  | payment (j : Job)
  | verify (v : Verifier)

/-- What a statement is given from outside: the time, and the order in which the
batch query reads the account table. -/
structure Input where
  now : Timestamp
  scan : List CustomerAccount

namespace Party

def start : Request → Party
  | .create c => .create ⟨c, .begun⟩
  | .change r => .change ⟨r, .begun⟩
  | .payment e => .payment ⟨e, .begun⟩
  | .verify r => .verify ⟨r, .begun⟩

def statement (mac : VersionToken.Digest) (i : Input) (d : Database) (free : Lock → Bool) :
    Party → Option (List Lock × Party)
  | .create c => (c.statement d).map fun x => (x.1, .create x.2)
  | .change c => (c.statement mac i.now d).map fun x => (x.1, .change x.2)
  | .payment j => (j.statement i.now d).map fun x => (x.1, .payment x.2)
  | .verify v => (v.statement i.now i.scan d free).map fun x => (x.1, .verify x.2)

def commit (d : Database) : Party → Option Database
  | .create c => c.commit d
  | .change c => c.commit d
  | .payment j => j.commit d
  | .verify v => v.commit d

/-- A party's statement is one of its own, and leaves it the party that it is. -/
inductive Steps (mac : VersionToken.Digest) (i : Input) (d : Database) (free : Lock → Bool) (ks : List Lock) :
    Party → Party → Prop
  | create {c c' : Create} (h : c.statement d = some (ks, c')) : Steps mac i d free ks (.create c) (.create c')
  | change {c c' : Change} (h : c.statement mac i.now d = some (ks, c')) :
    Steps mac i d free ks (.change c) (.change c')
  | payment {j j' : Job} (h : j.statement i.now d = some (ks, j')) :
    Steps mac i d free ks (.payment j) (.payment j')
  | verify {v v' : Verifier} (h : v.statement i.now i.scan d free = some (ks, v')) :
    Steps mac i d free ks (.verify v) (.verify v')

theorem statement_some {mac : VersionToken.Digest} {i : Input} {d : Database} {free : Lock → Bool} {ks : List Lock}
    {l l' : Party} (h : l.statement mac i d free = some (ks, l')) : Steps mac i d free ks l l' := by
  cases l with
  | create c =>
    obtain ⟨x, hx, he⟩ := Option.map_eq_some_iff.mp h
    cases he
    exact .create hx
  | change c =>
    obtain ⟨x, hx, he⟩ := Option.map_eq_some_iff.mp h
    cases he
    exact .change hx
  | payment j =>
    obtain ⟨x, hx, he⟩ := Option.map_eq_some_iff.mp h
    cases he
    exact .payment hx
  | verify v =>
    obtain ⟨x, hx, he⟩ := Option.map_eq_some_iff.mp h
    cases he
    exact .verify hx

/-- Every statement of the party has run; only the commit is left. -/
def ready : Party → Prop
  | .create c => c.phase = .flushed
  | .change c => (∃ loaded, c.phase = .unchanged loaded) ∨
      ∃ loaded current history at_, c.phase = .archived loaded current history at_
  | .payment j => j.phase = .duplicate ∨ ∃ row, j.phase = .flushed row
  | .verify v => v.phase = .skipped ∨ ∃ snapshot done, v.phase = .writing snapshot done []

end Party

def service (mac : VersionToken.Digest) : Program Request Database Party Lock Input where
  start := Party.start
  statement := Party.statement mac
  commit := Party.commit

abbrev Service (T : Type) := World T Database Party Lock

abbrev Step (T : Type) := Action T Request Input

/-- The payment requests are commands that the two subscribers enqueue for `E`. -/
def Enqueued (E : Set PaymentMessage) : Request → Prop
  | .payment e => ∃ m ∈ E, m.command = e
  | _ => True

def PartyHolds (mac : VersionToken.Digest) (E : Set PaymentMessage) (H : Set Lock) (d : Database) :
    Party → Prop
  | .create c => CreateHolds H d c
  | .change c => ChangeHolds mac H d c
  | .payment j => JobHolds E H d j
  | .verify v => VerifierHolds d v

def contract (mac : VersionToken.Digest) (E : Set PaymentMessage) :
    Contract (service mac) (Enqueued E) where
  Inv := Sound E
  Holds := PartyHolds mac E
  Guarantee := Evolves
  start := by
    intro r d hr _
    cases r with
    | create c => exact trivial
    | change r => exact trivial
    | payment e => exact ⟨hr, trivial⟩
    | verify r => exact trivial
  statement := by
    intro i d free H l ks l' hs h hst
    cases Party.statement_some hst with
    | create hc => exact create_statement h hc
    | change hc => exact change_statement h hc
    | payment hj => exact job_statement hs h hj
    | verify hv => exact verifier_statement hs h hv
  commit := by
    intro d H l d' hs h hc
    cases l with
    | create c => exact create_commit hs h hc
    | change c => exact change_commit hs h hc
    | payment j => exact job_commit hs h hc
    | verify v => exact verifier_commit hs h hc
  stable := by
    intro d d' H H' l _ hg hcompatible h
    cases l with
    | create c => exact create_stable hg hcompatible h
    | change c => exact change_stable hg hcompatible h
    | payment j => exact job_stable hg hcompatible h
    | verify v => exact verifier_stable hg h

section
variable {T : Type} [DecidableEq T] {mac : VersionToken.Digest} {E : Set PaymentMessage}

/-- The service before its first account. -/
def initial (T : Type) (customer : Table Customer Customer.clash) : Service T :=
  World.initial (.empty customer)

/-- A run whose payment jobs are commands of `E`. -/
def RunsFrom (mac : VersionToken.Digest) (E : Set PaymentMessage) (w : Service T) (as : List (Step T))
    (w' : Service T) : Prop :=
  (∀ t e, Action.begin t (.payment e) ∈ as → ∃ m ∈ E, m.command = e) ∧
    w.run (service mac) as = some w'

/-- A state that the service reaches from an empty ledger. -/
def Reachable (mac : VersionToken.Digest) (E : Set PaymentMessage) (w : Service T) : Prop :=
  ∃ customer as, RunsFrom mac E (initial T customer) as w

theorem RunsFrom.allowed {w w' : Service T} {as : List (Step T)} (h : RunsFrom mac E w as w') :
    ∀ t r, Action.begin t r ∈ as → Enqueued E r := by
  intro t r hr
  cases r with
  | payment e => exact h.1 t e hr
  | create c => exact trivial
  | change r => exact trivial
  | verify r => exact trivial

theorem RunsFrom.valid {w w' : Service T} {as : List (Step T)} (h : RunsFrom mac E w as w')
    (hw : (contract mac E).Valid w) : (contract mac E).Valid w' :=
  (contract mac E).valid_run hw as h.allowed h.2

theorem Reachable.valid {w : Service T} (h : Reachable mac E w) : (contract mac E).Valid w := by
  obtain ⟨customer, as, hrun⟩ := h
  exact hrun.valid ((contract mac E).valid_initial _ (.empty customer))

theorem Reachable.sound {w : Service T} (h : Reachable mac E w) : Sound E w.committed := h.valid.inv

/-- One more step of the service. -/
theorem Reachable.step {w w' : Service T} (h : Reachable mac E w) (a : Step T)
    (ha : ∀ t e, a = .begin t (.payment e) → ∃ m ∈ E, m.command = e)
    (hw : w.next (service mac) a = some w') : Reachable mac E w' := by
  obtain ⟨customer, as, henqueued, hrun⟩ := h
  refine ⟨customer, as ++ [a], fun t e ht => ?_, ?_⟩
  · rcases List.mem_append.mp ht with ht | ht
    · exact henqueued t e ht
    · exact ha t e (List.mem_singleton.mp ht).symm
  · rw [World.run_append, hrun]
    simp only [Option.bind_some, World.run, hw]

/-- Ledgers grow along every run. -/
theorem RunsFrom.ledgerGrows {w w' : Service T} {as : List (Step T)} (h : RunsFrom mac E w as w')
    (hw : (contract mac E).Valid w) (a : UUID) :
    w.committed.ledgerOf a <+: w'.committed.ledgerOf a :=
  (contract mac E).run_rel (fun d d' => d.ledgerOf a <+: d'.ledgerOf a) (fun _ => List.prefix_refl _)
    (fun _ _ _ => List.IsPrefix.trans) (fun _ _ _ _ hg => hg.ledgerGrows a) hw as h.allowed h.2

/-- **No transaction is stuck**: whoever has run all its statements can commit. -/
theorem Reachable.commits {w : Service T} (h : Reachable mac E w) {t : T} {l : Party}
    (hl : w.running t = some l) (hready : l.ready) : ∃ w', w.next (service mac) (.commit t) = some w' := by
  have hs := h.sound
  have hh := h.valid.holds t l hl
  have hcommit : ∃ d, l.commit w.committed = some d := by
    cases l with
    | create c => exact create_ready hs hh hready
    | change c =>
      obtain ⟨request, phase⟩ := c
      rcases hready with ⟨loaded, hp⟩ | ⟨loaded, current, history, at_, hp⟩
      · cases hp
        exact ⟨_, rfl⟩
      · exact change_ready hh hp
    | payment j =>
      obtain ⟨e, phase⟩ := j
      rcases hready with hp | ⟨row, hp⟩
      · cases hp
        exact ⟨_, rfl⟩
      · exact job_ready hs hh hp
    | verify v =>
      obtain ⟨request, phase⟩ := v
      rcases hready with hp | ⟨snapshot, done, hp⟩
      · cases hp
        exact ⟨_, rfl⟩
      · exact verifier_ready hh hp
  obtain ⟨d, hd⟩ := hcommit
  exact ⟨w.finish t d, by simp [World.next, hl, service, hd]⟩

end

end Statement.System
