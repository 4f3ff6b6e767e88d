import Statement.Verification.Clean
import Statement.Verification.Run
import Statement.System.Sound

/-! The verifier among the other parties.

It takes no lock on the ledgers it reads. On a sound database its walk meets no
break, and what it has seen of a ledger stays the beginning of it, so the
checkpoints it writes are true when they are committed. -/
namespace Statement.System
open Domain Foundation Verification

variable {E : Set Payment.PaymentMessage} {H : Set Lock} {d d' s : Database}

/-! ### A sound database is verified clean -/

/-- A position in a journal: before its first row, or one of its rows. -/
def Standing (rows : List CustomerAccountLedger) (p : Position) : Prop :=
  p = ⟨0, .zero⟩ ∨ ∃ q ∈ rows, position q = p

theorem Standing.check_next {a : UUID} {rows : List CustomerAccountLedger} {p : Position}
    {r : CustomerAccountLedger} (h : AccountLedger E a rows) (hp : Standing rows p) (hr : r ∈ rows)
    (hle : p.no ≤ r.no) (hnext : r.no ≤ p.no + 1) : check p r = none := by
  have hone := h.journal.one_le hr
  rw [check_eq_none hle]
  rcases hp with rfl | ⟨q, hq, rfl⟩
  · have hno : r.no = 1 := by
      have : r.no ≤ 0 + 1 := hnext
      omega
    obtain ⟨hamount, hbalance, _⟩ := h.opening r hr hno
    exact .inr ⟨hno, by rw [hamount, hbalance]; rfl⟩
  · have hno : r.no = q.no ∨ r.no = q.no + 1 := by
      have h₁ : q.no ≤ r.no := hle
      have h₂ : r.no ≤ q.no + 1 := hnext
      omega
    rcases hno with hno | hno
    · exact .inl ⟨hno, congrArg _ (h.journal.no_injective hr hq hno)⟩
    · exact .inr ⟨hno, h.journal.balance_succ hq hr hno⟩

theorem target_standing (hs : Sound E d) {a : UUID} :
    Standing (d.ledgerOf a) (target a (d.findLatestCheckpoint a)).start := by
  cases hc : d.findLatestCheckpoint a with
  | none => exact .inl rfl
  | some c =>
    obtain ⟨hmem, _⟩ := head_orderBy_le hc
    obtain ⟨hmem, hca⟩ := List.mem_filter.mp hmem
    have hca : c.accountId = a := by simpa using hca
    obtain ⟨r, hr, hno, hbalance⟩ := hs.checkpoint c hmem
    exact .inr ⟨r, hca ▸ hr, by rw [position, hno, hbalance]; rfl⟩

theorem Standing.nonneg {a : UUID} {rows : List CustomerAccountLedger} {p : Position}
    (h : AccountLedger E a rows) (hp : Standing rows p) : 0 ≤ p.no := by
  rcases hp with rfl | ⟨q, hq, rfl⟩
  · exact le_rfl
  · exact (h.journal.one_le hq).trans' (by decide)

/-- Where a walk has got in its window when it comes to `r`. -/
theorem window_behind {p : BatchParams} {t : Target} {pre post : List CustomerAccountLedger}
    {r : CustomerAccountLedger} (hw : window d p t = pre ++ r :: post) :
    ((pre.getLast?.map position).getD t.start).no ≤ r.no ∧
      t.anchorNo ≤ ((pre.getLast?.map position).getD t.start).no ∧
      ∀ x ∈ pre, x.no ≤ ((pre.getLast?.map position).getD t.start).no := by
  have hmem : ∀ x ∈ pre ++ r :: post, t.anchorNo ≤ x.no := fun x hx => (mem_window (hw ▸ hx)).2
  have hsorted := window_sorted d p t
  rw [hw] at hsorted
  obtain ⟨hinit, _, hpre⟩ := List.pairwise_append.mp hsorted
  rcases List.eq_nil_or_concat pre with rfl | ⟨init, q, rfl⟩
  · exact ⟨hmem r (by simp), le_rfl, by simp⟩
  · rw [List.concat_eq_append] at hinit hpre hmem ⊢
    rw [List.getLast?_concat]
    refine ⟨le_of_lt (hpre q (by simp) r List.mem_cons_self), hmem q (by simp), fun x hx => ?_⟩
    rcases List.mem_append.mp hx with hx | hx
    · exact le_of_lt ((List.pairwise_append.mp hinit).2.2 x hx q (by simp))
    · rw [List.mem_singleton.mp hx]
      exact le_rfl

/-- **No false alarm**: on a sound database every walk is clean. -/
theorem pass_clean (hs : Sound E d) (p : BatchParams) (a : UUID) :
    ∃ last, pass d p (target a (d.findLatestCheckpoint a)) = .clean last := by
  set t := target a (d.findLatestCheckpoint a) with ht
  refine walk_clean_iff.mpr fun pre r post hw => ?_
  have hmem : r ∈ window d p t := hw ▸ by simp
  obtain ⟨hr, _⟩ := mem_window hmem
  have hledger := hs.ledger_of_mem hr
  have hstanding : Standing (d.ledgerOf a) ((pre.getLast?.map position).getD t.start) := by
    cases hl : pre.getLast? with
    | none => exact target_standing hs
    | some q =>
      have hq : q ∈ window d p t := hw ▸ List.mem_append_left _ (List.mem_of_getLast? hl)
      exact .inr ⟨q, (mem_window hq).1, rfl⟩
  have hzero := hstanding.nonneg hledger
  obtain ⟨hle, hanchor, hmax⟩ := window_behind hw
  refine hstanding.check_next hledger hr hle ?_
  -- were a number left out, the journal would have it and the window would too
  by_contra hgap
  obtain ⟨x, hx, hxn⟩ := hledger.journal.exists_no hr
    (n := ((pre.getLast?.map position).getD t.start).no + 1) (by omega) (by omega)
  have hxw := mem_window_of_le hx (show t.anchorNo ≤ x.no by omega) hmem (by omega)
  have hsorted := window_sorted d p t
  rw [hw] at hxw hsorted
  rcases List.mem_append.mp hxw with hxp | hxp
  · have := hmax x hxp
    omega
  · rcases List.mem_cons.mp hxp with rfl | hxp
    · omega
    · have := (List.pairwise_cons.mp (List.pairwise_append.mp hsorted).2.1).1 x hxp
      omega

/-- What a run on a sound snapshot may write: a checkpoint of a row it has seen. -/
def Truthful (s : Database) (w : Write) : Prop :=
  ∃ v, w = .verified v ∧ ∃ r ∈ s.ledgerOf v.accountId, r.no = v.lastGoodNo ∧
    r.balance = v.lastGoodBalance

theorem writes_truthful (hs : Sound E d) {p : BatchParams} {scan : List CustomerAccount}
    (hscan : scan.Perm d.customerAccount.rows) :
    ∀ w ∈ (finalSelect d p scan).flatMap writes, Truthful d w := by
  intro w hw
  obtain ⟨v, hv, hw⟩ := List.mem_flatMap.mp hw
  obtain ⟨t, ht, rfl⟩ := mem_finalSelect (Database.accountIds_nodup hscan) hv
  obtain ⟨a, _, hta, _⟩ := target_mem ht
  obtain ⟨last, hpass⟩ : ∃ last, walk check position t.start (window d p t) = .clean last :=
    hta ▸ pass_clean hs p a.id
  have hclean := (report_clean p t (window d p t)).mpr ⟨last, hpass⟩
  have hverified : w = .verified (report p t (window d p t)) := by
    simp only [writes, hclean, Option.isSome_none, Bool.false_eq_true, if_false, List.nil_append] at hw
    split at hw
    · exact List.mem_singleton.mp hw
    · cases hw
  obtain ⟨init, r, hrows⟩ := (List.eq_nil_or_concat _).resolve_left (window_ne_nil ht)
  rw [List.concat_eq_append] at hrows
  have hr : r ∈ window d p t := hrows ▸ by simp
  have hreached := report_reached p t (window d p t)
  have hlast : last = position r := by
    rw [walk_clean_last hpass, hrows, List.getLast?_concat]
    rfl
  rw [hpass, Walk.reached, hlast] at hreached
  refine ⟨_, hverified, r, ?_, (congrArg Position.no hreached).symm,
    (congrArg Position.balance hreached).symm⟩
  rw [report_accountId]
  exact (mem_window hr).1

/-! ### The verifier's contract -/

def VerifierHolds (d : Database) (v : Verifier) : Prop :=
  match v.phase with
  | .writing snapshot done todo =>
    (∀ a, snapshot.ledgerOf a <+: d.ledgerOf a) ∧ (∀ w ∈ done, Truthful snapshot w.1) ∧
      ∀ w ∈ todo, Truthful snapshot w
  | _ => True

/-- What a checkpoint leaves alone: every table but its own. -/
structure OnlyCheckpoints (d d' : Database) : Prop where
  customer : d'.customer = d.customer
  account : d'.customerAccount = d.customerAccount
  history : d'.customerAccountHistory = d.customerAccountHistory
  ledger : d'.customerAccountLedger = d.customerAccountLedger
  incident : d'.customerAccountLedgerDiscrepancy = d.customerAccountLedgerDiscrepancy

theorem OnlyCheckpoints.trans {d'' : Database} (h : OnlyCheckpoints d d')
    (h' : OnlyCheckpoints d' d'') : OnlyCheckpoints d d'' :=
  ⟨h'.customer.trans h.customer, h'.account.trans h.account, h'.history.trans h.history,
    h'.ledger.trans h.ledger, h'.incident.trans h.incident⟩

theorem OnlyCheckpoints.evolves (h : OnlyCheckpoints d d') : Evolves H d d' :=
  .of_eq h.customer h.account h.history h.ledger

/-- A truthful write is never refused; it adds its checkpoint or nothing. -/
theorem apply_truthful {w : Write} (h : Truthful s w) (now : Timestamp) :
    ∃ d', w.apply now d = some d' ∧ OnlyCheckpoints d d' ∧
      ∀ c ∈ d'.customerAccountLedgerVerified.rows, c ∈ d.customerAccountLedgerVerified.rows ∨
        ∃ r ∈ s.ledgerOf c.accountId, r.no = c.throughNo ∧ r.balance = c.balance := by
  obtain ⟨v, rfl, r, hr, hno, hbalance⟩ := h
  refine ⟨_, rfl, ⟨rfl, rfl, rfl, rfl, rfl⟩, fun c hc => ?_⟩
  rcases Table.mem_insertOrIgnore hc with hc | rfl
  · exact .inl hc
  · exact .inr ⟨r, hr, hno, hbalance⟩

/-- What `done` adds to the data, whatever the data is. -/
theorem applyAll_truthful {done : List (Write × Timestamp)} (h : ∀ w ∈ done, Truthful s w.1) :
    ∃ d', Verifier.applyAll done d = some d' ∧ OnlyCheckpoints d d' ∧
      ∀ c ∈ d'.customerAccountLedgerVerified.rows, c ∈ d.customerAccountLedgerVerified.rows ∨
        ∃ r ∈ s.ledgerOf c.accountId, r.no = c.throughNo ∧ r.balance = c.balance := by
  induction done generalizing d with
  | nil => exact ⟨d, rfl, ⟨rfl, rfl, rfl, rfl, rfl⟩, fun c hc => .inl hc⟩
  | cons w done ih =>
    obtain ⟨d₁, h₁, honly₁, hrows₁⟩ := apply_truthful (h w List.mem_cons_self) w.2 (d := d)
    obtain ⟨d₂, h₂, honly₂, hrows₂⟩ := ih (d := d₁) fun x hx => h x (List.mem_cons_of_mem w hx)
    refine ⟨d₂, ?_, honly₁.trans honly₂, fun c hc => ?_⟩
    · simp only [Verifier.applyAll, List.foldlM_cons, h₁, Option.bind_eq_bind, Option.bind_some]
      exact h₂
    · exact (hrows₂ c hc).elim (hrows₁ c) .inr

theorem verifier_statement {v v' : Verifier} {now : Timestamp} {scan : List CustomerAccount}
    {free : Lock → Bool} {ks : List Lock} (hs : Sound E d) (h : VerifierHolds d v)
    (hst : v.statement now scan d free = some (ks, v')) : VerifierHolds d v' := by
  obtain ⟨r, phase⟩ := v
  obtain ⟨r', phase'⟩ := v'
  obtain ⟨rfl, hstep⟩ := Verifier.statement_some hst
  cases hstep with
  | locked _ => exact trivial
  | skipped _ => exact trivial
  | read hscan _ => exact ⟨fun a => List.prefix_refl _, by simp, writes_truthful hs hscan⟩
  | outOfRange _ => exact trivial
  | refused _ _ => exact trivial
  | @written _ _ _ _ w _ _ _ =>
    obtain ⟨hpre, hdone, htodo⟩ := h
    refine ⟨hpre, fun x hx => ?_, fun x hx => htodo x (List.mem_cons_of_mem w hx)⟩
    rcases List.mem_append.mp hx with hx | hx
    · exact hdone x hx
    · rw [List.mem_singleton.mp hx]
      exact htodo w List.mem_cons_self

theorem verifier_ready {v : Verifier} {snapshot : Database} {done : List (Write × Timestamp)}
    (h : VerifierHolds d v) (hp : v.phase = .writing snapshot done []) : ∃ d', v.commit d = some d' := by
  obtain ⟨r, phase⟩ := v
  subst hp
  obtain ⟨d', hd', _⟩ := applyAll_truthful h.2.1 (d := d)
  exact ⟨d', hd'⟩

/-- What a run's commit adds: checkpoints of rows of its snapshot. -/
theorem verifier_committed {v : Verifier} (h : VerifierHolds d v) (hc : v.commit d = some d') :
    OnlyCheckpoints d d' ∧ ∀ c ∈ d'.customerAccountLedgerVerified.rows,
      c ∈ d.customerAccountLedgerVerified.rows ∨
        ∃ snapshot done, v.phase = .writing snapshot done [] ∧
          ∃ r ∈ snapshot.ledgerOf c.accountId, r.no = c.throughNo ∧ r.balance = c.balance := by
  rcases Verifier.commit_some hc with ⟨_, rfl⟩ | ⟨snapshot, done, hphase, happlied⟩
  · exact ⟨⟨rfl, rfl, rfl, rfl, rfl⟩, fun c hc => .inl hc⟩
  · rw [VerifierHolds, hphase] at h
    obtain ⟨d₁, h₁, honly, hrows⟩ := applyAll_truthful h.2.1 (d := d)
    have he : d₁ = d' := Option.some.inj (h₁.symm.trans happlied)
    subst he
    exact ⟨honly, fun c hcm => (hrows c hcm).imp_right fun hr => ⟨snapshot, done, hphase, hr⟩⟩

theorem verifier_commit {v : Verifier} (hs : Sound E d) (h : VerifierHolds d v)
    (hc : v.commit d = some d') : Sound E d' ∧ Evolves H d d' := by
  obtain ⟨honly, hrows⟩ := verifier_committed h hc
  have hledger := Database.ledgerOf_congr honly.ledger
  have hfind := Database.findById_congr honly.account
  refine ⟨⟨fun a x hx => ?_, fun a hnone => ?_, fun c hcm => ?_, honly.incident ▸ hs.noIncident⟩,
    honly.evolves⟩
  · rw [hledger]
    exact hs.ledger a x (hfind a ▸ hx)
  · rw [hledger]
    exact hs.owned a (hfind a ▸ hnone)
  · rw [hledger]
    rcases hrows c hcm with hold | ⟨snapshot, done, hp, r, hr, hrc⟩
    · exact hs.checkpoint c hold
    · obtain ⟨q, phase⟩ := v
      subst hp
      exact ⟨r, (h.1 _).subset hr, hrc⟩

theorem verifier_stable {v : Verifier} (hg : Evolves H d d') (h : VerifierHolds d v) :
    VerifierHolds d' v := by
  obtain ⟨r, phase⟩ := v
  cases phase with
  | writing snapshot done todo =>
    exact ⟨fun a => (h.1 a).trans (hg.ledgerGrows a), h.2.1, h.2.2⟩
  | begun => exact trivial
  | locked => exact trivial
  | skipped => exact trivial
  | raised => exact trivial

end Statement.System
