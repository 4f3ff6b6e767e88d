import Statement.Foundation.Waiting
import Statement.System.Serial

/-! Who waits for whom in the service.

A creation claims its keys, and a change or a payment locks its account's row, before
it holds anything, and takes afterwards only what nobody else can hold: an entry of the
account's ledger or history that belongs to the owner of the account's row. A run gets
its schedule's advisory lock or ends. It writes tables that only runs write, but the
foreign keys of its rows lock their accounts, for which it waits while a payment has
one `FOR UPDATE`; and payments wait for the run, before they hold anything. So the
service is `Ranked`: whoever holds nothing waits for anybody, a run for payments that
have their row, and these for nobody. -/
namespace Statement.System
open Domain Foundation Account Payment Verification

variable {mac : VersionToken.Digest} {E : Set PaymentMessage} {H H' : Set Lock} {d d' : Database}
  {scheduleId : Nat} {l l' : Party}

namespace Party

/-- Who has no lock, as far as it has got. -/
def bare : Party → Bool
  | create ⟨_, .begun⟩ | create ⟨_, .raised⟩ => true
  | change ⟨_, .begun⟩ | change ⟨_, .assigned _ _⟩ | change ⟨_, .unchanged _⟩ => true
  | payment ⟨_, .begun⟩ => true
  | verify ⟨_, .begun⟩ | verify ⟨_, .skipped⟩ => true
  | _ => false

/-- Who can only roll back. -/
def failed : Party → Prop
  | create c => c.phase = .raised
  | change c => ∃ f, c.phase = .raised f
  | payment j => ∃ f, j.phase = .raised f
  | verify v => v.phase = .raised

/-- Whoever waits ranks above whom it waits for. -/
def rank : Party → Nat
  | verify _ => 1
  | l => if l.bare then 2 else 0

/-- The account that the party creates. -/
def creates : Party → Option UUID
  | create c => some c.request.entityId
  | _ => none

def pays : Party → Bool
  | payment _ => true
  | _ => false

theorem rank_le_one (h : l.bare = false) : l.rank ≤ 1 := by
  cases l with
  | verify v => exact le_rfl
  | _ => simp [rank, h]

theorem rank_of_pays (hbare : l.bare = false) (hpays : l.pays = true) : l.rank = 0 := by
  cases l with
  | payment j => simp [rank, hbare]
  | _ => cases hpays

theorem rank_le_two (l : Party) : l.rank ≤ 2 := by
  cases hbare : l.bare with
  | false => exact (rank_le_one hbare).trans one_le_two
  | true => cases l <;> simp [rank, hbare]

/-- Only a run ranks in between. -/
theorem verify_of_rank (h : l.rank = 1) : ∃ v, l = verify v := by
  cases l with
  | verify v => exact ⟨v, rfl⟩
  | _ =>
    simp only [rank] at h
    split at h <;> cases h

end Party

/-! ### What a holder holds besides -/

/-- Whose lock it is, and what its holder holds besides or knows. -/
def Guard (scheduleId : Nat) (H : Set Lock) (d : Database) (l : Party) : Lock → Prop
  | .ledgerKey a _ | .operationKey a _ => .accountRow a ∈ H ∨ .accountKey a ∈ H
  | .historyKey a _ => .accountRow a ∈ H
  | .verifiedKey _ _ | .openDiscrepancyKey _ | .accountRowShare _ => .advisory scheduleId ∈ H
  | .accountRow a => d.findById a ≠ none
  | .accountRowKey _ => l.pays = true
  | .accountKey a => l.creates = some a
  | _ => True

structure Guarded (scheduleId : Nat) (H : Set Lock) (d : Database) (l : Party) : Prop where
  guards : ∀ k ∈ H, Guard scheduleId H d l k
  bare : l.bare = true → H = ∅

theorem Guard.mono {k : Lock} (h : Guard scheduleId H d l k) (hH : H ⊆ H') (hcreates : l'.creates = l.creates)
    (hpays : l'.pays = l.pays) : Guard scheduleId H' d l' k := by
  cases k with
  | ledgerKey a n => exact h.imp (@hH _) (@hH _)
  | operationKey a o => exact h.imp (@hH _) (@hH _)
  | historyKey a v => exact hH h
  | verifiedKey a n => exact hH h
  | openDiscrepancyKey a => exact hH h
  | accountRowShare a => exact hH h
  | accountRow a => exact h
  | accountRowKey a => exact hpays.trans h
  | accountKey a => exact hcreates.trans h
  | customerCurrency c k => exact trivial
  | discrepancyRow i => exact trivial
  | advisory i => exact trivial

namespace Guarded

/-- Taking locks whose guards hold. -/
theorem take {ks : List Lock} (h : Guarded scheduleId H d l) (hcreates : l'.creates = l.creates)
    (hpays : l'.pays = l.pays) (hguards : ∀ k ∈ ks, Guard scheduleId (H ∪ {k | k ∈ ks}) d l' k)
    (hbare : l'.bare = false) : Guarded scheduleId (H ∪ {k | k ∈ ks}) d l' := by
  refine ⟨fun k hk => ?_, fun htrue => by rw [hbare] at htrue; cases htrue⟩
  rcases hk with hk | hk
  · exact (h.guards k hk).mono Set.subset_union_left hcreates hpays
  · exact hguards k hk

/-- Taking nothing. -/
theorem keep (h : Guarded scheduleId H d l) (hcreates : l'.creates = l.creates) (hpays : l'.pays = l.pays)
    (hbare : l'.bare = true → l.bare = true) : Guarded scheduleId (H ∪ {k | k ∈ ([] : List Lock)}) d l' := by
  have hsame : H ∪ {k | k ∈ ([] : List Lock)} = H := by simp
  rw [hsame]
  exact ⟨fun k hk => (h.guards k hk).mono (fun _ hk => hk) hcreates hpays, fun htrue => h.bare (hbare htrue)⟩

theorem not_bare {k : Lock} (h : Guarded scheduleId H d l) (hk : k ∈ H) : l.bare = false := by
  cases hbare : l.bare with
  | false => rfl
  | true =>
    rw [h.bare hbare] at hk
    cases hk

theorem rank_lt_two {k : Lock} (h : Guarded scheduleId H d l) (hk : k ∈ H) : l.rank < 2 :=
  Nat.lt_succ_of_le (Party.rank_le_one (h.not_bare hk))

end Guarded

theorem guarded_create {c c' : Create} {ks : List Lock} (hs : Sound E d)
    (hholds : CreateHolds H d c) (h : Guarded scheduleId H d (.create c))
    (hst : c.statement d = some (ks, c')) :
    Guarded scheduleId (H ∪ {k | k ∈ ks}) d (.create c') := by
  obtain ⟨r, phase⟩ := c
  cases phase with
  | begun =>
    simp only [Create.statement] at hst
    split at hst
    · cases hst
      refine h.take rfl rfl (fun k hk => ?_) rfl
      simp only [List.mem_cons, List.not_mem_nil, or_false] at hk
      rcases hk with rfl | rfl
      · exact rfl
      · exact trivial
    · cases hst
      exact h.keep rfl rfl fun _ => rfl
  | inserted =>
    have hclaimed : Claimed H d r := hholds
    simp only [Create.statement] at hst
    split at hst
    · rename_i hconflict
      obtain ⟨b, hb, hba, _⟩ := hconflict
      have hmem : b ∈ d.ledgerOf r.entityId := Database.mem_ledgerOf.mpr ⟨hb, hba⟩
      rw [hs.owned _ hclaimed.absent] at hmem
      cases hmem
    · cases hst
      refine h.take rfl rfl (fun k hk => ?_) rfl
      simp only [List.mem_cons, List.not_mem_nil, or_false] at hk
      rcases hk with rfl | rfl <;> exact .inr (.inl hclaimed.key)
  | flushed => cases hst
  | raised => cases hst

theorem guarded_change {c c' : Change} {now : Timestamp} {ks : List Lock}
    (hholds : ChangeHolds mac H d c) (h : Guarded scheduleId H d (.change c))
    (hst : c.statement mac now d = some (ks, c')) :
    Guarded scheduleId (H ∪ {k | k ∈ ks}) d (.change c') := by
  have hafter : ChangeHolds mac (H ∪ {k | k ∈ ks}) d c' := change_statement hholds hst
  obtain ⟨r, phase⟩ := c
  obtain ⟨r', phase'⟩ := c'
  obtain ⟨rfl, hstep⟩ := Change.statement_some mac hst
  cases hstep with
  | refused _ => exact h.keep rfl rfl fun hbare => by cases hbare
  | read _ => exact h.keep rfl rfl fun _ => rfl
  | kept _ => exact h.keep rfl rfl fun _ => rfl
  | stale _ _ => exact h.keep rfl rfl fun hbare => by cases hbare
  | @updated loaded current _ _ _ _ =>
    have hmatched : Matched mac _ d r' loaded _ _ now := hafter
    refine h.take rfl rfl (fun k hk => ?_) rfl
    rw [List.mem_singleton.mp hk]
    show d.findById loaded.id ≠ none
    rw [hmatched.row]
    exact Option.some_ne_none _
  | conflicting _ => exact h.keep rfl rfl fun hbare => by cases hbare
  | @archived loaded _ _ _ _ =>
    have hmatched : Matched mac H d r' loaded _ _ _ := hholds
    refine h.take rfl rfl (fun k hk => ?_) rfl
    rw [List.mem_singleton.mp hk]
    exact .inl hmatched.lock

theorem guarded_payment {j j' : Job} {now : Timestamp} {ks : List Lock} (hs : Sound E d)
    (hholds : JobHolds E H d j) (h : Guarded scheduleId H d (.payment j))
    (hst : j.statement now d = some (ks, j')) :
    Guarded scheduleId (H ∪ {k | k ∈ ks}) d (.payment j') := by
  have hafter : JobHolds E (H ∪ {k | k ∈ ks}) d j' := job_statement hs hholds hst
  obtain ⟨e, phase⟩ := j
  cases phase with
  | begun =>
    simp only [Job.statement] at hst
    split at hst
    · cases hst
      exact h.keep rfl rfl fun hbare => by cases hbare
    · rename_i account hfound
      cases hst
      refine h.take rfl rfl (fun k hk => ?_) (by split <;> rfl)
      simp only [Lock.forUpdate, List.mem_cons, List.not_mem_nil, or_false] at hk
      rcases hk with rfl | rfl
      · show d.findById e.accountId ≠ none
        rw [hfound]
        exact Option.some_ne_none _
      · exact rfl
  | locked =>
    simp only [Job.statement, Option.some.injEq, Prod.mk.injEq] at hst
    obtain ⟨rfl, rfl⟩ := hst
    exact h.keep rfl rfl fun hbare => by split at hbare <;> cases hbare
  | unseen =>
    simp only [Job.statement] at hst
    split at hst
    · cases hst
      exact h.keep rfl rfl fun hbare => by cases hbare
    · cases hst
      exact h.keep rfl rfl fun hbare => by split at hbare <;> cases hbare
  | following previous =>
    have hlock : Lock.accountRow e.accountId ∈ H := hholds.phase.1.1
    simp only [Job.statement] at hst
    split at hst
    · cases hst
      exact h.keep rfl rfl fun hbare => by cases hbare
    · split at hst
      · cases hst
        exact h.keep rfl rfl fun hbare => by cases hbare
      · cases hst
        obtain ⟨_, _, haccount, _⟩ := flushed_row hafter.enqueued hafter.phase
        refine h.take rfl rfl (fun k hk => ?_) rfl
        simp only [List.mem_cons, List.not_mem_nil, or_false] at hk
        rcases hk with rfl | rfl <;> exact .inl (.inl (haccount ▸ hlock))
  | flushed row => cases hst
  | duplicate => cases hst
  | raised f => cases hst

/-- What a run's writes lock: an entry of a table that only runs write, and the account
that it refers to. -/
theorem mem_locks (scheduleId : Nat) {w : Write} {k : Lock} (hk : k ∈ w.locks d') :
    (∀ H d l, Guard scheduleId H d l k ↔ .advisory scheduleId ∈ H) ∧
      (conflicts k = [k] ∨ ∃ a, conflicts k = [.accountRowKey a]) := by
  cases w with
  | discrepancy v =>
    simp only [Write.locks] at hk
    split at hk
    · cases hk
    · simp only [List.mem_cons, List.not_mem_nil, or_false] at hk
      rcases hk with rfl | rfl
      · exact ⟨fun _ _ _ => .rfl, .inl rfl⟩
      · exact ⟨fun _ _ _ => .rfl, .inr ⟨_, rfl⟩⟩
  | verified v =>
    simp only [Write.locks] at hk
    split at hk
    · cases hk
    · simp only [List.mem_cons, List.not_mem_nil, or_false] at hk
      rcases hk with rfl | rfl
      · exact ⟨fun _ _ _ => .rfl, .inl rfl⟩
      · exact ⟨fun _ _ _ => .rfl, .inr ⟨_, rfl⟩⟩

theorem guarded_verify {v v' : Verifier} {now : Timestamp} {scan : List CustomerAccount}
    {free : Lock → Bool} {ks : List Lock} (hexclusive : Exclusive scheduleId H v)
    (h : Guarded scheduleId H d (.verify v)) (hst : v.statement now scan d free = some (ks, v')) :
    Guarded scheduleId (H ∪ {k | k ∈ ks}) d (.verify v') := by
  obtain ⟨r, phase⟩ := v
  obtain ⟨r', phase'⟩ := v'
  obtain ⟨rfl, hstep⟩ := Verifier.statement_some hst
  cases hstep with
  | locked _ =>
    refine h.take rfl rfl (fun k hk => ?_) rfl
    rw [List.mem_singleton.mp hk]
    exact trivial
  | skipped _ => exact h.keep rfl rfl fun _ => rfl
  | read _ _ => exact h.keep rfl rfl fun hbare => by cases hbare
  | outOfRange _ => exact h.keep rfl rfl fun hbare => by cases hbare
  | refused _ _ => exact h.keep rfl rfl fun hbare => by cases hbare
  | @written _ d₁ _ _ w _ _ _ =>
    have hlock : Lock.advisory scheduleId ∈ H := hexclusive
    exact h.take rfl rfl (fun k hk => ((mem_locks _ hk).1 _ _ _).mpr (.inl hlock)) rfl

/-- The service's contract, and what the holders of locks hold besides. -/
def waitingContract (mac : VersionToken.Digest) (E : Set PaymentMessage) (scheduleId : Nat) :
    Contract (service mac) (Scheduled E scheduleId) where
  Inv := Sound E
  Holds H d l := SerialHolds mac E scheduleId H d l ∧ Guarded scheduleId H d l
  Guarantee := Evolves
  start r d hr hs := ⟨(serialContract mac E scheduleId).start r d hr hs,
    fun _ hk => absurd hk (Set.notMem_empty _), fun _ => rfl⟩
  statement := by
    intro i d free H l ks l' hs h hst
    refine ⟨(serialContract mac E scheduleId).statement i d free H l ks l' hs h.1 hst, ?_⟩
    cases Party.statement_some hst with
    | create hc => exact guarded_create hs h.1.1 h.2 hc
    | change hc => exact guarded_change h.1 h.2 hc
    | payment hj => exact guarded_payment hs h.1 h.2 hj
    | verify hv => exact guarded_verify h.1.2.2 h.2 hv
  commit d H l d' hs h hc := (contract mac E).commit d H l d' hs h.1.partyHolds hc
  stable := by
    intro d d' H H' l hs hg hcompatible h
    refine ⟨(serialContract mac E scheduleId).stable d d' H H' l hs hg hcompatible h.1, ?_, h.2.bare⟩
    intro k hk
    have hguard := h.2.guards k hk
    cases k with
    | accountRow a =>
      intro hnone
      obtain ⟨row, hrow⟩ := Option.ne_none_iff_exists'.mp hguard
      obtain ⟨row', hrow', _⟩ := hg.account a row hrow
      rw [hnone] at hrow'
      cases hrow'
    | _ => exact hguard

/-- An entry that a row of the account's ledger claims. -/
def LedgerLock (a : UUID) (k : Lock) : Prop := (∃ n, k = .ledgerKey a n) ∨ ∃ o, k = .operationKey a o

theorem LedgerLock.conflicts {a : UUID} {k k' : Lock} (h : LedgerLock a k) (hk' : k' ∈ conflicts k) :
    k' = k := by
  rcases h with ⟨n, rfl⟩ | ⟨o, rfl⟩ <;> exact List.mem_singleton.mp hk'

theorem Guarded.owner (h : Guarded scheduleId H d l) {a : UUID} {k : Lock} (hledger : LedgerLock a k)
    (hk : k ∈ H) : .accountRow a ∈ H ∨ .accountKey a ∈ H := by
  rcases hledger with ⟨n, rfl⟩ | ⟨o, rfl⟩
  · exact h.guards _ hk
  · exact h.guards _ hk

/-- An account whose key is held is not there yet. -/
theorem Guarded.absent (h : Guarded scheduleId H d l) (hholds : SerialHolds mac E scheduleId H d l)
    {a : UUID} (hkey : .accountKey a ∈ H) : d.findById a = none := by
  have hcreates : l.creates = some a := h.guards _ hkey
  have hbare : l.bare = false := h.not_bare hkey
  cases l with
  | create c =>
    obtain rfl : c.request.entityId = a := Option.some.inj hcreates
    obtain ⟨r, phase⟩ := c
    have hcreate : CreateHolds H d ⟨r, phase⟩ := hholds.1
    cases phase with
    | begun => cases hbare
    | inserted => exact Claimed.absent hcreate
    | flushed => exact Claimed.absent hcreate
    | raised => cases hbare
  | change c => cases hcreates
  | payment j => cases hcreates
  | verify v => cases hcreates

/-! ### Who waits for whom -/

section
variable {m : Party} (h' : Guarded scheduleId H' d m) (hcompatible : Compatible H H')
include h' hcompatible

theorem create_ranked {c c' : Create} {ks : List Lock} (hholds : CreateHolds H d c)
    (hst : c.statement d = some (ks, c')) :
    ∀ k ∈ ks, ∀ k' ∈ conflicts k, k' ∈ H' → m.rank < (Party.create c).rank := by
  obtain ⟨r, phase⟩ := c
  intro k hk k' hk' hheld
  cases phase with
  | begun => exact h'.rank_lt_two hheld
  | inserted =>
    -- an entry of the new account's ledger belongs to whoever holds the account's key
    have hclaimed : Claimed H d r := hholds
    exfalso
    simp only [Create.statement] at hst
    split at hst
    · cases hst
      cases hk
    · cases hst
      have hledger : LedgerLock r.entityId k := by
        simp only [List.mem_cons, List.not_mem_nil, or_false] at hk
        exact hk.imp (fun he => ⟨1, he⟩) fun he => ⟨_, he⟩
      obtain rfl := hledger.conflicts hk'
      rcases h'.owner hledger hheld with hrow | hkey
      · exact h'.guards _ hrow hclaimed.absent
      · exact hcompatible.exclusive List.mem_cons_self hclaimed.key hkey
  | flushed => cases hst
  | raised => cases hst

theorem change_ranked {c c' : Change} {now : Timestamp} {ks : List Lock} (hholds : ChangeHolds mac H d c)
    (hst : c.statement mac now d = some (ks, c')) :
    ∀ k ∈ ks, ∀ k' ∈ conflicts k, k' ∈ H' → m.rank < (Party.change c).rank := by
  obtain ⟨r, phase⟩ := c
  obtain ⟨r', phase'⟩ := c'
  obtain ⟨rfl, hstep⟩ := Change.statement_some mac hst
  intro k hk k' hk' hheld
  cases hstep with
  | updated _ _ => exact h'.rank_lt_two hheld
  | @archived loaded _ _ _ _ =>
    have hmatched : Matched mac H d r' loaded _ _ _ := hholds
    exfalso
    rw [List.mem_singleton.mp hk] at hk'
    rw [List.mem_singleton.mp hk'] at hheld
    have hrow : Lock.accountRow loaded.id ∈ H' := h'.guards _ hheld
    exact hcompatible.exclusive List.mem_cons_self hmatched.lock hrow
  | refused _ => cases hk
  | read _ => cases hk
  | kept _ => cases hk
  | stale _ _ => cases hk
  | conflicting _ => cases hk

theorem payment_ranked {j j' : Job} {now : Timestamp} {ks : List Lock} (hs : Sound E d)
    (hholds' : SerialHolds mac E scheduleId H' d m) (hholds : JobHolds E H d j)
    (hst : j.statement now d = some (ks, j')) :
    ∀ k ∈ ks, ∀ k' ∈ conflicts k, k' ∈ H' → m.rank < (Party.payment j).rank := by
  have hafter : JobHolds E (H ∪ {k | k ∈ ks}) d j' := job_statement hs hholds hst
  obtain ⟨e, phase⟩ := j
  intro k hk k' hk' hheld
  cases phase with
  | begun => exact h'.rank_lt_two hheld
  | locked =>
    simp only [Job.statement, Option.some.injEq, Prod.mk.injEq] at hst
    obtain ⟨rfl, _⟩ := hst
    cases hk
  | unseen =>
    simp only [Job.statement] at hst
    split at hst <;> (cases hst; cases hk)
  | following previous =>
    -- an entry of the account's ledger belongs to whoever has the account's row
    obtain ⟨⟨hlock, account, hfound, _⟩, _⟩ := hholds.phase
    exfalso
    simp only [Job.statement] at hst
    split at hst
    · cases hst
      cases hk
    · split at hst
      · cases hst
        cases hk
      · cases hst
        obtain ⟨_, _, haccount, _⟩ := flushed_row hafter.enqueued hafter.phase
        have hledger : LedgerLock e.accountId k := by
          simp only [List.mem_cons, List.not_mem_nil, or_false, haccount] at hk
          exact hk.imp (fun he => ⟨_, he⟩) fun he => ⟨_, he⟩
        obtain rfl := hledger.conflicts hk'
        rcases h'.owner hledger hheld with hrow | hkey
        · exact hcompatible.exclusive List.mem_cons_self hlock hrow
        · rw [h'.absent hholds' hkey] at hfound
          cases hfound
  | flushed row => cases hst
  | duplicate => cases hst
  | raised f => cases hst

/-- A run waits for payments that have a row it refers to. -/
theorem verify_ranked {v v' : Verifier} {now : Timestamp} {scan : List CustomerAccount}
    {free : Lock → Bool} {ks : List Lock} (hfree : ∀ k, free k = true → ∀ k' ∈ conflicts k, k' ∉ H')
    (hexclusive : Exclusive scheduleId H v) (hst : v.statement now scan d free = some (ks, v')) :
    ∀ k ∈ ks, ∀ k' ∈ conflicts k, k' ∈ H' → m.rank < (Party.verify v).rank := by
  obtain ⟨r, phase⟩ := v
  obtain ⟨r', phase'⟩ := v'
  obtain ⟨rfl, hstep⟩ := Verifier.statement_some hst
  intro k hk k' hk' hheld
  cases hstep with
  | locked hgot =>
    rw [List.mem_singleton.mp hk] at hk'
    exact absurd hheld (hfree _ hgot k' hk')
  | @written _ d₁ _ _ w _ _ _ =>
    have hlock : Lock.advisory scheduleId ∈ H := hexclusive
    obtain ⟨hguard, hconflicts | ⟨a, hconflicts⟩⟩ := mem_locks scheduleId hk
    · -- what only runs take: the other one would have the advisory lock too
      rw [hconflicts] at hk'
      rw [List.mem_singleton.mp hk'] at hheld
      have hother : Lock.advisory scheduleId ∈ H' := (hguard H' d m).mp (h'.guards k hheld)
      exact absurd hother (hcompatible.exclusive List.mem_cons_self hlock)
    · rw [hconflicts] at hk'
      rw [List.mem_singleton.mp hk'] at hheld
      have hpays : m.pays = true := h'.guards _ hheld
      rw [Party.rank_of_pays (h'.not_bare hheld) hpays]
      exact Nat.one_pos
  | skipped _ => cases hk
  | read _ _ => cases hk
  | outOfRange _ => cases hk
  | refused _ _ => cases hk

end

theorem service_ranked (mac : VersionToken.Digest) (E : Set PaymentMessage) (scheduleId : Nat) :
    (waitingContract mac E scheduleId).Ranked Party.rank := by
  intro i d free H H' l m ks l' hs h h' hcompatible hfree hst
  cases Party.statement_some hst with
  | create hc => exact create_ranked h'.2 hcompatible h.1.1 hc
  | change hc => exact change_ranked h'.2 hcompatible h.1 hc
  | payment hj => exact payment_ranked h'.2 hcompatible hs h'.1 h.1 hj
  | verify hv => exact verify_ranked h'.2 hcompatible hfree h.1.2.2 hv

/-! ### Who has neither failed nor run all its statements has one to run -/

theorem create_goes_on {c : Create} (hfailed : ¬ (Party.create c).failed) (hready : ¬ (Party.create c).ready)
    (d : Database) : c.statement d ≠ none := by
  obtain ⟨r, phase⟩ := c
  cases phase with
  | begun =>
    simp only [Create.statement]
    split <;> simp
  | inserted =>
    simp only [Create.statement]
    split <;> simp
  | flushed => exact absurd rfl hready
  | raised => exact absurd rfl hfailed

theorem change_goes_on {c : Change} (hfailed : ¬ (Party.change c).failed) (hready : ¬ (Party.change c).ready)
    (now : Timestamp) (d : Database) : c.statement mac now d ≠ none := by
  obtain ⟨r, phase⟩ := c
  cases phase with
  | begun =>
    simp only [Change.statement]
    split <;> simp
  | assigned loaded current =>
    simp only [Change.statement]
    split
    · simp
    · split <;> simp
  | unchanged loaded => exact absurd (.inl ⟨loaded, rfl⟩) hready
  | updated loaded current history at_ =>
    simp only [Change.statement]
    split <;> simp
  | archived loaded current history at_ => exact absurd (.inr ⟨loaded, current, history, at_, rfl⟩) hready
  | raised f => exact absurd ⟨f, rfl⟩ hfailed

theorem payment_goes_on {j : Job} (hfailed : ¬ (Party.payment j).failed) (hready : ¬ (Party.payment j).ready)
    (now : Timestamp) (d : Database) : j.statement now d ≠ none := by
  obtain ⟨e, phase⟩ := j
  cases phase with
  | begun =>
    simp only [Job.statement]
    split <;> simp
  | locked => simp [Job.statement]
  | unseen =>
    simp only [Job.statement]
    split <;> simp
  | following previous =>
    simp only [Job.statement]
    split
    · simp
    · split <;> simp
  | flushed row => exact absurd (.inr ⟨row, rfl⟩) hready
  | duplicate => exact absurd (.inl rfl) hready
  | raised f => exact absurd ⟨f, rfl⟩ hfailed

/-- A run needs a scan of the account table to go on. -/
theorem verify_goes_on {v : Verifier} (hholds : VerifierHolds d v) (hfailed : ¬ (Party.verify v).failed)
    (hready : ¬ (Party.verify v).ready) (now : Timestamp) (free : Lock → Bool) :
    v.statement now d.customerAccount.rows d free ≠ none := by
  obtain ⟨r, phase⟩ := v
  cases phase with
  | begun =>
    simp only [Verifier.statement]
    split <;> simp
  | locked =>
    simp only [Verifier.statement, if_pos (List.Perm.refl _)]
    split <;> simp
  | skipped => exact absurd (.inl rfl) hready
  | writing snapshot done todo =>
    cases todo with
    | nil => exact absurd (.inr ⟨snapshot, done, rfl⟩) hready
    | cons w todo =>
      obtain ⟨d₁, hdone, _⟩ := applyAll_truthful (d := d) hholds.2.1
      simp only [Verifier.statement, hdone, Option.bind_eq_bind, Option.bind_some]
      split <;> simp
  | raised => exact absurd rfl hfailed

theorem exists_statement (h : PartyHolds mac E H d l) (hfailed : ¬ l.failed) (hready : ¬ l.ready)
    (free : Lock → Bool) : ∃ i ks l', Party.statement mac i d free l = some (ks, l') := by
  let i : Input := ⟨0, d.customerAccount.rows⟩
  have hsome : Party.statement mac i d free l ≠ none := by
    cases l with
    | create c => exact mt Option.map_eq_none_iff.mp (create_goes_on hfailed hready d)
    | change c => exact mt Option.map_eq_none_iff.mp (change_goes_on hfailed hready 0 d)
    | payment j => exact mt Option.map_eq_none_iff.mp (payment_goes_on hfailed hready 0 d)
    | verify v => exact mt Option.map_eq_none_iff.mp (verify_goes_on h hfailed hready 0 free)
  obtain ⟨x, hx⟩ := Option.ne_none_iff_exists'.mp hsome
  exact ⟨i, x.1, x.2, hx⟩

section
variable {T : Type} [DecidableEq T] {customer : Table Customer Customer.clash} {as : List (Step T)}
  {w : Service T} {t u : T}

theorem waiting_valid (hrun : RunsFrom mac E (initial T customer) as w)
    (hschedule : ∀ t r, Action.begin t (.verify r) ∈ as → r.scheduleId = scheduleId) :
    (waitingContract mac E scheduleId).Valid w := by
  have hallowed : ∀ t r, Action.begin t r ∈ as → Scheduled E scheduleId r := by
    intro t r hr
    cases r with
    | verify r => exact hschedule t r hr
    | payment e => exact hrun.allowed t _ hr
    | create c => exact trivial
    | change r => exact trivial
  have hinitial := (waitingContract mac E scheduleId).valid_initial (T := T) _ (.empty customer)
  exact (waitingContract mac E scheduleId).valid_run hinitial as hallowed hrun.2

/-- `t` runs, and can run a statement, commit, or only roll back. -/
def Goes (mac : VersionToken.Digest) (w : Service T) (t : T) : Prop :=
  ∃ l, w.running t = some l ∧ (l.failed ∨ Moves (service mac) w t)

theorem party_goes (hreach : Reachable mac E w) (hl : w.running t = some l) :
    Goes mac w t ∨ ∃ u, Waits (service mac) w t u := by
  by_cases hfailed : l.failed
  · exact .inl ⟨l, hl, .inl hfailed⟩
  · by_cases hready : l.ready
    · exact .inl ⟨l, hl, .inr (.inr (hreach.commits hl hready))⟩
    · obtain ⟨i, ks, l', hst⟩ := exists_statement (hreach.valid.holds t l hl) hfailed hready (w.available t)
      exact (moves_or_waits hl hst).imp_left fun hmoves => ⟨l, hl, .inr hmoves⟩

/-- Who is waited for goes, or is a run that waits for somebody who goes. -/
theorem waited_goes (hreach : Reachable mac E w) (hvalid : (waitingContract mac E scheduleId).Valid w)
    (hw : Waits (service mac) w t u) :
    Goes mac w u ∨ ∃ v x, w.running u = some (.verify v) ∧ Waits (service mac) w u x ∧ Goes mac w x := by
  have hranked := service_ranked mac E scheduleId
  obtain ⟨l, m, _, hm, hlt⟩ := hvalid.rank_lt hranked hw
  have hm_le : m.rank ≤ 1 := Nat.le_of_lt_succ (hlt.trans_le l.rank_le_two)
  rcases party_goes hreach hm with hgoes | ⟨x, hx⟩
  · exact .inl hgoes
  · obtain ⟨m', n, hm', hn, hlt'⟩ := hvalid.rank_lt hranked hx
    rw [hm] at hm'
    cases hm'
    have hrank : m.rank = 1 := by omega
    obtain ⟨v, rfl⟩ := Party.verify_of_rank hrank
    refine .inr ⟨v, x, hm, hx, ?_⟩
    rcases party_goes hreach hn with hgoes | ⟨y, hy⟩
    · exact hgoes
    · -- nobody ranks below who is last in the chain
      obtain ⟨n', _, hn', _, hlt''⟩ := hvalid.rank_lt hranked hy
      rw [hn] at hn'
      cases hn'
      omega

end

/-- **The service is never deadlocked**: where all runs are of one schedule, every
transaction goes or waits for another one, and who is waited for goes, or is a run of
the verifier that waits for a transaction that goes. -/
theorem no_deadlock {T : Type} [DecidableEq T] (mac : VersionToken.Digest)
    (customer : Table Customer Customer.clash) (scheduleId : Nat) (as : List (Step T)) (w : Service T)
    (hrun : RunsFrom mac Set.univ (initial T customer) as w)
    (hschedule : ∀ t r, Action.begin t (.verify r) ∈ as → r.scheduleId = scheduleId) :
    (∀ t l, w.running t = some l → Goes mac w t ∨ ∃ u, Waits (service mac) w t u) ∧
    (∀ t u, Waits (service mac) w t u → Goes mac w u ∨
      ∃ v x, w.running u = some (.verify v) ∧ Waits (service mac) w u x ∧ Goes mac w x) ∧
    ∀ t, ¬ Relation.TransGen (Waits (service mac) w) t t := by
  have hreach : Reachable mac Set.univ w := ⟨customer, as, hrun⟩
  have hvalid := waiting_valid hrun hschedule
  exact ⟨fun t l hl => party_goes hreach hl, fun t u hw => waited_goes hreach hvalid hw,
    fun t => hvalid.not_waits_cycle (service_ranked mac Set.univ scheduleId) t⟩

/-! ### A run -/

/-- Another account of the customer, and a deposit on it. -/
def otherAccount : CustomerAccountCreate := { CustomerAccountCreate.sample with currency := .usd, entityId := 5 }

def otherDeposit : PaymentMessage := .deposited { openingDeposit.event with id := 8, accountId := 5 }

/-- A verifier has checkpointed the account 1, a job has locked the account 5, and
another one wants the account 1. -/
def waitingRun : List (Step Nat) :=
  let input : Input := ⟨6, [CustomerAccountCreate.account .sample, otherAccount.account]⟩
  [.begin 0 (.create .sample), .statement 0 input, .statement 0 input, .commit 0,
    .begin 0 (.create otherAccount), .statement 0 input, .statement 0 input, .commit 0,
    .begin 2 (.verify ⟨0, 10, 2, 60⟩), .statement 2 input, .statement 2 input, .statement 2 input,
    .begin 3 (.payment otherDeposit.command), .statement 3 input,
    .begin 1 (.payment openingDeposit.command)]

theorem waitingRun_enqueued (t : Nat) (e : CreatePayment) (h : Action.begin t (.payment e) ∈ waitingRun) :
    ∃ m ∈ (Set.univ : Set PaymentMessage), m.command = e := by
  simp only [waitingRun, List.mem_cons, Action.begin.injEq, Request.payment.injEq, reduceCtorEq,
    and_false, false_or, List.not_mem_nil, or_false] at h
  rcases h with ⟨_, rfl⟩ | ⟨_, rfl⟩
  · exact ⟨otherDeposit, Set.mem_univ _, rfl⟩
  · exact ⟨openingDeposit, Set.mem_univ _, rfl⟩

theorem waitingRun_schedule (t : Nat) (r : VerifierRequest) (h : Action.begin t (.verify r) ∈ waitingRun) :
    r.scheduleId = 0 := by
  simp only [waitingRun, List.mem_cons, Action.begin.injEq, Request.verify.injEq, reduceCtorEq,
    and_false, false_or, List.not_mem_nil, or_false] at h
  rw [h.2]

/-- What the party would lock next. -/
def wants (w : Service Nat) (t : Nat) : Option (List Lock) :=
  (w.running t).bind fun l =>
    (Party.statement (fun _ => 0) ⟨6, []⟩ w.committed (w.available t) l).map (·.1)

theorem waits_of_wants {w : Service Nat} {t u : Nat} {ks : List Lock} (h : wants w t = some ks)
    (k k' : Lock) (hk : k ∈ ks) (hk' : k' ∈ conflicts k) (hu : u ∈ w.holders k') (hne : u ≠ t) :
    Waits (service fun _ => 0) w t u := by
  obtain ⟨l, hl, hwanted⟩ := Option.bind_eq_some_iff.mp h
  obtain ⟨⟨ks', l'⟩, hst, rfl⟩ := Option.map_eq_some_iff.mp hwanted
  exact ⟨⟨6, []⟩, l, ks', l', k, k', hl, hst, hk, hk', hu, hne⟩

theorem waitingRun_waits : ∃ w : Service Nat,
    RunsFrom (fun _ => 0) Set.univ (initial Nat openingCustomer) waitingRun w ∧
      Waits (service fun _ => 0) w 1 2 ∧ Waits (service fun _ => 0) w 2 3 := by
  have hrun : ((initial Nat openingCustomer).run (service fun _ => 0) waitingRun).map (fun w =>
      (wants w 1, w.holders (.accountRowShare 1), wants w 2, w.holders (.accountRowKey 5))) =
      some (some (Lock.forUpdate 1), [2], some [.verifiedKey 5 1, .accountRowShare 5], [3]) := by decide
  obtain ⟨w, hw, hfields⟩ := Option.map_eq_some_iff.mp hrun
  obtain ⟨hjob, hshare, hverifier, hrow⟩ := by simpa only [Prod.mk.injEq] using hfields
  refine ⟨w, ⟨waitingRun_enqueued, hw⟩, ?_, ?_⟩
  · exact waits_of_wants hjob (.accountRowKey 1) (.accountRowShare 1) (by decide) (by decide)
      (by simp [hshare]) (by decide)
  · exact waits_of_wants hverifier (.accountRowShare 5) (.accountRowKey 5) (by decide) (by decide)
      (by simp [hrow]) (by decide)

/-- The job waits for the verifier, which waits for the other job, which goes. -/
theorem waiting_run_moves : ∃ w : Service Nat, Waits (service fun _ => 0) w 1 2 ∧
    Waits (service fun _ => 0) w 2 3 ∧ (Goes (fun _ => 0) w 3 ∨
      ∃ v x, w.running 3 = some (.verify v) ∧ Waits (service fun _ => 0) w 3 x ∧ Goes (fun _ => 0) w x) := by
  obtain ⟨w, hrun, hjob, hverifier⟩ := waitingRun_waits
  obtain ⟨_, hwaited, _⟩ := no_deadlock _ openingCustomer 0 waitingRun w hrun waitingRun_schedule
  exact ⟨w, hjob, hverifier, hwaited 2 3 hverifier⟩

end Statement.System
