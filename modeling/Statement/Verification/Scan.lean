import Statement.Foundation.Walk
import Statement.Verification.Effect

/-! What the batch query computes: one walk an account.

The query partitions one joined table; its window functions, `DISTINCT ON` and
left join never mix two accounts. For an account they amount to walking its
window from the anchor, each row checked against the position before it. -/
namespace Statement.Verification
open Domain Foundation

def position (r : CustomerAccountLedger) : Position := ⟨r.no, r.balance⟩

def Target.start (t : Target) : Position := ⟨t.anchorNo, t.anchorBalance⟩

/-- The `CASE` with the position as its anchor and its predecessor. -/
def check (p : Position) (row : CustomerAccountLedger) : Option LedgerDiscrepancyKind :=
  flag p.no p.balance p.no p.balance row

abbrev Pass := Walk Position CustomerAccountLedger LedgerDiscrepancyKind

def pass (d : Database) (p : BatchParams) (t : Target) : Pass :=
  walk check position t.start (window d p t)

/-- Past the anchor a row is only compared with its predecessor. -/
theorem flag_eq_check {anchorNo : Int} {anchorBalance : Numeric} {p : Position}
    {row : CustomerAccountLedger} (ha : anchorNo < row.no) (hp : p.no < row.no) :
    flag anchorNo anchorBalance p.no p.balance row = check p row := by
  have ha' : row.no ≠ anchorNo := by omega
  have hp' : row.no ≠ p.no := by omega
  simp only [check, flag, ha, hp, ha', hp', true_and, false_and]

/-! ### Windows -/

theorem ledgerOf_distinct (d : Database) (a : UUID) :
    (d.ledgerOf a).Pairwise fun r s => r.no ≠ s.no := by
  have h := d.customerAccountLedger.distinct.filter (p := fun r => r.accountId = a)
  refine h.imp_of_mem fun {r s} hr hs hrs he => hrs ⟨?_, .inl he⟩
  have hr' : r.accountId = a := by simpa using (List.mem_filter.mp hr).2
  have hs' : s.accountId = a := by simpa using (List.mem_filter.mp hs).2
  rw [hr', hs']

theorem window_sorted (d : Database) (p : BatchParams) (t : Target) :
    (window d p t).Pairwise fun r s => r.no < s.no :=
  (orderBy_strict ((ledgerOf_distinct d t.accountId).filter _)).sublist (List.take_sublist _ _)

theorem mem_window {d : Database} {p : BatchParams} {t : Target} {r : CustomerAccountLedger}
    (h : r ∈ window d p t) : r ∈ d.ledgerOf t.accountId ∧ t.anchorNo ≤ r.no := by
  have := mem_orderBy.mp (List.mem_of_mem_take h)
  simpa using this

theorem target_mem {d : Database} {p : BatchParams} {scan : List CustomerAccount} {t : Target}
    (h : t ∈ targets d p scan) : ∃ a ∈ scan, t = target a.id (d.findLatestCheckpoint a.id) ∧
      selected d p a.id (d.findLatestCheckpoint a.id) := by
  obtain ⟨x, hx, rfl⟩ := List.mem_map.mp h
  have hx := mem_orderBy.mp (List.mem_of_mem_take hx)
  obtain ⟨hx, hs⟩ := List.mem_filter.mp hx
  obtain ⟨a, ha, rfl⟩ := List.mem_map.mp hx
  exact ⟨a, ha, rfl, by simpa using hs⟩

theorem targets_nodup (d : Database) (p : BatchParams) {scan : List CustomerAccount}
    (h : (scan.map (·.id)).Nodup) : ((targets d p scan).map (·.accountId)).Nodup := by
  have hjoined : ((scan.map fun a => (a.id, d.findLatestCheckpoint a.id)).map (·.1)).Nodup := by
    simpa [List.map_map, Function.comp_def] using h
  have hsel : (((scan.map fun a => (a.id, d.findLatestCheckpoint a.id)).filter
      fun x => selected d p x.1 x.2).map (·.1)).Nodup := hjoined.sublist (List.filter_sublist.map _)
  have hord := ((orderBy_perm (fun x : UUID × Option CustomerAccountLedgerVerified => verifiedAt x.2)
    _).map (·.1)).nodup_iff.mpr hsel
  simp only [targets, List.map_map]
  exact hord.sublist ((List.take_sublist p.accountsPerRun _).map _)

/-- A target has a row past its anchor, and so a row to read. -/
theorem window_ne_nil {d : Database} {p : BatchParams} {scan : List CustomerAccount} {t : Target}
    (h : t ∈ targets d p scan) : window d p t ≠ [] := by
  obtain ⟨a, _, rfl, _, _, l, hl, hlt⟩ := target_mem h
  have hmem : l ∈ orderBy (·.no) ((d.ledgerOf a.id).filter
      (throughNo (d.findLatestCheckpoint a.id) ≤ ·.no)) := by
    simp [hl, le_of_lt hlt]
  rw [window, Ne, List.take_eq_nil_iff, not_or]
  exact ⟨Nat.succ_ne_zero _, List.ne_nil_of_mem hmem⟩

/-! ### One account's part of the query -/

/-- A row of `flagged`, from its account's window alone. -/
def flaggedRow (t : Target) (w : List CustomerAccountLedger) (row : CustomerAccountLedger) : Flagged :=
  flagged (chained { target := t, row, batchRows := w.length,
                     previous := (w.filter (·.no < row.no)).getLast? })

theorem rows_of_target {d : Database} {p : BatchParams} {ts : List Target}
    (hn : (ts.map (·.accountId)).Nodup) {t : Target} (ht : t ∈ ts) :
    (((windowed d p ts).map chained).map flagged).filter (·.target.accountId = t.accountId) =
      (window d p t).map (flaggedRow t (window d p t)) := by
  have hjoined : (ts.flatMap fun t => (window d p t).map fun l => (t, l)).filter
      (fun x : Target × CustomerAccountLedger => x.1.accountId = t.accountId) =
      (window d p t).map fun l => (t, l) := by
    refine filter_flatMap_eq hn (fun u _ x hx => ?_) ht
    obtain ⟨_, _, rfl⟩ := List.mem_map.mp hx
    rfl
  have hrow : ∀ l ∈ window d p t, windowedRow (ts.flatMap fun t => (window d p t).map fun l => (t, l))
      (t, l) = { target := t, row := l, batchRows := (window d p t).length,
                 previous := ((window d p t).filter (·.no < l.no)).getLast? } := by
    intro l hl
    obtain ⟨pre, post, hw⟩ := List.append_of_mem hl
    have hs := window_sorted d p t
    have hlag : lag (fun x => x.1.accountId) (fun x => x.2.no)
        (ts.flatMap fun t => (window d p t).map fun l => (t, l)) (t, l) =
        (pre.map fun l => (t, l)).getLast? := by
      have hsplit : (ts.flatMap fun t => (window d p t).map fun l => (t, l)).filter
          (fun x => x.1.accountId = t.accountId) =
            (pre.map fun l => (t, l)) ++ (t, l) :: post.map fun l => (t, l) := by
        rw [hjoined, hw]
        simp
      refine lag_eq hsplit ?_
      rw [hw] at hs
      simpa [List.pairwise_append, List.pairwise_map] using hs
    have hprev : (pre.map fun l => (t, l)).getLast?.map (·.2) =
        ((window d p t).filter (·.no < l.no)).getLast? := by
      rw [hw] at hs
      rw [hw, filter_lt_eq hs, List.getLast?_map, Option.map_map]
      exact Option.map_id'
    simp only [windowedRow, hjoined, hlag, List.length_map, hprev]
  rw [windowed, List.map_map, List.map_map, List.filter_map]
  show List.map _ ((ts.flatMap fun t => (window d p t).map fun l => (t, l)).filter
    fun x : Target × CustomerAccountLedger => x.1.accountId = t.accountId) = _
  rw [hjoined, List.map_map]
  refine List.map_congr_left fun l hl => ?_
  show flagged (chained (windowedRow _ (t, l))) = _
  rw [hrow l hl, flaggedRow]

/-- A window's first flagged row is where the walk breaks. `pre` is what was read
before `suf`, and the walk stands at its last row. -/
theorem find_flagged {t : Target} {w pre suf : List CustomerAccountLedger} (hw : w = pre ++ suf)
    (hs : w.Pairwise fun r s => r.no < s.no) (ha : ∀ r ∈ w, t.anchorNo ≤ r.no) :
    match walk check position ((pre.getLast?.map position).getD t.start) suf with
    | .clean _ => (suf.map (flaggedRow t w)).find? (·.kind.isSome) = none
    | .broken previous row kind => ∃ f, (suf.map (flaggedRow t w)).find? (·.kind.isSome) = some f ∧
        f.row = row ∧ f.kind = some kind ∧ f.chainPrevNo = previous.no ∧
        f.chainPrevBalance = previous.balance := by
  induction suf generalizing pre with
  | nil => rfl
  | cons r suf ih =>
    have hprev : (w.filter (·.no < r.no)).getLast? = pre.getLast? := by
      rw [hw] at hs ⊢
      rw [filter_lt_eq hs]
    have hkind : (flaggedRow t w r).kind = check ((pre.getLast?.map position).getD t.start) r := by
      simp only [flaggedRow, flagged, chained, hprev]
      cases hl : pre.getLast? with
      | none => rfl
      | some q =>
        have hq : q ∈ pre := List.mem_of_getLast? hl
        have hqr : q.no < r.no := by
          rw [hw] at hs
          exact (List.pairwise_append.mp hs).2.2 q hq r List.mem_cons_self
        have haq := ha q (hw ▸ List.mem_append_left _ hq)
        exact flag_eq_check (p := position q) (by omega) hqr
    cases hc : check ((pre.getLast?.map position).getD t.start) r with
    | none =>
      have hassoc : w = (pre ++ [r]) ++ suf := by
        rw [hw, List.append_assoc]
        rfl
      have ih := ih hassoc
      rw [List.getLast?_concat] at ih
      rw [walk_cons_ok _ hc, List.map_cons, List.find?_cons_of_neg (by rw [hkind, hc]; decide)]
      exact ih
    | some k =>
      rw [walk_cons_broken _ hc]
      refine ⟨flaggedRow t w r, ?_, rfl, hkind.trans hc, ?_, ?_⟩
      · rw [List.map_cons, List.find?_cons_of_pos (by rw [hkind, hc]; rfl)]
      · simp only [flaggedRow, flagged, chained, hprev]
        cases pre.getLast? <;> rfl
      · simp only [flaggedRow, flagged, chained, hprev]
        cases pre.getLast? <;> rfl

/-! ### The result -/

/-- What the query reports of a target whose window is `w`. -/
def report (p : BatchParams) (t : Target) (w : List CustomerAccountLedger) :
    CustomerAccountVerification :=
  let last := (w.getLast?.map position).getD t.start
  let clean : CustomerAccountVerification :=
    { accountId := t.accountId, anchorNo := t.anchorNo, anchorBalance := t.anchorBalance
      batchRows := w.length, batchLimit := p.windowRows
      batchLastNo := last.no, batchLastBalance := last.balance
      breakNo := none, breakKind := none, breakAmount := none, breakBalance := none
      breakPrevNo := none, breakPrevBalance := none }
  match walk check position t.start w with
  | .clean _ => clean
  | .broken previous row kind =>
    { clean with
      breakNo := some row.no, breakKind := some kind, breakAmount := some row.amount
      breakBalance := some row.balance, breakPrevNo := some previous.no
      breakPrevBalance := some previous.balance }

theorem batchTail_of_target {d : Database} {p : BatchParams} {ts : List Target}
    (hn : (ts.map (·.accountId)).Nodup) {t : Target} (ht : t ∈ ts) {init : List CustomerAccountLedger}
    {last : CustomerAccountLedger} (hw : window d p t = init ++ [last]) :
    (batchTail (((windowed d p ts).map chained).map flagged)).filter (·.target.accountId = t.accountId) =
      [flaggedRow t (window d p t) last] := by
  have hfirst := distinctOn_orderBy_filter (fun f : Flagged => f.target.accountId)
    (fun f => toLex (f.target.accountId, OrderDual.toDual f.row.no)) t.accountId
    (((windowed d p ts).map chained).map flagged)
  rw [rows_of_target hn ht] at hfirst
  rw [batchTail, hfirst, hw, List.map_append, List.map_singleton, head_orderBy_append]
  · rfl
  · intro f hf
    obtain ⟨r, hr, rfl⟩ := List.mem_map.mp hf
    have hs := window_sorted d p t
    rw [hw] at hs
    have hlt := (List.pairwise_append.mp hs).2.2 r hr last (List.mem_singleton.mpr rfl)
    exact Prod.Lex.toLex_lt_toLex.mpr (.inr ⟨rfl, hlt⟩)

theorem firstBreak_of_target {d : Database} {p : BatchParams} {ts : List Target}
    (hn : (ts.map (·.accountId)).Nodup) {t : Target} (ht : t ∈ ts) :
    (firstBreak (((windowed d p ts).map chained).map flagged)).filter
        (·.target.accountId = t.accountId) =
      (((window d p t).map (flaggedRow t (window d p t))).find? (·.kind.isSome)).toList := by
  have hfirst := distinctOn_orderBy_filter (fun f : Flagged => f.target.accountId)
    (fun f => toLex (f.target.accountId, f.row.no)) t.accountId
    ((((windowed d p ts).map chained).map flagged).filter (·.kind.isSome))
  rw [List.filter_comm, rows_of_target hn ht] at hfirst
  rw [firstBreak, hfirst, orderBy_of_sorted, List.head?_filter]
  refine List.Pairwise.filter _ (List.pairwise_map.mpr ?_)
  refine (window_sorted d p t).imp fun {r s} hlt => le_of_lt ?_
  exact Prod.Lex.toLex_lt_toLex.mpr (.inr ⟨rfl, hlt⟩)

/-- **The batch query is one walk an account.** -/
theorem finalSelect_eq (d : Database) (p : BatchParams) {scan : List CustomerAccount}
    (h : (scan.map (·.id)).Nodup) :
    finalSelect d p scan = (targets d p scan).map fun t => report p t (window d p t) := by
  have hn := targets_nodup d p h
  rw [List.map_eq_flatMap (l := targets d p scan), finalSelect]
  refine List.flatMap_congr fun t ht => ?_
  obtain ⟨init, last, hw⟩ := (List.eq_nil_or_concat _).resolve_left (window_ne_nil ht)
  rw [List.concat_eq_append] at hw
  have hnil : window d p t = [] ++ window d p t := (List.nil_append _).symm
  have hbreak := find_flagged hnil (window_sorted d p t) fun r hr => (mem_window hr).2
  simp only [List.getLast?_nil, Option.map_none, Option.getD_none] at hbreak
  have hlast : ((window d p t).getLast?.map position).getD t.start = position last := by
    rw [hw, List.getLast?_concat]
    rfl
  simp only [batchTail_of_target hn ht hw, firstBreak_of_target hn ht, List.flatMap_singleton, report,
    hlast]
  cases hpass : walk check position t.start (window d p t) with
  | clean _ =>
    rw [hpass] at hbreak
    rw [hbreak]
    rfl
  | broken previous row kind =>
    rw [hpass] at hbreak
    obtain ⟨f, hf, hrow, hkind, hno, hbalance⟩ := hbreak
    rw [hf]
    simp only [Option.toList_some, leftJoin, List.isEmpty_cons, Bool.false_eq_true, if_false,
      List.map_cons, List.map_nil, verification, Option.map_some, Option.bind_some, hrow, hkind, hno,
      hbalance]
    rfl

/-- A reported account was selected, and its window was walked from its checkpoint. -/
theorem mem_finalSelect {d : Database} {p : BatchParams} {scan : List CustomerAccount}
    (h : (scan.map (·.id)).Nodup) {v : CustomerAccountVerification} (hv : v ∈ finalSelect d p scan) :
    ∃ t ∈ targets d p scan, v = report p t (window d p t) := by
  rw [finalSelect_eq d p h] at hv
  obtain ⟨t, ht, rfl⟩ := List.mem_map.mp hv
  exact ⟨t, ht, rfl⟩

section
variable (p : BatchParams) (t : Target) (w : List CustomerAccountLedger)

@[simp] theorem report_accountId : (report p t w).accountId = t.accountId := by
  unfold report
  split <;> rfl

@[simp] theorem report_anchorNo : (report p t w).anchorNo = t.anchorNo := by
  unfold report
  split <;> rfl

@[simp] theorem report_anchorBalance : (report p t w).anchorBalance = t.anchorBalance := by
  unfold report
  split <;> rfl

@[simp] theorem report_batchLastNo :
    (report p t w).batchLastNo = ((w.getLast?.map position).getD t.start).no := by
  unfold report
  split <;> rfl

/-- The last good position of a report is where its walk got. -/
theorem report_reached : (⟨(report p t w).lastGoodNo, (report p t w).lastGoodBalance⟩ : Position) =
    (walk check position t.start w).reached := by
  unfold report
  split
  · rename_i last h
    rw [h]
    exact (walk_clean_last h).symm
  · rename_i previous row kind h
    rw [h]
    rfl

theorem report_break {previous : Position} {row : CustomerAccountLedger} {kind : LedgerDiscrepancyKind}
    (h : walk check position t.start w = .broken previous row kind) :
    (report p t w).breakNo = some row.no ∧ (report p t w).breakKind = some kind ∧
      (report p t w).breakAmount = some row.amount ∧ (report p t w).breakBalance = some row.balance ∧
      (report p t w).breakPrevNo = some previous.no ∧
      (report p t w).breakPrevBalance = some previous.balance := by
  unfold report
  rw [h]
  exact ⟨rfl, rfl, rfl, rfl, rfl, rfl⟩

/-- A report names a break exactly when the walk met one. -/
theorem report_clean : (report p t w).breakKind = none ↔
    ∃ last, walk check position t.start w = .clean last := by
  unfold report
  split
  · rename_i last h
    exact ⟨fun _ => ⟨last, h⟩, fun _ => rfl⟩
  · rename_i previous row kind h
    refine ⟨fun hk => (nomatch hk), ?_⟩
    rintro ⟨last, hl⟩
    rw [h] at hl
    cases hl

end

end Statement.Verification
