import Statement.Account.TokenText
import Statement.Wiring.Update

/-! What the version check of a `PATCH` or `DELETE` comes to.

The schema asks of the token its length alone. On ASCII text the check decides:
the current version's token passes, any other is answered with 409. But
`hmac.compare_digest` raises on a text that is not ASCII, and nothing catches
that. -/
namespace Statement.Wiring
open Domain Foundation Account

/-- The check passes for the current version's token, and a request with any other
is answered with 409 and leaves the database as it is. -/
def TokenDecides (mac : VersionToken.Digest) (now : Timestamp) (r : ChangeRequest) (d : Database)
    (row : CustomerAccount) : Prop :=
  (r.version = VersionToken.issue mac row.id row.version ∧
      r.letThrough mac (d.findById r.accountId) = .ok row) ∨
    (r.version ≠ VersionToken.issue mac row.id row.version ∧
      r.letThrough mac (d.findById r.accountId) = .error .modified ∧
      respondChange fastDeps mac now r d = ⟨409, d⟩)

section
variable {mac : VersionToken.Digest} {r : ChangeRequest} {d : Database} {row : CustomerAccount}

/-- On an account that is there the check is the comparison of the token. -/
theorem letThrough_found (hfound : d.findById r.accountId = some row) (hstatus : row.status ≠ .deleted) :
    r.letThrough mac (d.findById r.accountId) =
      (VersionToken.verify mac row.id row.version r.version).elim (.error .typeError)
        fun same => if same then .ok row else .error .modified := by
  rw [hfound, ChangeRequest.letThrough, if_neg hstatus]
  cases VersionToken.verify mac row.id row.version r.version with
  | none => rfl
  | some same => cases same <;> rfl

/-- A request that is not let through changes nothing. -/
theorem respondChange_error {f : ChangeFailure} (now : Timestamp)
    (h : r.letThrough mac (d.findById r.accountId) = .error f) :
    respondChange fastDeps mac now r d = ⟨f.status, d⟩ := by
  simp only [respondChange, handleChange, Sessions.view_fresh, h, respond]

end

/-- **The token check decides exactly the ASCII tokens**, and a token is the one of its
account and version only, as far as the digest tells messages apart. -/
theorem token_check_iff (mac : VersionToken.Digest) (now : Timestamp) (r : ChangeRequest) (d : Database)
    (row : CustomerAccount) (hfound : d.findById r.accountId = some row) (hstatus : row.status ≠ .deleted) :
    (TokenDecides mac now r d row ↔ ∀ c ∈ r.version.toList, c.toNat < 128) ∧
    ∀ M : Set String, Set.InjOn mac M → ∀ id id' v v', VersionToken.message id v ∈ M →
      VersionToken.message id' v' ∈ M →
      (VersionToken.verify mac id v (VersionToken.issue mac id' v') = some true ↔ id' = id ∧ v' = v) := by
  refine ⟨?_, fun M hmac id id' v v' hm hm' => VersionToken.verify_issue_iff hmac hm hm'⟩
  have hcheck : r.letThrough mac (d.findById r.accountId) = _ := letThrough_found hfound hstatus
  rcases VersionToken.verify_cases mac row.id row.version r.version with ⟨hascii, hv⟩ | ⟨hforeign, hv⟩
  · rw [hv] at hcheck
    refine ⟨fun _ c hc => of_decide_eq_true (List.all_eq_true.mp hascii c hc), fun _ => ?_⟩
    by_cases hcurrent : r.version = VersionToken.issue mac row.id row.version
    · rw [beq_iff_eq.mpr hcurrent.symm] at hcheck
      exact .inl ⟨hcurrent, hcheck⟩
    · rw [beq_eq_false_iff_ne.mpr (Ne.symm hcurrent)] at hcheck
      exact .inr ⟨hcurrent, hcheck, respondChange_error now hcheck⟩
  · rw [hv] at hcheck
    refine ⟨fun hdecides => ?_, fun hascii => ?_⟩
    · rcases hdecides with ⟨_, hpasses⟩ | ⟨_, hmodified, _⟩
      · rw [hcheck] at hpasses
        cases hpasses
      · rw [hcheck] at hmodified
        cases hmodified
    · rw [List.all_eq_true.mpr fun c hc => decide_eq_true (hascii c hc)] at hforeign
      cases hforeign

/-! ### Two tokens -/

/-- As long as a token, and not ASCII. -/
def foreignToken : String := String.ofList (List.replicate 22 'é')

theorem length_foreignToken : foreignToken.length = VersionToken.tokenLength :=
  (String.length_ofList.trans List.length_replicate).trans VersionToken.tokenLength_eq.symm

def foreignDelete : ChangeRequest := ⟨1, .delete foreignToken length_foreignToken, 9⟩

/-- The only account, as it is stored. -/
def onlyAccount : CustomerAccount := .create 1 2 .eur (some "main") 3 0

theorem foreignDelete_raises : oneAccount.findById foreignDelete.accountId = some onlyAccount ∧
    onlyAccount.status ≠ .deleted ∧
    (respondChange fastDeps sampleMac 5 foreignDelete oneAccount).status = 500 ∧
    ¬ TokenDecides sampleMac 5 foreignDelete oneAccount onlyAccount := by
  have hfound : oneAccount.findById foreignDelete.accountId = some onlyAccount := rfl
  have hcheck : foreignDelete.letThrough sampleMac (oneAccount.findById foreignDelete.accountId) =
      .error .typeError := by
    have hforeign : foreignDelete.version.toList = List.replicate 22 'é' := String.toList_ofList
    rw [letThrough_found hfound (by decide), VersionToken.verify, hforeign]
    rfl
  refine ⟨hfound, by decide, by rw [respondChange_error 5 hcheck]; rfl, ?_⟩
  rintro (⟨_, hpasses⟩ | ⟨_, hmodified, _⟩)
  · rw [hcheck] at hpasses
    cases hpasses
  · rw [hcheck] at hmodified
    cases hmodified

/-- A digest that tells the first two versions of the account apart. -/
def versionMac : VersionToken.Digest := fun m => if m = VersionToken.message 1 1 then 0 else 1

/-- The first version's token is decided on, and does not pass for the second version. -/
theorem rename_decided : TokenDecides versionMac 5 rename oneAccount onlyAccount ∧
    VersionToken.verify versionMac 1 2 (VersionToken.issue versionMac 1 1) ≠ some true := by
  obtain ⟨hdecides, hissued⟩ := token_check_iff versionMac 5 rename oneAccount onlyAccount rfl (by decide)
  have hascii : ∀ c ∈ rename.version.toList, c.toNat < 128 := fun c hc =>
    of_decide_eq_true (List.all_eq_true.mp (VersionToken.ascii_issue (fun _ => 0) 1 1) c hc)
  refine ⟨hdecides.mpr hascii, fun h => ?_⟩
  have hne : VersionToken.message 1 2 ≠ VersionToken.message 1 1 := fun h =>
    absurd (VersionToken.message_inj h).2 (by decide)
  have hmac : Set.InjOn versionMac {VersionToken.message 1 1, VersionToken.message 1 2} := by
    rintro x (rfl | rfl) y (rfl | rfl) he
    · rfl
    · simp [versionMac, hne] at he
    · simp [versionMac, hne] at he
    · rfl
  have hsame := (hissued _ hmac 1 1 2 1 (.inr rfl) (.inl rfl)).mp h
  exact absurd hsame.2 (by decide)

end Statement.Wiring
