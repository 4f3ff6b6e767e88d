import Mathlib

/-! Sessions on one database.

Each session has a transaction of its own: what is written through it is pending,
seen by that session alone, until the session is committed, and lost when it is
rolled back. A statement on a connection that is in no transaction takes effect
at once. Which sessions there are is a parameter. -/
namespace Statement.Foundation

structure Sessions (S D : Type) where
  committed : D
  pending : S → List (D → D)

namespace Sessions
variable {S D : Type}

/-- Every session new. -/
def fresh (d : D) : Sessions S D := ⟨d, fun _ => []⟩

/-- What a session sees: the committed data under its own writes. -/
def view (x : Sessions S D) (s : S) : D := (x.pending s).foldl (fun d f => f d) x.committed

/-- A statement outside any transaction. -/
def execute (x : Sessions S D) (f : D → D) : Sessions S D := {x with committed := f x.committed}

@[simp] theorem fresh_committed (d : D) : (fresh d : Sessions S D).committed = d := rfl

@[simp] theorem fresh_pending (d : D) (s : S) : (fresh d).pending s = [] := rfl

theorem view_of_idle {x : Sessions S D} {s : S} (h : x.pending s = []) : x.view s = x.committed := by
  rw [view, h, List.foldl_nil]

@[simp] theorem view_fresh (d : D) (s : S) : (fresh d).view s = d := rfl

variable [DecidableEq S]

def write (x : Sessions S D) (s : S) (f : D → D) : Sessions S D :=
  {x with pending := Function.update x.pending s (x.pending s ++ [f])}

def commit (x : Sessions S D) (s : S) : Sessions S D :=
  ⟨x.view s, Function.update x.pending s []⟩

def rollback (x : Sessions S D) (s : S) : Sessions S D :=
  {x with pending := Function.update x.pending s []}

/-- The sessions end one after the other, those that commit by committing. -/
def close (commits : S → Bool) (x : Sessions S D) : List S → Sessions S D
  | [] => x
  | s :: rest => close commits (if commits s then x.commit s else x.rollback s) rest

@[simp] theorem write_committed (x : Sessions S D) (s : S) (f : D → D) :
    (x.write s f).committed = x.committed := rfl

@[simp] theorem write_pending_self (x : Sessions S D) (s : S) (f : D → D) :
    (x.write s f).pending s = x.pending s ++ [f] := by
  simp [write]

/-- A session sees its own write. -/
@[simp] theorem view_write_self (x : Sessions S D) (s : S) (f : D → D) :
    (x.write s f).view s = f (x.view s) := by
  rw [view, view, write_pending_self, List.foldl_append, write_committed]
  rfl

@[simp] theorem commit_committed (x : Sessions S D) (s : S) : (x.commit s).committed = x.view s := rfl

@[simp] theorem rollback_committed (x : Sessions S D) (s : S) :
    (x.rollback s).committed = x.committed := rfl

theorem commit_pending (x : Sessions S D) (s u : S) (h : x.pending u = []) :
    (x.commit s).pending u = [] := by
  by_cases hu : u = s <;> simp [commit, hu, h]

theorem rollback_pending (x : Sessions S D) (s u : S) (h : x.pending u = []) :
    (x.rollback s).pending u = [] := by
  by_cases hu : u = s <;> simp [rollback, hu, h]

/-- **Only what goes through a session that commits is kept**: where those
sessions wrote nothing, closing all of them changes nothing. -/
theorem close_of_idle {commits : S → Bool} {x : Sessions S D} {order : List S}
    (h : ∀ s, commits s = true → x.pending s = []) : (x.close commits order).committed = x.committed := by
  induction order generalizing x with
  | nil => rfl
  | cons s rest ih =>
    cases hs : commits s with
    | true =>
      rw [close, if_pos hs, ih fun u hu => commit_pending x s u (h u hu), commit_committed,
        view_of_idle (h s hs)]
    | false =>
      rw [close, if_neg (by simp [hs]), ih fun u hu => rollback_pending x s u (h u hu), rollback_committed]

/-- One session that commits publishes what it sees. -/
theorem close_single {commits : S → Bool} (x : Sessions S D) {s : S} (h : commits s = true) :
    (x.close commits [s]).committed = x.view s := by
  rw [close, if_pos h, close, commit_committed]

/-- Where one session alone has written, closing all of them publishes what it sees, or
nothing. -/
theorem close_of_only {commits : S → Bool} {x : Sessions S D} {s : S} {order : List S}
    (h : ∀ u, u ≠ s → x.pending u = []) :
    (x.close commits order).committed = x.committed ∨
      commits s = true ∧ (x.close commits order).committed = x.view s := by
  induction order generalizing x with
  | nil => exact .inl rfl
  | cons u rest ih =>
    by_cases hu : u = s
    · subst hu
      -- whatever becomes of it, nothing is pending afterwards
      cases hcommits : commits u with
      | true =>
        have hidle : ∀ v, commits v = true → (x.commit u).pending v = [] := by
          intro v _
          by_cases hv : v = u
          · simp [commit, hv]
          · exact commit_pending x u v (h v hv)
        rw [close, if_pos hcommits, close_of_idle hidle, commit_committed]
        exact .inr ⟨rfl, rfl⟩
      | false =>
        have hidle : ∀ v, commits v = true → (x.rollback u).pending v = [] := by
          intro v _
          by_cases hv : v = u
          · simp [rollback, hv]
          · exact rollback_pending x u v (h v hv)
        rw [close, if_neg (by simp [hcommits]), close_of_idle hidle, rollback_committed]
        exact .inl rfl
    · have hkept : ∀ y : Sessions S D, y.committed = x.committed → y.pending s = x.pending s →
          y.view s = x.view s := by
        intro y hcommitted hpending
        rw [view, view, hcommitted, hpending]
      cases hcommits : commits u with
      | true =>
        have hcommitted : (x.commit u).committed = x.committed := view_of_idle (h u hu)
        have hpending : (x.commit u).pending s = x.pending s := by simp [commit, Ne.symm hu]
        rw [close, if_pos hcommits]
        have := ih (x := x.commit u) fun v hv => commit_pending x u v (h v hv)
        rwa [hcommitted, hkept _ hcommitted hpending] at this
      | false =>
        have hpending : (x.rollback u).pending s = x.pending s := by simp [rollback, Ne.symm hu]
        rw [close, if_neg (by simp [hcommits])]
        have := ih (x := x.rollback u) fun v hv => rollback_pending x u v (h v hv)
        rwa [rollback_committed, hkept (x.rollback u) rfl hpending] at this

end Sessions
end Statement.Foundation
