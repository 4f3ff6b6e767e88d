import Statement.Foundation.Sessions

/-! A request on the sessions that its dependencies provide.

The handlers ask for two dependencies, `get_session` (through a repository or the
job queries) and `get_tx_session`. `Providers` say which session each of them
gives and which sessions commit when the request ends well. An exception leaves
through every dependency, and no session commits. -/
namespace Statement.Wiring
open Foundation

inductive Dependency where
  | getSession
  | getTxSession
  deriving DecidableEq

structure Providers (S : Type) where
  resolve : Dependency → S
  commits : S → Bool
  /-- The order in which the sessions are left. -/
  exits : List S

/-- `fast_deps`: two callables, so two sessions, of which only the one begun by
`session.begin()` commits. They are left in the reverse of the order in which the
handlers' parameters ask for them. -/
def fastDeps : Providers Dependency where
  resolve := id
  commits d := d = .getTxSession
  exits := [.getSession, .getTxSession]

/-- The `client` fixture of the tests, which overrides both with one session. -/
def testClient : Providers Unit where
  resolve _ := ()
  commits _ := true
  exits := [()]

/-- What a client gets, and what the request leaves in the database. -/
structure Response (D : Type) where
  status : Nat
  committed : D

section
variable {S D F : Type} [DecidableEq S]

/-- `outcome` is how the handler ends, with the sessions as it leaves them. -/
def respond (P : Providers S) (success : Nat) (failure : F → Nat) (d : D) :
    Except F (Sessions S D) → Response D
  | .error f => ⟨failure f, d⟩
  | .ok x => ⟨success, (x.close P.commits P.exits).committed⟩

/-- Writes through `get_session` alone are lost. -/
theorem respond_getSession {success : Nat} {failure : F → Nat} {d : D} {x : Sessions Dependency D}
    (hcommitted : x.committed = d) (h : x.pending .getTxSession = []) :
    respond fastDeps success failure d (.ok x) = ⟨success, d⟩ := by
  have hidle : ∀ s, fastDeps.commits s = true → x.pending s = [] := by
    intro s hs
    obtain rfl : s = .getTxSession := by simpa [fastDeps] using hs
    exact h
  rw [respond, Sessions.close_of_idle hidle, hcommitted]

/-- With one session, a request that ends well leaves what its session saw. -/
theorem respond_testClient {success : Nat} {failure : F → Nat} {d : D} (x : Sessions Unit D) :
    respond testClient success failure d (.ok x) = ⟨success, x.view ()⟩ := by
  rw [respond, testClient, Sessions.close_single _ rfl]

end
end Statement.Wiring
