import Statement.Verification.Incremental
import Statement.System.Checkpoints
import Statement.System.Delivery
import Statement.System.Redelivery
import Statement.System.Movements
import Statement.Wiring.Resolve
import Statement.Wiring.Update
import Statement.Wiring.Outbox
import Statement.System.OptimisticLock
import Statement.Foundation.Keyset
import Statement.Foundation.Lexicographic
import Statement.Read.Pagination
import Statement.Wiring.Quarantine
import Statement.Consumer.Executor
import Statement.Subscriber.Customer
import Statement.Subscriber.PaymentJobs
import Statement.Verification.Sequential
import Statement.System.VersionHistory
import Statement.Auth.Confinement
import Statement.System.ResolvedOnce
import Statement.System.DeletedRows
import Statement.System.ExactMoney
import Statement.Wiring.TokenCheck
import Statement.Read.NameSearch
import Statement.Read.CursorCondition
import Statement.Auth.Refusal
import Statement.Read.QueryValidation
import Statement.System.Waiting
import Statement.Verification.Attested
import Statement.Wiring.Attestation
import Statement.Wiring.Fairness
import Statement.System.Draining
import Statement.Wiring.Blindness
import Statement.Read.CursorText
import Statement.Consumer.Entrypoints
import Statement.System.Pipeline
import Statement.Auth.Local
import Statement.Wiring.Display
import Statement.Persistence.HistoryRun
