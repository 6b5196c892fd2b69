import ValueFlow.Listing
import ValueFlow.Passes
import ValueFlow.Proofs.Account.Weight
import ValueFlow.Proofs.AppendOnly.Answers
import ValueFlow.Proofs.Completion.Executions
import ValueFlow.Proofs.Completion.Exact
import ValueFlow.Proofs.Dynamic.Deletes
import ValueFlow.Proofs.Escape.Calls
import ValueFlow.Proofs.Escape.Untouched
import ValueFlow.Proofs.Flags.Session
import ValueFlow.Proofs.Function.Exits
import ValueFlow.Proofs.Join.Nesting
import ValueFlow.Proofs.Loop.Carried
import ValueFlow.Proofs.Normal.Body
import ValueFlow.Proofs.Numbering.Passes
import ValueFlow.Proofs.Reaching.Exact
import ValueFlow.Proofs.Reaching.Used
import ValueFlow.Proofs.Renewal.Passes
import ValueFlow.Proofs.Rework.Faults
import ValueFlow.Proofs.Rework.Frame
import ValueFlow.Proofs.Routing.Session
import ValueFlow.Proofs.Silence.Passes
import ValueFlow.Proofs.WellFormed.Passes
import ValueFlow.Proofs.Writes.Walked
