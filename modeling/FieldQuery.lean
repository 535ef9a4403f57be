import FieldQuery.Access.Policy
import FieldQuery.Config.Toml
import FieldQuery.Host.Plan
import FieldQuery.Main
import FieldQuery.Proofs.Access.Grants
import FieldQuery.Proofs.Answer.Shape
import FieldQuery.Proofs.Cache.Failures
import FieldQuery.Proofs.Cache.Overtaking
import FieldQuery.Proofs.Cache.ReadBack
import FieldQuery.Proofs.Cache.Refinement
import FieldQuery.Proofs.Entity.Bench
import FieldQuery.Proofs.Json.Grouping
import FieldQuery.Proofs.Model.Permission
import FieldQuery.Proofs.Schema.Concatenation
import FieldQuery.Proofs.Schema.Fault
import FieldQuery.Proofs.Selection.Union
import FieldQuery.Proofs.Service.Retry
import FieldQuery.Proofs.Simulation.Mode
import FieldQuery.Service.Client
import FieldQuery.Proofs.Number.Rounding
import FieldQuery.Proofs.Number.Shortest
import FieldQuery.Proofs.Number.Text
import FieldQuery.Proofs.Selection.Param
import FieldQuery.Proofs.Schema.CallText
import FieldQuery.Proofs.Service.Wire
import FieldQuery.Proofs.Model.Paging
import FieldQuery.Proofs.Number.Integers
import FieldQuery.Proofs.Api.Arguments
import FieldQuery.Proofs.Selection.Relations
import FieldQuery.Proofs.Api.Dispatch
import FieldQuery.Proofs.Api.Mount
import FieldQuery.Proofs.Answer.Independence
import FieldQuery.Proofs.Value.Json
import FieldQuery.Proofs.Value.Leaf
import FieldQuery.Proofs.Cache.Isolation
import FieldQuery.Proofs.Schema.Invariant
