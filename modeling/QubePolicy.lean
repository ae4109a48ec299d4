import QubePolicy.Session.Commands
import QubePolicy.Main
import QubePolicy.Proofs.Evaluation.Repeats
import QubePolicy.Proofs.Evaluation.Deletion
import QubePolicy.Proofs.Evaluation.Nesting
import QubePolicy.Proofs.Session.SaveGate
import QubePolicy.Proofs.Session.Preview
import QubePolicy.Proofs.Session.Atomic
import QubePolicy.Proofs.Session.SoleWriter
import QubePolicy.Proofs.Session.Bytes
import QubePolicy.Proofs.Session.FieldEdits
import QubePolicy.Proofs.Session.Auditing
import QubePolicy.Proofs.AuditLog.Reading
import QubePolicy.Proofs.CommandLine.Check
import QubePolicy.Proofs.CommandLine.Evaluate
import QubePolicy.Proofs.Store.Places
import QubePolicy.Proofs.Line.Offences
import QubePolicy.Proofs.PolicyFile.Columns
import QubePolicy.Proofs.PolicyFile.Inverses
import QubePolicy.Proofs.Evaluation.InertEdits
import QubePolicy.Proofs.Store.Listing
import QubePolicy.Proofs.CommandLine.Order
import QubePolicy.Proofs.Store.Unresolved
import QubePolicy.Proofs.AuditLog.Latest
import QubePolicy.Proofs.CommandLine.Arguments
import QubePolicy.Proofs.Evaluation.Coverage
import QubePolicy.Proofs.Line.Tokens
