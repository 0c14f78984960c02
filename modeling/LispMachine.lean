import LispMachine.Main
import LispMachine.Probe
import LispMachine.Text.Escape
import LispMachine.Proofs.Heap.Representation
import LispMachine.Proofs.Heap.Finalization
import LispMachine.Proofs.Symbols
import LispMachine.Proofs.Interning
import LispMachine.Proofs.Twin.Actions
import LispMachine.Proofs.Twin.Binding
import LispMachine.Proofs.Twin.Building
import LispMachine.Proofs.Twin.Calls
import LispMachine.Proofs.Twin.Evaluation
import LispMachine.Proofs.Heap.Exhaustion
import LispMachine.Proofs.Twin.Source
import LispMachine.Proofs.Twin.Creation
import LispMachine.Proofs.Twin.Session
import LispMachine.Proofs.Balance.Natives
import LispMachine.Proofs.Balance.Reading
import LispMachine.Proofs.Balance.Owing
import LispMachine.Proofs.Balance.Evaluation
import LispMachine.Proofs.Balance.Reentry
import LispMachine.Proofs.Failure.Abort
import LispMachine.Proofs.Failure.Evaluation
import LispMachine.Proofs.Failure.Unwinding
import LispMachine.Proofs.Datum.Basic
import LispMachine.Proofs.Datum.Parse
import LispMachine.Proofs.Datum.Building
import LispMachine.Proofs.Datum.Reading
import LispMachine.Proofs.Datum.Dots
import LispMachine.Proofs.Datum.Printed
import LispMachine.Proofs.Listener.Abreast
import LispMachine.Proofs.Listener.Conversation
import LispMachine.Proofs.Source.Continuation
import LispMachine.Proofs.Sequel.Together
import LispMachine.Proofs.Safety.Session
import LispMachine.Proofs.Limit.Lockstep
import LispMachine.Proofs.Environment.History
import LispMachine.Proofs.Trampoline.Meaning
import LispMachine.Proofs.Construction.Builders
import LispMachine.Proofs.Application.Improper
import LispMachine.Proofs.Recursion.Flat
import LispMachine.Proofs.Failure.Message
import LispMachine.Proofs.Failure.CallPath
import LispMachine.Proofs.Source.Derivation
import LispMachine.Proofs.Source.Calls
import LispMachine.Proofs.Primitive.Integers
import LispMachine.Proofs.Primitive.Rest
import LispMachine.Proofs.Quiet.Following
import LispMachine.Proofs.Recast.Reading
import LispMachine.Proofs.Recast.Creation
import LispMachine.Proofs.Recast.Meaning
