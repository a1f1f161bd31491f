import ActorMachine.Machine.Summary
import ActorMachine.Main
import ActorMachine.Proofs.Barrier
import ActorMachine.Proofs.Capability
import ActorMachine.Proofs.Commit
import ActorMachine.Proofs.Delivery
import ActorMachine.Proofs.Executable
import ActorMachine.Proofs.Incremental
import ActorMachine.Proofs.Isolation
import ActorMachine.Proofs.Rest
import ActorMachine.Proofs.Rollback
import ActorMachine.Proofs.FaultFreedom
import ActorMachine.Proofs.FaultFreeRounds
import ActorMachine.Proofs.Footprint
import ActorMachine.Proofs.DataEquality
import ActorMachine.Proofs.Lexicon
import ActorMachine.Proofs.Spelling
import ActorMachine.Proofs.Interning
import ActorMachine.Proofs.MachineSymbols
import ActorMachine.Proofs.SymbolSpelling
import ActorMachine.Proofs.Sealing
import ActorMachine.Proofs.Operand
import ActorMachine.Proofs.CellAccounts
import ActorMachine.Proofs.TransactionCells
import ActorMachine.Proofs.CellBalance
import ActorMachine.Proofs.ListingCollection
import ActorMachine.Proofs.Assembly
import ActorMachine.Proofs.StackRearrangement
import ActorMachine.Proofs.SingleActor
import ActorMachine.Proofs.SingleActorRounds
import ActorMachine.Proofs.ProgramLayout
import ActorMachine.Proofs.Echo
import ActorMachine.Proofs.Counter
import ActorMachine.Proofs.Unfolding
import ActorMachine.Proofs.ListSplitting
import ActorMachine.Proofs.Fifo
import ActorMachine.Proofs.Traversal
import ActorMachine.Proofs.Checksum
import ActorMachine.Proofs.Numeral
import ActorMachine.Proofs.Printing
import ActorMachine.Proofs.Recycling
import ActorMachine.Proofs.Tagging
