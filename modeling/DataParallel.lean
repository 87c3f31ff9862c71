import DataParallel.CommandLine.Folder
import DataParallel.Main
import DataParallel.Proofs.AddedStorage
import DataParallel.Proofs.AssignedReads
import DataParallel.Proofs.ClosingBrackets
import DataParallel.Proofs.Declarations
import DataParallel.Proofs.FurtherProcedures
import DataParallel.Proofs.HostInterface
import DataParallel.Proofs.InternedTexts
import DataParallel.Proofs.LoopedProcedures
import DataParallel.Proofs.NestedScopes
import DataParallel.Proofs.NumberedNames
import DataParallel.Proofs.PhaseGroups
import DataParallel.Proofs.Phases.CheckedCalls
import DataParallel.Proofs.Phases.Settling
import DataParallel.Proofs.Phases.Thrift
import DataParallel.Proofs.Printing
import DataParallel.Proofs.Reading.Termination
import DataParallel.Proofs.Reading.TypeTexts
import DataParallel.Proofs.ReturnedValues
import DataParallel.Proofs.RowsAndColumns
import DataParallel.Proofs.SimultaneousMoves
import DataParallel.Proofs.Tokens.Spacing
import DataParallel.Proofs.UnpackedBinds
import DataParallel.Proofs.WellScoped
import DataParallel.Proofs.Withdrawal
import DataParallel.Stmt.Phases
