import ScriptMachine.Source.Outline
import ScriptMachine.Main
import ScriptMachine.Proofs.Bytecode.Canonical
import ScriptMachine.Proofs.Compile.Linkable
import ScriptMachine.Proofs.Link.Soundness
import ScriptMachine.Proofs.Link.Overlay
import ScriptMachine.Proofs.Simulation.Agreement
import ScriptMachine.Proofs.Session.Isolation
import ScriptMachine.Proofs.Session.InStep
import ScriptMachine.Proofs.Session.Immutable
import ScriptMachine.Proofs.Session.NewSlots
import ScriptMachine.Proofs.Source.Lexing
import ScriptMachine.Proofs.Source.LineEnds
import ScriptMachine.Proofs.Session.CompiledFiles
import ScriptMachine.Proofs.Source.Printing
import ScriptMachine.Proofs.Source.Respelling
import ScriptMachine.Proofs.Source.Rereading
import ScriptMachine.Proofs.Source.Faithful
import ScriptMachine.Proofs.Scoping.Acceptance
import ScriptMachine.Proofs.Machine.CallFrames
import ScriptMachine.Proofs.Session.OwnRegisters
import ScriptMachine.Proofs.Session.SplitTurns
import ScriptMachine.Proofs.Source.Regions
import ScriptMachine.Proofs.CommandLine.CompleteTexts
import ScriptMachine.Proofs.Session.WholePrograms
import ScriptMachine.Proofs.Link.Faithful
import ScriptMachine.Proofs.Link.Fuel
import ScriptMachine.Proofs.Session.NestedFiles
import ScriptMachine.Proofs.Machine.ExactArithmetic
import ScriptMachine.Proofs.Bytecode.Truncation
import ScriptMachine.Proofs.Source.Lossless
import ScriptMachine.Proofs.Source.Spans
import ScriptMachine.Proofs.Session.TypedIntegers
import ScriptMachine.Proofs.Compile.Registers
import ScriptMachine.Proofs.Source.EarliestErrors
import ScriptMachine.Proofs.Session.Splitting
import ScriptMachine.Proofs.Source.Echoes
import ScriptMachine.Proofs.Machine.Comparison
import ScriptMachine.Proofs.Session.Reports
import ScriptMachine.Proofs.CommandLine.CompleteDirectives
import ScriptMachine.Proofs.Benchmark.Charts
import ScriptMachine.Proofs.Session.PrimitiveNames
import ScriptMachine.Proofs.Compile.Pools
import ScriptMachine.Proofs.Compile.IntegerLiterals
