import EzPacker.Liveness.PathLiveness
import EzPacker.Object.RecordedPositions
import EzPacker.Abi.ShippedConventions
import EzPacker.Legalizer.Completeness
import EzPacker.Peephole.ErasedInstructions
import EzPacker.Abi.X86Frame
import EzPacker.Abi.RiscVFrame
import EzPacker.Abi.FrameDisjoint
import EzPacker.RegAlloc.CallClobbers
import EzPacker.RegAlloc.ReservedRegisters
import EzPacker.CodeFlow.Exactness
import EzPacker.PhiElimination.Elimination
import EzPacker.RewriteRules.ShippedMeaning
import EzPacker.MirParser.PhiPairs
import EzPacker.Globals.InitialisedGlobals
import EzPacker.ActionTables.TableAnswers
import EzPacker.Dominance.DominanceFrontier
import EzPacker.SpillCode.RewrittenPaths
import EzPacker.DeclarationOrder.SameModule
import EzPacker.X86.RegisterOperands
import EzPacker.RiscV.BranchRelaxer
import EzPacker.RiscV.NarrowTypes
import EzPacker.RiscV.OperandResolution
import EzPacker.Legalizer.NarrowingExact
import EzPacker.Passes.GeneratePipeline
import EzPacker.LinkedList.Runs
import EzPacker.CFrontend.BitFieldsExact
import EzPacker.CFrontend.Aggregates
import EzPacker.X86.Comparisons
import EzPacker.X86.Divisions
import EzPacker.X86.Conversions
import EzPacker.X86.TwoAddress
import EzPacker.Selection.AddressModes
import EzPacker.Sources.SourceManager
import EzPacker.StdLib.SortSearch
import EzPacker.StdLib.MirRuntime
import EzPacker.StdLib.NumberParsing
import EzPacker.Targets.ExtensionSet
import EzPacker.Mir.TypeTable
import EzPacker.FlexNumber.BitPatterns
import EzPacker.FlexNumber.FloatArithmetic
import EzPacker.Exceptions.ExceptionRuntime
import EzPacker.StdLib.HeapFunctions
import EzPacker.MirParser.MemoryOperand
