import AtomixJS.Results.MissingArguments
import AtomixJS.Results.NativeCall
import AtomixJS.Results.OperatorEffect
import AtomixJS.Results.ModuleCodec
import AtomixJS.Results.BundleCodec
import AtomixJS.Results.ModuleLookup
import AtomixJS.Results.BundleOrder
import AtomixJS.Results.StackDiscipline
import AtomixJS.Results.CoreCompilation
import AtomixJS.Results.ObjectStore
import AtomixJS.Results.PrototypeChains
import AtomixJS.Results.CompilerRoundTrip
import AtomixJS.Results.ImportPath
import AtomixJS.Results.CallConvention
import AtomixJS.Results.ImportKey
import AtomixJS.Results.EvaluationOrder
import AtomixJS.Results.DictDeletion
import AtomixJS.Results.LexicalScoping
import AtomixJS.Results.SectionLengths
import AtomixJS.Results.RepeatedCompilation
import AtomixJS.Results.CompoundAssignment
import AtomixJS.Results.ClassMembers
import AtomixJS.Results.StaticMembers
import AtomixJS.Results.Construction
import AtomixJS.Results.Hygiene
import AtomixJS.Results.IntegerArithmetic
import AtomixJS.Results.Shifts
import AtomixJS.Results.BitwiseCoercion
import AtomixJS.Results.StrictEquality
import AtomixJS.Results.RelationalOrder
import AtomixJS.Results.Truthiness
import AtomixJS.Results.NumericLiterals
import AtomixJS.Core.Resumption
import AtomixJS.Core.Quiet
import AtomixJS.Compiler.Quiet
import AtomixJS.Results.SuperMembers
import AtomixJS.Results.FunctionExpressions
import AtomixJS.Compiler.Loops
import AtomixJS.Compiler.Exports
import AtomixJS.Results.Exports
import AtomixJS.Results.NanClassification
import AtomixJS.Results.StringTable
import AtomixJS.Results.StringHash
import AtomixJS.Results.PrintedHash
import AtomixJS.Results.FileHash
import AtomixJS.Results.Accessors
import AtomixJS.Results.ArrayLiterals
import AtomixJS.Results.StackBounds
import AtomixJS.Results.ModuleStart
import AtomixJS.Results.JumpContainment
import AtomixJS.Results.ControlFlow
import AtomixJS.Results.CompiledModules
import AtomixJS.Results.CompiledPrograms
