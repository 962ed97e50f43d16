import Haxe.Theory.Raising
import Haxe.Theory.ScopeTrace
import Haxe.Theory.PathSteps
import Haxe.Theory.BestCandidates
import Haxe.Theory.MergedRuns
import Haxe.Source.Optimization.CSyntax
import Haxe.Source.Core.Path
import Haxe.Source.Codegen.Overloads
import Haxe.Source.Filters.Exceptions
import Haxe.Source.Std.Int64Text
import Haxe.Source.Std.ListSort
import Haxe.Source.Std.ListSortRuns
import Haxe.Guarantees.ClassFiles
import Haxe.Guarantees.CompilationServer
import Haxe.Guarantees.ConstantFolding
import Haxe.Guarantees.Containers
import Haxe.Guarantees.DataFlowTermination
import Haxe.Guarantees.Encodings
import Haxe.Guarantees.EvalInterpreter
import Haxe.Guarantees.EventHandlers
import Haxe.Guarantees.EventLoop
import Haxe.Guarantees.Filters
import Haxe.Guarantees.HashLink
import Haxe.Guarantees.ImmediateDominators
import Haxe.Guarantees.Int64
import Haxe.Guarantees.Json
import Haxe.Guarantees.JvmCode
import Haxe.Guarantees.Overloads
import Haxe.Guarantees.Parsing
import Haxe.Guarantees.Paths
import Haxe.Guarantees.Patterns
import Haxe.Guarantees.PurityInference
import Haxe.Guarantees.SourceMaps
import Haxe.Guarantees.Streams
import Haxe.Guarantees.SysTools
import Haxe.Guarantees.UnicodeStrings
import Haxe.Guarantees.UnserializerTermination
import Haxe.Guarantees.Xml
