import FcLang.Wideint.Text
import FcLang.Data.HashDictMap
import FcLang.Data.HashDictRuns
import FcLang.Data.ArrayListRuns
import FcLang.Data.LinkedListSeq
import FcLang.Mono.Growth
import FcLang.Pass1.CNamesDistinct
import FcLang.Lexer.Tokenize
import FcLang.Codegen.IntKept
import FcLang.Match.Emit
import FcLang.Const.Agree
import FcLang.Codegen.SliceExact
import FcLang.Parser.Parse
import FcLang.Parser.Print
import FcLang.Parser.Line
import FcLang.Parser.Safe
import FcLang.Parser.Total
import FcLang.Parser.Loop
import FcLang.Parser.ConstArith
import FcLang.Parser.Cast
import FcLang.Parser.Exact
import FcLang.Parser.Spoiled
import FcLang.Parser.ReadBack
import FcLang.Lib.Search
import FcLang.Pass2.Containment
import FcLang.Pass2.ContainmentWalk
import FcLang.Wideint.Arithmetic
import FcLang.Wideint.Checked
import FcLang.Data.ArrayListSeq
import FcLang.Lib.Congruential
import FcLang.Random.FullPeriod
import FcLang.Facts.Values
import FcLang.Facts.Expr
import FcLang.Facts.Elided
import FcLang.Lib.CText
import FcLang.Lib.Printf
import FcLang.Text.Literal
import FcLang.Text.Segments
import FcLang.Text.Encode
import FcLang.Lib.PrintfLength
import FcLang.Lib.Trigraphs
import FcLang.Text.InterpSpec
import FcLang.Text.Interpolate
import FcLang.Text.InterpBounds
import FcLang.Text.InterpFormat
import FcLang.Text.InterpOutput
import FcLang.Text.InterpExact
import FcLang.Diag.Speculation
import FcLang.Json.Strings
import FcLang.Json.Value
import FcLang.Json.RoundTrip
import FcLang.Lsp.Clamping
import FcLang.Codegen.EnumOf
import FcLang.Codegen.ExternProtocol
import FcLang.Pass2.SelfRecursion
import FcLang.Types.Compose
import FcLang.Types.Equal
import FcLang.Types.Simultaneous
import FcLang.Types.Unbound
import FcLang.Lib.Propagate
import FcLang.Pass1.ParamKinds
import FcLang.Pass1.ParamChains
import FcLang.Pass1.ParamKindsExact
import FcLang.Pass1.ParamOrder
import FcLang.Wideint.Shifts
import FcLang.Wideint.Parse
import FcLang.Lexer.CondGrammar
import FcLang.Lexer.CondEval
import FcLang.Intern.Canonical
import FcLang.Args.WcExact
import FcLang.Match.FindWitness
import FcLang.Types.TypeVarClean
import FcLang.Args.ExpandExact
import FcLang.Strings.SplitJoin
import FcLang.Pass2.ModuleGraph
import FcLang.Pass2.ModuleCycles
import FcLang.Lsp.Uri
import FcLang.Lsp.Server
import FcLang.Lsp.Flush
import FcLang.Lsp.Session
import FcLang.Lsp.Publish
import FcLang.Lib.Unsequenced
import FcLang.Codegen.Sequence
import FcLang.Codegen.SequenceExact
import FcLang.Codegen.Defer
import FcLang.Codegen.DeferExact
import FcLang.Lib.Toposort
import FcLang.Codegen.TypeOrder
import FcLang.Codegen.TypeOrderSets
import FcLang.Codegen.TypeOrderNames
import FcLang.Codegen.TypeOrderExact
