import Th8.Binary.RoundTrip
import Th8.Cancel.Finally
import Th8.Codec.RoundTrip
import Th8.Command.ActiveDefns
import Th8.Command.DefiningNs
import Th8.Command.Parameters
import Th8.Command.Replacement
import Th8.Command.TokenIndex
import Th8.Context.FrameSwitch
import Th8.Context.Outermost
import Th8.Convert.DoubleLiterals
import Th8.Deletion.Drain
import Th8.Eval.Complete
import Th8.Eval.ParserAgreement
import Th8.Eval.StrippedWords
import Th8.Events.DrainAll
import Th8.Expr.BoundedIntegers
import Th8.Expr.CallDepth
import Th8.Expr.IntegerPaths
import Th8.Expr.Precedence
import Th8.Expr.StringOperators
import Th8.Expr.TruthValues
import Th8.Flags.RoundTrip
import Th8.Hash.Ordered
import Th8.Keys.KeyToken
import Th8.Lists.Evaluation
import Th8.Lists.Lappend
import Th8.Lists.SearchSorted
import Th8.Memory.FinallyAllowance
import Th8.Nre.Coroutine
import Th8.Number.CorrectRounding
import Th8.Parser.EscapeRule
import Th8.Policy.SignedOnly
import Th8.Secure.Persist
import Th8.Secure.Registry
import Th8.Strings.Format
import Th8.Strings.IndexTexts
import Th8.Strings.Split
import Th8.Unwind.Runs
import Th8.Variables.FrameNumbers
import Th8.Variables.InPlaceAppend
import Th8.Variables.RecordSafety
import Th8.Variables.SearchRuns
import Th8.Variables.SecureScope
import Th8.Variables.SetterFailures
