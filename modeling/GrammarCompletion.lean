import GrammarCompletion.Grammar.Source
import GrammarCompletion.Tree.Json
import GrammarCompletion.Completion.Suggestion
import GrammarCompletion.CommandLine.Run
import GrammarCompletion.Main
import GrammarCompletion.Proofs.Ebnf.Desugaring
import GrammarCompletion.Proofs.Grammar.Source
import GrammarCompletion.Proofs.Grammar.Linking
import GrammarCompletion.Proofs.Completion.Continuation
import GrammarCompletion.Proofs.Completion.Suggestion
import GrammarCompletion.Proofs.Completion.Reordering
import GrammarCompletion.Proofs.Terminal.Spelling
import GrammarCompletion.Proofs.Tree.Flattening
import GrammarCompletion.Proofs.Ebnf.Completable
import GrammarCompletion.Proofs.Ebnf.Tries
import GrammarCompletion.Proofs.Ebnf.Viability
import GrammarCompletion.Proofs.Ebnf.Diagnosis
import GrammarCompletion.Proofs.Grammar.Diagnosis
import GrammarCompletion.Proofs.Completion.Closing
import GrammarCompletion.Proofs.Json.Datum
import GrammarCompletion.Proofs.Json.Writing
import GrammarCompletion.Proofs.Grammar.Table
import GrammarCompletion.Proofs.Json.Numbers
import GrammarCompletion.Proofs.Json.Skipping
import GrammarCompletion.Proofs.Tree.Encoding
import GrammarCompletion.Proofs.Completion.Choices
import GrammarCompletion.Proofs.Completion.Nesting
import GrammarCompletion.Proofs.Completion.Assembly
import GrammarCompletion.Proofs.Terminal.Literal
import GrammarCompletion.Proofs.Terminal.CharClass
import GrammarCompletion.Proofs.Grammar.MadeRules
import GrammarCompletion.Proofs.Grammar.ClassSymbol
import GrammarCompletion.Proofs.Grammar.RuleNames
import GrammarCompletion.Proofs.Ebnf.FaultNames
import GrammarCompletion.Proofs.Completion.Calls
