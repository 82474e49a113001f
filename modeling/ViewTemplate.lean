import ViewTemplate.Command
import ViewTemplate.Compile.Functions
import ViewTemplate.Main
import ViewTemplate.Proofs.GenerationActs
import ViewTemplate.Proofs.Hoisting
import ViewTemplate.Proofs.LiteralCode
import ViewTemplate.Proofs.LongSpelling
import ViewTemplate.Proofs.Memoization
import ViewTemplate.Proofs.OnceInLoops
import ViewTemplate.Proofs.PrintedMarkup
import ViewTemplate.Proofs.SilentLoss
import ViewTemplate.Proofs.ShownElement
import ViewTemplate.Proofs.Respelling
import ViewTemplate.Proofs.RespelledElement
import ViewTemplate.Proofs.RespelledTree
import ViewTemplate.Proofs.RespelledContent
import ViewTemplate.Proofs.RespelledRules
import ViewTemplate.Proofs.RespelledCode
import ViewTemplate.Proofs.ConstructFronts
import ViewTemplate.Proofs.RespelledSource
import ViewTemplate.Proofs.AttributePlaces
import ViewTemplate.Proofs.RespelledMarkup
import ViewTemplate.Proofs.SurroundingBlanks
import ViewTemplate.Proofs.RespelledTemplate
import ViewTemplate.Proofs.SettledElements
import ViewTemplate.Proofs.VerbatimMode
import ViewTemplate.Proofs.ReportedRanges
import ViewTemplate.Proofs.TreeRanges
import ViewTemplate.Proofs.GeneratedRanges
import ViewTemplate.Proofs.DiagnosticPlaces
import ViewTemplate.Proofs.ElementTies
import ViewTemplate.Proofs.ChoiceAssembly
import ViewTemplate.Proofs.LastResort
import ViewTemplate.Proofs.AttributeReadings
import ViewTemplate.Proofs.WrittenElements
import ViewTemplate.Proofs.SettledChildren
import ViewTemplate.Proofs.WrittenChoices
import ViewTemplate.Proofs.ChoiceCode
import ViewTemplate.Proofs.RepeatedMarking
import ViewTemplate.Proofs.WrittenConfig
import ViewTemplate.Proofs.ModuleOutput
import ViewTemplate.Proofs.BranchPlaces
import ViewTemplate.Proofs.StaticRoots
import ViewTemplate.Proofs.SlotUpdates
import ViewTemplate.Proofs.ChildrenHints
import ViewTemplate.Proofs.PlainElements
import ViewTemplate.Proofs.NestingRecovery
import ViewTemplate.Proofs.RawTextElements
import ViewTemplate.Proofs.RegisteredListeners
import ViewTemplate.Proofs.PreservedWhitespace
import ViewTemplate.Proofs.SourceLiterals
import ViewTemplate.Proofs.InterpolatedPieces
import ViewTemplate.Proofs.LeadingNewlines
import ViewTemplate.Proofs.FilterBars
import ViewTemplate.Proofs.BracketGrammar
import ViewTemplate.Proofs.OuterSemicolons
import ViewTemplate.Proofs.PathSegments
import ViewTemplate.Proofs.LoopClauses
import ViewTemplate.Proofs.FingerprintChanges
import ViewTemplate.Proofs.WrittenDirectives
import ViewTemplate.Proofs.CaseConversion
