import MemShell.Text.Blank
import MemShell.Text.Digit
import MemShell.Text.Quoted
import MemShell.Numeral.Integer
import MemShell.Numeral.Decimal
import MemShell.Table
import MemShell.Transducer
import MemShell.Path
import MemShell.Token.Scan
import MemShell.Alias
import MemShell.Variable
import MemShell.Tree.Parse
import MemShell.Tree.Drawing
import MemShell.Outcome
import MemShell.FileTree
import MemShell.Event
import MemShell.Registry
import MemShell.Builtin
import MemShell.Session
import MemShell.Cli.Options
import MemShell.Main
import MemShell.Proofs.WrittenLines
import MemShell.Proofs.MergedChanges
import MemShell.Proofs.GatheredChanges
import MemShell.Proofs.TreeShape
import MemShell.Proofs.QuoteZones
import MemShell.Proofs.CutReading
import MemShell.Proofs.CommandPositions
import MemShell.Proofs.RedirectionTargets
import MemShell.Proofs.JoinedLines
import MemShell.Proofs.TokenRoles
import MemShell.Proofs.TreeRuns
import MemShell.Proofs.SessionSteps
import MemShell.Proofs.CallTrails
import MemShell.Proofs.ContainedFaults
import MemShell.Proofs.RaisedSignal
import MemShell.Proofs.StaleSignal
import MemShell.Proofs.SourceDepth
import MemShell.Proofs.ReportedStatus
import MemShell.Proofs.ExitRequest
import MemShell.Proofs.WrittenFiles
import MemShell.Proofs.CanonicalLocations
import MemShell.Proofs.StoreTrees
import MemShell.Proofs.DescentReading
import MemShell.Proofs.TokenSpellings
import MemShell.Proofs.AskedChanges
import MemShell.Proofs.AskedDirectories
import MemShell.Proofs.CallLaws
import MemShell.Proofs.WorkingDirectory
import MemShell.Proofs.ChangeMonoid
import MemShell.Proofs.TextPieces
import MemShell.Proofs.AliasChains
import MemShell.Proofs.AlikeRuns
import MemShell.Proofs.ChainScans
import MemShell.Proofs.PipelineParts
import MemShell.Proofs.RedirectionRule
import MemShell.Proofs.StoreFaults
import MemShell.Proofs.MadeDirectories
import MemShell.Proofs.DirectoryListings
import MemShell.Proofs.RefusedLines
import MemShell.Proofs.UsableAliases
import MemShell.Proofs.SingleCommands
import MemShell.Proofs.ExportedVariables
import MemShell.Proofs.RemovedAliases
import MemShell.Proofs.QuotedAssignments
import MemShell.Proofs.AliasNames
import MemShell.Proofs.AliasListing
import MemShell.Proofs.CoreQuestions
import MemShell.Proofs.NormalPaths
import MemShell.Proofs.StoredPaths
import MemShell.Proofs.ProgramSearch
import MemShell.Proofs.ReportedCommands
import MemShell.Proofs.QuietSignals
import MemShell.Proofs.SourcedProfile
import MemShell.Proofs.BlankDividers
import MemShell.Proofs.CountedFiles
import MemShell.Proofs.GivenOptions
import MemShell.Proofs.UnseenProfile
import MemShell.Proofs.EnteredLines
