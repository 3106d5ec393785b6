import Namespacer.Main
import Namespacer.Proofs.AsciiCase
import Namespacer.Proofs.DiskTree
import Namespacer.Proofs.ImportRecognition
import Namespacer.Proofs.ImportTargets
import Namespacer.Proofs.JobRun
import Namespacer.Proofs.KeptEdits
import Namespacer.Proofs.Matching
import Namespacer.Proofs.StoredFiles
import Namespacer.Proofs.Conversion
import Namespacer.Proofs.StackConversion
import Namespacer.Proofs.TreeSearch
import Namespacer.Proofs.Positions
import Namespacer.Proofs.GrammarTrees
import Namespacer.Proofs.NodeShapes
import Namespacer.Proofs.ReaderResults
import Namespacer.Proofs.TypeReaders
import Namespacer.Proofs.ExpressionReaders
import Namespacer.Proofs.DeclarationReaders
import Namespacer.Proofs.StatementReaders
import Namespacer.Proofs.ReferenceCoverage
import Namespacer.Proofs.RenamedForms
import Namespacer.Proofs.Rewriting
import Namespacer.Proofs.NameOrigins
import Namespacer.Proofs.ParallelResolution
import Namespacer.Proofs.PathNames
import Namespacer.Proofs.AutoloadLookup
import Namespacer.Proofs.ImportAliases
import Namespacer.Proofs.PascalNames
import Namespacer.Proofs.RenamedFiles
import Namespacer.Proofs.RenamedReferences
import Namespacer.Proofs.IndexFreshness
import Namespacer.Proofs.NamesAlone
import Namespacer.Proofs.FolderMoves
import Namespacer.Proofs.WrittenFiles
import Namespacer.Proofs.DiskViews
import Namespacer.Proofs.MigrationRuns
import Namespacer.Proofs.IgnoredFiles
import Namespacer.Proofs.FailedStages
import Namespacer.Proofs.RefusedMigrations
import Namespacer.Proofs.PascalStability
import Namespacer.Proofs.SettledFolders
import Namespacer.Proofs.RepeatedRenames
import Namespacer.Proofs.RecordIndependence
import Namespacer.Proofs.AnalysisAgreement
import Namespacer.Proofs.AutoloadAgreement
import Namespacer.Proofs.TemplateHandling
import Namespacer.Proofs.TransparentNodes
import Namespacer.Proofs.PreorderSearch
import Namespacer.Proofs.NameLexemes
import Namespacer.Proofs.HeaderLexemes
import Namespacer.Proofs.NamespaceHeader
import Namespacer.Proofs.IndexRegistration
import Namespacer.Proofs.ImportLaws
import Namespacer.Proofs.ReaderAccounts
import Namespacer.Proofs.AccountedTypes
import Namespacer.Proofs.AccountedExpressions
import Namespacer.Proofs.AccountedDeclarations
import Namespacer.Proofs.AccountedStatements
import Namespacer.Proofs.DeclaredClasses
import Namespacer.Proofs.TemplateImports
import Namespacer.Proofs.Passages
import Namespacer.Proofs.RenamedPassages
import Namespacer.Proofs.RenamedWords
import Namespacer.Proofs.RenamedDeclarations
import Namespacer.Proofs.FolderWalks
import Namespacer.Proofs.FolderRelabelling
import Namespacer.Proofs.BlockedFolders
import Namespacer.Proofs.OpenTags
import Namespacer.Proofs.PersistedFiles
import Namespacer.Proofs.FoundFiles
import Namespacer.Proofs.Utf8RoundTrip
import Namespacer.Proofs.JsonTexts
import Namespacer.Proofs.JsonReading
import Namespacer.Proofs.JsonPrinting
import Namespacer.Proofs.ManifestEdits
