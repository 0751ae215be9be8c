import PiCalculus.Emission.Script
import PiCalculus.Main
import PiCalculus.Proofs.AgentCompleteness
import PiCalculus.Proofs.AgentLevels
import PiCalculus.Proofs.AgentSoundness
import PiCalculus.Proofs.AllOrNothing
import PiCalculus.Proofs.AlphaRenaming
import PiCalculus.Proofs.Closedness
import PiCalculus.Proofs.DeclarationChecks
import PiCalculus.Proofs.DeclarationOrder
import PiCalculus.Proofs.Decoding
import PiCalculus.Proofs.FileSystem
import PiCalculus.Proofs.Grammar
import PiCalculus.Proofs.LexicalLanguage
import PiCalculus.Proofs.LexicalScope
import PiCalculus.Proofs.Lexing
import PiCalculus.Proofs.LineBreaks
import PiCalculus.Proofs.Lines
import PiCalculus.Proofs.OffendingCharacters
import PiCalculus.Proofs.OpenBindings
import PiCalculus.Proofs.OpenReferences
import PiCalculus.Proofs.PlaceIndependence
import PiCalculus.Proofs.PrintedReports
import PiCalculus.Proofs.ProgramGrammar
import PiCalculus.Proofs.Progress
import PiCalculus.Proofs.ReadingFaults
import PiCalculus.Proofs.Restoration
import PiCalculus.Proofs.RoundTrip
import PiCalculus.Proofs.Scanner
import PiCalculus.Proofs.Segments
import PiCalculus.Proofs.SourceOrder
import PiCalculus.Proofs.ViablePrefix
import PiCalculus.Storage.FileTree
