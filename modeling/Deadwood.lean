import Deadwood.Main
import Deadwood.Proofs.DeadRemoval
import Deadwood.Proofs.ExportUse
import Deadwood.Proofs.CleanFaults
import Deadwood.Proofs.EdgeCalls
import Deadwood.Proofs.PlannedLines
import Deadwood.Proofs.PrunedText
import Deadwood.Proofs.GoPackages
import Deadwood.Proofs.QualifiedNames
import Deadwood.Proofs.ManifestPaths
import Deadwood.Proofs.Chronology
import Deadwood.Proofs.Bodies
import Deadwood.Proofs.Escalation
import Deadwood.Proofs.BuildMarks
import Deadwood.Proofs.CharLiterals
import Deadwood.Proofs.FromImports
import Deadwood.Proofs.LineNumbers
import Deadwood.Proofs.ObjectKeys
import Deadwood.Proofs.Links
