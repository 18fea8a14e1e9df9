import RefSugar.Command.Tree
import RefSugar.Main
import RefSugar.Proofs.AnchoredEdits
import RefSugar.Proofs.Balance
import RefSugar.Proofs.Clashes
import RefSugar.Proofs.Collisions
import RefSugar.Proofs.Components
import RefSugar.Proofs.FastPath
import RefSugar.Proofs.ScopeRuns
import RefSugar.Proofs.Shadowing
import RefSugar.Proofs.Unpacking
import RefSugar.Proofs.RootNames
import RefSugar.Proofs.SharedSession
import RefSugar.Proofs.MapDecoding
import RefSugar.Proofs.SigilFree
import RefSugar.Proofs.IgnoredNames
import RefSugar.Proofs.IssueOrder
import RefSugar.Proofs.Pages
import RefSugar.Proofs.RegionSearch
import RefSugar.Proofs.CodePieces
import RefSugar.Proofs.DeclaredNames
import RefSugar.Proofs.TagAttributes
import RefSugar.Proofs.WrappedLeaves
import RefSugar.Proofs.DeclarationOrder
import RefSugar.Proofs.Verdicts
