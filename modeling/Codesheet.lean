import Codesheet.Proofs.Block.Visits
import Codesheet.Proofs.Constants.Local
import Codesheet.Proofs.Grammar.Columns
import Codesheet.Proofs.Grammar.Rendered
import Codesheet.Proofs.Line.Delivered
import Codesheet.Proofs.Lookup.Extended
import Codesheet.Proofs.Lookup.Reordered
import Codesheet.Proofs.Lookup.SignedSum
import Codesheet.Proofs.Program.Account
import Codesheet.Proofs.Program.Handoff
import Codesheet.Proofs.Program.Labels
import Codesheet.Proofs.Program.Projection
import Codesheet.Proofs.Program.Widened
import Codesheet.Proofs.Scan.Steps
import Codesheet.Proofs.Series.Made
