import Quell.Session
import Quell.Batch
import Quell.Settings.Reader
import Quell.Proofs.Rerun
import Quell.Proofs.Dyck
import Quell.Proofs.Comment
import Quell.Proofs.Findings
import Quell.Proofs.Lossless
import Quell.Proofs.Labels
import Quell.Proofs.Mentions
import Quell.Proofs.Heading
import Quell.Proofs.Legible
import Quell.Proofs.ReadBack
import Quell.Proofs.Lookup
import Quell.Proofs.LineEnding
import Quell.Proofs.Scopes
import Quell.Proofs.Foresight
import Quell.Proofs.Resolution
import Quell.Proofs.Enumerators
import Quell.Proofs.Signature
import Quell.Proofs.Alignment
import Quell.Proofs.Operators
import Quell.Proofs.Floor
import Quell.Proofs.Names
import Quell.Proofs.Pass
