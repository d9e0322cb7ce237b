import FirstHit.Config.Text
import FirstHit.Proofs.FirstHits
import FirstHit.Proofs.Walks
import FirstHit.Session
import FirstHit.Version
import FirstHit.Proofs.TotalAutomata
import FirstHit.Proofs.Histories
import FirstHit.Proofs.Limits
import FirstHit.Proofs.Snapshots
import FirstHit.Proofs.Configurations
import FirstHit.Proofs.AcceptanceLists
import FirstHit.Proofs.Masking
import FirstHit.Proofs.SparseScans
import FirstHit.Proofs.FirstAppearance
import FirstHit.Proofs.Precedence
import FirstHit.Proofs.BareTries
import FirstHit.Proofs.Spans
import FirstHit.Proofs.LinkRuns
import FirstHit.Proofs.PatternSets
import FirstHit.Proofs.OnlineScans
import FirstHit.Proofs.Separators
import FirstHit.Proofs.FurtherPatterns
import FirstHit.Proofs.Reportable
import FirstHit.Proofs.FirstBytes
import FirstHit.Proofs.Utf8
import FirstHit.Proofs.TextAnswers
import FirstHit.Proofs.Reports
import FirstHit.Proofs.Siblings
import FirstHit.Proofs.RoundTrips
import FirstHit.Proofs.Capacity
import FirstHit.Proofs.FillOrders
import FirstHit.Proofs.Overrides
