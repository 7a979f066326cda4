import Privatization.Files.Machine
import Privatization.Main
import Privatization.Proofs.Alias.Attribution
import Privatization.Proofs.Alias.Index
import Privatization.Proofs.Alias.Walks
import Privatization.Proofs.Cache.History
import Privatization.Proofs.Classification.Copying
import Privatization.Proofs.Classification.Counting
import Privatization.Proofs.Classification.EveryLoop
import Privatization.Proofs.Classification.Forcing
import Privatization.Proofs.Classification.Groups
import Privatization.Proofs.Classification.LastValues
import Privatization.Proofs.Classification.Locality
import Privatization.Proofs.Classification.MergedRecords
import Privatization.Proofs.Classification.Missing
import Privatization.Proofs.Classification.Order
import Privatization.Proofs.Classification.Reports
import Privatization.Proofs.Classification.Sharing
import Privatization.Proofs.Dependence.Updates
import Privatization.Proofs.Dependence.Weakening
import Privatization.Proofs.Facts.Concatenation
import Privatization.Proofs.Facts.Labels
import Privatization.Proofs.Facts.Names
import Privatization.Proofs.Facts.Parents
import Privatization.Proofs.Facts.Reach
import Privatization.Proofs.Facts.RoundTrip
import Privatization.Proofs.Guarded.Run
import Privatization.Proofs.Guarded.Unions
import Privatization.Proofs.Nest.Invariant
import Privatization.Proofs.Report.Rendering
import Privatization.Proofs.Resolution.Pointers
import Privatization.Proofs.Resolution.Simultaneous
import Privatization.Proofs.Text.SourceLocations
