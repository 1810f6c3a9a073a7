import Statechart.Session
import Statechart.Proofs.ChainEdges
import Statechart.Proofs.Reachable
import Statechart.Proofs.Lineage
import Statechart.Proofs.Seats
import Statechart.Proofs.Provenance
import Statechart.Proofs.Spread
import Statechart.Proofs.Canonical
import Statechart.Proofs.Saved
import Statechart.Proofs.Findings
import Statechart.Proofs.Typing
import Statechart.Proofs.Commuting
import Statechart.Proofs.Drawing
import Statechart.Proofs.Cloning
import Statechart.Proofs.Names
import Statechart.Proofs.Entrances
import Statechart.Proofs.SharedSettings
import Statechart.Proofs.AttachedValues
import Statechart.Proofs.Registrations
import Statechart.Proofs.Stacking
import Statechart.Proofs.Thresholds
import Statechart.Proofs.PartialDefaults
import Statechart.Proofs.LiveRoles
