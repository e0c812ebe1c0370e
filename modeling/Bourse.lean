import Bourse.Book.Quote
import Bourse.Engine.Bus
import Bourse.Engine.Session
import Bourse.Main
import Bourse.Proofs.Log.Framing
import Bourse.Proofs.Log.Scanning
import Bourse.Proofs.Log.Appending
import Bourse.Proofs.Outbox.Recording
import Bourse.Proofs.Record.Codec
import Bourse.Proofs.Recovery.Cutting
import Bourse.Proofs.Recovery.Exact
import Bourse.Proofs.Recovery.Mislabelled
import Bourse.Proofs.Book.Keeping
import Bourse.Proofs.Book.Plain
import Bourse.Proofs.Book.Querying
import Bourse.Proofs.Book.Refinement
import Bourse.Proofs.Book.Soundness
import Bourse.Proofs.Lifetime.Delivery
import Bourse.Proofs.Lifetime.Identity
import Bourse.Proofs.Book.Sweeping
import Bourse.Proofs.Recovery.Restarting
import Bourse.Proofs.Engine.Isolation
import Bourse.Proofs.Log.Checksum
import Bourse.Proofs.Log.Damage
import Bourse.Proofs.Log.Mending
import Bourse.Proofs.Log.Parsing
import Bourse.Proofs.Record.Canonical
import Bourse.Proofs.Record.Lines
import Bourse.Proofs.Lifetime.Grouping
import Bourse.Proofs.Symbol.Failing
import Bourse.Proofs.Book.Crossing
import Bourse.Proofs.Book.Conserving
import Bourse.Proofs.Outbox.Following
import Bourse.Proofs.Engine.Acknowledging
import Bourse.Proofs.Outbox.Clamping
import Bourse.Proofs.Book.Outcomes
import Bourse.Proofs.Recovery.Repeating
import Bourse.Proofs.Recovery.Boundaries
import Bourse.Proofs.Recovery.Retrying
import Bourse.Proofs.Symbol.Batching
import Bourse.Proofs.Book.Traceless
import Bourse.Proofs.Book.Finishing
import Bourse.Proofs.Book.Splitting
import Bourse.Proofs.Book.Mirroring
import Bourse.Proofs.Record.Grammar
import Bourse.Proofs.Book.Slotting
import Bourse.Proofs.Log.Placing
import Bourse.Proofs.Log.Resuming
import Bourse.Proofs.Record.Sizing
import Bourse.Proofs.Engine.Input
import Bourse.Proofs.Engine.Rereading
