import DLedger.Properties.Accepted
import DLedger.Properties.Agreement
import DLedger.Properties.ArrivalOrder
import DLedger.Properties.Atomic
import DLedger.Properties.Authenticity
import DLedger.Properties.CertChain
import DLedger.Properties.Confirmed
import DLedger.Properties.Convergence
import DLedger.Properties.Coverage
import DLedger.Properties.Created
import DLedger.Properties.Defined
import DLedger.Properties.Encoding
import DLedger.Properties.Eviction
import DLedger.Properties.Exchange
import DLedger.Properties.Fetching
import DLedger.Properties.Genesis
import DLedger.Properties.Grammar
import DLedger.Properties.Heartbeat
import DLedger.Properties.Interlock
import DLedger.Properties.Issuer
import DLedger.Properties.Listing
import DLedger.Properties.Naming
import DLedger.Properties.Pipe
import DLedger.Properties.Plain
import DLedger.Properties.Provenance
import DLedger.Properties.Reachability
import DLedger.Properties.Reading
import DLedger.Properties.Recovery
import DLedger.Properties.Reentrant
import DLedger.Properties.Replication
import DLedger.Properties.Restart
import DLedger.Properties.Returns
import DLedger.Properties.Revocation
import DLedger.Properties.Safekeeping
import DLedger.Properties.Thresholds
import DLedger.Properties.Waiting
import DLedger.Properties.Weights
import DLedger.Reentrant.Calls
