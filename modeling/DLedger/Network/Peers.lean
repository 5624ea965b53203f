import DLedger.Cert.Accept
import DLedger.Ledger.Keep
import DLedger.Lib.Interleaving

set_option autoImplicit false

/-! # A network of peers

Peers with the default certificate manager, each with its own configuration, trust anchor and
starting certificates. There is no model of the links: any peer may receive any Interest and any
Data packet at any time, so packets may be lost, repeated, delayed and reordered, and an attacker
may send packets of its own. What the attacker cannot do is sign with the key of a peer.
-/

namespace DLedger

open LedgerImpl

/-- What the peers of a network are set up with. -/
structure Network (ι : Type) where
  ndn : Ndn
  config : ι → Config
  anchorCert : ι → Certificate
  startingPeers : ι → List Certificate
  /-- The peer that has the private key of a certificate, if one of the peers has it. -/
  owner : Certificate → Option ι

/-- A peer with the packets that it has signed as records. The latter are a history that no call
reads. -/
structure Party where
  ledger : LedgerImpl DefaultCertificateManager
  created : List Data

/-- The packet that a call signs as a record. -/
def LedgerImpl.Call.built {σ : Type} (P : Peer σ) (s : LedgerImpl σ) : Call → List Data
  | .createRecord amb record =>
      match buildRecord P amb record s with
      | (_, .ok (.ok data)) => [data]
      | _ => []
  | _ => []

theorem LedgerImpl.Call.mem_built {σ : Type} {P : Peer σ} {s : LedgerImpl σ} {c : Call}
    {data : Data} : data ∈ c.built P s ↔ ∃ amb record record',
      c = .createRecord amb record ∧ buildRecord P amb record s = (record', .ok (.ok data)) := by
  cases c with
  | createRecord amb record =>
      simp only [Call.built]
      rcases hbuild : buildRecord P amb record s with ⟨record', f | code | data'⟩
      · simp [hbuild]
      · simp [hbuild]
      · simp [hbuild, eq_comm]
  | _ => simp [Call.built]

namespace Network

variable {ι : Type} (N : Network ι)

def peer (i : ι) : Peer DefaultCertificateManager where
  ndn := N.ndn
  config := N.config i
  certManager := DefaultCertificateManager.manager N.ndn

/-- A peer makes a call. -/
def step (i : ι) (c : Call) (p : Party) : Party where
  ledger := (call (N.peer i) c p.ledger).1
  created := c.built (N.peer i) p.ledger ++ p.created

/-- A peer just after the constructors of its certificate manager and of its ledger, on an empty
database. -/
def Starts (i : ι) (p : Party) : Prop :=
  ∃ now m amb,
    DefaultCertificateManager.construct N.ndn now (N.config i).peerPrefix (N.anchorCert i)
      (N.startingPeers i) = .ok m ∧
    Ambient.Writes amb ∧
    construct (N.peer i) amb Backend.empty m = (p.ledger, .ok ()) ∧ p.created = []

/-- The states of the runs whose calls are allowed where they are made. -/
abbrev Reachable [DecidableEq ι] (allowed : (ι → Party) → ι → Call → Prop) :
    (ι → Party) → Prop :=
  Interleaving.Reach N.Starts N.step allowed

/-! ## Keys -/

/-- A certificate for the identity of a peer is one for a key of that peer. -/
def Genuine (cert : Certificate) : Prop :=
  ∀ j, cert.getIdentity = (N.config j).peerPrefix → N.owner cert = some j

/-- The peers have different prefixes, the certificates that they start with are genuine, and the
anchors sign genuine certificates only. -/
structure PublicKeys : Prop where
  start : ∀ i cert, cert = N.anchorCert i ∨ cert ∈ N.startingPeers i → N.Genuine cert
  signed : ∀ i cert, N.ndn.verifyData cert (N.anchorCert i) = true → N.Genuine cert
  peerPrefix_injective : Function.Injective fun i => (N.config i).peerPrefix
  peerPrefix_ne_genesis : ∀ i, (N.config i).peerPrefix ≠ genesisPrefix

/-- A packet that can be sent: if it is a record with a signature by the key of a peer, then that
peer has signed it. -/
def Unforged (g : ι → Party) (data : Data) : Prop :=
  ∀ record, Record.ofData N.ndn data = .ok record → ∀ cert j, N.owner cert = some j →
    N.ndn.verifyData data cert = true → data ∈ (g j).created

/-- The applications create fresh records, and announce genuine certificates only. Received Data
packets are unforged; Interests may be anything. -/
def Honest (g : ι → Party) (i : ι) : Call → Prop
  | .createRecord amb record => record.Fresh N.ndn ∧ ∀ record' data,
      buildRecord (N.peer i) amb record (g i).ledger = (record', .ok (.ok data)) →
      ∀ cert ∈ DefaultCertificateManager.carried N.ndn { record' with data := some data },
        N.Genuine cert
  | .onFetchedRecord _ data => N.Unforged g data
  | _ => True

/-- Such calls, of which each returns. -/
def Regular (g : ι → Party) (i : ι) (c : Call) : Prop :=
  N.Honest g i c ∧ Admissible (N.peer i) (g i).ledger c ∧ CallReturns (N.peer i) (g i).ledger c

variable {N} [DecidableEq ι] {g : ι → Party}

theorem Reachable.honest (h : N.Reachable N.Regular g) : N.Reachable N.Honest g :=
  h.mono (fun _ _ hs => hs) fun _ _ _ hc => hc.1

/-- **Each peer of a regular network makes a run of its own.** -/
theorem Reachable.ledger (h : N.Reachable N.Regular g) (i : ι) :
    ∃ m, LedgerImpl.Reachable (N.peer i) Backend.empty m (g i).ledger := by
  refine h.project (R := fun i p => ∃ m,
    LedgerImpl.Reachable (N.peer i) Backend.empty m p.ledger) ?_ ?_ i
  · rintro i p ⟨_, m, amb, _, hput, hstart, _⟩
    exact ⟨m, LedgerImpl.Reachable.start hput hstart⟩
  · rintro g i c ⟨m, hi⟩ hc
    exact ⟨m, hi.step ⟨c, hc.2.1, Outcome.eq_of_returns hc.2.2⟩⟩

end Network

end DLedger
