import DLedger.Ledger.Expiry
import DLedger.Ndn.Uri

set_option autoImplicit false

/-! # A small ledger

A peer with one genesis record, a certificate manager that accepts everything, and packets of
one-letter producers, for the concrete runs of the other modules.
-/

namespace DLedger

open Tlv (Bytes Block)

namespace Sample

def ndn : Ndn := Ndn.sample (fun _ _ => true) (fun _ => none)

/-- A certificate manager that accepts everything. -/
def acceptAll : CertificateManager Unit where
  verifySignature _ _ := .ok true
  verifyRecordFormat _ _ := .ok true
  endorseSignature _ _ := .ok true
  verifyInterest _ _ := .ok true
  acceptRecord m _ := m
  authorizedToGenerate _ := true

/-- A configuration with given numbers of pointers and weights. -/
def config (precedingRecordNum contributionWeight confirmWeight : Nat) : Config where
  precedingRecordNum := precedingRecordNum
  appendWeight := contributionWeight
  contributionWeight := contributionWeight
  confirmWeight := confirmWeight
  numGenesisBlock := 1
  ancestorFetchTimeout := 1000
  clockSkewTolerance := 1000
  blockConfirmationTimeout := 1000
  peerPrefix := [.generic [112]]

def peer (config : Config) : Peer Unit := { ndn, config, certManager := acceptAll }

/-- At time zero, without application callbacks; the key chain signs with one byte. -/
def ambient : Ambient where
  now := 0
  onRecordAppRetrievalCheck := none
  onRecordAppEndorseCheck := none
  putOk _ := true
  signData _ _ := .ok [1]
  signInterest := .ok ()
  shuffle l := l
  shuffle_perm l := .refl l

/-- A generic record of a producer, with these pointers and no items. The digest tells the
packets of a producer apart. -/
def packet (producer digest : UInt8) (pointers : List Name) : Data where
  name := [.generic [producer], .generic (recordTypeToString .genericRecord), .generic [120],
    .ofTimestamp 0]
  content := Tlv.encodeAll [({ recordPointers := pointers } : Record).headerWireEncode,
    ({ recordPointers := pointers } : Record).bodyWireEncode]
  signature := [digest]

/-- A fresh record of an application. -/
def freshRecord : Record := { type := .genericRecord, uniqueIdentifier := [49] }

theorem freshRecord_fresh : freshRecord.Fresh ndn := ⟨rfl, rfl, by decide, by decide +kernel⟩

/-- The full name of the genesis record. -/
def genesis : Name :=
  genesisPrefix ++ [.generic (recordTypeToString .genesisRecord), .generic [48],
    .ofTimestamp 0, .implicitSha256Digest []]

/-- The full name of a second one. -/
def secondGenesis : Name :=
  genesisPrefix ++ [.generic (recordTypeToString .genesisRecord), .generic [49],
    .ofTimestamp 0, .implicitSha256Digest []]

theorem packet_name (producer digest : UInt8) (pointers : List Name) :
    RecordName.check (packet producer digest pointers).name = .ok () := by
  rfl

/-- A packet decodes to a record with its pointers, as long as they fit into a packet. -/
theorem ofData_packet (producer digest : UInt8) (pointers : List Name)
    (h : (packet producer digest pointers).content.length < 2 ^ 64) :
    Record.ofData ndn (packet producer digest pointers) = .ok {
      data := some (packet producer digest pointers)
      type := .genericRecord
      uniqueIdentifier := [120]
      recordPointers := pointers
      contentItems := [] } := by
  have hcontent : ({ recordPointers := pointers } : Record).wireEncode
      = .ok (packet producer digest pointers).content := if_pos h
  obtain ⟨hheader, hbody⟩ := Record.decode_wireEncode ndn hcontent
  simp only [Record.ofData, RecordName.ofName_of_check (packet_name producer digest pointers),
    hheader, hbody, bind, Except.bind, pure, Except.pure]
  rfl

/-! ## Certificates -/

/-- A certificate of a one-letter producer. -/
def certificate (identity : UInt8) : Certificate where
  name := [.generic [identity], Certificate.keyComponent, .generic [1], .generic [1], .generic [1]]
  content := []
  signature := [identity]

/-- An ndn-cxx that reads a certificate from the letter in a block. -/
def certificateNdn : Ndn :=
  Ndn.sample (fun _ _ => true) fun block => block.value.head?.map certificate

/-- The default manager with an anchor and one more certificate. -/
def certificateManager : DefaultCertificateManager :=
  [certificate 65, certificate 97].foldl DefaultCertificateManager.pushCertificate
    ⟨[], certificate 65, ∅, ∅⟩

/-- The manager of a peer that has a certificate itself. -/
def ownManager : DefaultCertificateManager :=
  [certificate 65, certificate 97, certificate 112].foldl DefaultCertificateManager.pushCertificate
    ⟨[.generic [112]], certificate 65, ∅, ∅⟩

def certificatePeer : Peer DefaultCertificateManager where
  ndn := certificateNdn
  config := config 1 5 1
  certManager := DefaultCertificateManager.manager certificateNdn

/-- A certificate record of a producer with a certificate for another one. -/
def certificatePacket (producer identity : UInt8) (pointers : List Name) : Data where
  name := [.generic [producer], .generic (recordTypeToString .certificateRecord), .generic [120],
    .ofTimestamp 0]
  content := Tlv.encodeAll [({ recordPointers := pointers } : Record).headerWireEncode,
    ({ contentItems := [⟨6, [identity], by decide⟩] } : Record).bodyWireEncode]
  signature := [0]

/-- A revocation record of a producer for these certificates. -/
def revocationPacket (producer : UInt8) (certNames pointers : List Name) : Data where
  name := [.generic [producer], .generic (recordTypeToString .revocationRecord), .generic [120],
    .ofTimestamp 0]
  content := Tlv.encodeAll [({ recordPointers := pointers } : Record).headerWireEncode,
    ({ contentItems := certNames.map Name.wireEncode } : Record).bodyWireEncode]
  signature := [0]

/-- A certificate record and a revocation of its certificate, both of the anchor. -/
def revokedRecords : List Record :=
  [certificatePacket 65 99 [genesis],
    revocationPacket 65 [certificateNdn.fullName (certificate 99)] [genesis]].filterMap
      fun data => (Record.ofData certificateNdn data).toOption

/-- A certificate record of the anchor, and a record of another producer on it. -/
def certificatePackets : List Data :=
  let c := certificatePacket 65 99 [genesis]
  [c, packet 97 0 [certificateNdn.fullName c]]

/-- A certificate record of a producer that carries nothing and names a previous one. -/
def successorPacket (producer : UInt8) (previous : Name) (pointers : List Name) : Data where
  name := [.generic [producer], .generic (recordTypeToString .certificateRecord), .generic [120],
    .ofTimestamp 0]
  content := Tlv.encodeAll [({ recordPointers := pointers } : Record).headerWireEncode,
    ({ contentItems := [KeyLocator.wireEncode previous] } : Record).bodyWireEncode]
  signature := [1]

/-- The manager of a peer that knows a producer under the anchor's name. -/
def nestedManager : DefaultCertificateManager :=
  [certificate 65, { certificate 97 with name := .generic [65] :: (certificate 97).name }].foldl
    DefaultCertificateManager.pushCertificate ⟨[], certificate 65, ∅, ∅⟩

/-- A certificate record of that producer. -/
def nestedPacket : Data :=
  let packet := certificatePacket 97 99 [genesis]
  { packet with name := .generic [65] :: packet.name }

/-- Two certificate records of the anchor, of which the second names the first one, and two
records on them that confirm the second one first. -/
def successorPackets : List Data :=
  let c := certificatePacket 65 99 [genesis]
  let d := successorPacket 65 (certificateNdn.fullName c) [genesis]
  [c, d, packet 97 0 [certificateNdn.fullName d], packet 97 1 [certificateNdn.fullName c]]

/-- A revocation of the peer's certificate by the anchor, and a record of another producer on
it. -/
def revokingPackets : List Data :=
  let r := revocationPacket 65 [certificateNdn.fullName (certificate 112)] [genesis]
  [r, packet 97 0 [certificateNdn.fullName r]]

/-! ## Runs -/

section Run

variable {σ : Type} (P : Peer σ) (certManager : σ)

/-- A ledger on an empty database after packets have been received. -/
def run (packets : List Data) : LedgerImpl σ × Except Fault Unit :=
  match LedgerImpl.construct P ambient Backend.empty certManager with
  | (s, .error f) => (s, .error f)
  | (s, .ok ()) => Outcome.forEach (LedgerImpl.onFetchedRecord P ambient) packets s

/-- A ledger on an empty database after packets have been received at given times. -/
def runAt (packets : List (Int × Data)) : LedgerImpl σ × Except Fault Unit :=
  match LedgerImpl.construct P ambient Backend.empty certManager with
  | (s, .error f) => (s, .error f)
  | (s, .ok ()) => Outcome.forEach
      (fun packet => LedgerImpl.onFetchedRecord P { ambient with now := packet.1 } packet.2)
      packets s

variable {P certManager}

theorem reachable_run {packets : List Data} (h : (run P certManager packets).2 = .ok ()) :
    LedgerImpl.Reachable P Backend.empty certManager (run P certManager packets).1 := by
  revert h
  unfold run
  rcases hstart : LedgerImpl.construct P ambient Backend.empty certManager with ⟨s, f | ⟨⟨⟩⟩⟩
  · exact fun h => nomatch h
  · intro h
    refine Outcome.forEach_ok_invariant
      (LedgerImpl.Reachable P Backend.empty certManager) (fun data _ a b ha hab => ?_)
      (LedgerImpl.Reachable.start (show LedgerImpl.Ambient.Writes ambient from fun _ => rfl) hstart)
      (Outcome.eq_of_returns h)
    exact ha.step ⟨.onFetchedRecord ambient data, fun _ => rfl, hab⟩

/-- Before any packet, the run is the constructor. -/
theorem construct_eq_run
    (h : (LedgerImpl.construct P ambient Backend.empty certManager).2 = .ok ()) :
    LedgerImpl.construct P ambient Backend.empty certManager
      = ((run P certManager []).1, .ok ()) := by
  unfold run
  rcases hstart : LedgerImpl.construct P ambient Backend.empty certManager with ⟨s, f | ⟨⟨⟩⟩⟩
  · rw [hstart] at h
    cases h
  · rfl

theorem runsTo_run {allowed : LedgerImpl σ → LedgerImpl.Call → Prop} {packets : List Data}
    (hallowed : ∀ s, ∀ data ∈ packets, allowed s (.onFetchedRecord ambient data))
    (h : (LedgerImpl.construct P ambient Backend.empty certManager).2 = .ok ()) :
    LedgerImpl.RunsTo P Backend.empty certManager allowed (run P certManager packets).1 := by
  unfold run
  rcases hstart : LedgerImpl.construct P ambient Backend.empty certManager with ⟨s, f | ⟨⟨⟩⟩⟩
  · rw [hstart] at h
    cases h
  · refine Outcome.forEach_invariant (LedgerImpl.RunsTo P Backend.empty certManager allowed)
      (fun data hdata a ha => ?_) (LedgerImpl.RunsTo.start hstart)
    exact LedgerImpl.RunsTo.call (c := .onFetchedRecord ambient data) ha (hallowed a data hdata)

theorem reachable_runAt {packets : List (Int × Data)}
    (h : (runAt P certManager packets).2 = .ok ()) :
    LedgerImpl.Reachable P Backend.empty certManager (runAt P certManager packets).1 := by
  revert h
  unfold runAt
  rcases hstart : LedgerImpl.construct P ambient Backend.empty certManager with ⟨s, f | ⟨⟨⟩⟩⟩
  · intro h
    cases h
  · intro h
    refine Outcome.forEach_ok_invariant
      (LedgerImpl.Reachable P Backend.empty certManager) (fun packet _ a b ha hab => ?_)
      (LedgerImpl.Reachable.start (show LedgerImpl.Ambient.Writes ambient from fun _ => rfl) hstart)
      (Outcome.eq_of_returns h)
    exact ha.step ⟨.onFetchedRecord { ambient with now := packet.1 } packet.2, fun _ => rfl, hab⟩

/-- Nothing has expired when the first packet is received at time zero. -/
theorem reachableBy_first {kind : Name → Bool → Prop} {data : Data}
    (hstart : (LedgerImpl.construct P ambient Backend.empty certManager).2 = .ok ())
    (hnew : ∀ entry ∈ (LedgerImpl.construct P ambient Backend.empty
      certManager).1.tailRecords.toList, 0 ≤ entry.2.addedTime)
    (htimeout : 0 ≤ P.config.blockConfirmationTimeout)
    (h : (LedgerImpl.onFetchedRecord P ambient data
      (LedgerImpl.construct P ambient Backend.empty certManager).1).2 = .ok ()) :
    LedgerImpl.ReachableBy P Backend.empty certManager (LedgerImpl.Unexpired P kind)
      (LedgerImpl.onFetchedRecord P ambient data
        (LedgerImpl.construct P ambient Backend.empty certManager).1).1 := by
  have hreach : LedgerImpl.ReachableBy P Backend.empty certManager (LedgerImpl.Unexpired P kind)
      (LedgerImpl.construct P ambient Backend.empty certManager).1 :=
    LedgerImpl.ReachableBy.start
      (show LedgerImpl.Ambient.Writes ambient from fun _ => rfl) (Outcome.eq_of_returns hstart)
  refine LedgerImpl.ReachableBy.step (c := .onFetchedRecord ambient data) hreach
    (fun _ => rfl) (fun _ n t ht _ hexp => ?_) (Outcome.eq_of_returns h)
  have hrecent : 0 ≤ t.addedTime :=
    hnew (n, t) (Std.TreeMap.mem_toList_iff_getElem?_eq_some.2 ht)
  have hold : t.addedTime < 0 - P.config.blockConfirmationTimeout := hexp.2
  omega

end Run

/-- A record on the genesis record, by one producer, and one on it by another. -/
def twoPackets : List Data :=
  [packet 97 0 [genesis],
    packet 98 0 [ndn.fullName (packet 97 0 [genesis])]]

/-- A record, one by another producer on it, one by the first producer on that, and one by a
third producer on top. The last one raises the weight of the first two from one to two. -/
def crossingPackets : List Data :=
  let p := packet 99 0 [genesis]
  let y := packet 97 0 [ndn.fullName p]
  let c := packet 99 1 [ndn.fullName y]
  [p, y, c, packet 98 0 [ndn.fullName c]]

/-- Two records on the genesis record. Where the first one removes it from the tail, the second
one is not endorsed. -/
def unendorsedPackets : List Data := [packet 97 0 [genesis], packet 98 0 [genesis]]

theorem run_twoPackets :
    (run (peer (config 1 1 1)) () twoPackets).2 = .ok () := by
  decide +kernel

theorem smallWeights {precedingRecordNum contributionWeight confirmWeight : Nat}
    (hc : contributionWeight < 100) (hk : confirmWeight < 100) :
    (config precedingRecordNum contributionWeight confirmWeight).SmallWeights :=
  ⟨show contributionWeight + 1 < 2 ^ 31 by omega, show confirmWeight < 2 ^ 31 by omega⟩

end Sample

end DLedger
