import DLedger.Cert.Accept
import DLedger.Ledger.Checked
import DLedger.Ledger.Create
import DLedger.Properties.Interlock

set_option autoImplicit false

/-! # What is created is accepted

`createRecord` chooses the pointers, and the checks of a received record test them, each with its
own code. A generic record that was signed passes both checks of a peer in the same state, as long
as the clock tolerance of the peer lets a record of this moment through.
-/

namespace DLedger

open Tlv (Bytes Block)

namespace LedgerImpl

variable {σ : Type} {P : Peer σ} {amb : Ambient} {s : LedgerImpl σ} {record record' : Record}
  {data : Data} {db : Backend} {certManager : σ}

/-! ## The pointers -/

/-- What the pointers of a created record are. -/
structure GoodPointers (P : Peer σ) (s : LedgerImpl σ) (pointers : List Name) : Prop where
  length_eq : pointers.length = P.config.precedingRecordNum
  nodup : pointers.Nodup
  producer_ne : ∀ p ∈ pointers, RecordName.getProducerPrefix p ≠ P.config.peerPrefix
  check : ∀ p ∈ pointers, RecordName.check p = .ok ()
  tail : ∀ p ∈ pointers, ∃ t, s.tailRecords[p]? = some t ∧
    t.refSet.card ≤ P.config.contributionWeight

/-- The constructor has compared the weights. -/
theorem RunsTo.appendWeight_le {allowed : LedgerImpl σ → Call → Prop}
    (h : RunsTo P db certManager allowed s) :
    P.config.appendWeight ≤ P.config.contributionWeight := by
  induction h with
  | start hstart => exact (construct_ok hstart).1
  | call _ _ ih => exact ih

/-- The pointers that are chosen for a fresh record, and that there are any only where the peer
has a prefix. -/
theorem goodPointers_chosen (amb : Ambient) (record : Record)
    (hnum : 1 ≤ P.config.precedingRecordNum)
    (hweights : P.config.appendWeight ≤ P.config.contributionWeight)
    (hflags : FlagsChecked s.tailRecords) (hpointers : record.recordPointers = [])
    (henough : P.config.precedingRecordNum ≤ (recordList P s).length) :
    GoodPointers P s (chosen P amb s record) ∧ P.config.peerPrefix ≠ [] := by
  have hcandidate : ∀ p ∈ chosen P amb s record, ∃ t, s.tailRecords[p]? = some t ∧
      t.parentEndorseVerified = true ∧ t.refSet.card ≤ P.config.appendWeight ∧
        P.config.peerPrefix.isPrefixOf p = false := by
    intro p hp
    obtain ⟨weight, hmem⟩ := mem_recordList_of_chosen hp
    exact mem_recordList hmem
  have hlen : (chosen P amb s record).length = P.config.precedingRecordNum := by
    rw [length_chosen, hpointers, List.length_nil, Nat.sub_zero]
    omega
  refine ⟨⟨hlen, chosen_nodup, fun p hp => ?_, fun p hp => ?_, fun p hp => ?_⟩, ?_⟩
  · obtain ⟨_, _, _, _, hout⟩ := hcandidate p hp
    exact getProducerPrefix_ne hout
  · obtain ⟨t, ht, hv, _⟩ := hcandidate p hp
    exact hflags p t ht (Or.inl hv)
  · obtain ⟨t, ht, _, hweight, _⟩ := hcandidate p hp
    exact ⟨t, ht, hweight.trans hweights⟩
  -- with an empty prefix every name would be one of the peer, and there would be no candidate
  · intro hempty
    obtain ⟨p, hp⟩ := List.exists_mem_of_length_pos (hlen.symm ▸ hnum)
    obtain ⟨_, _, _, _, hout⟩ := hcandidate p hp
    rw [hempty] at hout
    cases hout

/-! ## The checks -/

theorem checkInterlock_passes {producer : Name} {pointers : List Name}
    (hcheck : ∀ p ∈ pointers, RecordName.check p = .ok ())
    (hne : ∀ p ∈ pointers, RecordName.getProducerPrefix p ≠ producer) :
    checkInterlock producer pointers = .ok true := by
  induction pointers with
  | nil => rfl
  | cons p pointers ih =>
      have hp := RecordName.ofName_of_check (hcheck p List.mem_cons_self)
      rw [checkInterlock, hp]
      simp only [bind, Except.bind, if_neg (hne p List.mem_cons_self)]
      exact ih (fun q hq => hcheck q (List.mem_cons_of_mem p hq))
        fun q hq => hne q (List.mem_cons_of_mem p hq)

theorem contributionAllowed_of_goodPointers {pointers : List Name}
    (h : GoodPointers P s pointers) : contributionAllowed P pointers s = true := by
  rw [contributionAllowed, List.all_eq_true]
  intro p hp
  obtain ⟨t, ht, hweight⟩ := h.tail p hp
  rw [ht]
  exact decide_eq_true hweight

/-- The right number of distinct pointers passes the count, where the number survives its
conversion to an `int`. -/
theorem checkPointerCount_ok {num : Nat} (hcount : ofInt (toInt num) = num)
    (hlen : record.recordPointers.length = num) (hnodup : record.recordPointers.Nodup) :
    record.checkPointerCount num = .ok () := by
  rw [Record.checkPointerCount, hcount, hlen, List.toFinset_card_of_nodup hnodup, hlen]
  simp

/-- The packet is one of the peer's own name, made at a time, with good pointers in it. -/
structure OwnPacket (P : Peer σ) (s : LedgerImpl σ) (now : Int) (data : Data) (r : Record) :
    Prop where
  decoded : Record.ofData P.ndn data = .ok r
  type_eq : r.type = .genericRecord
  producer : RecordName.getProducerPrefix data.name = P.config.peerPrefix
  timestamp : RecordName.getGenerationTimestamp data.name = some (now / 1000 * 1000)
  pointers : GoodPointers P s r.recordPointers

/-- What `createRecord` signs is such a packet. -/
theorem ownPacket_of_signed (hnum : 1 ≤ P.config.precedingRecordNum)
    (hweights : P.config.appendWeight ≤ P.config.contributionWeight)
    (hflags : FlagsChecked s.tailRecords) (hdata : record.data = none)
    (hpointers : record.recordPointers = []) (htype : record.type = .genericRecord)
    {c : Component} (hid : P.ndn.ofUri record.uniqueIdentifier = [c]) (hepoch : 0 ≤ amb.now)
    (hmax : amb.now < 2 ^ 63) (hbuild : buildRecord P amb record s = (record', .ok (.ok data))) :
    ∃ r, OwnPacket P s amb.now data r ∧ r.recordPointers = record'.recordPointers := by
  obtain ⟨henough, hrecord, hsign⟩ := buildRecord_signed hdata hbuild
  obtain ⟨hname, hcontent⟩ := signRecord_ok hsign
  obtain ⟨hgood, hpeer⟩ := goodPointers_chosen (P := P) amb (withCerts s record) hnum hweights
    hflags hpointers henough
  have hchosen : record'.recordPointers = chosen P amb s (withCerts s record) := by
    rw [hrecord, withPointers, show (withCerts s record).recordPointers = [] from hpointers,
      List.nil_append]
  have hbuilt : data.name
      = RecordName.build P.ndn P.config.peerPrefix .genericRecord record.uniqueIdentifier
        amb.now := by
    have htype' : record'.type = .genericRecord := by
      rw [hrecord]
      exact htype
    have hid' : record'.uniqueIdentifier = record.uniqueIdentifier := by
      rw [hrecord]
      rfl
    rw [hname, generateRecordName, htype', if_neg (by decide), hid']
  have hcheck : RecordName.check data.name = .ok () := by
    rw [hbuilt]
    exact check_build hid hpeer (by decide) hepoch hmax
  -- what is read back has the name, and through it the type, the producer and the time
  obtain ⟨r, hr⟩ := Record.exists_ofData hcheck hcontent
  obtain ⟨_, _, hrtype, hheader, _⟩ := Record.ofData_eq_ok hr
  have hsame : r.recordPointers = record'.recordPointers := by
    rw [(Record.decode_wireEncode P.ndn hcontent).1] at hheader
    exact (Except.ok.inj hheader).symm
  refine ⟨r, ⟨hr, ?_, ?_, ?_, ?_⟩, hsame⟩
  · rw [hrtype, hbuilt]
    exact (read_build hid P.config.peerPrefix .genericRecord amb.now).1
  · rw [hbuilt]
    exact getProducerPrefix_build hid amb.now
  · rw [hbuilt, getGenerationTimestamp_build]
    exact Component.toTimestamp_ofTimestamp hepoch hmax
  · rw [hsame, hchosen]
    exact hgood

section Accepted

variable {P : Peer DefaultCertificateManager} {s : LedgerImpl DefaultCertificateManager}
  {m : DefaultCertificateManager} {now : Int} {r : Record}

/-- An unrevoked certificate of the peer's prefix verifies the packet. -/
def KeyKnown (P : Peer DefaultCertificateManager) (s : LedgerImpl DefaultCertificateManager)
    (data : Data) : Prop :=
  ∃ cert, s.certManager.Known P.config.peerPrefix cert ∧
    P.ndn.fullName cert ∉ s.certManager.revokedCertificates ∧ P.ndn.verifyData data cert = true

variable (hP : P.certManager = DefaultCertificateManager.manager P.ndn)
include hP

theorem OwnPacket.signature (h : OwnPacket P s now data r) (hkey : KeyKnown P s data) :
    P.certManager.verifySignature s.certManager data = .ok true ∧
      P.certManager.endorseSignature s.certManager data = .ok true := by
  obtain ⟨cert, hknown, hunrevoked, hverify⟩ := hkey
  have hname := RecordName.ofName_of_check (Record.ofData_eq_ok h.decoded).1
  rw [← h.producer] at hknown
  rw [hP]
  obtain ⟨b, hb, hiff⟩ :=
    DefaultCertificateManager.verifySignature_ok P.ndn (m := s.certManager) hname
  obtain ⟨e, he, heiff⟩ :=
    DefaultCertificateManager.endorseSignature_ok P.ndn (m := s.certManager) hname
  constructor
  · refine hb.trans ?_
    rw [hiff.2 ⟨cert, hknown, hverify⟩]
  · refine he.trans ?_
    rw [heiff.2 ⟨cert, hknown, hunrevoked, hverify⟩]

theorem OwnPacket.checkSyntax (h : OwnPacket P s now data r) (hkey : KeyKnown P s data)
    (hclock : now / 1000 * 1000 ≤ amb.now + P.config.clockSkewTolerance) :
    checkSyntaxOfRecord P amb r data s = .ok true := by
  obtain ⟨hcheck, hdata, _⟩ := Record.ofData_eq_ok h.decoded
  have hname := RecordName.ofName_of_check hcheck
  have hproducer : r.getProducerPrefix = .ok P.config.peerPrefix := by
    rw [Record.getProducerPrefix, hdata]
    simp only [hname, Except.map, Except.mapError, h.producer]
  have htime : r.getGenerationTimestamp = .ok (now / 1000 * 1000) := by
    rw [Record.getGenerationTimestamp, hdata]
    simp only [hname, Except.map, Except.mapError, h.timestamp, Option.getD_some]
  have hlock : checkInterlock P.config.peerPrefix r.recordPointers = .ok true :=
    checkInterlock_passes h.pointers.check h.pointers.producer_ne
  have htype : ¬ (r.type = .certificateRecord ∨ r.type = .revocationRecord) := by
    rw [h.type_eq]
    decide
  simp only [checkSyntaxOfRecord, hproducer, (h.signature hP hkey).1, htime, hlock, bind,
    Except.bind, Except.mapError, Bool.not_true, Bool.false_eq_true, if_false,
    if_neg (not_lt.2 hclock), if_neg htype]
  rfl

/-- **The peer's own packet passes both checks.** -/
theorem OwnPacket.accepted (h : OwnPacket P s now data r) (hkey : KeyKnown P s data)
    (hcount : ofInt (toInt P.config.precedingRecordNum) = P.config.precedingRecordNum)
    (hclock : now / 1000 * 1000 ≤ amb.now + P.config.clockSkewTolerance)
    (hretrieval : ∀ check, amb.onRecordAppRetrievalCheck = some check → check data = true)
    (hendorse : ∀ check, amb.onRecordAppEndorseCheck = some check → check data = true) :
    checkSyntaxValidityOfRecord P amb data s = .ok true ∧
      checkEndorseValidityOfRecord P amb data s = .ok true := by
  have hparse : parseRecord P data = .ok r := by
    simp only [parseRecord, h.decoded, bind, Except.bind,
      checkPointerCount_ok hcount h.pointers.length_eq h.pointers.nodup]
    rfl
  constructor
  · simp only [checkSyntaxValidityOfRecord, hparse, h.checkSyntax hP hkey hclock, bind,
      Except.bind]
    cases happ : amb.onRecordAppRetrievalCheck with
    | none => rfl
    | some check => simp only [hretrieval check happ]; rfl
  · simp only [checkEndorseValidityOfRecord, h.decoded, (h.signature hP hkey).2, bind,
      Except.bind, Except.mapError, contributionAllowed_of_goodPointers h.pointers, Bool.and_self,
      if_true]
    cases happ : amb.onRecordAppEndorseCheck with
    | none => rfl
    | some check => simp only [hendorse check happ]; rfl

/-- **What `createRecord` signs passes both checks of a peer in the same state**: it has
`precedingRecordNum` distinct pointers, none to a record of its producer, each to a tailing record
that is light enough. -/
theorem created_accepted (h : RunsTo P db m (CallReturns P) s)
    (hnum : 1 ≤ P.config.precedingRecordNum)
    (hcount : ofInt (toInt P.config.precedingRecordNum) = P.config.precedingRecordNum)
    (hdata : record.data = none) (hpointers : record.recordPointers = [])
    (htype : record.type = .genericRecord) {c : Component}
    (hid : P.ndn.ofUri record.uniqueIdentifier = [c]) (hepoch : 0 ≤ amb.now)
    (hmax : amb.now < 2 ^ 63) (hbuild : buildRecord P amb record s = (record', .ok (.ok data)))
    (hkey : KeyKnown P s data) (verifier : Ambient)
    (hclock : amb.now / 1000 * 1000 ≤ verifier.now + P.config.clockSkewTolerance)
    (hretrieval : ∀ check, verifier.onRecordAppRetrievalCheck = some check → check data = true)
    (hendorse : ∀ check, verifier.onRecordAppEndorseCheck = some check → check data = true) :
    checkSyntaxValidityOfRecord P verifier data s = .ok true ∧
      checkEndorseValidityOfRecord P verifier data s = .ok true ∧
        GoodPointers P s record'.recordPointers := by
  obtain ⟨r, hown, hsame⟩ := ownPacket_of_signed hnum h.appendWeight_le h.flagsChecked hdata
    hpointers htype hid hepoch hmax hbuild
  obtain ⟨hfirst, hendorsed⟩ := hown.accepted hP hkey hcount hclock hretrieval hendorse
  exact ⟨hfirst, hendorsed, hsame ▸ hown.pointers⟩

end Accepted

/-- The packet that was signed, if one was. -/
def signedData (out : Record × Except Fault (Except ReturnCode Data)) : Option Data :=
  match out.2 with
  | .ok (.ok data) => some data
  | _ => none

theorem eq_of_signedData (out : Record × Except Fault (Except ReturnCode Data))
    (h : signedData out = some data) : out = (out.1, .ok (.ok data)) := by
  obtain ⟨record, f | code | d⟩ := out
  · cases h
  · cases h
  · cases h
    rfl

/-- A peer with a certificate of its own, and a given clock tolerance. -/
def ownPeer (clockSkewTolerance : Int) : Peer DefaultCertificateManager :=
  { Sample.certificatePeer with config := { Sample.config 1 5 1 with clockSkewTolerance } }

/-- Its ledger, and its first record. -/
def ownStart (clockSkewTolerance : Int) : LedgerImpl DefaultCertificateManager :=
  (construct (ownPeer clockSkewTolerance) Sample.ambient Backend.empty Sample.ownManager).1

def ownRecord : Record := { type := .genericRecord, uniqueIdentifier := [49] }

theorem runsTo_ownStart {tolerance : Int}
    (h : (construct (ownPeer tolerance) Sample.ambient Backend.empty Sample.ownManager).2
      = .ok ()) :
    RunsTo (ownPeer tolerance) Backend.empty Sample.ownManager (CallReturns (ownPeer tolerance))
      (ownStart tolerance) :=
  RunsTo.start (Outcome.eq_of_returns h)

/-- The peer's own certificate verifies every packet. -/
theorem keyKnown_ownStart {tolerance : Int} (data : Data)
    (h : (((ownStart tolerance).certManager.peerCertificates[(ownPeer
      tolerance).config.peerPrefix]?).any fun certs => certs.any fun cert =>
        decide (Sample.certificateNdn.fullName cert ∉
          (ownStart tolerance).certManager.revokedCertificates) && true) = true) :
    KeyKnown (ownPeer tolerance) (ownStart tolerance) data :=
  (DefaultCertificateManager.any_unrevoked Sample.certificateNdn
    fun cert => Sample.certificateNdn.verifyData data cert).1 h

theorem created_accepted_ownRecord :
    ∃ record data, buildRecord (ownPeer 1000) Sample.ambient ownRecord (ownStart 1000)
        = (record, .ok (.ok data)) ∧
      checkSyntaxValidityOfRecord (ownPeer 1000) Sample.ambient data (ownStart 1000)
        = .ok true ∧
      checkEndorseValidityOfRecord (ownPeer 1000) Sample.ambient data (ownStart 1000)
        = .ok true := by
  have hsigned : (signedData (buildRecord (ownPeer 1000) Sample.ambient ownRecord
      (ownStart 1000))).isSome = true := by
    decide +kernel
  obtain ⟨data, hdata⟩ := Option.isSome_iff_exists.1 hsigned
  have hbuild := eq_of_signedData _ hdata
  obtain ⟨hfirst, hendorse, _⟩ := created_accepted (P := ownPeer 1000) rfl
    (runsTo_ownStart (by decide +kernel)) (by decide) (by decide) rfl rfl rfl
    (show (ownPeer 1000).ndn.ofUri [49] = [.generic [49]] by decide +kernel) (by decide)
    (by decide) hbuild (keyKnown_ownStart data (by decide +kernel)) Sample.ambient (by decide)
    (by intro check h; cases h) (by intro check h; cases h)
  exact ⟨_, data, hbuild, hfirst, hendorse⟩

/-- **A peer with a negative clock tolerance rejects what it has just made.** -/
theorem not_created_accepted_tolerance :
    ¬ ∀ (s : LedgerImpl DefaultCertificateManager) (amb : Ambient) (record record' : Record)
        (data : Data),
      RunsTo (ownPeer (-1)) Backend.empty Sample.ownManager (CallReturns (ownPeer (-1))) s →
      record.Fresh (ownPeer (-1)).ndn → record.type = .genericRecord →
      buildRecord (ownPeer (-1)) amb record s = (record', .ok (.ok data)) →
      KeyKnown (ownPeer (-1)) s data → amb.onRecordAppRetrievalCheck = none →
      amb.onRecordAppEndorseCheck = none →
      checkSyntaxValidityOfRecord (ownPeer (-1)) amb data s = .ok true := by
  intro hall
  have hsigned : (signedData (buildRecord (ownPeer (-1)) Sample.ambient ownRecord
      (ownStart (-1)))).map (fun data => checkSyntaxValidityOfRecord (ownPeer (-1)) Sample.ambient
        data (ownStart (-1))) = some (.ok false) := by
    decide +kernel
  obtain ⟨data, hdata, hrejected⟩ := Option.map_eq_some_iff.1 hsigned
  have haccepted := hall (ownStart (-1)) Sample.ambient ownRecord _ data
    (runsTo_ownStart (by decide +kernel)) ⟨rfl, rfl, by decide, by decide +kernel⟩ rfl
    (eq_of_signedData _ hdata) (keyKnown_ownStart data (by decide +kernel)) rfl rfl
  rw [hrejected] at haccepted
  cases haccepted

end LedgerImpl

end DLedger
