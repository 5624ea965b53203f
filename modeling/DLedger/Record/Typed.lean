import DLedger.Record.Record

set_option autoImplicit false

/-! # Certificate, revocation and genesis records

The typed views of a record: the payload of a certificate record is a list of certificates
and of key locators that name previous certificate records; the payload of a revocation
record is a list of certificate names.
-/

namespace DLedger

open Tlv (Bytes Block)

/-! ## Certificate records -/

structure CertificateRecord where
  record : Record
  certList : List Certificate
  prevCert : List Name

namespace CertificateRecord

variable (ndn : Ndn)

/-- The loop over the payload items: a key locator names a previous certificate record,
empty or a good record name, and anything else must be a certificate. -/
def readItems : List Block → Except Exn (List Certificate × List Name)
  | [] => .ok ([], [])
  | block :: blocks =>
      if block.type = KeyLocator.keyLocatorType then
        match KeyLocator.getName block with
        | none => .error .ndnError
        | some recordName => do
            if recordName ≠ [] then RecordName.check recordName
            let (certs, prevs) ← readItems blocks
            return (certs, recordName :: prevs)
      else
        match ndn.decodeCertificate block with
        | none => .error .ndnError
        | some cert => do
            let (certs, prevs) ← readItems blocks
            return (cert :: certs, prevs)

/-- `CertificateRecord(Record)`. -/
def ofRecord (record : Record) : Except Exn CertificateRecord :=
  if record.type ≠ .certificateRecord then .error (.runtimeError "incorrect record type")
  else (readItems ndn record.contentItems).map fun (certs, prevs) => ⟨record, certs, prevs⟩

/-- `CertificateRecord(identifier)`. -/
def ofIdentifier (identifier : Bytes) : CertificateRecord where
  record := { type := .certificateRecord, uniqueIdentifier := identifier }
  certList := []
  prevCert := []

/-- `addRecordItem`, on the record that a certificate record extends. -/
def addRecordItem (item : Block) (r : CertificateRecord) :
    CertificateRecord × Except Exn Unit :=
  match r.record.addRecordItem item with
  | .error e => (r, .error e)
  | .ok record => ({ r with record }, .ok ())

/-- `addCertificateItem`; `wireEncode` is `Certificate::wireEncode`. The list has taken the
certificate when `addRecordItem` throws. -/
def addCertificateItem (wireEncode : Certificate → Block) (certificate : Certificate)
    (r : CertificateRecord) : CertificateRecord × Except Exn Unit :=
  addRecordItem (wireEncode certificate) { r with certList := r.certList ++ [certificate] }

def addPrevCertPointer (recordName : Name) (r : CertificateRecord) :
    CertificateRecord × Except Exn Unit :=
  addRecordItem (KeyLocator.wireEncode recordName)
    { r with prevCert := r.prevCert ++ [recordName] }

end CertificateRecord

/-! ## Revocation records -/

structure RevocationRecord where
  record : Record
  revokedCertList : List Name

namespace RevocationRecord

def readItems : List Block → Except Exn (List Name)
  | [] => .ok []
  | block :: blocks =>
      match Name.wireDecode block with
      | none => .error .ndnError
      | some certName => (readItems blocks).map (certName :: ·)

/-- `RevocationRecord(Record)`. -/
def ofRecord (record : Record) : Except Exn RevocationRecord :=
  if record.type ≠ .revocationRecord then .error (.runtimeError "incorrect record type")
  else (readItems record.contentItems).map fun names => ⟨record, names⟩

/-- `RevocationRecord(identifier)`. -/
def ofIdentifier (identifier : Bytes) : RevocationRecord where
  record := { type := .revocationRecord, uniqueIdentifier := identifier }
  revokedCertList := []

def addCertificateNameItem (certificateName : Name) (r : RevocationRecord) :
    RevocationRecord × Except Exn Unit :=
  let r := { r with revokedCertList := r.revokedCertList ++ [certificateName] }
  match r.record.addRecordItem (Name.wireEncode certificateName) with
  | .error e => (r, .error e)
  | .ok record => ({ r with record }, .ok ())

end RevocationRecord

/-! ## Genesis records and the names of new records -/

def genesisRecord (identifier : Bytes) : Record :=
  { type := .genesisRecord, uniqueIdentifier := identifier }

/-- `Name("/genesis")`. -/
def genesisPrefix : Name := [.generic (ascii ['g', 'e', 'n', 'e', 's', 'i', 's'])]

/-- `RecordName::generateRecordName`, at a time. -/
def generateRecordName (ndn : Ndn) (peerPrefix : Name) (record : Record) (now : Int) : Name :=
  if record.type = .genesisRecord then
    RecordName.build ndn genesisPrefix record.type record.uniqueIdentifier 0
  else
    RecordName.build ndn peerPrefix record.type record.uniqueIdentifier now

/-! ## New records -/

/-- A record that an application hands over to be created: no packet and no pointers yet, a
type of its own, and an identifier that is one component. -/
structure Record.Fresh (ndn : Ndn) (record : Record) : Prop where
  data_eq : record.data = none
  recordPointers_eq : record.recordPointers = []
  type_mem : record.type ∈
    [RecordType.genericRecord, RecordType.certificateRecord, RecordType.revocationRecord]
  identifier : ndn.ofUri record.uniqueIdentifier = [Component.generic record.uniqueIdentifier]

/-- A name that is built has the type as one component. -/
theorem build_type (ndn : Ndn) (peerPrefix : Name) (type : RecordType) (identifier : Bytes)
    (time : Int) : RecordName.build ndn peerPrefix type identifier time
      = peerPrefix ++ [.generic (recordTypeToString type)] ++ ndn.ofUri identifier
        ++ [.ofTimestamp time] := by
  obtain ⟨hne, halpha⟩ := recordTypeToString_alphanumeric type
  rw [RecordName.build, ndn.ofUri_alphanumeric _ hne halpha]

/-- A name that was built ends with its timestamp. -/
theorem hasImplicitDigest_build (ndn : Ndn) (peerPrefix : Name) (type : RecordType)
    (identifier : Bytes) (time : Int) : RecordName.hasImplicitDigest
      (RecordName.build ndn peerPrefix type identifier time) = false := by
  rw [RecordName.hasImplicitDigest, RecordName.build, Name.get_concat_neg_one]
  rfl

theorem getGenerationTimestamp_build (ndn : Ndn) (peerPrefix : Name) (type : RecordType)
    (identifier : Bytes) (time : Int) : RecordName.getGenerationTimestamp
      (RecordName.build ndn peerPrefix type identifier time)
        = (Component.ofTimestamp time).toTimestamp := by
  simp only [RecordName.getGenerationTimestamp, hasImplicitDigest_build, Bool.false_eq_true,
    if_false]
  rw [RecordName.build, Name.get_concat_neg_one]
  rfl

/-! The other parts are read back where the identifier is one component. -/

section Identifier

variable {ndn : Ndn} {peerPrefix : Name} {type : RecordType} {identifier : Bytes} {c : Component}
  (h : ndn.ofUri identifier = [c])
include h

theorem build_eq (peerPrefix : Name) (type : RecordType) (time : Int) :
    RecordName.build ndn peerPrefix type identifier time
      = peerPrefix ++ [.generic (recordTypeToString type)] ++ [c] ++ [.ofTimestamp time] := by
  rw [build_type, h]

/-- The producer in a name that was built. -/
theorem getProducerPrefix_build (time : Int) :
    RecordName.getProducerPrefix (RecordName.build ndn peerPrefix type identifier time)
      = peerPrefix := by
  have hlen : ((RecordName.build ndn peerPrefix type identifier time).length : Int) - 3
      = (peerPrefix.length : Nat) := by
    rw [build_eq h]
    simp
  simp only [RecordName.getProducerPrefix, hasImplicitDigest_build, Bool.false_eq_true, if_false,
    hlen, Name.getPrefix_natCast]
  rw [build_eq h, List.append_assoc, List.append_assoc, List.take_left']
  rfl

/-- The type and the identifier are read back from a name that was built. -/
theorem read_build (peerPrefix : Name) (type : RecordType) (time : Int) :
    RecordName.getRecordType (RecordName.build ndn peerPrefix type identifier time) = type ∧
      RecordName.getRecordUniqueIdentifier
        (RecordName.build ndn peerPrefix type identifier time) = c.value := by
  simp only [RecordName.getRecordType, RecordName.getRecordUniqueIdentifier,
    hasImplicitDigest_build, Bool.false_eq_true, if_false]
  rw [build_eq h]
  constructor
  · rw [Name.get_concat _ _ (by omega), Name.get_concat _ _ (by omega),
      show (-3 + 1 + 1 : Int) = -1 from rfl, Name.get_concat_neg_one]
    exact stringToRecordType_recordTypeToString type
  · rw [Name.get_concat _ _ (by omega), show (-2 + 1 : Int) = -1 from rfl,
      Name.get_concat_neg_one]
    rfl

/-- A name that was built under a prefix is a record name. -/
theorem check_build {time : Int} (hpeer : peerPrefix ≠ []) (htype : type ≠ .baseRecord)
    (hepoch : 0 ≤ time) (hmax : time < 2 ^ 63) :
    RecordName.check (RecordName.build ndn peerPrefix type identifier time) = .ok () := by
  refine (RecordName.check_eq_ok_iff _).2 ⟨⟨?_, fun hdigest => ?_⟩, ?_, ?_⟩
  · have hpos := List.length_pos_iff.2 hpeer
    rw [build_eq h]
    simp only [List.length_append, List.length_singleton]
    omega
  · rw [hasImplicitDigest_build] at hdigest
    cases hdigest
  · rw [getGenerationTimestamp_build, Component.toTimestamp_ofTimestamp hepoch hmax]
    rfl
  · rw [(read_build h peerPrefix type time).1]
    exact htype

end Identifier

/-- The producer of a full name whose data name was built is the peer that built it. -/
theorem getProducerPrefix_of_build {ndn : Ndn} {peerPrefix : Name} {type : RecordType}
    {identifier : Bytes} (h : ndn.ofUri identifier = [Component.generic identifier]) {time : Int}
    {data : Data} (hname : data.name = RecordName.build ndn peerPrefix type identifier time) :
    RecordName.getProducerPrefix (ndn.fullName data) = peerPrefix := by
  rw [build_eq h] at hname
  have hlen : data.name.length = peerPrefix.length + 3 := by rw [hname]; simp
  rw [Ndn.fullName, RecordName.getProducerPrefix_concat _ _ (by omega), hlen, hname]
  simp

/-- **A record that is encoded into a packet under its own name is decoded as it was.** -/
theorem named_of_encoded {ndn : Ndn} (peerPrefix : Name) (time : Int) {record : Record}
    {data : Data} (hid : ndn.ofUri record.uniqueIdentifier = [.generic record.uniqueIdentifier])
    (hdata : record.data = some data)
    (hname : data.name
      = RecordName.build ndn peerPrefix record.type record.uniqueIdentifier time)
    (hcontent : record.wireEncode = .ok data.content)
    (hcheck : RecordName.check (ndn.fullName data) = .ok ()) :
    Record.Named ndn (ndn.fullName data) record := by
  refine ⟨data, rfl, ?_⟩
  have hofName := RecordName.ofName_of_check (RecordName.check_of_check_fullName hcheck)
  obtain ⟨hheader, hbody⟩ := Record.decode_wireEncode ndn hcontent
  obtain ⟨htype, hident⟩ := read_build hid peerPrefix record.type time
  simp only [Record.ofData, hofName, hheader, hbody, bind, Except.bind, pure, Except.pure]
  rw [hname, htype, hident, ← hdata]
  rfl

end DLedger
