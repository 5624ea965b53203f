import DLedger.Record.Typed

set_option autoImplicit false

/-! # Certificate managers

The interface `CertificateManager` over a type of manager states, and the manager that comes
with the ledger. Its state is the trust anchor, the certificates it knows for each identity
and the full names of the revoked ones; certificate and revocation records change it when
they are accepted.
-/

namespace DLedger

open Tlv (Bytes Block)

/-! ## The interface -/

/-- The virtual functions of `CertificateManager`. The ledger calls `acceptRecord` for each
confirmed certificate or revocation record; the other functions do not change the manager. -/
structure CertificateManager (σ : Type) where
  verifySignature : σ → Data → Except Exn Bool
  verifyRecordFormat : σ → Record → Except Exn Bool
  endorseSignature : σ → Data → Except Exn Bool
  /-- `verifySignature(const Interest&)`. -/
  verifyInterest : σ → Interest → Except Exn Bool
  acceptRecord : σ → Record → σ
  authorizedToGenerate : σ → Bool

/-! ## The default manager -/

structure DefaultCertificateManager where
  peerPrefix : Name
  anchorCert : Certificate
  peerCertificates : Std.TreeMap Name (List Certificate)
  revokedCertificates : Finset Name

namespace DefaultCertificateManager

variable (ndn : Ndn)

/-- `m_peerCertificates[cert.getIdentity()].push_back(cert)`. -/
def pushCertificate (m : DefaultCertificateManager) (cert : Certificate) :
    DefaultCertificateManager :=
  let known := m.peerCertificates.getD cert.getIdentity []
  { m with peerCertificates := m.peerCertificates.insert cert.getIdentity (known ++ [cert]) }

/-- The constructor, at a time. -/
def construct (now : Int) (peerPrefix : Name) (anchorCert : Certificate)
    (startingPeers : List Certificate) : Except Exn DefaultCertificateManager :=
  if !ndn.isValidAt anchorCert now then .error (.runtimeError "trust Anchor Expired")
  else .ok ((anchorCert :: startingPeers).foldl pushCertificate
    ⟨peerPrefix, anchorCert, ∅, ∅⟩)

def verifySignature (m : DefaultCertificateManager) (data : Data) : Except Exn Bool := do
  let name ← RecordName.ofName data.name
  let identity := RecordName.getProducerPrefix name.name
  match m.peerCertificates[identity]? with
  | none => return false
  | some certs => return certs.any (fun cert => ndn.verifyData data cert)

def getCertificateNameIdentity (certificateName : Name) : Name :=
  if ((certificateName.get (-1)).map Component.isImplicitSha256Digest).getD false then
    (certificateName.getPrefix (-1)).getPrefix Certificate.keyComponentOffset
  else
    certificateName.getPrefix Certificate.keyComponentOffset

/-- The checks on one name of a revocation record; `none` where `Name::get` throws. -/
def checkRevokedName (isAnchor : Bool) (producer certName : Name) : Option Bool :=
  (certName.get (-1)).map fun last =>
    last.isImplicitSha256Digest && Certificate.isValidName (certName.getPrefix (-1))
      && (isAnchor || getCertificateNameIdentity certName == producer)

/-- An exception from the typed record or from a name in it is caught and means `false`. -/
def verifyRecordFormat (m : DefaultCertificateManager) (record : Record) : Bool :=
  match record.type with
  | .certificateRecord =>
      m.anchorCert.getIdentity.isPrefixOf (record.getRecordName ndn) &&
        match CertificateRecord.ofRecord ndn record with
        | .error _ => false
        | .ok certRecord =>
            certRecord.certList.all fun cert => ndn.verifyData cert m.anchorCert
  | .revocationRecord =>
      match RevocationRecord.ofRecord record, record.getProducerPrefix with
      | .ok revokeRecord, .ok producer =>
          let isAnchor := m.anchorCert.getIdentity == producer
          revokeRecord.revokedCertList.all fun certName =>
            (checkRevokedName isAnchor producer certName).getD false
      | _, _ => false
  | _ => true

def endorseSignature (m : DefaultCertificateManager) (data : Data) : Except Exn Bool := do
  let name ← RecordName.ofName data.name
  let identity := RecordName.getProducerPrefix name.name
  match m.peerCertificates[identity]? with
  | none => return false
  | some certs =>
      return certs.any (fun cert =>
        decide (ndn.fullName cert ∉ m.revokedCertificates) && ndn.verifyData data cert)

def verifyInterest (m : DefaultCertificateManager) (interest : Interest) : Except Exn Bool :=
  match ndn.interestKeyName interest with
  | none => .error .ndnError
  | some keyName =>
      match m.peerCertificates[keyName.getPrefix (-2)]? with
      | none => .ok false
      | some certs => .ok (certs.any fun cert =>
          decide (ndn.fullName cert ∉ m.revokedCertificates) && ndn.verifyInterest interest cert)

/-- The certificates of a certificate record are added, except revoked ones; the names of a
revocation record are revoked. A record of a bad format changes nothing. -/
def acceptRecord (m : DefaultCertificateManager) (record : Record) :
    DefaultCertificateManager :=
  match record.type with
  | .certificateRecord =>
      match CertificateRecord.ofRecord ndn record with
      | .error _ => m
      | .ok certRecord => certRecord.certList.foldl
          (fun m cert =>
            if ndn.fullName cert ∈ m.revokedCertificates then m else m.pushCertificate cert) m
  | .revocationRecord =>
      match RevocationRecord.ofRecord record with
      | .error _ => m
      | .ok revokeRecord => revokeRecord.revokedCertList.foldl
          (fun m certName =>
            { m with revokedCertificates := insert certName m.revokedCertificates }) m
  | _ => m

def authorizedToGenerate (m : DefaultCertificateManager) : Bool :=
  match m.peerCertificates[m.peerPrefix]? with
  | none => false
  | some certs => !certs.isEmpty

/-- The default manager as a `CertificateManager`. -/
def manager : CertificateManager DefaultCertificateManager where
  verifySignature := verifySignature ndn
  verifyRecordFormat := fun m record => .ok (m.verifyRecordFormat ndn record)
  endorseSignature := endorseSignature ndn
  verifyInterest := verifyInterest ndn
  acceptRecord := acceptRecord ndn
  authorizedToGenerate := authorizedToGenerate

end DefaultCertificateManager

end DLedger
