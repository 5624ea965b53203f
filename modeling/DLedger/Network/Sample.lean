import DLedger.Ledger.Sample
import DLedger.Network.Peers

set_option autoImplicit false

/-! # A small network

Two peers whose keys are letters, and an anchor that has certified both of them.
-/

namespace DLedger

open LedgerImpl

namespace Sample

/-- The letter of a peer. -/
def letter (i : Bool) : UInt8 := if i then 98 else 97

/-- A certificate for the key of a one-letter identity. -/
def keyCertificate (identity : UInt8) : Certificate :=
  { certificate identity with content := [identity] }

/-- The anchor has signed two certificates and nothing else. A key signs with its letter. -/
def verifyKey (data : Data) (cert : Certificate) : Bool :=
  if cert = keyCertificate 65 then data = keyCertificate 97 || data = keyCertificate 98
  else data.signature == cert.content

def keyNdn : Ndn := Ndn.sample verifyKey fun block => block.value.head?.map keyCertificate

def network : Network Bool where
  ndn := keyNdn
  config i := { config 1 5 1 with peerPrefix := [.generic [letter i]] }
  anchorCert _ := keyCertificate 65
  startingPeers _ := [keyCertificate 97, keyCertificate 98]
  owner cert :=
    if cert = keyCertificate 65 then none
    else if cert.content = [97] then some false
    else if cert.content = [98] then some true
    else none

theorem publicKeys_network : network.PublicKeys := by
  have hgenuine : ∀ cert ∈ [keyCertificate 65, keyCertificate 97, keyCertificate 98],
      ∀ j, cert.getIdentity = (network.config j).peerPrefix → network.owner cert = some j := by
    decide +kernel
  refine ⟨?_, ?_, by decide +kernel, by decide +kernel⟩
  · intro i cert hcert
    exact hgenuine cert (List.mem_cons.2 hcert)
  · intro i cert hverified
    have hsigned : verifyKey cert (keyCertificate 65) = true := hverified
    simp only [verifyKey, if_true, Bool.or_eq_true, decide_eq_true_eq] at hsigned
    refine hgenuine cert (List.mem_cons_of_mem _ ?_)
    simpa using hsigned

/-- The calls of a peer happen at time zero, and it signs with its letter. -/
def ambientOf (i : Bool) : Ambient := { ambient with signData := fun _ _ => .ok [letter i] }

def managerOf (i : Bool) : DefaultCertificateManager :=
  [keyCertificate 65, keyCertificate 97, keyCertificate 98].foldl
    DefaultCertificateManager.pushCertificate ⟨[.generic [letter i]], keyCertificate 65, ∅, ∅⟩

/-- The peers just after their constructors. -/
def networkStart (i : Bool) : Party where
  ledger := (construct (network.peer i) (ambientOf i) Backend.empty (managerOf i)).1
  created := []

theorem starts_networkStart (i : Bool) : network.Starts i (networkStart i) := by
  have hreturns : ∀ i, (construct (network.peer i) (ambientOf i) Backend.empty
      (managerOf i)).2 = .ok () := by
    decide +kernel
  have hmanager : DefaultCertificateManager.construct network.ndn 0 (network.config i).peerPrefix
      (network.anchorCert i) (network.startingPeers i) = .ok (managerOf i) := if_neg Bool.false_ne_true
  have hstart := Outcome.eq_of_returns (hreturns i)
  refine ⟨0, managerOf i, ambientOf i, hmanager, fun _ => rfl, ?_, rfl⟩
  simpa only [networkStart] using hstart

/-! ## Announcements -/

/-- The packet that a peer signs for a record. -/
def createdPacket (i : Bool) (record : Record) (g : Bool → Party) : Data :=
  match buildRecord (network.peer i) (ambientOf i) record (g i).ledger with
  | (_, .ok (.ok data)) => data
  | _ => packet 0 0 []

/-- A peer creates a record. -/
def create (i : Bool) (record : Record) (g : Bool → Party) : Bool → Party :=
  Interleaving.act network.step i (.createRecord (ambientOf i) record) g

/-- A peer creates a record, and the other one receives it. -/
def announce (i : Bool) (record : Record) (g : Bool → Party) : Bool → Party :=
  Interleaving.act network.step (!i)
    (.onFetchedRecord (ambientOf !i) (createdPacket i record g)) (create i record g)

/-- The record is signed and new, and both calls return. -/
def announces (i : Bool) (record : Record) (g : Bool → Party) : Bool :=
  let s := (g i).ledger
  let data := createdPacket i record g
  (buildRecord (network.peer i) (ambientOf i) record s).2 == .ok (.ok data) &&
    data.signature == [letter i] &&
    (s.backend.getRecord keyNdn (keyNdn.fullName data)).isNone &&
    s.syncStack.all (fun it => it.1.getRecordName keyNdn != keyNdn.fullName data) &&
    (call (network.peer i) (.createRecord (ambientOf i) record) s).2 == .ok () &&
    (call (network.peer !i) (.onFetchedRecord (ambientOf !i) data)
      (create i record g !i).ledger).2 == .ok ()

/-- A packet that a peer has signed with its letter can be sent. -/
theorem unforged_of_mem {g : Bool → Party} {j : Bool} {data : Data} (hmem : data ∈ (g j).created)
    (hsignature : data.signature = [letter j]) : network.Unforged g data := by
  intro record _ cert k howner hverified
  have hverified : verifyKey data cert = true := hverified
  have howner : (if cert = keyCertificate 65 then none
      else if cert.content = [97] then some false
      else if cert.content = [98] then some true else none) = some k := howner
  unfold verifyKey at hverified
  split_ifs at howner hverified with hanchor hfirst hsecond
  · cases howner
    rw [beq_iff_eq, hsignature, hfirst] at hverified
    cases j
    · exact hmem
    · exact absurd hverified (by decide)
  · cases howner
    rw [beq_iff_eq, hsignature, hsecond] at hverified
    cases j
    · exact absurd hverified (by decide)
    · exact hmem

/-- An announcement of a generic record is a regular part of a run. -/
theorem reachable_announce {g : Bool → Party} (h : network.Reachable network.Regular g) {i : Bool}
    {record : Record} (hfresh : record.Fresh keyNdn) (htype : record.type = .genericRecord)
    (hannounces : announces i record g = true) :
    network.Reachable network.Regular (announce i record g) := by
  simp only [announces, Bool.and_eq_true, beq_iff_eq, Option.isNone_iff_eq_none, List.all_eq_true,
    bne_iff_ne] at hannounces
  obtain ⟨⟨⟨⟨⟨hbuild, hsignature⟩, hstored⟩, hstack⟩, hcreate⟩, hreceive⟩ := hannounces
  have hbuilt : buildRecord (network.peer i) (ambientOf i) record (g i).ledger
      = ((buildRecord (network.peer i) (ambientOf i) record (g i).ledger).1,
        .ok (.ok (createdPacket i record g))) := Prod.ext rfl hbuild
  have hmem : createdPacket i record g ∈ (create i record g i).created := by
    rw [create, Interleaving.act_self]
    exact List.mem_append_left _ (Call.mem_built.2 ⟨_, _, _, rfl, hbuilt⟩)
  have hcall : network.Regular g i (.createRecord (ambientOf i) record) := by
    refine ⟨⟨hfresh, fun record' data hb => ?_⟩, ⟨fun _ => rfl, hfresh, ?_⟩, hcreate⟩
    · obtain ⟨items, hpointers, _⟩ := buildRecord_ok hb
      obtain ⟨pointers, rfl, _⟩ := addPointers_ok hpointers
      rw [DefaultCertificateManager.carried_of_type _ (by simp [htype])]
      exact fun cert hcert => absurd hcert List.not_mem_nil
    · intro record' data hb _
      rw [hbuilt] at hb
      cases hb
      exact ⟨hstored, hstack⟩
  have hfetched : network.Regular (create i record g) (!i)
      (.onFetchedRecord (ambientOf !i) (createdPacket i record g)) :=
    ⟨unforged_of_mem hmem hsignature, fun _ => rfl, hreceive⟩
  exact (h.act hcall).act hfetched

/-- Each of the peers announces a record; the second one points to the first one. -/
def exchange : Bool → Party :=
  announce true freshRecord (announce false freshRecord networkStart)

theorem reachable_exchange : network.Reachable network.Regular exchange := by
  have hfresh : freshRecord.Fresh keyNdn := ⟨rfl, rfl, by decide, by decide +kernel⟩
  have hstart : network.Reachable network.Regular networkStart :=
    Interleaving.Reach.start starts_networkStart
  have hfirst : network.Reachable network.Regular (announce false freshRecord networkStart) :=
    reachable_announce hstart hfresh rfl (by decide +kernel)
  exact reachable_announce hfirst hfresh rfl (by decide +kernel)

end Sample

end DLedger
