import DLedger.Network.Authentic
import DLedger.Network.Sample

set_option autoImplicit false

/-! # No record in the name of a peer that the peer has not signed

Whatever an attacker sends, whatever is lost and in whatever order the rest arrives, a packet in the
name of a peer gets into a ledger only when that peer has signed it as a record. Calls may end with
an exception and writes to the database may fail.
-/

namespace DLedger

open LedgerImpl
open DefaultCertificateManager (carried)

namespace Network

variable {ι : Type} {N : Network ι} {g : ι → Party}

/-- The peers start without records in their names. -/
theorem sound_start (hN : N.PublicKeys) {i : ι} {p : Party} (h : N.Starts i p)
    (created : ι → List Data) : N.Sound created i p.ledger := by
  obtain ⟨now, m, amb, hm, _, hstart, _⟩ := h
  obtain ⟨hanchor, hknown⟩ := known_construct hm
  have hblank : N.SoundLedger created i (blank Backend.empty m) := by
    refine ⟨hanchor, fun identity cert hcert => ?_, fun n d hd => ?_, fun ins hins => ?_⟩
    · obtain ⟨hid, hfrom⟩ := hknown identity cert hcert
      exact ⟨hid, hN.start i cert hfrom⟩
    · rw [blank, Backend.getRecord_empty] at hd
      cases hd
    · cases hins
  have hconstruct : N.Sound created i (construct (N.peer i) amb Backend.empty m).1 :=
    Keeps.construct soundLedger_frame hblank fun k record hrecord => soundRecord_genesis hN hrecord
  rw [hstart] at hconstruct
  exact hconstruct

/-- **An honest call keeps the records of the peer sound**, however it ends. -/
theorem Sound.call (hN : N.PublicKeys) {i : ι} {c : Call} (hc : N.Honest g i c)
    {created : ι → List Data} (hsub : ∀ j, (g j).created ⊆ created j)
    (hbuilt : c.built (N.peer i) (g i).ledger ⊆ created i)
    (h : N.Sound (fun j => (g j).created) i (g i).ledger) :
    N.Sound created i (LedgerImpl.call (N.peer i) c (g i).ledger).1 := by
  have hmono : N.Sound created i (g i).ledger := h.mono hsub
  refine Keeps.call soundLedger_frame hmono ?_
  cases c with
  | createRecord amb record =>
      intro record' data hbuild
      have hmem : data ∈ created i :=
        hbuilt (Call.mem_built.2 ⟨amb, record, record', rfl, hbuild⟩)
      refine ⟨fun d hd => ?_, hc.2 record' data hbuild⟩
      cases hd
      exact authentic_built hN hc.1 hbuild hmem
  | onFetchedRecord amb data =>
      intro record hdec _ hcheck
      exact (soundRecord_of_checked hN (hc record hdec) h hdec hcheck).mono hsub
  | onLedgerSyncRequest amb interest => trivial
  | onRecordRequest amb interest => trivial
  | sendSyncInterest amb => trivial

variable [DecidableEq ι]

theorem Reachable.sound (hN : N.PublicKeys) (h : N.Reachable N.Honest g) (i : ι) :
    N.Sound (fun j => (g j).created) i (g i).ledger := by
  -- the packets that have been signed only become more
  have hsub : ∀ (g : ι → Party) (i : ι) (c : Call) (j : ι),
      (g j).created ⊆ (Interleaving.act N.step i c g j).created := by
    intro g i c
    refine Interleaving.act_cases (motive := fun j (p : Party) => (g j).created ⊆ p.created) ?_ ?_
    · exact List.subset_append_right _ _
    · exact fun j _ => List.Subset.refl _
  refine h.invariant (I := fun g i => N.Sound (fun j => (g j).created) i (g i).ledger) ?_ ?_ ?_ i
  · exact fun g hg i => sound_start hN (hg i) _
  · intro g i c hg hc
    have hbuilt : c.built (N.peer i) (g i).ledger ⊆ (Interleaving.act N.step i c g i).created := by
      rw [Interleaving.act_self]
      exact List.subset_append_left _ _
    have hcall := (hg i).call hN hc (hsub g i c) hbuilt
    rw [Interleaving.act_self]
    exact hcall
  · intro g i c j hj hg
    rw [Interleaving.act_of_ne hj]
    exact hg.mono (hsub g i c)

/-- A ledger has a packet in its tail, its database or its sync stack, or it has had it in its
tail. -/
def HasPacket (ndn : Ndn) (s : LedgerImpl DefaultCertificateManager) (d : Data) : Prop :=
  (∃ (n : Name) (t : TailingRecordState), s.tailRecords[n]? = some t ∧ t.record.data = some d) ∨
    (∃ n : Name, s.backend.getRecord ndn n = some d) ∨
    (∃ it ∈ s.syncStack, it.1.data = some d) ∨ ∃ ins ∈ s.insertions, ins.1.data = some d

/-- **Every packet in the name of a peer that a ledger of the network has was signed by that
peer.** -/
theorem packets_authentic (hN : N.PublicKeys) (h : N.Reachable N.Honest g) (i j : ι) (d : Data)
    (hd : HasPacket N.ndn (g i).ledger d)
    (hj : RecordName.getProducerPrefix d.name = (N.config j).peerPrefix) :
    d ∈ (g j).created := by
  have hs := h.sound hN i
  rcases hd with ⟨n, t, ht, hdata⟩ | ⟨n, hdata⟩ | ⟨it, hit, hdata⟩ | ⟨ins, hins, hdata⟩
  · exact (hs.tail n t ht).authentic d hdata j hj
  · exact hs.holds.stored n d hdata j hj
  · exact (hs.stack it hit).authentic d hdata j hj
  · exact hs.holds.inserted ins hins d hdata j hj

/-- The second peer has confirmed the record of the first one. -/
theorem packets_authentic_exchange :
    let d := Sample.createdPacket false Sample.freshRecord Sample.networkStart
    d ∈ (Sample.exchange false).created := by
  intro d
  have hstored : (Sample.exchange true).ledger.backend.getRecord Sample.keyNdn
      (Sample.keyNdn.fullName d) = some d := by
    decide +kernel
  exact packets_authentic Sample.publicKeys_network Sample.reachable_exchange.honest true false d
    (Or.inr (Or.inl ⟨_, hstored⟩)) (by decide +kernel)

end Network

end DLedger
