import DLedger.Ledger.Rooted

set_option autoImplicit false

/-! # Runs one after the other

A peer that is stopped between two calls leaves a database, and when it is started again it runs on
that. Its tail and its log start anew, so the genesis records are added again; any other record that
an earlier run has stored is known from the database.
-/

namespace DLedger

open Tlv (Bytes Block)

namespace LedgerImpl

variable {σ : Type} {P : Peer σ} {amb : Ambient} {s s' : LedgerImpl σ} {record : Record}
  {endorseVerified : Bool} {n : Name} {marked : Finset Name} {names : List Name} {mid : TailMap}
  {db : Backend} {certManager : σ}

/-- A configuration with weights and numbers of pointers that can be met. -/
structure Sensible (config : Config) : Prop where
  confirmWeight_pos : 1 ≤ config.confirmWeight
  smallWeights : config.SmallWeights
  precedes : Precedes config

/-- A run on a database leaves another one. The configuration and the certificate manager may
change from one run to the next. -/
def Leaves (ndn : Ndn) (db db' : Backend) : Prop :=
  ∃ (σ : Type) (P : Peer σ) (certManager : σ) (s : LedgerImpl σ), P.ndn = ndn ∧
    Sensible P.config ∧ Reachable P db certManager s ∧ s.backend = db'

/-- What the runs after the first one start on. -/
abbrev LeftOver (ndn : Ndn) (db : Backend) : Prop :=
  Relation.ReflTransGen (Leaves ndn) Backend.empty db

/-- What the genesis records and every insertion keep holds in every state of a run on a
database. -/
theorem Reachable.induction_on_database (hconfig : Sensible P.config) {I : LedgerImpl σ → Prop}
    (hstart : ∀ s, GenesisPhase P db certManager s → I s)
    (hsame : ∀ a b, I a → SameRecords a b → I b)
    (hins : ∀ amb record endorseVerified n a b marked names mid, Ambient.Writes amb →
      TailInv P a → I a → Inserted P amb record endorseVerified n a b marked names mid → I b)
    (h : Reachable P db certManager s) : I s := by
  obtain ⟨hpos, hsmall, _⟩ := hconfig
  induction h with
  | @start amb s hput h =>
      obtain ⟨s₁, hphase, _, rfl⟩ := construct_induction (I := fun _ => True) hpos hsmall hput
        trivial (fun _ _ _ _ _ _ _ _ _ _ _ _ => trivial) h
      exact hsame _ _ (hstart s₁ hphase) (sendSyncInterest_sameRecords s₁)
  | @step a b ha hstep ih =>
      have hinv := ha.inv hpos hsmall
      obtain ⟨amb, hput, hmoves⟩ := hstep.moves hpos hsmall hinv
      exact hinv.moves_induction hpos hsmall hput ih hsame
        (fun record e n a b marked names mid ha => hins amb record e n a b marked names mid
          hput ha.tail) hmoves

/-! ## The graph outlives the runs -/

theorem Reachable.ledgerGraph (hconfig : Sensible P.config) (hdb : Backend.Graph P.ndn db)
    (h : Reachable P db certManager s) : LedgerGraph P s :=
  h.induction_on_database hconfig (fun _ hs => hs.ledgerGraph hdb)
    (fun _ _ ha hab => ha.congr hab)
    fun _ _ _ _ _ _ _ _ _ hput hinv ha hins =>
      ha.inserted hconfig.confirmWeight_pos hput hinv hins

/-- **A run on a database that is a graph of records leaves one.** -/
theorem Reachable.backend_graph (hconfig : Sensible P.config) (hdb : Backend.Graph P.ndn db)
    (h : Reachable P db certManager s) : Backend.Graph P.ndn s.backend := by
  have hgraph := h.ledgerGraph hconfig hdb
  refine ⟨hgraph.decoded, hgraph.acyclic.mono ?_, (h.rooted hconfig.precedes hdb.rooted).holds⟩
  rintro x y ⟨d, r, hd, hdec, hy⟩
  exact ⟨r, Or.inr ⟨d, hd, hdec⟩, hy⟩

theorem LeftOver.graph {ndn : Ndn} (h : LeftOver ndn db) : Backend.Graph ndn db := by
  induction h with
  | refl => exact Backend.graph_empty ndn
  | tail _ hlast ih =>
      obtain ⟨σ, P, certManager, s, rfl, hconfig, hreach, rfl⟩ := hlast
      exact hreach.backend_graph hconfig ih

/-! ## What was stored before -/

/-- A database still has what another one had; only a genesis record may have taken the place of a
packet, under its name. -/
def StillStores (ndn : Ndn) (db db' : Backend) : Prop :=
  ∀ (m : Name) (d : Data), db.getRecord ndn m = some d →
    ∃ d', db'.getRecord ndn m = some d' ∧
      (d' = d ∨ ∃ r, Record.ofData ndn d' = .ok r ∧ r.type = .genesisRecord)

theorem StillStores.trans {ndn : Ndn} {db₁ db₂ db₃ : Backend} (h : StillStores ndn db₁ db₂)
    (h' : StillStores ndn db₂ db₃) : StillStores ndn db₁ db₃ := by
  intro m d hd
  obtain ⟨d₁, hd₁, hcase⟩ := h m d hd
  obtain ⟨d₂, hd₂, rfl | hgenesis⟩ := h' m d₁ hd₁
  · exact ⟨d₂, hd₂, hcase⟩
  · exact ⟨d₂, hd₂, Or.inr hgenesis⟩

/-- What a run on a database keeps of it, and that of the records that were stored only genesis
records enter the tail or are confirmed. -/
structure Resumed (P : Peer σ) (db : Backend) (s : LedgerImpl σ) : Prop where
  kept : StillStores P.ndn db s.backend
  tail : ∀ (m : Name) (t : TailingRecordState) (d : Data), s.tailRecords[m]? = some t →
    db.getRecord P.ndn m = some d →
    t.record.type = .genesisRecord ∧ t.recordEndorseVerified = true
  confirmed : ∀ r ∈ s.confirmations, ∀ d, db.getRecord P.ndn (r.getRecordName P.ndn) = some d →
    r.type = .genesisRecord

theorem GenesisPhase.resumed (hs : GenesisPhase P db certManager s) : Resumed P db s := by
  refine ⟨fun m d hd => ⟨d, ?_, Or.inl rfl⟩, fun m t _ ht _ => hs.type_eq m t ht, fun r hr => ?_⟩
  · rw [hs.backend]
    exact hd
  · rw [hs.confirmations] at hr
    cases hr

theorem Resumed.congr (hs : Resumed P db s) (hsame : SameRecords s s') : Resumed P db s' := by
  refine ⟨?_, ?_, ?_⟩
  · rw [hsame.backend]; exact hs.kept
  · rw [hsame.tailRecords]; exact hs.tail
  · rw [hsame.confirmations]; exact hs.confirmed

theorem Resumed.inserted (hput : ∀ m, amb.putOk m = true) (hs : Resumed P db s)
    (h : Inserted P amb record endorseVerified n s s' marked names mid) : Resumed P db s' := by
  -- what is inserted was not stored before
  have hwalked : ∀ x t d, walked amb record endorseVerified n s.tailRecords.lookup marked x = some t
      → db.getRecord P.ndn x = some d →
      t.record.type = .genesisRecord ∧ t.recordEndorseVerified = true := by
    intro x t d ht hd
    rcases h.walked_cases ht with ⟨rfl, _⟩ | ⟨_, u, hu, rfl⟩
    · obtain ⟨d', hd', _⟩ := hs.kept n d hd
      rw [h.unstored] at hd'
      cases hd'
    · rw [ite_mark_record, ite_mark_recordEndorseVerified]
      exact hs.tail x u d hu hd
  refine ⟨fun m d hd => ?_, fun m t d ht hd => hwalked m t d (h.walked_of_tail ht) hd, ?_⟩
  · by_cases hcross : ∃ t, Crosses P amb record endorseVerified n s marked m t
    · obtain ⟨t, hm, ht, hc⟩ := hcross
      obtain ⟨d', hd', _⟩ := (h.named m t ht).exists_data
      refine ⟨d', (h.backend_of_crossing hput hm ht hc).trans hd', Or.inr ⟨t.record, ?_, ?_⟩⟩
      · exact ((h.named m t ht).ofData_eq hd').1
      · exact (hwalked m t d ht hd).1
    · rw [h.backend_of_not_crossing hput fun t hm ht hc => hcross ⟨t, hm, ht, hc⟩]
      exact hs.kept m d hd
  · intro r hr d hd
    rw [h.confirmations_eq, List.mem_append, List.mem_reverse] at hr
    rcases hr with hr | hr
    · obtain ⟨x, _, t, ht, _, rfl⟩ := h.mem_confirmedRecords.1 hr
      rw [(h.named x t ht).getRecordName] at hd
      exact (hwalked x t d ht hd).1
    · exact hs.confirmed r hr d hd

theorem Reachable.resumed (hconfig : Sensible P.config) (h : Reachable P db certManager s) :
    Resumed P db s :=
  h.induction_on_database hconfig (fun _ hs => hs.resumed) (fun _ _ ha hab => ha.congr hab)
    fun _ _ _ _ _ _ _ _ _ hput _ ha hins => ha.inserted hput hins

/-- Nothing that is stored is lost in later runs. -/
theorem stillStores_of_leaves {ndn : Ndn} {db' : Backend}
    (h : Relation.ReflTransGen (Leaves ndn) db db') : StillStores ndn db db' := by
  induction h with
  | refl => exact fun m d hd => ⟨d, hd, Or.inl rfl⟩
  | tail _ hlast ih =>
      obtain ⟨σ, P, certManager, s, rfl, hconfig, hreach, rfl⟩ := hlast
      exact ih.trans (hreach.resumed hconfig).kept

end LedgerImpl

end DLedger
