import DLedger.Ledger.Counted

set_option autoImplicit false

/-! # Who endorses a confirmed record

The reference set of a record is gone when the record has left the tail. The log of insertions
stays: a record that is confirmed has `confirmWeight` producers that endorsed it, each by a record
of its own from which it is reached, and these records are still in the log.
-/

namespace DLedger

/-- A producer, other than that of the record, has an endorsed record in the log from which the
record is reached. -/
def EndorsedBy (ndn : Ndn) (log : List (Record × Bool)) (n a : Name) : Prop :=
  ∃ r, (r, true) ∈ log ∧ Relation.TransGen (PointsTo ndn log) (r.getRecordName ndn) n ∧
    RecordName.getProducerPrefix (r.getRecordName ndn) = a ∧ a ≠ RecordName.getProducerPrefix n

theorem EndorsedBy.cons {ndn : Ndn} {log : List (Record × Bool)} {n a : Name}
    (h : EndorsedBy ndn log n a) (ins : Record × Bool) : EndorsedBy ndn (ins :: log) n a := by
  obtain ⟨r, hr, hpath, hproducer, hother⟩ := h
  exact ⟨r, List.mem_cons_of_mem _ hr,
    Relation.TransGen.mono (fun _ _ hab => pointsTo_cons.2 (Or.inr hab)) _ _ hpath, hproducer,
    hother⟩

theorem EndorsedBy.of_counts {ndn : Ndn} {log : List (Record × Bool)} {n a : Name}
    (h : Counts ndn log n a) : EndorsedBy ndn log n a := by
  obtain ⟨r, hr, hpath, hproducer, hother⟩ := h
  exact ⟨r, since_subset hr, hpath, hproducer.symm, hother⟩

namespace LedgerImpl

variable {σ : Type} {P : Peer σ} {amb : Ambient} {s s' : LedgerImpl σ} {record : Record}
  {endorseVerified : Bool} {n : Name} {marked : Finset Name} {names : List Name} {mid : TailMap}

/-- Endorsed records have record names, and confirmed records have enough endorsers. -/
structure Endorsers (P : Peer σ) (s : LedgerImpl σ) : Prop where
  checked : ∀ r, (r, true) ∈ s.insertions → RecordName.check (r.getRecordName P.ndn) = .ok ()
  confirmed : Set.InjOn P.ndn.fullName (insertedData s.insertions) → ∀ r ∈ s.confirmations,
    (∃ e, (r, e) ∈ s.insertions) ∧ ∃ A : Finset Name, A.card = P.config.confirmWeight ∧
      ∀ a ∈ A, EndorsedBy P.ndn s.insertions (r.getRecordName P.ndn) a

theorem Endorsers.congr (h : Endorsers P s) (hsame : SameRecords s s') : Endorsers P s' := by
  refine ⟨?_, ?_⟩
  · rw [hsame.insertions]; exact h.checked
  · rw [hsame.insertions, hsame.confirmations]; exact h.confirmed

/-- **Every insertion keeps the endorsers**: what is confirmed now counts `confirmWeight` producers
now. -/
theorem Endorsers.inserted (he : Endorsers P s) (hs : TailInv P s) (hst : Stored P s)
    (hx : Exact P s) (h : Inserted P amb record endorseVerified n s s' marked names mid) :
    Endorsers P s' := by
  constructor
  · intro r hr
    rw [h.insertions_eq] at hr
    rcases List.mem_cons.1 hr with heq | hr
    · cases heq
      rw [h.ready.named.getRecordName]
      exact h.ready.name rfl
    · exact he.checked r hr
  · intro hinj r hr
    rw [h.insertions_eq] at hinj ⊢
    rw [h.confirmations_eq, List.mem_append, List.mem_reverse] at hr
    rcases hr with hr | hr
    · obtain ⟨x, _, t, ht, hcard, rfl⟩ := h.mem_confirmedRecords.1 hr
      refine ⟨⟨_, hx.walked_logged h.toAdded ht⟩, t.refSet, hcard, fun a ha => ?_⟩
      rw [(h.named x t ht).getRecordName]
      exact EndorsedBy.of_counts ((hx.counts_cons hs hst h hinj ht a).1 ha)
    · obtain ⟨⟨e, hmem⟩, A, hcard, hA⟩ := he.confirmed (hinj.mono insertedData_cons) r hr
      exact ⟨⟨e, List.mem_cons_of_mem _ hmem⟩, A, hcard, fun a ha => (hA a ha).cons _⟩

/-- **Every record that is confirmed in a run on an empty database has its endorsers.** -/
theorem Reachable.endorsers (hpos : 1 ≤ P.config.confirmWeight) (hsmall : P.config.SmallWeights)
    {certManager : σ} (h : Reachable P Backend.empty certManager s) : Endorsers P s := by
  have hblank : Endorsers P (blank Backend.empty certManager) :=
    ⟨fun _ hr => absurd hr List.not_mem_nil, fun _ _ hr => absurd hr List.not_mem_nil⟩
  exact (h.induction hpos hsmall (I := fun s => (Stored P s ∧ Exact P s) ∧ Endorsers P s)
    ⟨⟨stored_blank certManager, exact_blank certManager⟩, hblank⟩
    (fun _ _ ha hab => ⟨⟨ha.1.1.congr hab, ha.1.2.congr hab⟩, ha.2.congr hab⟩)
    fun _ _ _ _ _ _ _ _ _ hput hinv ha hins =>
      ⟨⟨ha.1.1.inserted hpos hsmall hput hinv hins, ha.1.2.inserted hinv ha.1.1 hins⟩,
        ha.2.inserted hinv ha.1.1 ha.1.2 hins⟩).2

end LedgerImpl

end DLedger
