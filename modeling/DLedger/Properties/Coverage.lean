import DLedger.Ledger.Sample

set_option autoImplicit false

/-! # What a sync Interest covers

A sync Interest names the verified tailing records with an empty reference set. They are meant
to cover the ledger: every record of it is one of them or an ancestor of one. An insertion
keeps that. An eviction does not: a record whose reference set was filled by records that are
evicted is not named any more.
-/

namespace DLedger

open Tlv (Bytes Block)

namespace LedgerImpl

variable {σ : Type} {P : Peer σ} {amb : Ambient} {s s' : LedgerImpl σ} {record : Record}
  {endorseVerified : Bool} {n : Name} {marked : Finset Name} {names : List Name} {mid : TailMap}

theorem mem_frontier {f : Name} : f ∈ frontier s ↔
    ∃ t, s.tailRecords[f]? = some t ∧ t.parentEndorseVerified = true ∧ t.refSet = ∅ := by
  simp only [frontier, List.mem_map, List.mem_filter, Bool.and_eq_true, beq_iff_eq,
    Finset.card_eq_zero]
  constructor
  · rintro ⟨⟨m, t⟩, ⟨hmem, hflags⟩, rfl⟩
    exact ⟨t, Std.TreeMap.mem_toList_iff_getElem?_eq_some.1 hmem, hflags⟩
  · rintro ⟨t, ht, hflags⟩
    exact ⟨(f, t), ⟨Std.TreeMap.mem_toList_iff_getElem?_eq_some.2 ht, hflags⟩, rfl⟩

/-- Every valid record is named in a sync Interest, or it is an ancestor of one that is. -/
def Covered (P : Peer σ) (s : LedgerImpl σ) : Prop :=
  ∀ n, s.hasRecord P (P.ndn.toUri n) = true →
    ∃ f ∈ frontier s, Relation.ReflTransGen (PointsTo P.ndn s.insertions) f n

theorem Covered.congr (h : Covered P s) (hsame : SameRecords s s') : Covered P s' := by
  unfold Covered hasRecord frontier
  rw [hsame.tailRecords, hsame.backend, hsame.insertions]
  exact h

theorem covered_blank (certManager : σ) : Covered P (blank Backend.empty certManager) := by
  intro n hn
  rcases hasRecord_toUri.1 hn with ⟨t, ht, _⟩ | ⟨_, d, hd⟩
  · simp [blank] at ht
  · rw [blank, Backend.getRecord_empty] at hd
    cases hd

/-! ## What an insertion keeps -/

/-- A record that is valid after an insertion is the new one, or it was valid before. -/
theorem Inserted.hasRecord_of_hasRecord (hpos : 1 ≤ P.config.confirmWeight)
    (hs : TailInv P s) (hst : Stored P s)
    (h : Inserted P amb record endorseVerified n s s' marked names mid) {p : Name}
    (hp : s'.hasRecord P (P.ndn.toUri p) = true) :
    (n = p ∧ ∃ t, s'.tailRecords[n]? = some t ∧ t.parentEndorseVerified = true) ∨
      s.hasRecord P (P.ndn.toUri p) = true := by
  rcases hasRecord_toUri.1 hp with ⟨t', ht', hv⟩ | ⟨_, d, hd⟩
  · rcases h.walked_cases (h.walked_of_tail ht') with ⟨rfl, _⟩ | ⟨_, t, ht, rfl⟩
    · exact Or.inl ⟨rfl, t', ht', hv⟩
    · refine Or.inr (hasRecord_toUri.2 (Or.inl ⟨t, ht, ?_⟩))
      rw [ite_mark_parentEndorseVerified] at hv
      exact hv
  · right
    -- a tailing record that is stored has been marked, so it is endorsed
    rcases h.backend_cases hd with ⟨t', hcross, _⟩ | hback
    · obtain ⟨t, ht, _, _⟩ := h.of_crosses hcross
      refine hasRecord_toUri.2 (Or.inl ⟨t, ht, ?_⟩)
      rw [hs.sound.flags p t ht]
      exact h.endorsed_of_mem hs.sound h.ready hcross.1 ht
    · cases ht : s.tailRecords[p]? with
      | none => exact hasRecord_toUri.2 (Or.inr ⟨ht, d, hback⟩)
      | some t =>
          refine hasRecord_toUri.2 (Or.inl ⟨t, ht, ?_⟩)
          rw [hs.sound.flags p t ht, ← Bool.not_eq_false]
          intro hv
          have hheavy := hst.heavy p t d ht hback
          rw [hs.sound.unmarked p t ht hv, Finset.card_empty] at hheavy
          omega

/-- An endorsed record is not evicted where no endorsed record is expired. -/
theorem NoneExpired.endorsed_stays (htimeout : 0 ≤ P.config.blockConfirmationTimeout)
    (hfresh : NoneExpired P (fun _ endorsed => endorsed = true) amb s) (hs : TailInv P s)
    (h : Inserted P amb record endorseVerified n s s' marked names mid) {x : Name}
    {t : TailingRecordState} (hx : x ∉ marked)
    (ht : walked amb record endorseVerified n s.tailRecords.lookup marked x = some t)
    (hv : t.recordEndorseVerified = true) : s'.tailRecords[x]? = some t := by
  have hsound := h.sound hs.sound h.ready h.genesis
  rcases h.tail_or ht with htail | ⟨hmem, _⟩ | ⟨hmid, hevicted⟩
  · exact htail
  · exact absurd hmem hx
  · refine absurd hevicted (hfresh.not_evicted htimeout h.toAdded ?_ hmid hv)
    intro y u z w hy hz hyz hu
    exact hsound.pointer y u ((h.mid_iff y u).1 hy).1 hu z hyz w ((h.mid_iff z w).1 hz).1

/-- **An insertion keeps the ledger covered while no endorsed record expires.** A record of the
frontier stays in it, or the walk has marked it and the new record takes its place. -/
theorem Covered.inserted (hpos : 1 ≤ P.config.confirmWeight)
    (htimeout : 0 ≤ P.config.blockConfirmationTimeout)
    (hcov : Covered P s) (hs : TailInv P s) (hst : Stored P s) (hx : Exact P s)
    (hfresh : NoneExpired P (fun _ endorsed => endorsed = true) amb s)
    (h : Inserted P amb record endorseVerified n s s' marked names mid) : Covered P s' := by
  have hgrow : ∀ {f p}, Relation.ReflTransGen (PointsTo P.ndn s.insertions) f p →
      Relation.ReflTransGen (PointsTo P.ndn s'.insertions) f p := by
    intro f p hpath
    rw [h.insertions_eq]
    exact Relation.ReflTransGen.mono (fun _ _ hab => pointsTo_cons.2 (Or.inr hab)) f p hpath
  -- the new record, when it is endorsed
  have hnew : endorseVerified = true → n ∈ frontier s' := fun he =>
    mem_frontier.2 ⟨_, hfresh.endorsed_stays htimeout hs h h.notMem_self h.walked_self he, he, rfl⟩
  intro p hp
  rcases h.hasRecord_of_hasRecord hpos hs hst hp with ⟨rfl, t, ht, hv⟩ | hold
  · have hentry := h.walked_of_tail ht
    rw [h.walked_self] at hentry
    cases hentry
    exact ⟨n, hnew hv, Relation.ReflTransGen.refl⟩
  obtain ⟨f, hf, hpath⟩ := hcov p hold
  obtain ⟨u, hu, hv, hempty⟩ := mem_frontier.1 hf
  by_cases hmarked : f ∈ marked
  · have hreach := hx.transGen_of_marked hs h hmarked
    rw [← h.insertions_eq] at hreach
    exact ⟨n, hnew ((h.mem_marked f).1 hmarked).1, hreach.to_reflTransGen.trans (hgrow hpath)⟩
  · have hne : n ≠ f := by
      rintro rfl
      rw [h.ready.fresh] at hu
      cases hu
    have hwalked : walked amb record endorseVerified n s.tailRecords.lookup marked f = some u := by
      rw [Added.walked_of_ne hne, hu, Option.map_some, if_neg hmarked]
    have htail := hfresh.endorsed_stays htimeout hs h hmarked hwalked (hs.sound.flags f u hu ▸ hv)
    exact ⟨f, mem_frontier.2 ⟨u, htail, hv, hempty⟩, hgrow hpath⟩

/-! ## Runs -/

/-- **The frontier covers the ledger in every run in which no endorsed tailing record is expired
when a call may add records.** -/
theorem frontier_covers (hpos : 1 ≤ P.config.confirmWeight) (hsmall : P.config.SmallWeights)
    (htimeout : 0 ≤ P.config.blockConfirmationTimeout) {certManager : σ}
    (h : ReachableBy P Backend.empty certManager
      (Unexpired P fun _ endorsed => endorsed = true) s) :
    Covered P s := by
  have hkeep : ∀ (amb : Ambient) record e n (a b : LedgerImpl σ) marked names mid,
      Ambient.Writes amb → TailInv P a →
      NoneExpired P (fun _ endorsed => endorsed = true) amb a →
      (Stored P a ∧ Exact P a) ∧ Covered P a →
      Inserted P amb record e n a b marked names mid → (Stored P b ∧ Exact P b) ∧ Covered P b := by
    rintro amb record e n a b marked names mid hput ha hfresh ⟨⟨hst, hx⟩, hcov⟩ hins
    exact ⟨⟨hst.inserted hpos hsmall hput ha hins, hx.inserted ha hst hins⟩,
      hcov.inserted hpos htimeout ha hst hx hfresh hins⟩
  have hsame : ∀ a b : LedgerImpl σ, (Stored P a ∧ Exact P a) ∧ Covered P a → SameRecords a b →
      (Stored P b ∧ Exact P b) ∧ Covered P b := fun a b ha hab =>
    ⟨⟨ha.1.1.congr hab, ha.1.2.congr hab⟩, ha.2.congr hab⟩
  refine (h.unexpired_induction hpos hsmall htimeout
    (I := fun s => (Stored P s ∧ Exact P s) ∧ Covered P s) (fun amb s hput hstart => ?_) hsame
    hkeep).2
  -- the genesis records are new while the constructor adds them
  obtain ⟨s₁, _, ⟨hI, _⟩, rfl⟩ := construct_induction hpos hsmall
    (I := fun s => ((Stored P s ∧ Exact P s) ∧ Covered P s) ∧
      NoneExpired P (fun _ endorsed => endorsed = true) amb s) hput
    ⟨⟨⟨stored_blank certManager, exact_blank certManager⟩, covered_blank certManager⟩,
      noneExpired_blank _ certManager⟩
    (fun record n a b marked names mid ha hI hp hr hadded =>
      ⟨hkeep amb record true n a b marked names mid hput ha.inv hI.2 hI.1
        ⟨hadded, hr, by rw [ha.backend]; exact Backend.getRecord_empty _ _, by simp [hp],
          fun _ _ => hp⟩, hI.2.added htimeout hadded⟩) hstart
  exact hsame _ _ hI (sendSyncInterest_sameRecords s₁)

/-- A ledger is not covered when a set of names is closed under pointers and holds the frontier
but not all that is valid. -/
theorem not_covered (T : List Name) {n : Name} (hfrontier : ∀ f ∈ frontier s, f ∈ T)
    (hclosed : ∀ ins ∈ s.insertions, ins.1.getRecordName P.ndn ∈ T →
      ∀ p ∈ ins.1.recordPointers, p ∈ T)
    (hn : s.hasRecord P (P.ndn.toUri n) = true) (hout : n ∉ T) : ¬ Covered P s := by
  intro hcov
  obtain ⟨f, hf, hpath⟩ := hcov n hn
  apply hout
  clear hn hout
  induction hpath with
  | refl => exact hfrontier f hf
  | tail _ hstep ih =>
      obtain ⟨ins, hins, rfl, hp⟩ := hstep
      exact hclosed ins hins ih _ hp

/-- A record on a record on the genesis record, which confirms the record below it, and a late
one on the genesis record. -/
def latePackets : List (Int × Data) :=
  let a := Sample.packet 97 0 [Sample.genesis]
  let b := Sample.packet 98 0 [Sample.ndn.fullName a]
  [(0, a), (0, b), (5000, Sample.packet 99 0 [Sample.genesis])]

/-- **The late record evicts an unconfirmed one, and the record below that is not named.** -/
theorem not_covered_latePackets :
    let P := Sample.peer (Sample.config 1 5 1)
    1 ≤ P.config.confirmWeight ∧
      ¬ ∀ s, Reachable P Backend.empty () s → Covered P s := by
  intro P
  refine ⟨by decide, fun hall => ?_⟩
  have hreach : Reachable P Backend.empty () (Sample.runAt P () latePackets).1 :=
    Sample.reachable_runAt (by decide +kernel)
  exact not_covered (P := P) [Sample.ndn.fullName (Sample.packet 99 0 [Sample.genesis]),
    Sample.genesis] (n := Sample.ndn.fullName (Sample.packet 97 0 [Sample.genesis]))
    (by decide +kernel) (by decide +kernel) (by decide +kernel) (by decide +kernel)
    (hall _ hreach)

theorem frontier_covers_first :
    let P := Sample.peer (Sample.config 1 5 1)
    Covered P (onFetchedRecord P Sample.ambient (Sample.packet 97 0 [Sample.genesis])
      (construct P Sample.ambient Backend.empty ()).1).1 := by
  intro P
  have hreach : ReachableBy P Backend.empty () (Unexpired P fun _ endorsed => endorsed = true)
      (onFetchedRecord P Sample.ambient (Sample.packet 97 0 [Sample.genesis])
        (construct P Sample.ambient Backend.empty ()).1).1 :=
    Sample.reachableBy_first (by decide +kernel) (by decide +kernel) (by decide)
      (by decide +kernel)
  exact frontier_covers (P := P) (by decide) (Sample.smallWeights (by decide) (by decide))
    (by decide) hreach

end LedgerImpl

end DLedger
