import DLedger.Plain.Refines

set_option autoImplicit false

/-! # An insertion beside the plain variant

When a record is added, the walk of the variant goes on where that of the ledger stops: at the
deep records. They point to deep records only, so the two walks mark the same light records.
A deep record has crossed `confirmWeight` before, so the two confirm the same records; and a
record that is evicted was unconfirmed, so the two evict the same light records.
-/

namespace DLedger

open Tlv (Bytes Block)

section Abstract

variable {lookup lookup' : Name → Option TailingRecordState} {producer start x : Name}

/-- A walk in a larger tail stays in the smaller one, when what points into the smaller one is
in it. -/
theorem Marks.restrict (hsub : ∀ c t, lookup c = some t → lookup' c = some t)
    (hup : ∀ c t p u, lookup' c = some t → p ∈ t.record.recordPointers → lookup p = some u →
      lookup c = some t)
    (h : Marks lookup' producer start x) {v : TailingRecordState} (hx : lookup x = some v) :
    Marks lookup producer start x := by
  have hedge : ∀ c p u, lookup p = some u →
      Worklist.Edge (header lookup') (IsOpen lookup' producer) c p →
      (∃ t, lookup c = some t) ∧ Worklist.Edge (header lookup) (IsOpen lookup producer) c p := by
    rintro c p u hp ⟨hhead, hprod, u', hu', hopen⟩
    obtain ⟨htype, t, ht, hpt⟩ := mem_header.1 hhead
    have hc := hup c t p u ht hpt hp
    rw [hsub p u hp] at hu'
    cases hu'
    exact ⟨⟨t, hc⟩, mem_header.2 ⟨htype, t, hc, hpt⟩, hprod, u, hp, hopen⟩
  induction h generalizing v with
  | single h => exact Relation.TransGen.single (hedge _ _ v hx h).2
  | tail _ h ih =>
      obtain ⟨⟨t, ht⟩, hlast⟩ := hedge _ _ v hx h
      exact (ih ht).tail hlast

theorem Marks.mono (hsub : ∀ c t, lookup c = some t → lookup' c = some t)
    (h : Marks lookup producer start x) : Marks lookup' producer start x := by
  refine Relation.TransGen.mono (fun c p hcp => ?_) start x h
  obtain ⟨hhead, hprod, u, hu, hopen⟩ := hcp
  obtain ⟨htype, t, ht, hpt⟩ := mem_header.1 hhead
  exact ⟨mem_header.2 ⟨htype, t, hsub c t ht, hpt⟩, hprod, u, hsub p u hu, hopen⟩

end Abstract

namespace LedgerImpl

variable {σ : Type} {P : Peer σ} {amb : Ambient} {s s' q q' : LedgerImpl σ} {record : Record}
  {endorseVerified : Bool} {n : Name} {marked marked' : Finset Name} {names names' : List Name}
  {mid mid' : TailMap}

section Insert

variable (h : TailRefines P s q) (hq : TailInv P.plain q)
  (hadd : Inserted P amb record endorseVerified n s s' marked names mid)
  (hplain : Inserted P.plain amb record endorseVerified n q q' marked' names' mid')

include h in
theorem TailRefines.insertedLookup_sub (entry : TailingRecordState) (c : Name)
    (t : TailingRecordState) (ht : insertedLookup s.tailRecords.lookup n entry c = some t) :
    insertedLookup q.tailRecords.lookup n entry c = some t := by
  unfold insertedLookup at ht ⊢
  split_ifs at ht ⊢ with hc
  · exact ht
  · exact ((h.tail_iff c t).1 ht).1

include h hq hadd hplain

/-- **The two walks mark the same light records.** -/
theorem TailRefines.mem_marked (x : Name) :
    x ∈ marked ↔ x ∈ marked' ∧ ∃ t, s.tailRecords[x]? = some t := by
  rw [hadd.mem_marked, hplain.mem_marked]
  constructor
  · rintro ⟨he, hm⟩
    obtain ⟨_, hne, _, t, ht, _⟩ := hadd.exists_of_mem ((hadd.mem_marked x).2 ⟨he, hm⟩)
    exact ⟨⟨he, hm.mono (h.insertedLookup_sub _)⟩, t, ht⟩
  · rintro ⟨⟨he, hm⟩, t, ht⟩
    have hne : n ≠ x := (hplain.exists_of_mem ((hplain.mem_marked x).2 ⟨he, hm⟩)).2.1
    have hx : insertedLookup s.tailRecords.lookup n (newEntry amb record endorseVerified) x
        = some t := by
      rw [insertedLookup, if_neg hne]
      exact ht
    refine ⟨he, hm.restrict (h.insertedLookup_sub _) (fun c u p v hc hp hv => ?_) hx⟩
    unfold insertedLookup at hc hv ⊢
    split_ifs at hc ⊢ with hnc
    · exact hc
    · -- a tailing record does not point to the new one, and not from a deep to a light one
      split_ifs at hv with hnp
      · exact absurd (hnp ▸ hp) (hplain.ready.unpointed c u hc)
      · obtain ⟨hvq, hlight⟩ := (h.tail_iff p v).1 hv
        exact (h.tail_iff c u).2 ⟨hc, (hq.sound.card_le hc hp hvq).trans_lt hlight⟩

/-- The entries after the two walks. -/
theorem TailRefines.walked_iff (x : Name) (t : TailingRecordState) :
    walked amb record endorseVerified n s.tailRecords.lookup marked x = some t ↔
      walked amb record endorseVerified n q.tailRecords.lookup marked' x = some t ∧
        (n = x ∨ ∃ u, s.tailRecords[x]? = some u) := by
  by_cases hx : n = x
  · subst hx
    rw [hadd.walked_self, hplain.walked_self]
    simp
  · rw [Added.walked_of_ne hx, Added.walked_of_ne hx]
    cases hu : s.tailRecords[x]? with
    | none => simp [hx]
    | some u =>
        have hmem : x ∈ marked ↔ x ∈ marked' := by
          rw [h.mem_marked hq hadd hplain, hu]
          simp
        rw [((h.tail_iff x u).1 hu).1, Option.map_some, Option.map_some]
        simp only [hmem, Option.some.injEq, exists_eq', or_true, and_true]

variable (hpos : 1 ≤ P.config.confirmWeight) (hsmall : P.config.SmallWeights)
include hpos hsmall

omit hpos in
/-- The records that cross `confirmWeight` are the same. -/
theorem TailRefines.confirmedRecords_eq :
    confirmedRecords P amb record endorseVerified n s marked names
      = confirmedRecords P.plain amb record endorseVerified n q marked' names' := by
  have hnames : names = names'.filter (fun x => x ∈ marked) := by
    refine eq_of_sorted id hadd.sorted (hplain.sorted.filter _) fun x => ?_
    rw [List.mem_filter, decide_eq_true_eq, hadd.mem_names, hplain.mem_names,
      h.mem_marked hq hadd hplain]
    exact ⟨fun hx => ⟨hx.1, hx⟩, fun hx => hx.2⟩
  rw [confirmedRecords, confirmedRecords, crossing, crossing, hnames, List.filterMap_filter]
  refine List.filterMap_congr fun x hx => ?_
  have hx' := (hplain.mem_names x).1 hx
  obtain ⟨_, hne, _, u, hu, _⟩ := hplain.exists_of_mem hx'
  by_cases hmem : x ∈ marked
  · obtain ⟨_, v, hv⟩ := (h.mem_marked hq hadd hplain x).1 hmem
    have hwalked : walked amb record endorseVerified n s.tailRecords.lookup marked x
        = walked amb record endorseVerified n q.tailRecords.lookup marked' x := by
      rw [Added.walked_of_ne hne, Added.walked_of_ne hne, hv, ((h.tail_iff x v).1 hv).1]
      simp only [Option.map_some, if_pos hmem, if_pos hx']
    simp only [hmem, decide_true, if_true, hwalked]
  · -- a deep record had crossed before
    have hdeep : P.config.removeWeight ≤ u.refSet.card := by
      refine Nat.not_lt.1 fun hlight => hmem ((h.mem_marked hq hadd hplain x).2 ⟨hx', u, ?_⟩)
      exact (h.tail_iff x u).2 ⟨hu, hlight⟩
    have hcard := hplain.card_of_mem hx' hu
    have hle := hsmall.confirmWeight_le
    have hne' : (u.mark (RecordName.getProducerPrefix n)).refSet.card
        ≠ P.config.confirmWeight := by omega
    simp only [hmem, decide_false, Bool.false_eq_true, if_false, Added.walked_of_ne hne, hu,
      Option.map_some, if_pos hx', Option.bind_some, if_neg hne']

/-- The tails before the eviction. -/
theorem TailRefines.mid_iff (hdeep : P.removesDeep = true) (x : Name) (t : TailingRecordState) :
    mid[x]? = some t ↔ mid'[x]? = some t ∧ t.refSet.card < P.config.removeWeight := by
  have hle := hsmall.confirmWeight_le
  have hmid' : mid'[x]? = some t ↔
      walked amb record endorseVerified n q.tailRecords.lookup marked' x = some t := by
    rw [hplain.mid_iff]
    exact ⟨fun hx => hx.1, fun hx => ⟨hx, fun hd => by cases hd.2.1⟩⟩
  rw [hadd.mid_iff, hmid', h.walked_iff hq hadd hplain, and_assoc]
  refine and_congr_right fun hw => ?_
  -- an entry is light after the loop as it was kept, or as it was light and is not marked
  constructor
  · rintro ⟨hold, hnot⟩
    by_cases hx : x ∈ marked
    · exact Nat.not_le.1 fun hcard => hnot ⟨hx, hdeep, hcard⟩
    · rcases hplain.walked_cases hw with ⟨rfl, rfl⟩ | ⟨hne, u, hu, rfl⟩
      · rw [newEntry, Finset.card_empty]
        omega
      · obtain ⟨v, hv⟩ := hold.resolve_left hne
        obtain ⟨hvq, hlight⟩ := (h.tail_iff x v).1 hv
        rw [hu] at hvq
        cases hvq
        rwa [if_neg fun hx' => hx ((h.mem_marked hq hadd hplain x).2 ⟨hx', u, hv⟩)]
  · intro hlight
    refine ⟨?_, fun hx => Nat.not_le.2 hlight hx.2.2⟩
    rcases hplain.walked_cases hw with ⟨rfl, _⟩ | ⟨_, u, hu, rfl⟩
    · exact Or.inl rfl
    · exact Or.inr ⟨u, (h.tail_iff x u).2 ⟨hu, lt_of_le_of_lt (card_le_ite_mark _ _ _) hlight⟩⟩

/-- The two evict the same light records. -/
theorem TailRefines.evicted_iff (hdeep : P.removesDeep = true) (x : Name) :
    Evicted mid.lookup P.config amb x ↔ Evicted mid'.lookup P.config amb x := by
  have hmid := h.mid_iff hq hadd hplain hpos hsmall hdeep
  have hle := hsmall.confirmWeight_le
  have hsound := hplain.sound hq.sound hplain.ready hplain.genesis
  constructor
  · exact fun hx => hx.mono fun c t hc => ((hmid c t).1 hc).1
  · intro hx
    obtain ⟨t, ht⟩ := hx.exists_lookup
    refine hx.induction (motive := fun x _ => Evicted mid.lookup P.config amb x)
      (fun y u hu hexp => ?_) (fun y u z v hu hv hz ih => ?_) ht
    · exact Evicted.of_expired ((hmid y u).2 ⟨hu, hexp.1.trans_le hle⟩) hexp
    · -- what points to a light record is light
      obtain ⟨v', hv'⟩ := ih.exists_lookup
      obtain ⟨hvq, hlight⟩ := (hmid z v').1 hv'
      have hcard := hsound.card_le ((hplain.mid_iff y u).1 hu).1 hz
        ((hplain.mid_iff z v').1 hvq).1
      exact ih.of_pointer ((hmid y u).2 ⟨hu, hcard.trans_lt hlight⟩) hv' hz

/-- **After an insertion the two are in step again.** -/
theorem TailRefines.inserted (hdeep : P.removesDeep = true) : TailRefines P s' q' where
  rest := by
    have hemit : q.emit (.inserted record endorseVerified)
        = (s.emit (.inserted record endorseVerified)).withTail q.tailRecords :=
      (h.emit _).rest
    have hconfirm : confirmAll P.plain amb
          (confirmedRecords P.plain amb record endorseVerified n q marked' names')
          (q.emit (.inserted record endorseVerified))
        = (confirmAll P amb (confirmedRecords P amb record endorseVerified n s marked names)
            (s.emit (.inserted record endorseVerified))).withTail q.tailRecords := by
      rw [h.confirmedRecords_eq hq hadd hplain hsmall, hemit]
      exact confirmAll_withTail P amb _ _ _
    calc q' = (confirmAll P.plain amb
          (confirmedRecords P.plain amb record endorseVerified n q marked' names')
          (q.emit (.inserted record endorseVerified))).withTail q'.tailRecords := hplain.rest
      _ = (confirmAll P amb (confirmedRecords P amb record endorseVerified n s marked names)
            (s.emit (.inserted record endorseVerified))).withTail q'.tailRecords := by
          rw [hconfirm, withTail_withTail]
      _ = s'.withTail q'.tailRecords := by
          conv_rhs => rw [hadd.rest]
          rfl
  tail_iff x t := by
    rw [hadd.tail_iff, hplain.tail_iff, h.mid_iff hq hadd hplain hpos hsmall hdeep,
      h.evicted_iff hq hadd hplain hpos hsmall hdeep]
    exact and_right_comm

/-! ## Where records have no pointers -/

/-- A new record is in the tail of the ledger after the call, or the whole tail is evicted. -/
theorem TailRefines.stays (hdeep : P.removesDeep = true)
    (hpointers : ∀ p ∈ record.recordPointers, endorseVerified = true ∧
      RecordName.getProducerPrefix p ≠ RecordName.getProducerPrefix n)
    (hlight : P.config.removeWeight ≤ 1) :
    (∃ t, s'.tailRecords[n]? = some t) ∨ P.config.blockConfirmationTimeout < 0 := by
  by_cases htime : P.config.blockConfirmationTimeout < 0
  · exact Or.inr htime
  refine Or.inl ⟨_, (hadd.tail_or hadd.walked_self).resolve_right ?_⟩
  rintro (⟨hn, _⟩ | ⟨hself, y, t, ht, hexp, hpath⟩)
  · exact hadd.notMem_self hn
  -- the new record has expired itself, or the path to what has expired begins at a pointer
  rcases Relation.ReflTransGen.cases_head hpath with rfl | ⟨p, ⟨t', ht', hp, hsome⟩, _⟩
  · have heq : t = newEntry amb record endorseVerified :=
      Option.some.inj (ht.symm.trans hself)
    have hlate := hexp.2
    rw [heq, newEntry] at hlate
    dsimp only at hlate
    omega
  · -- the pointer counts the new record, so it is deep
    have heq : t' = newEntry amb record endorseVerified :=
      Option.some.inj (ht'.symm.trans hself)
    rw [heq] at hp
    obtain ⟨he, hprod⟩ := hpointers p hp
    obtain ⟨u, hu⟩ := Option.isSome_iff_exists.1 hsome
    obtain ⟨hu', hcard⟩ := (h.mid_iff hq hadd hplain hpos hsmall hdeep p u).1 hu
    have hsound := hplain.sound hq.sound hplain.ready hplain.genesis
    rcases hsound.closed n _ hplain.walked_self he p hp u ((hplain.mid_iff p u).1 hu').1
      (RecordName.getProducerPrefix n) (Or.inr rfl) with hmem | hsame
    · have := Finset.card_pos.2 ⟨_, hmem⟩
      omega
    · exact hprod hsame.symm

theorem Pointerless.inserted (hj : Pointerless P s q) (hdeep : P.removesDeep = true)
    (hpointers : ∀ p ∈ record.recordPointers, endorseVerified = true ∧
      RecordName.getProducerPrefix n = P.config.peerPrefix ∧
      RecordName.getProducerPrefix p ≠ P.config.peerPrefix)
    {stack : List (Record × Int)} (hstack : ∀ it ∈ stack, it.1.recordPointers = []) :
    Pointerless P (s'.withStack stack) (q'.withStack stack) := by
  -- with a negative timeout the tail is always empty, as a new record expires at once
  have hnone : P.config.blockConfirmationTimeout < 0 → ∀ x : Name, q'.tailRecords[x]? = none := by
    intro htime x
    cases hx : q'.tailRecords[x]? with
    | none => rfl
    | some t =>
        obtain ⟨hmid, hnot⟩ := (hplain.tail_iff x t).1 hx
        rcases hplain.walked_cases (hplain.walked_of_tail hx) with ⟨rfl, rfl⟩ | ⟨_, u, hu, _⟩
        · refine absurd (Evicted.of_expired hmid ⟨?_, ?_⟩) hnot
          · rw [newEntry, Finset.card_empty]
            exact hpos
          · rw [newEntry]
            dsimp only
            omega
        · rw [hj.evicted htime x] at hu
          cases hu
  refine ⟨hstack, fun x t ht => ?_, fun hlight => ?_, hnone⟩
  · rcases hplain.walked_cases (hplain.walked_of_tail ht) with ⟨rfl, rfl⟩ | ⟨_, u, hu, rfl⟩
    · exact Finset.empty_subset _
    · intro a ha
      rw [mem_ite_mark] at ha
      rcases ha with ⟨hx, rfl⟩ | ha
      · cases hlist : record.recordPointers with
        | nil =>
            rw [hplain.marked_eq_empty hlist] at hx
            exact absurd hx (Finset.notMem_empty x)
        | cons p ps =>
            have hp : p ∈ record.recordPointers := by rw [hlist]; exact List.mem_cons_self
            exact Finset.mem_singleton.2 (hpointers p hp).2.1
      · exact hj.counted x u hu ha
  · rcases h.stays hq hadd hplain hpos hsmall hdeep
      (fun p hp => ⟨(hpointers p hp).1, by rw [(hpointers p hp).2.1]; exact (hpointers p hp).2.2⟩)
      hlight with ⟨t, ht⟩ | htime
    · exact Or.inl ⟨n, t, ht⟩
    · exact Or.inr (hnone htime)

end Insert

/-- Where records have no pointers, the two tails are empty together. -/
theorem Pointerless.tail_eq_none (hj : Pointerless P s q) (h : TailRefines P s q)
    (hs : ∀ n : Name, s.tailRecords[n]? = none) (n : Name) : q.tailRecords[n]? = none := by
  by_cases hlight : P.config.removeWeight ≤ 1
  · rcases hj.newest hlight with ⟨m, t, ht⟩ | hnone
    · rw [hs m] at ht
      cases ht
    · exact hnone n
  · cases ht : q.tailRecords[n]? with
    | none => rfl
    | some t =>
        have hcard := Finset.card_le_card (hj.counted n t ht)
        rw [Finset.card_singleton] at hcard
        have hstill := (h.tail_iff n t).2 ⟨ht, by omega⟩
        rw [hs n] at hstill
        cases hstill

end LedgerImpl

end DLedger
