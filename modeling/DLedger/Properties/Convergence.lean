import DLedger.Delivery.Pull
import DLedger.Properties.ArrivalOrder
import DLedger.Properties.Coverage
import DLedger.Properties.Exchange

set_option autoImplicit false

/-! # Ledgers converge

Two peers of one network, whose records are those of a finite set. When one of them has received a
sync Interest of the other, and each Interest for a record that it has expressed since is answered,
it has every record that the other one had. However the answers and the other calls come, the pull
ends.
-/

namespace DLedger

open Tlv (Bytes Block)

namespace LedgerImpl

variable {σ τ : Type} {P : Peer σ} {Q : Peer τ} {amb start start' : Ambient} {S : Finset Data}
  {times times' : List Int}

/-! ## What a sync Interest of such a ledger names -/

section Names

variable {s₀ s : LedgerImpl σ}

/-- What an inserted record points to is a parent in the set. -/
theorem Steady.parent_of_pointsTo (hgenesis : OnlyGenesis s₀) (hs : Steady P s₀ S times s)
    {n p : Name} (h : PointsTo P.ndn s.insertions n p) : Parent P.ndn S n p := by
  obtain ⟨ins, hins, rfl, hp⟩ := h
  obtain ⟨t, ht, heq⟩ := hs.arriving.inserted ins hins
  have hnamed := hs.healthy.inv.tail.sound.named _ t ht
  rw [← heq] at hp
  rcases (hs.arriving.entry _ t ht).source with ⟨u, hu, hrecord⟩ | ⟨d, hd, hdata⟩
  · rw [hrecord, (hgenesis _ u hu).2] at hp
    exact absurd hp List.not_mem_nil
  · obtain ⟨hdec, hname⟩ := hnamed.ofData_eq hdata
    rw [← hname]
    exact parent_of_pointer hd hdec hp

/-- Every inserted record is in the tail, so records of one name are one record. -/
theorem Arriving.injOn_insertedData (ha : Arriving P s₀ S times s) :
    Set.InjOn P.ndn.fullName (insertedData s.insertions) := by
  refine DLedger.injOn_insertedData fun ins hins ins' hins' heq => ?_
  obtain ⟨t, ht, hrecord⟩ := ha.inserted ins hins
  obtain ⟨t', ht', hrecord'⟩ := ha.inserted ins' hins'
  rw [heq, ht'] at ht
  cases ht
  rw [← hrecord, hrecord']

/-- **The frontier covers the ledger.** From a record one comes, along the records on it, to one on
which there is none, and that one has an empty reference set. -/
theorem Steady.covered (hgenesis : OnlyGenesis s₀) (hS : Pullable P s₀.certManager S)
    (hs : Steady P s₀ S times s) : Covered P s := by
  intro n hn
  have htail := (hs.arriving.hasRecord_iff hs.healthy.inv.tail).1 hn
  have hacyclic : Dag.Acyclic fun x y => PointsTo P.ndn s.insertions y x := by
    apply Dag.Acyclic.swap
    exact hS.acyclic.mono fun _ _ h => hs.parent_of_pointsTo hgenesis h
  have hfinite : (tailing s).Finite :=
    (tailNames s.tailRecords).finite_toSet.subset fun x hx =>
      mem_tailNames.2 (Option.isSome_iff_exists.2 hx)
  obtain ⟨f, ⟨t, ht⟩, hpath, hlast⟩ := hacyclic.exists_sink hfinite (fun x _ y hxy => by
    obtain ⟨ins, hins, rfl, _⟩ := hxy
    obtain ⟨u, hu, _⟩ := hs.arriving.inserted ins hins
    exact ⟨u, hu⟩) htail
  refine ⟨f, mem_frontier.2 ⟨t, ht, hs.arriving.verified hs.healthy.inv.tail ht, ?_⟩,
    Relation.reflTransGen_swap.1 hpath⟩
  rw [Finset.eq_empty_iff_forall_notMem]
  intro a ha
  rw [hs.healthy.exact.refSet hs.arriving.injOn_insertedData f t ht] at ha
  obtain ⟨r, _, hreach, _⟩ := ha
  obtain ⟨y, _, hy⟩ := Relation.TransGen.tail'_iff.1 hreach
  exact hlast y hy

/-- No certificate record is in the ledger or waits. -/
abbrev NoCerts (s : LedgerImpl σ) : Prop :=
  Keeps (fun s => s.lastCertRecords = []) (fun r => r.type ≠ .certificateRecord)
    (fun r => r.type ≠ .certificateRecord) s

theorem onRecordConfirmed_lastCertRecords_of_ne {record : Record}
    (htype : record.type ≠ .certificateRecord) (s : LedgerImpl σ) :
    (onRecordConfirmed P amb record s).1.lastCertRecords = s.lastCertRecords := by
  unfold onRecordConfirmed
  cases record.data with
  | none => rfl
  | some d =>
      cases ht : record.type with
      | certificateRecord => exact absurd ht htype
      | _ => rfl

theorem noCerts_frame : CallFrame P (fun s => s.lastCertRecords = [])
    (fun r => r.type ≠ .certificateRecord) (fun r => r.type ≠ .certificateRecord) where
  withTail _ _ h := h
  withStack _ _ h := h
  quiet _ _ _ h := h
  confirm _ _ s htype h := (onRecordConfirmed_lastCertRecords_of_ne htype s).trans h
  blank := by decide
  waiting _ h := h
  insert _ _ _ _ h := h

/-- What is built of a record keeps its type. -/
theorem buildRecord_type {record record' : Record} {data : Data}
    (h : buildRecord P amb record s = (record', .ok (.ok data))) : record'.type = record.type := by
  obtain ⟨items, hpointers, _⟩ := buildRecord_ok h
  obtain ⟨pointers, rfl, _⟩ := addPointers_ok hpointers
  rfl

theorem PullRun.noCerts (hS : Pullable P s₀.certManager S) {p q : Puller σ}
    (hp : NoCerts p.ledger) (h : PullRun P s₀ S times p q) : NoCerts q.ledger := by
  induction h with
  | refl => exact hp
  | tail _ hstep ih =>
      cases hstep with
      | @call c hc =>
          refine Keeps.call noCerts_frame ih (c := c) ?_
          cases c with
          | createRecord amb record =>
              intro record' data hbuild
              show record'.type ≠ _
              rw [buildRecord_type hbuild, hc.1]
              decide
          | onFetchedRecord amb data => exact hc.elim
          | _ => trivial
      | answer h =>
          obtain ⟨amb, data, hd, _, rfl⟩ := h
          refine Keeps.onFetchedRecord noCerts_frame ih fun record hdec _ _ => ?_
          rw [(Record.ofData_eq_ok hdec).2.2.1, hS.generic data hd.mem]
          decide

end Names

/-! ## Pulls from the constructor on -/

/-- A ledger with outstanding Interests that has started on an empty database and has pulled records
of the set since. -/
structure Pulled (P : Peer σ) (start : Ambient) (s₀ : LedgerImpl σ) (S : Finset Data)
    (times : List Int) (p : Puller σ) : Prop where
  writes : Ambient.Writes start
  started : ∃ certManager, construct P start Backend.empty certManager = (s₀, .ok ())
  time : start.now ∈ times
  timely : Timely P.config times
  pullable : Pullable P s₀.certManager S
  run : PullRun P s₀ S times ⟨s₀, []⟩ p

theorem Pulled.trans {s₀ : LedgerImpl σ} {p q : Puller σ} (h : Pulled P start s₀ S times p)
    (hrun : PullRun P s₀ S times p q) : Pulled P start s₀ S times q :=
  { h with run := h.run.trans hrun }

section Pulled

variable (hpos : 1 ≤ P.config.confirmWeight) (hsmall : P.config.SmallWeights) {s₀ : LedgerImpl σ}
  {p : Puller σ}
include hpos hsmall

theorem Pulled.genesis (h : Pulled P start s₀ S times p) : Started P start s₀ := by
  obtain ⟨_, hstart⟩ := h.started
  have hself := (h.timely _ h.time _ h.time).2
  exact construct_started hpos hsmall h.writes (by omega) hstart

/-- It starts with nothing that waits or is asked for. -/
theorem Pulled.start_pulls (h : Pulled P start s₀ S times p) : Pulling P s₀ S times ⟨s₀, []⟩ := by
  have hstarted := h.genesis hpos hsmall
  obtain ⟨certManager, hstart⟩ := h.started
  have hquiescent : Quiescent P s₀ := by
    intro it hit
    rw [hstarted.syncStack] at hit
    cases hit
  have hsteady : Steady P s₀ S times s₀ :=
    ⟨hstarted.arriving h.time, hstarted.healthy, (construct_core hstart).1, hquiescent⟩
  refine ⟨hsteady, ?_, ?_⟩
  · rintro x (⟨t, ht⟩ | ⟨it, hit, _⟩) y hy
    · exact Or.inl (Or.inl (hsteady.arriving.parent_tail hstarted.genesis h.pullable
        hstarted.healthy.inv ht hy))
    · rw [hstarted.syncStack] at hit
      cases hit
  · have hnothing := (construct_asksNothing P start Backend.empty certManager).holds
    rw [hstart] at hnothing
    intro n hn
    rw [show s₀.fetched = [] from hnothing] at hn
    cases hn

theorem Pulled.pulls (h : Pulled P start s₀ S times p) : Pulling P s₀ S times p :=
  (h.run.pulls hpos hsmall (h.genesis hpos hsmall).genesis h.pullable h.timely
    (h.start_pulls hpos hsmall)).1

omit hpos hsmall in
theorem Pulled.noCerts (h : Pulled P start s₀ S times p) : NoCerts p.ledger := by
  obtain ⟨certManager, hstart⟩ := h.started
  have hnone : NoCerts (construct P start Backend.empty certManager).1 := by
    refine Keeps.construct noCerts_frame rfl fun i record hdata => ?_
    rw [(genesisData_ok hdata).1]
    decide
  rw [hstart] at hnone
  exact h.run.noCerts h.pullable hnone

/-! ## The pull ends -/

/-- **When nothing is outstanding, the pull is complete**: nothing waits, and all that was ever
asked for is in the ledger with its ancestors. -/
theorem pull_completes (h : Pulled P start s₀ S times p) (hnone : p.outstanding = []) :
    p.ledger.syncStack = [] ∧ ∀ n ∈ p.ledger.fetched, ∀ m,
      Relation.ReflTransGen (Parent P.ndn S) n m →
        p.ledger.hasRecord P (P.ndn.toUri m) = true := by
  have hp := h.pulls hpos hsmall
  exact ⟨hp.stack_eq_nil h.pullable hnone, fun n hn m hpath =>
    hp.hasRecord_of_reached h.pullable hnone (hp.asked n hn) hpath⟩

/-- **The pull ends.** Any sequence of answers has at most so many. Where the set is closed under
parents and each of its packets can be delivered, there can be one more as long as an Interest is
outstanding. -/
theorem pull_ends (hnum : P.config.precedingRecordNum < 2 ^ 31)
    (h : Pulled P start s₀ S times p) {run : ℕ → Puller σ} (hrun : run 0 = p)
    {k : ℕ} (hanswers : ∀ i < k, AnswerStep P s₀ S times (run i) (run (i + 1))) :
    k ≤ p.outstanding.length + P.config.precedingRecordNum * S.card ∧
      (ParentClosed P s₀ S →
        (∀ d ∈ S, ∃ amb, Delivery P s₀ S (fun _ => true) times amb d) →
        (∀ n ∈ p.outstanding, n ∈ P.ndn.fullName '' S) →
        (run k).outstanding ≠ [] → ∃ q, AnswerStep P s₀ S times (run k) q) := by
  have hgenesis := (h.genesis hpos hsmall).genesis
  have hpulls : ∀ i ≤ k, Pulling P s₀ S times (run i) := by
    intro i hi
    induction i with
    | zero =>
        rw [hrun]
        exact h.pulls hpos hsmall
    | succ i ih =>
        exact (PullStep.answer (hanswers i (by omega))).pulls hpos hsmall hgenesis h.pullable
          h.timely (ih (by omega))
  refine ⟨?_, fun hclosed hserved hout hne => ?_⟩
  · have hfinite : (P.ndn.fullName '' (S : Set Data)).Finite := S.finite_toSet.image _
    have hle := Pull.answers_le hfinite (fun i => (run i).view P) (k := k)
      fun i hi => (hanswers i hi).answer hpos hsmall hgenesis h.pullable h.timely hnum
        (hpulls i hi.le).steady
    have hmissing : (Pull.missing (P.ndn.fullName '' S) ((run 0).view P)).ncard ≤ S.card := by
      refine (Set.ncard_le_ncard Set.sdiff_subset hfinite).trans ?_
      rw [← Set.ncard_coe_finset S]
      exact Set.ncard_image_le S.finite_toSet
    have hmul := Nat.mul_le_mul_left P.config.precedingRecordNum hmissing
    have hleft : Pull.left (P.ndn.fullName '' S) P.config.precedingRecordNum ((run 0).view P)
        = p.outstanding.length + P.config.precedingRecordNum
          * (Pull.missing (P.ndn.fullName '' S) ((run 0).view P)).ncard := by
      rw [← hrun]
      rfl
    omega
  · -- what is asked for stays in the set
    have hasked : ∀ i ≤ k, ∀ n ∈ (run i).outstanding, n ∈ P.ndn.fullName '' S := by
      intro i hi
      induction i with
      | zero =>
          rw [hrun]
          exact hout
      | succ i ih =>
          exact (hanswers i (by omega)).outstanding_subset h.pullable hclosed
            (hpulls i (by omega)) (ih (by omega))
    obtain ⟨n, hn⟩ := List.exists_mem_of_ne_nil _ hne
    obtain ⟨d, hd, rfl⟩ := hasked k le_rfl n hn
    obtain ⟨amb, hdelivery⟩ := hserved d hd
    exact ⟨_, amb, d, hdelivery, hn, rfl⟩

end Pulled

/-! ## Two ledgers -/

/-- Of the names in a sync Interest without certificate records each is seen or is asked for. -/
theorem onSyncNames_reaches {s : LedgerImpl σ} {tailNames : List Name} {n : Name}
    (hn : n ∈ tailNames) :
    s.seenRecord P n = true ∨ n ∈ (onSyncNames P [] tailNames s).fetched := by
  by_cases hseen : s.seenRecord P n = true
  · exact Or.inl hseen
  right
  have hunseen : n ∈ unseenRecords P s tailNames := List.mem_filter.2 ⟨hn, by simp [hseen]⟩
  have hfetched : n ∈ (fetchAll (unseenRecords P s tailNames) (s.emit .replyCancelled)).fetched := by
    rw [fetchAll_fetched]
    exact List.mem_append_left _ (List.mem_reverse.2 hunseen)
  have hcerts : unseenCerts P s [] = [] := rfl
  simp only [onSyncNames, hcerts, if_true]
  split_ifs
  · exact hfetched
  · exact hfetched

/-- `hasRecord` reads the name. -/
theorem hasRecord_ofUri {s : LedgerImpl σ} (recordName : Bytes) :
    s.hasRecord P (P.ndn.toUri (P.ndn.ofUri recordName)) = s.hasRecord P recordName := by
  rw [hasRecord, hasRecord, P.ndn.ofUri_toUri]

/-- **One sync Interest is enough.** A ledger receives a sync Interest of another one, and later
nothing is outstanding: then it has all the records that the other one had. -/
theorem replicas_converge (hposP : 1 ≤ P.config.confirmWeight) (hsmallP : P.config.SmallWeights)
    (hposQ : 1 ≤ Q.config.confirmWeight) (hsmallQ : Q.config.SmallWeights) (hndn : P.ndn = Q.ndn)
    {s₀ : LedgerImpl σ} {t₀ : LedgerImpl τ} {a : Puller σ} {b c : Puller τ}
    (ha : Pulled P start s₀ S times a) (hb : Pulled Q start' t₀ S times' b) {interest : Interest}
    (hverified : Q.certManager.verifyInterest b.ledger.certManager interest = .ok true)
    (hparameters : interest.applicationParameters
      = syncParameters a.ledger.lastCertRecords (frontier a.ledger))
    (hsize : (syncParameters a.ledger.lastCertRecords (frontier a.ledger)).length < 2 ^ 64)
    (hrun : PullRun Q t₀ S times' (b.call Q (.onLedgerSyncRequest amb interest)) c)
    (hnone : c.outstanding = []) (recordName : Bytes)
    (hhas : a.ledger.hasRecord P recordName = true) : c.ledger.hasRecord Q recordName = true := by
  have hpulls := ha.pulls hposP hsmallP
  have hgenesis := (ha.genesis hposP hsmallP).genesis
  have hstarted := hb.genesis hposQ hsmallQ
  have hstep : PullStep Q t₀ S times' b (b.call Q (.onLedgerSyncRequest amb interest)) :=
    PullStep.call trivial
  have hasked := hb.trans (Relation.ReflTransGen.single hstep)
  have hc := hasked.trans hrun
  -- the record is an ancestor of one that the Interest names
  rw [← hasRecord_ofUri] at hhas ⊢
  obtain ⟨f, hf, hpath⟩ := hpulls.steady.covered hgenesis ha.pullable _ hhas
  have hparent := Relation.ReflTransGen.mono
    (fun _ _ h => hpulls.steady.parent_of_pointsTo hgenesis h) _ _ hpath
  -- that one is seen or asked for
  have hledger : (b.call Q (.onLedgerSyncRequest amb interest)).ledger
      = onSyncNames Q [] (frontier a.ledger) b.ledger := by
    rw [ha.noCerts.holds] at hparameters hsize
    exact congrArg Prod.fst (onLedgerSyncRequest_eq hverified hparameters hsize)
  have hreached : ((b.call Q (.onLedgerSyncRequest amb interest)).view Q).Reached f := by
    rcases onSyncNames_reaches (P := Q) (s := b.ledger) hf with hseen | hfetched
    · have hb' := hb.pulls hposQ hsmallQ
      have hview := (hstep.pullStep hposQ hsmallQ hstarted.genesis hb.pullable hb.timely
        hb'.steady).2.1
      exact hview.reached (Or.inl (Or.inl (hb'.steady.arriving.seenRecord_iff.1 hseen)))
    · rw [← hledger] at hfetched
      exact (hasked.pulls hposQ hsmallQ).asked f hfetched
  have hlater := (hrun.pulls hposQ hsmallQ hstarted.genesis hb.pullable hb.timely
    (hasked.pulls hposQ hsmallQ)).2 f hreached
  rw [hndn] at hparent
  exact (hc.pulls hposQ hsmallQ).hasRecord_of_reached hc.pullable hnone hlater hparent

/-! ## A child before its parent -/

/-- The pointers of a packet. -/
def pointersOfData (ndn : Ndn) (d : Data) : List Name :=
  match Record.ofData ndn d with
  | .ok record => record.recordPointers
  | .error _ => []

/-- The place of a name in the order of creation. -/
def place (n : Name) : Nat := (Sample.genesis :: Sample.twoPackets.map Sample.ndn.fullName).idxOf n

theorem mem_parentAndChild_parent : parentCall.2 ∈ parentAndChild :=
  List.mem_toFinset.2 List.mem_cons_self

theorem mem_parentAndChild_child : childCall.2 ∈ parentAndChild :=
  List.mem_toFinset.2 (List.mem_cons_of_mem _ List.mem_cons_self)

/-- The ledger starts, and both packets pass its checks. Their names have no digest, and their
pointers go back in the order of creation and are of the set or in the tail. -/
theorem ready_parentAndChild :
    (construct twoProducerPeer Sample.ambient Backend.empty ()).2 = .ok () ∧
      (∀ d ∈ parentAndChild, checkSyntaxValidityOfRecord twoProducerPeer Sample.ambient d
        twoProducerStart = .ok true) ∧
      (∀ d ∈ parentAndChild, RecordName.hasImplicitDigest d.name = false) ∧
      (∀ d ∈ parentAndChild, ∀ p ∈ pointersOfData Sample.ndn d,
        place p < place (Sample.ndn.fullName d)) ∧
      ∀ d ∈ parentAndChild, ∀ p ∈ pointersOfData Sample.ndn d,
        (∃ d ∈ parentAndChild, Sample.ndn.fullName d = p) ∨
          (twoProducerStart.tailRecords[p]?).isSome = true := by
  decide +kernel

theorem pullable_parentAndChild :
    Pullable twoProducerPeer twoProducerStart.certManager parentAndChild := by
  obtain ⟨_, _, hnames, hpointers, _⟩ := ready_parentAndChild
  have hplace : ∀ n p, Parent Sample.ndn parentAndChild n p → place p < place n := by
    rintro n p ⟨d, hd, rfl, record, hdec, hp⟩
    refine hpointers d hd p ?_
    rw [pointersOfData, hdec]
    exact hp
  exact ⟨endorsable_parentAndChild, hnames, Dag.Acyclic.of_rank hplace⟩

/-- Both can be delivered at time zero. -/
theorem delivery_parentAndChild {d : Data} (hd : d ∈ parentAndChild) :
    Delivery twoProducerPeer twoProducerStart parentAndChild (fun _ => true) [0] Sample.ambient
      d := by
  obtain ⟨_, hchecked, _⟩ := ready_parentAndChild
  exact ⟨hd, List.mem_cons_self, hchecked d hd, fun _ => rfl, fun _ => rfl⟩

/-- A ledger that hears of some names in a sync Interest. -/
def heardOf (certNames tailNames : List Name) : Puller Unit :=
  Puller.call twoProducerPeer
    (.onLedgerSyncRequest Sample.ambient ⟨[], syncParameters certNames tailNames, []⟩)
    ⟨twoProducerStart, []⟩

/-- Its Interest for the child is answered, and then the one for the parent. -/
def childAnswered (p : Puller Unit) : Puller Unit :=
  p.answer twoProducerPeer Sample.ambient childCall.2

def bothAnswered (p : Puller Unit) : Puller Unit :=
  (childAnswered p).answer twoProducerPeer Sample.ambient parentCall.2

/-- The name of the child. -/
def childName : Name := Sample.ndn.fullName childCall.2

theorem answerStep_childAnswered {p : Puller Unit} (h : childName ∈ p.outstanding) :
    AnswerStep twoProducerPeer twoProducerStart parentAndChild [0] p (childAnswered p) :=
  ⟨Sample.ambient, childCall.2, delivery_parentAndChild mem_parentAndChild_child, h, rfl⟩

theorem answerStep_bothAnswered {p : Puller Unit}
    (h : Sample.ndn.fullName parentCall.2 ∈ (childAnswered p).outstanding) :
    AnswerStep twoProducerPeer twoProducerStart parentAndChild [0] (childAnswered p)
      (bothAnswered p) :=
  ⟨Sample.ambient, parentCall.2, delivery_parentAndChild mem_parentAndChild_parent, h, rfl⟩

theorem pulled_start : Pulled twoProducerPeer Sample.ambient twoProducerStart parentAndChild [0]
    ⟨twoProducerStart, []⟩ where
  writes _ := rfl
  started := ⟨(), Outcome.eq_of_returns ready_parentAndChild.1⟩
  time := List.mem_cons_self
  timely := by
    intro t ht t' ht'
    rw [List.mem_singleton.1 ht, List.mem_singleton.1 ht']
    decide
  pullable := pullable_parentAndChild
  run := Relation.ReflTransGen.refl

theorem pulled_heardOf (certNames tailNames : List Name) :
    Pulled twoProducerPeer Sample.ambient twoProducerStart parentAndChild [0]
      (heardOf certNames tailNames) :=
  pulled_start.trans (Relation.ReflTransGen.single (PullStep.call trivial))

/-- The child is asked for, then its parent, and then nothing is left; a new ledger that hears of
the frontier does the same. -/
theorem outstanding_parentAndChild :
    let p := heardOf [] [childName]
    let a := (bothAnswered p).ledger
    let q := heardOf a.lastCertRecords (frontier a)
    (childName ∈ p.outstanding ∧
      (∀ n ∈ p.outstanding, ∃ d ∈ parentAndChild, Sample.ndn.fullName d = n) ∧
      Sample.ndn.fullName parentCall.2 ∈ (childAnswered p).outstanding ∧
      (bothAnswered p).outstanding = []) ∧
    (syncParameters a.lastCertRecords (frontier a)).length < 2 ^ 64 ∧
    childName ∈ q.outstanding ∧
      Sample.ndn.fullName parentCall.2 ∈ (childAnswered q).outstanding ∧
      (bothAnswered q).outstanding = [] := by
  decide +kernel

/-- The ledger that has heard of the child and has pulled both. -/
theorem pulled_bothAnswered :
    Pulled twoProducerPeer Sample.ambient twoProducerStart parentAndChild [0]
      (bothAnswered (heardOf [] [childName])) := by
  obtain ⟨⟨hchildAsked, _, hparentAsked, _⟩, _⟩ := outstanding_parentAndChild
  have hchild := answerStep_childAnswered hchildAsked
  have hparent := answerStep_bothAnswered hparentAsked
  exact (pulled_heardOf [] [childName]).trans
    ((Relation.ReflTransGen.single (PullStep.answer hchild)).tail (PullStep.answer hparent))

theorem pull_completes_parentAndChild :
    (bothAnswered (heardOf [] [childName])).ledger.syncStack = [] ∧
      ∀ n ∈ (bothAnswered (heardOf [] [childName])).ledger.fetched, ∀ m,
        Relation.ReflTransGen (Parent Sample.ndn parentAndChild) n m →
          (bothAnswered (heardOf [] [childName])).ledger.hasRecord twoProducerPeer
            (Sample.ndn.toUri m) = true := by
  obtain ⟨⟨_, _, _, hnone⟩, _⟩ := outstanding_parentAndChild
  exact pull_completes (by decide) (Sample.smallWeights (by decide) (by decide))
    pulled_bothAnswered hnone

/-- From the Interest for the child on there are two answers, and both packets can be delivered. -/
theorem pull_ends_parentAndChild :
    2 ≤ (heardOf [] [childName]).outstanding.length
        + twoProducerPeer.config.precedingRecordNum * parentAndChild.card ∧
      ((bothAnswered (heardOf [] [childName])).outstanding ≠ [] →
        ∃ q, AnswerStep twoProducerPeer twoProducerStart parentAndChild [0]
          (bothAnswered (heardOf [] [childName])) q) := by
  obtain ⟨⟨hchildAsked, hnamed, hparentAsked, _⟩, _⟩ := outstanding_parentAndChild
  have hclosed : ParentClosed twoProducerPeer twoProducerStart parentAndChild := by
    obtain ⟨_, _, _, _, hpointers⟩ := ready_parentAndChild
    rintro n p ⟨d, hd, rfl, record, hdec, hp⟩
    refine (hpointers d hd p ?_).imp_right Option.isSome_iff_exists.1
    rw [pointersOfData, show Record.ofData Sample.ndn d = .ok record from hdec]
    exact hp
  have hserved : ∀ d ∈ parentAndChild, ∃ amb, Delivery twoProducerPeer twoProducerStart
      parentAndChild (fun _ => true) [0] amb d :=
    fun d hd => ⟨Sample.ambient, delivery_parentAndChild hd⟩
  let run : ℕ → Puller Unit
    | 0 => heardOf [] [childName]
    | 1 => childAnswered (heardOf [] [childName])
    | _ => bothAnswered (heardOf [] [childName])
  have hanswers : ∀ i < 2, AnswerStep twoProducerPeer twoProducerStart parentAndChild [0]
      (run i) (run (i + 1)) := by
    intro i hi
    match i, hi with
    | 0, _ => exact answerStep_childAnswered hchildAsked
    | 1, _ => exact answerStep_bothAnswered hparentAsked
  obtain ⟨hbound, hprogress⟩ := pull_ends (by decide)
    (Sample.smallWeights (by decide) (by decide)) (by decide) (pulled_heardOf [] [childName]) rfl
    hanswers
  exact ⟨hbound, hprogress hclosed hserved hnamed⟩

/-- The ledger that has pulled both sends a sync Interest to a new one, which pulls both then. -/
theorem replicas_converge_parentAndChild :
    let a := bothAnswered (heardOf [] [childName])
    let c := bothAnswered (heardOf a.ledger.lastCertRecords (frontier a.ledger))
    ∀ recordName, a.ledger.hasRecord twoProducerPeer recordName = true →
      c.ledger.hasRecord twoProducerPeer recordName = true := by
  intro a c
  obtain ⟨_, hsize, hchildAsked, hparentAsked, hnone⟩ := outstanding_parentAndChild
  have hchild : AnswerStep twoProducerPeer twoProducerStart parentAndChild [0]
      (heardOf a.ledger.lastCertRecords (frontier a.ledger))
      (childAnswered (heardOf a.ledger.lastCertRecords (frontier a.ledger))) :=
    answerStep_childAnswered hchildAsked
  have hparent : AnswerStep twoProducerPeer twoProducerStart parentAndChild [0]
      (childAnswered (heardOf a.ledger.lastCertRecords (frontier a.ledger))) c :=
    answerStep_bothAnswered hparentAsked
  exact replicas_converge (P := twoProducerPeer) (by decide)
    (Sample.smallWeights (by decide) (by decide)) (by decide)
    (Sample.smallWeights (by decide) (by decide)) rfl pulled_bothAnswered pulled_start rfl rfl hsize
    ((Relation.ReflTransGen.single (PullStep.answer hchild)).tail (PullStep.answer hparent)) hnone

end LedgerImpl

end DLedger
