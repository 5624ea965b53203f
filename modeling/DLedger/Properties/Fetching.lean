import DLedger.Ledger.Losses
import DLedger.Ledger.Sample

set_option autoImplicit false

/-! # What the waiting records wait for

A peer with the record Interests that it has expressed and that are not answered yet. A record
that is received makes the peer ask for its unseen ancestors at that moment, once. An ancestor
that was seen then can be evicted later, and it is not asked for again.
-/

namespace DLedger

open Tlv (Bytes Block)

namespace LedgerImpl

variable {σ : Type} {P : Peer σ} {amb : Ambient} {s s' : LedgerImpl σ}

/-! ## A peer and its Interests -/

/-- The names that a call asks for, in a ledger before and after it. -/
def expressed (s s' : LedgerImpl σ) : List Name :=
  s'.fetched.take (s'.fetched.length - s.fetched.length)

theorem expressed_eq {new : List Name} (h : s'.fetched = new ++ s.fetched) :
    expressed s s' = new := by
  rw [expressed, h, List.length_append, Nat.add_sub_cancel, List.take_left]

/-- An Interest for a name is answered by a packet of that name or of that full name. -/
def Answers (ndn : Ndn) (name : Name) (data : Data) : Prop :=
  data.name = name ∨ ndn.fullName data = name

/-- One call of a run, with the name of the Interest that it answers. -/
structure Turn (σ : Type) where
  before : LedgerImpl σ
  call : Call
  answered : Option Name
  after : LedgerImpl σ

/-- The runs in which packets only come as answers to Interests: the calls so far, latest first,
the ledger and the Interests that are outstanding. -/
inductive FetchRun (P : Peer σ) (db : Backend) (certManager : σ)
    (allowed : LedgerImpl σ → Call → Prop) : List (Turn σ) → LedgerImpl σ → List Name → Prop where
  | start {amb : Ambient} {s : LedgerImpl σ} (h : construct P amb db certManager = (s, .ok ())) :
      FetchRun P db certManager allowed [] s []
  | call {turns : List (Turn σ)} {s : LedgerImpl σ} {outstanding : List Name} {c : Call}
      (h : FetchRun P db certManager allowed turns s outstanding) (hc : allowed s c)
      (hother : ∀ amb data, c ≠ .onFetchedRecord amb data) :
      FetchRun P db certManager allowed (⟨s, c, none, (LedgerImpl.call P c s).1⟩ :: turns)
        (LedgerImpl.call P c s).1 (expressed s (LedgerImpl.call P c s).1 ++ outstanding)
  | answer {turns : List (Turn σ)} {s : LedgerImpl σ} {outstanding : List Name} {amb : Ambient}
      {name : Name} {data : Data} (h : FetchRun P db certManager allowed turns s outstanding)
      (hc : allowed s (.onFetchedRecord amb data)) (hname : name ∈ outstanding)
      (hdata : Answers P.ndn name data) :
      FetchRun P db certManager allowed
        (⟨s, .onFetchedRecord amb data, some name, (onFetchedRecord P amb data s).1⟩ :: turns)
        (onFetchedRecord P amb data s).1
        (expressed s (onFetchedRecord P amb data s).1 ++ outstanding.erase name)

/-- Created records are fresh, received packets pass the syntax check, and every call returns. -/
def Proper (P : Peer σ) (s : LedgerImpl σ) (c : Call) : Prop :=
  ReturnsNew P s c ∧
    ∀ amb data, c = .onFetchedRecord amb data → checkSyntaxValidityOfRecord P amb data s = .ok true

/-- A proper call is a sequence of moves. -/
theorem Proper.moves {c : Call} (h : Proper P s c) :
    Moves P c.ambient s (LedgerImpl.call P c s).1 :=
  h.1.1.moves (Outcome.eq_of_returns h.1.2)

/-- The calls since a record of a name has come to wait, the one in which it did included. -/
def sinceArrival (P : Peer σ) (n : Name) (turns : List (Turn σ)) : List (Turn σ) :=
  turns.takeWhile fun turn => waits P turn.after n

theorem sinceArrival_cons {n : Name} {turn : Turn σ} {turns : List (Turn σ)}
    (h : waits P turn.after n = true) :
    sinceArrival P n (turn :: turns) = turn :: sinceArrival P n turns := by
  rw [sinceArrival, List.takeWhile_cons, if_pos h]
  rfl

/-! ## What happens to an ancestor -/

/-- The packet that answers the Interest for a name is not the record of that full name. -/
def Turn.Misnamed (P : Peer σ) (p : Name) (turn : Turn σ) : Prop :=
  turn.answered = some p ∧ ∃ amb data, turn.call = .onFetchedRecord amb data ∧
    P.ndn.fullName data ≠ p

/-- It is a genesis record, which `onFetchedRecord` refuses. -/
def Turn.Genesis (P : Peer σ) (p : Name) (turn : Turn σ) : Prop :=
  turn.answered = some p ∧ ∃ amb data record, turn.call = .onFetchedRecord amb data ∧
    Record.ofData P.ndn data = .ok record ∧ record.type = .genesisRecord

def Turn.Refuses (P : Peer σ) (p : Name) (turn : Turn σ) : Prop :=
  turn.Misnamed P p ∨ turn.Genesis P p

/-- The call loses a name that was seen or waited to a timeout. -/
def Turn.TimesOut (P : Peer σ) (p : Name) (turn : Turn σ) : Prop :=
  LosesBy P turn.call.ambient (TimedOut P turn.call.ambient p) p turn.before turn.after

/-- The call erases a deep record that is not stored. -/
def Turn.ErasesDeep (P : Peer σ) (p : Name) (turn : Turn σ) : Prop :=
  LosesBy P turn.call.ambient (ErasedDeep P turn.call.ambient p) p turn.before turn.after

def Turn.GivesUp (P : Peer σ) (p : Name) (turn : Turn σ) : Prop :=
  turn.Refuses P p ∨ turn.TimesOut P p ∨ turn.ErasesDeep P p

/-- Each ancestor of a waiting record is held or asked for, or it was given up since the record
came to wait. -/
def AncestorsAccounted (P : Peer σ) (turns : List (Turn σ)) (s : LedgerImpl σ)
    (outstanding : List Name) : Prop :=
  ∀ it ∈ s.syncStack, ∀ p ∈ ancestorNames P.ndn it.1, Held P s p ∨ p ∈ outstanding ∨
    ∃ turn ∈ sinceArrival P (it.1.getRecordName P.ndn) turns, turn.GivesUp P p

/-- What a ledger holds before a call, it holds after it, or the call gives it up. -/
theorem Held.turn (hs : LedgerCore P s) {c : Call} (hmoves : Moves P c.ambient s s') {p : Name}
    (hp : Held P s p) (answered : Option Name) :
    Held P s' p ∨ (⟨s, c, answered, s'⟩ : Turn σ).GivesUp P p :=
  (hp.moves hs hmoves).imp_right Or.inr

/-- **Every call keeps the account**: what it asks for becomes outstanding, and what leaves the
outstanding Interests is held or given up. -/
theorem AncestorsAccounted.turn {turns : List (Turn σ)} {outstanding rest : List Name} {c : Call}
    {answered : Option Name} (h : AncestorsAccounted P turns s outstanding) (hs : LedgerCore P s)
    (hmoves : Moves P c.ambient s s') (hasks : Asks P s s')
    (hrest : ∀ p ∈ outstanding, p ∈ rest ∨ Held P s' p ∨
      (⟨s, c, answered, s'⟩ : Turn σ).GivesUp P p) :
    AncestorsAccounted P (⟨s, c, answered, s'⟩ :: turns) s' (expressed s s' ++ rest) := by
  obtain ⟨new, hnew, _, hstack⟩ := hasks
  intro it hit p hp
  rw [expressed_eq hnew, sinceArrival_cons (waits_of_mem hit), List.mem_append]
  -- this call keeps the name or gives it up
  have hnow : Held P s' p ∨ (⟨s, c, answered, s'⟩ : Turn σ).GivesUp P p →
      Held P s' p ∨ (p ∈ new ∨ p ∈ rest) ∨
        ∃ turn ∈ ⟨s, c, answered, s'⟩ :: sinceArrival P (it.1.getRecordName P.ndn) turns,
          turn.GivesUp P p := by
    intro hp
    exact hp.imp_right fun hgiven => Or.inr ⟨_, List.mem_cons_self, hgiven⟩
  rcases hstack it hit with ⟨it', hit', heq⟩ | hfetch
  · rw [← heq] at hp
    rcases h it' hit' p hp with hheld | hout | ⟨turn, hturn, hgiven⟩
    · exact hnow (hheld.turn hs hmoves answered)
    · rcases hrest p hout with hout | hp
      · exact Or.inr (Or.inl (Or.inr hout))
      · exact hnow hp
    · rw [heq] at hturn
      exact Or.inr (Or.inr ⟨turn, List.mem_cons_of_mem _ hturn, hgiven⟩)
  · rcases hfetch p hp with hseen | hmem
    · exact hnow (Held.turn hs hmoves (Or.inl hseen) answered)
    · exact Or.inr (Or.inl (Or.inl hmem))

/-- **A name whose Interest is answered is held, or it is given up in that call.** -/
theorem Proper.held_answered {data : Data} (h : Proper P s (.onFetchedRecord amb data))
    (hs : LedgerCore P s) (name : Name) :
    Held P (onFetchedRecord P amb data s).1 name ∨
      (⟨s, .onFetchedRecord amb data, some name, (onFetchedRecord P amb data s).1⟩ :
        Turn σ).GivesUp P name := by
  have hmoves : Moves P amb s (onFetchedRecord P amb data s).1 := h.moves
  have hchecked := h.2 amb data rfl
  obtain ⟨record, hdec⟩ := checkSyntaxValidityOfRecord_decoded hchecked
  by_cases hfull : P.ndn.fullName data = name
  swap
  · exact Or.inr (Or.inl (Or.inl ⟨rfl, amb, data, rfl, hfull⟩))
  by_cases htype : record.type = .genesisRecord
  · exact Or.inr (Or.inl (Or.inr ⟨rfl, amb, data, record, rfl, hdec, htype⟩))
  subst hfull
  by_cases hheld : Held P s (P.ndn.fullName data)
  · exact hheld.turn (c := .onFetchedRecord amb data) hs hmoves _
  rw [Held, not_or, Bool.not_eq_true, Bool.not_eq_true] at hheld
  have hr : Receivable P amb data record s :=
    ⟨hdec, htype, hchecked, hheld.1, unstacked_of_any (by rw [← waits, hheld.2]; simp)⟩
  -- the record waits, and what the call does then may lose it again
  have hpush : ReceiveMoves P amb (fun _ => True) s (received P amb.now record s) :=
    hr.moves trivial
  have hfirst : Moves P amb s (received P amb.now record s) := hpush.moves
  have hwaits : Held P (received P amb.now record s) (P.ndn.fullName data) :=
    Or.inr (waits_iff.2 ⟨(record, amb.now), List.mem_append_right _ List.mem_cons_self,
      Record.getRecordName_of_ofData hdec⟩)
  have hlast : Moves P amb (received P amb.now record s) (onFetchedRecord P amb data s).1 := by
    have hreturns := h.1.2
    rw [CallReturns, LedgerImpl.call] at hreturns
    rw [hr.onFetchedRecord_eq] at hreturns ⊢
    split_ifs at hreturns ⊢
    · have hscan : ReceiveMoves P amb (fun _ => True) (received P amb.now record s) _ :=
        rescanStack_moves (Outcome.eq_of_returns hreturns)
      exact hscan.moves
    · exact Relation.ReflTransGen.refl
  refine (hwaits.moves (hs.moves hfirst) hlast).imp_right fun hlost => Or.inr ?_
  exact hlost.imp (LosesBy.head hfirst) (LosesBy.head hfirst)

section Runs

variable {db : Backend} {certManager : σ} {turns : List (Turn σ)} {outstanding : List Name}

theorem FetchRun.core (h : FetchRun P db certManager (Proper P) turns s outstanding) :
    LedgerCore P s := by
  induction h with
  | start hstart => exact (construct_core hstart).1
  | call _ hc _ ih => exact ih.moves hc.moves
  | @answer _ _ _ amb _ data _ hc _ _ ih =>
      have hmoves : Moves P amb _ (onFetchedRecord P amb data _).1 := hc.moves
      exact ih.moves hmoves

theorem FetchRun.accounted (h : FetchRun P db certManager (Proper P) turns s outstanding) :
    AncestorsAccounted P turns s outstanding := by
  induction h with
  | @start amb s hstart =>
      intro it hit
      rw [(construct_core hstart).2] at hit
      exact absurd hit List.not_mem_nil
  | @call turns s outstanding c h hc _ ih =>
      exact ih.turn h.core hc.moves (call_asks c s) fun p hp => Or.inl hp
  | @answer turns s outstanding amb name data h hc _ _ ih =>
      have hmoves : Moves P (Call.onFetchedRecord amb data).ambient s
          (onFetchedRecord P amb data s).1 := hc.moves
      refine ih.turn h.core hmoves (onFetchedRecord_asks data s) fun p hp => ?_
      by_cases heq : p = name
      · subst heq
        exact Or.inr (hc.held_answered h.core p)
      · exact Or.inl ((List.mem_erase_of_ne heq).2 hp)

def Turn.Writes (turn : Turn σ) : Prop := Ambient.Writes turn.call.ambient

/-- Every write of a run succeeds, and records are confirmed before they are deep. -/
def WritesDeep (P : Peer σ) (turns : List (Turn σ)) : Prop :=
  P.config.Confirms ∧ ∀ turn ∈ turns, turn.Writes

theorem WritesDeep.tail {turn : Turn σ} (h : WritesDeep P (turn :: turns)) : WritesDeep P turns :=
  ⟨h.1, fun turn' hturn => h.2 turn' (List.mem_cons_of_mem _ hturn)⟩

theorem WritesDeep.head {turn : Turn σ} (h : WritesDeep P (turn :: turns)) :
    turn.Writes :=
  h.2 turn List.mem_cons_self

/-- Then what is heavy is stored, and no call of the run loses a deep record. -/
theorem FetchRun.heavyStored (h : FetchRun P db certManager (Proper P) turns s outstanding)
    (hwrites : WritesDeep P turns) :
    HeavyStored P s ∧ ∀ turn ∈ turns, ∀ p, ¬ turn.ErasesDeep P p := by
  induction h with
  | start hstart =>
      exact ⟨construct_heavyStored hwrites.1.1 hstart, fun turn hturn => nomatch hturn⟩
  | @call turns s outstanding c h hc _ ih =>
      obtain ⟨hheavy, hbefore⟩ := ih hwrites.tail
      refine ⟨hheavy.moves hwrites.1.1 h.core hwrites.head hc.moves, fun turn hturn p => ?_⟩
      rcases List.mem_cons.1 hturn with rfl | hturn
      · exact hheavy.not_losesBy h.core hwrites.1 hwrites.head
      · exact hbefore turn hturn p
  | @answer turns s outstanding amb name data h hc _ _ ih =>
      obtain ⟨hheavy, hbefore⟩ := ih hwrites.tail
      have hmoves : Moves P amb s (onFetchedRecord P amb data s).1 := hc.moves
      refine ⟨hheavy.moves hwrites.1.1 h.core hwrites.head hmoves, fun turn hturn p => ?_⟩
      rcases List.mem_cons.1 hturn with rfl | hturn
      · exact hheavy.not_losesBy h.core hwrites.1 hwrites.head
      · exact hbefore turn hturn p

/-- **In every run, an unseen ancestor of a waiting record waits itself, or it is being fetched, or
since the record arrived it was there and a call lost it to a timeout.** An answer that is not the
record of the name or is a genesis record is not taken up, and an ancestor that is deep can be lost
where writes fail or records are not confirmed before they are deep. -/
theorem ancestors_fetched (h : FetchRun P db certManager (Proper P) turns s outstanding)
    {it : Record × Int} (hit : it ∈ s.syncStack) {p : Name} (hp : p ∈ ancestorNames P.ndn it.1)
    (hunseen : s.seenRecord P p = false) :
    waits P s p = true ∨ p ∈ outstanding ∨
      ∃ turn ∈ sinceArrival P (it.1.getRecordName P.ndn) turns,
        turn.TimesOut P p ∨ turn.Refuses P p ∨ turn.ErasesDeep P p ∧ ¬ WritesDeep P turns := by
  rcases h.accounted it hit p hp with hheld | hout | ⟨turn, hturn, hgiven⟩
  · refine Or.inl (hheld.resolve_left fun hseen => ?_)
    rw [hunseen] at hseen
    cases hseen
  · exact Or.inr (Or.inl hout)
  · refine Or.inr (Or.inr ⟨turn, hturn, ?_⟩)
    rcases hgiven with hrefused | htime | hdeep
    · exact Or.inr (Or.inl hrefused)
    · exact Or.inl htime
    · refine Or.inr (Or.inr ⟨hdeep, fun hwrites => ?_⟩)
      exact (h.heavyStored hwrites).2 turn ((List.takeWhile_sublist _).subset hturn) p hdeep

end Runs

/-! ## Runs that are written out -/

/-- A sync Interest for one record. -/
def syncInterestFor (name : Name) : Interest := ⟨[], (Name.wireEncode name).encode, []⟩

/-- A peer with its calls so far and its outstanding Interests. -/
structure Fetcher (σ : Type) where
  turns : List (Turn σ)
  ledger : LedgerImpl σ
  outstanding : List Name

namespace Fetcher

/-- At a time, a name comes in a sync Interest, or a packet answers the Interest for it. -/
structure Step where
  now : Int
  name : Name
  data : Option Data

def Step.call (amb : Ambient) (x : Step) : Call :=
  match x.data with
  | none => .onLedgerSyncRequest { amb with now := x.now } (syncInterestFor x.name)
  | some data => .onFetchedRecord { amb with now := x.now } data

def Step.answered (x : Step) : Option Name := x.data.map fun _ => x.name

/-- What the call makes of the peer. -/
def step (P : Peer σ) (amb : Ambient) (f : Fetcher σ) (x : Step) : Fetcher σ :=
  let after := (LedgerImpl.call P (x.call amb) f.ledger).1
  { turns := ⟨f.ledger, x.call amb, x.answered, after⟩ :: f.turns
    ledger := after
    outstanding := expressed f.ledger after ++ match x.data with
      | none => f.outstanding
      | some _ => f.outstanding.erase x.name }

/-- Whether the call is proper, and the packet answers an outstanding Interest. -/
def isProper (P : Peer σ) (amb : Ambient) (f : Fetcher σ) (x : Step) : Bool :=
  (LedgerImpl.call P (x.call amb) f.ledger).2 == .ok () &&
    match x.data with
    | none => true
    | some data => f.outstanding.contains x.name &&
        (data.name == x.name || P.ndn.fullName data == x.name) &&
        checkSyntaxValidityOfRecord P { amb with now := x.now } data f.ledger == .ok true

/-- Each step is proper in the state that the ones before it have made. -/
def areProper (P : Peer σ) (amb : Ambient) : List Step → Fetcher σ → Bool
  | [], _ => true
  | x :: steps, f => f.isProper P amb x && areProper P amb steps (f.step P amb x)

/-- A run of a peer whose calls are among these steps. -/
structure Run (P : Peer σ) (amb : Ambient) (db : Backend) (certManager : σ) (steps : List Step)
    (f : Fetcher σ) : Prop where
  run : FetchRun P db certManager (Proper P) f.turns f.ledger f.outstanding
  among : ∀ turn ∈ f.turns, ∃ x ∈ steps, turn.call = x.call amb ∧ turn.answered = x.answered

variable {db : Backend} {certManager : σ} {steps rest : List Step} {f : Fetcher σ}
  {turn : Turn σ} {x : Step}

theorem Run.step (h : Run P amb db certManager steps f) (hx : x ∈ steps)
    (hproper : f.isProper P amb x = true) : Run P amb db certManager steps (f.step P amb x) := by
  have hamong : ∀ turn ∈ (f.step P amb x).turns, ∃ y ∈ steps, turn.call = y.call amb ∧
      turn.answered = y.answered := by
    intro turn hturn
    rcases List.mem_cons.1 hturn with rfl | hturn
    · exact ⟨x, hx, rfl, rfl⟩
    · exact h.among turn hturn
  refine ⟨?_, hamong⟩
  obtain ⟨now, name, _ | data⟩ := x
  · simp only [isProper, Step.call, Bool.and_true, beq_iff_eq] at hproper
    exact h.run.call ⟨⟨trivial, hproper⟩, fun _ _ heq => nomatch heq⟩ fun _ _ heq => nomatch heq
  · simp only [isProper, Step.call, Bool.and_eq_true, Bool.or_eq_true, List.contains_iff_mem,
      beq_iff_eq] at hproper
    obtain ⟨hreturns, ⟨hname, hanswers⟩, hchecked⟩ := hproper
    refine h.run.answer ⟨⟨trivial, hreturns⟩, fun _ _ heq => ?_⟩ hname hanswers
    cases heq
    exact hchecked

theorem Run.foldl (h : Run P amb db certManager steps f) (hrest : ∀ x ∈ rest, x ∈ steps)
    (hproper : areProper P amb rest f = true) :
    Run P amb db certManager steps (rest.foldl (Fetcher.step P amb) f) := by
  induction rest generalizing f with
  | nil => exact h
  | cons x rest ih =>
      rw [areProper, Bool.and_eq_true] at hproper
      exact ih (h.step (hrest x List.mem_cons_self) hproper.1)
        (fun y hy => hrest y (List.mem_cons_of_mem _ hy)) hproper.2

end Fetcher

/-! ## Ancestors that are not fetched -/

/-- Each unseen ancestor of a waiting record waits itself or is asked for. -/
def AllFetching (P : Peer σ) (s : LedgerImpl σ) (outstanding : List Name) : Prop :=
  ∀ it ∈ s.syncStack, ∀ p ∈ ancestorNames P.ndn it.1, s.seenRecord P p = false →
    waits P s p = true ∨ p ∈ outstanding

instance {outstanding : List Name} : Decidable (AllFetching P s outstanding) :=
  inferInstanceAs <| Decidable <| ∀ it ∈ s.syncStack, ∀ p ∈ ancestorNames P.ndn it.1,
    s.seenRecord P p = false → waits P s p = true ∨ p ∈ outstanding

/-- No clock shows less than zero or more than this. -/
def Turn.Within (timeout : Int) (turn : Turn σ) : Prop :=
  0 ≤ turn.call.ambient.now ∧ turn.call.ambient.now ≤ timeout

/-- Runs whose calls are all like this can leave an ancestor that is not fetched. -/
def LeavesUnfetched (P : Peer Unit) (kind : Turn Unit → Prop) : Prop :=
  ¬ ∀ turns s outstanding, FetchRun P Backend.empty () (Proper P) turns s outstanding →
    (∀ turn ∈ turns, kind turn) → AllFetching P s outstanding

namespace Fetcher

variable {turn : Turn σ} {x : Step}

theorem Step.ambient_call (amb : Ambient) (x : Step) :
    (x.call amb).ambient = { amb with now := x.now } := by
  obtain ⟨now, name, _ | data⟩ := x <;> rfl

theorem Step.within {timeout : Int} (h : turn.call = x.call amb)
    (htime : 0 ≤ x.now ∧ x.now ≤ timeout) : turn.Within timeout := by
  rw [Turn.Within, h, x.ambient_call]
  exact htime

theorem Step.writes (h : turn.call = x.call amb) (hput : Ambient.Writes amb) : turn.Writes := by
  rw [Turn.Writes, h, x.ambient_call]
  exact hput

/-- The packet is the record of the name. -/
def Step.named (ndn : Ndn) (x : Step) : Bool := x.data.all fun data => ndn.fullName data == x.name

/-- The packet is no genesis record. -/
def Step.proceeds (x : Step) : Bool :=
  x.data.all fun data => RecordName.getRecordType data.name != .genesisRecord

theorem Step.not_misnamed (h : turn.call = x.call amb) (ha : turn.answered = x.answered)
    (hnamed : x.named P.ndn = true) (p : Name) : ¬ turn.Misnamed P p := by
  rintro ⟨hp, amb', data', hcall, hne⟩
  obtain ⟨now, name, _ | data⟩ := x
  · cases ha.symm.trans hp
  · cases h.symm.trans hcall
    cases ha.symm.trans hp
    exact hne (beq_iff_eq.1 hnamed)

theorem Step.not_genesis (h : turn.call = x.call amb) (ha : turn.answered = x.answered)
    (hproceeds : x.proceeds = true) (p : Name) : ¬ turn.Genesis P p := by
  rintro ⟨hp, amb', data', record, hcall, hdec, htype⟩
  obtain ⟨now, name, _ | data⟩ := x
  · cases ha.symm.trans hp
  · cases h.symm.trans hcall
    rw [(Record.ofData_eq_ok hdec).2.2.1] at htype
    exact bne_iff_ne.1 hproceeds htype

theorem Step.not_refuses (h : turn.call = x.call amb) (ha : turn.answered = x.answered)
    (hnamed : x.named P.ndn = true) (hproceeds : x.proceeds = true) (p : Name) :
    ¬ turn.Refuses P p := by
  rintro (hmisnamed | hgenesis)
  · exact Step.not_misnamed h ha hnamed p hmisnamed
  · exact Step.not_genesis h ha hproceeds p hgenesis

/-- The small ledger when it has been started. -/
def started (P : Peer Unit) : Fetcher Unit :=
  ⟨[], (construct P Sample.ambient Backend.empty ()).1, []⟩

theorem run_started {P : Peer Unit} (amb : Ambient) (steps : List Step)
    (hstart : (construct P Sample.ambient Backend.empty ()).2 = .ok ())
    (hproper : areProper P amb steps (started P) = true) :
    Run P amb Backend.empty () steps (steps.foldl (Fetcher.step P amb) (started P)) := by
  have hrun : Run P amb Backend.empty () steps (started P) :=
    ⟨FetchRun.start (Outcome.eq_of_returns hstart), fun turn hturn => nomatch hturn⟩
  exact hrun.foldl (fun x hx => hx) hproper

end Fetcher

/-- The ledger starts, each step is proper, and an ancestor is not fetched after the last one. -/
def Unfetched (P : Peer Unit) (amb : Ambient) (steps : List Fetcher.Step) : Prop :=
  (construct P Sample.ambient Backend.empty ()).2 = .ok () ∧
    Fetcher.areProper P amb steps (Fetcher.started P) = true ∧
    ¬ AllFetching P (steps.foldl (Fetcher.step P amb) (Fetcher.started P)).ledger
      (steps.foldl (Fetcher.step P amb) (Fetcher.started P)).outstanding

instance (P : Peer Unit) (amb : Ambient) (steps : List Fetcher.Step) :
    Decidable (Unfetched P amb steps) :=
  inferInstanceAs (Decidable (_ ∧ _ ∧ _))

theorem Unfetched.leaves {P : Peer Unit} {kind : Turn Unit → Prop} {steps : List Fetcher.Step}
    (h : Unfetched P amb steps)
    (hkind : ∀ turn : Turn Unit, ∀ x ∈ steps, turn.call = x.call amb →
      turn.answered = x.answered → kind turn) : LeavesUnfetched P kind := by
  obtain ⟨hstart, hproper, hnot⟩ := h
  intro hall
  have hrun := Fetcher.run_started amb steps hstart hproper
  refine hnot (hall _ _ _ hrun.run fun turn hturn => ?_)
  obtain ⟨x, hx, hcall, hanswered⟩ := hrun.among turn hturn
  exact hkind turn x hx hcall hanswered

/-- Times, writes and answers are as they should be where those of the steps are. -/
theorem Unfetched.leaves_plain {P : Peer Unit} {steps : List Fetcher.Step}
    (h : Unfetched P amb steps) (timeout : Int) (hput : Ambient.Writes amb)
    (hsteps : ∀ x ∈ steps, (0 ≤ x.now ∧ x.now ≤ timeout) ∧ x.named P.ndn = true ∧
      x.proceeds = true) :
    LeavesUnfetched P fun turn =>
      turn.Within timeout ∧ turn.Writes ∧ ∀ p, ¬ turn.Refuses P p := by
  refine h.leaves fun turn x hx hcall ha => ?_
  obtain ⟨htime, hnamed, hproceeds⟩ := hsteps x hx
  exact ⟨Fetcher.Step.within hcall htime, Fetcher.Step.writes hcall hput,
    Fetcher.Step.not_refuses hcall ha hnamed hproceeds⟩

/-- A peer with two genesis records, on which every record has two pointers. -/
def twoPointers (contributionWeight confirmWeight : Nat)
    (ancestorFetchTimeout blockConfirmationTimeout : Int) : Peer Unit :=
  Sample.peer { Sample.config 2 contributionWeight confirmWeight with
    numGenesisBlock := 2
    ancestorFetchTimeout := ancestorFetchTimeout
    blockConfirmationTimeout := blockConfirmationTimeout }

def geneses : List Name := [Sample.genesis, Sample.secondGenesis]

/-- A packet whose full name comes in a sync Interest and that then answers the Interest for it. -/
def delivered (now : Int) (data : Data) : List Fetcher.Step :=
  [⟨now, Sample.ndn.fullName data, none⟩, ⟨now, Sample.ndn.fullName data, some data⟩]

/-- A record on the genesis records, and an unrelated one. -/
def parent : Data := Sample.packet 98 0 geneses

def unrelated : Data := Sample.packet 99 0 geneses

/-- The name of a record that never comes. -/
def absentName : Name := Sample.ndn.fullName (Sample.packet 117 0 geneses)

/-- A record that waits for that one. -/
def orphan (p : Name) : Data := Sample.packet 114 0 [p, absentName]

/-- The parent comes before the orphan, and the unrelated record after it. -/
def evictingSteps : List Fetcher.Step :=
  delivered 0 parent ++ delivered 600 (orphan (Sample.ndn.fullName parent)) ++
    delivered 1500 unrelated

/-- A parent that waits too, and is answered while it does. -/
def waitingParent : Data := Sample.packet 98 0 [Sample.genesis, absentName]

def waitingSteps : List Fetcher.Step :=
  delivered 0 waitingParent ++ delivered 600 (orphan (Sample.ndn.fullName waitingParent)) ++
    ⟨700, Sample.ndn.fullName waitingParent, some waitingParent⟩ :: delivered 1500 unrelated

/-- A parent whose name is of the genesis type. -/
def falseGenesis : Data :=
  { Sample.packet 103 0 geneses with
    name := [.generic [103], .generic (recordTypeToString .genesisRecord), .generic [120],
      .ofTimestamp 0] }

def genesisSteps : List Fetcher.Step :=
  delivered 0 (orphan (Sample.ndn.fullName falseGenesis)) ++
    [⟨0, Sample.ndn.fullName falseGenesis, some falseGenesis⟩]

/-- The parent by its name without the digest. -/
def misnamedSteps : List Fetcher.Step :=
  delivered 0 (orphan parent.name) ++ [⟨0, parent.name, some parent⟩]

/-- The parent is a genesis record, which the unrelated record makes deep. -/
def deepSteps : List Fetcher.Step :=
  delivered 0 (orphan Sample.genesis) ++ delivered 0 unrelated

/-- Nothing is written. -/
def failingWrites : Ambient := { Sample.ambient with putOk := fun _ => false }

/-- Records are confirmed long before they are deep; the timeouts differ. -/
abbrev evictingPeer : Peer Unit := twoPointers 5 1 5000 1000

abbrev droppingPeer : Peer Unit := twoPointers 5 1 1000 5000

/-- Records are deep when they are confirmed, or before. -/
abbrev deepPeer (confirmWeight : Nat) : Peer Unit := twoPointers 0 confirmWeight 1000 1000

/-- After the steps that evict the parent. -/
def evicted : Fetcher Unit :=
  evictingSteps.foldl (Fetcher.step evictingPeer Sample.ambient) (Fetcher.started evictingPeer)

theorem unfetched_evictingSteps : Unfetched evictingPeer Sample.ambient evictingSteps := by
  decide +kernel

/-- The orphan waits, its parent is neither there nor asked for, and no Interest for the parent was
answered since the orphan arrived. -/
theorem evicted_evaluated :
    (∃ it ∈ evicted.ledger.syncStack,
        it.1.getRecordName Sample.ndn
          = Sample.ndn.fullName (orphan (Sample.ndn.fullName parent)) ∧
        Sample.ndn.fullName parent ∈ ancestorNames Sample.ndn it.1) ∧
      evicted.ledger.seenRecord evictingPeer (Sample.ndn.fullName parent) = false ∧
      waits evictingPeer evicted.ledger (Sample.ndn.fullName parent) = false ∧
      Sample.ndn.fullName parent ∉ evicted.outstanding ∧
      ∀ turn ∈ sinceArrival evictingPeer
          (Sample.ndn.fullName (orphan (Sample.ndn.fullName parent))) evicted.turns,
        turn.answered ≠ some (Sample.ndn.fullName parent) := by
  decide +kernel

/-- **So the unrelated record has evicted the parent.** -/
theorem ancestors_fetched_evictingSteps :
    ∃ turn ∈ sinceArrival evictingPeer
        (Sample.ndn.fullName (orphan (Sample.ndn.fullName parent))) evicted.turns,
      turn.TimesOut evictingPeer (Sample.ndn.fullName parent) := by
  obtain ⟨⟨it, hit, hname, hp⟩, hunseen, hwaits, hout, hanswered⟩ := evicted_evaluated
  obtain ⟨hstart, hproper, _⟩ := unfetched_evictingSteps
  have hrun : Fetcher.Run evictingPeer Sample.ambient Backend.empty () evictingSteps evicted :=
    Fetcher.run_started Sample.ambient evictingSteps hstart hproper
  have hwrites : WritesDeep evictingPeer evicted.turns := by
    refine ⟨⟨by decide, by decide⟩, fun turn hturn => ?_⟩
    obtain ⟨x, _, hcall, _⟩ := hrun.among turn hturn
    exact Fetcher.Step.writes hcall fun _ => rfl
  rcases ancestors_fetched hrun.run hit hp hunseen with hwaiting | hmem | ⟨turn, hturn, hlost⟩
  · rw [hwaits] at hwaiting
    cases hwaiting
  · exact absurd hmem hout
  · rw [show evictingPeer.ndn = Sample.ndn from rfl, hname] at hturn
    refine ⟨turn, hturn, ?_⟩
    rcases hlost with htime | (hmisnamed | hgenesis) | hdeep
    · exact htime
    · exact absurd hmisnamed.1 (hanswered turn hturn)
    · exact absurd hgenesis.1 (hanswered turn hturn)
    · exact absurd hwrites hdeep.2

/-- **An ancestor can be left unfetched**: where an unrelated record evicts it; where it waits for
too long itself, and cannot be evicted; and even where no time passes, if it is answered by a genesis
record, or is a name without the digest, or is erased as deep after a write has failed, or before it
can be confirmed. -/
theorem not_allFetching :
    (¬ ∀ turns s outstanding, FetchRun evictingPeer Backend.empty () (Proper evictingPeer) turns s
      outstanding → AllFetching evictingPeer s outstanding) ∧
    (LeavesUnfetched evictingPeer fun turn =>
      turn.Within evictingPeer.config.ancestorFetchTimeout ∧ turn.Writes ∧
        ∀ p, ¬ turn.Refuses evictingPeer p) ∧
    (LeavesUnfetched droppingPeer fun turn =>
      turn.Within droppingPeer.config.blockConfirmationTimeout ∧ turn.Writes ∧
        ∀ p, ¬ turn.Refuses droppingPeer p) ∧
    (LeavesUnfetched evictingPeer fun turn =>
      turn.Within 0 ∧ turn.Writes ∧ ∀ p, ¬ turn.Misnamed evictingPeer p) ∧
    (LeavesUnfetched evictingPeer fun turn =>
      turn.Within 0 ∧ turn.Writes ∧ ∀ p, ¬ turn.Genesis evictingPeer p) ∧
    ((deepPeer 1).config.Confirms ∧ LeavesUnfetched (deepPeer 1) fun turn =>
      turn.Within 0 ∧ ∀ p, ¬ turn.Refuses (deepPeer 1) p) ∧
    LeavesUnfetched (deepPeer 0) fun turn =>
      turn.Within 0 ∧ turn.Writes ∧ ∀ p, ¬ turn.Refuses (deepPeer 0) p := by
  have hwrites : Ambient.Writes Sample.ambient := fun _ => rfl
  have hevicted := unfetched_evictingSteps.leaves_plain evictingPeer.config.ancestorFetchTimeout
    hwrites (by decide +kernel)
  refine ⟨fun hall => hevicted fun turns s outstanding hrun _ => hall turns s outstanding hrun,
    hevicted, ?_, ?_, ?_, ⟨⟨by decide, by decide⟩, ?_⟩, ?_⟩
  · have hdropped : Unfetched droppingPeer Sample.ambient waitingSteps := by decide +kernel
    exact hdropped.leaves_plain _ hwrites (by decide +kernel)
  · have hrefused : Unfetched evictingPeer Sample.ambient genesisSteps := by decide +kernel
    have hsteps : ∀ x ∈ genesisSteps, (0 ≤ x.now ∧ x.now ≤ 0) ∧ x.named Sample.ndn = true := by
      decide +kernel
    refine hrefused.leaves fun turn x hx hcall ha => ?_
    obtain ⟨htime, hnamed⟩ := hsteps x hx
    exact ⟨Fetcher.Step.within hcall htime, Fetcher.Step.writes hcall hwrites,
      Fetcher.Step.not_misnamed hcall ha hnamed⟩
  · have hrefused : Unfetched evictingPeer Sample.ambient misnamedSteps := by decide +kernel
    have hsteps : ∀ x ∈ misnamedSteps, (0 ≤ x.now ∧ x.now ≤ 0) ∧ x.proceeds = true := by
      decide +kernel
    refine hrefused.leaves fun turn x hx hcall ha => ?_
    obtain ⟨htime, hproceeds⟩ := hsteps x hx
    exact ⟨Fetcher.Step.within hcall htime, Fetcher.Step.writes hcall hwrites,
      Fetcher.Step.not_genesis hcall ha hproceeds⟩
  · have herased : Unfetched (deepPeer 1) failingWrites deepSteps := by decide +kernel
    have hsteps : ∀ x ∈ deepSteps, (0 ≤ x.now ∧ x.now ≤ 0) ∧ x.named Sample.ndn = true ∧
        x.proceeds = true := by
      decide +kernel
    refine herased.leaves fun turn x hx hcall ha => ?_
    obtain ⟨htime, hnamed, hproceeds⟩ := hsteps x hx
    exact ⟨Fetcher.Step.within hcall htime, Fetcher.Step.not_refuses hcall ha hnamed hproceeds⟩
  · have herased : Unfetched (deepPeer 0) Sample.ambient deepSteps := by decide +kernel
    exact herased.leaves_plain _ hwrites (by decide +kernel)

end LedgerImpl

end DLedger
