import DLedger.Ledger.Counted
import DLedger.Ledger.Send

set_option autoImplicit false

/-! # Runs in which nothing of a kind expires

A record of a kind, say an endorsed one, is evicted only with an expired record that it reaches
in the tail. Where none of the kind is expired when a call may add records, none expires in the
call: what the call adds is new, and weights only grow.
-/

namespace DLedger

open Tlv (Bytes Block)

namespace LedgerImpl

variable {σ : Type} {P : Peer σ} {amb : Ambient} {s s' : LedgerImpl σ} {record : Record}
  {endorseVerified : Bool} {n : Name} {marked : Finset Name} {names : List Name} {mid : TailMap}
  {kind : Name → Bool → Prop}

/-- A kind of records is given by their names and by whether they are endorsed. -/
def NoneExpired (P : Peer σ) (kind : Name → Bool → Prop) (amb : Ambient) (s : LedgerImpl σ) :
    Prop :=
  ∀ (n : Name) (t : TailingRecordState), s.tailRecords[n]? = some t →
    kind n t.recordEndorseVerified → ¬ Expired P.config amb t

/-- A call that may add records. -/
def Call.Adds : Call → Prop
  | createRecord _ _ => True
  | onFetchedRecord _ _ => True
  | onLedgerSyncRequest _ _ => False
  | onRecordRequest _ _ => False
  | sendSyncInterest _ => False

/-- A call that adds no record, or no tailing record of a kind is expired when it is made. -/
def Unexpired (P : Peer σ) (kind : Name → Bool → Prop) (s : LedgerImpl σ) (c : Call) : Prop :=
  c.Adds → NoneExpired P kind c.ambient s

/-! ## Nothing of the kind expires in a call -/

theorem noneExpired_blank (db : Backend) (certManager : σ) :
    NoneExpired P kind amb (blank db certManager) := by
  intro n t ht
  simp [blank] at ht

theorem NoneExpired.congr (h : NoneExpired P kind amb s) (hsame : SameRecords s s') :
    NoneExpired P kind amb s' := by
  unfold NoneExpired
  rw [hsame.tailRecords]
  exact h

/-- After the walk a record of the kind is not expired. -/
theorem NoneExpired.not_expired (h : NoneExpired P kind amb s)
    (htimeout : 0 ≤ P.config.blockConfirmationTimeout)
    (hadded : Added P amb record endorseVerified n s s' marked names mid) {x : Name}
    {t : TailingRecordState}
    (ht : walked amb record endorseVerified n s.tailRecords.lookup marked x = some t)
    (hkind : kind x t.recordEndorseVerified) : ¬ Expired P.config amb t := by
  rintro ⟨hlight, hlate⟩
  rcases hadded.walked_cases ht with ⟨_, rfl⟩ | ⟨_, u, hu, rfl⟩
  · have hnow : amb.now < amb.now - P.config.blockConfirmationTimeout := hlate
    omega
  · rw [ite_mark_recordEndorseVerified] at hkind
    rw [ite_mark_addedTime] at hlate
    exact h x u hu hkind ⟨lt_of_le_of_lt (card_le_ite_mark _ _ _) hlight, hlate⟩

theorem NoneExpired.added (h : NoneExpired P kind amb s)
    (htimeout : 0 ≤ P.config.blockConfirmationTimeout)
    (hadded : Added P amb record endorseVerified n s s' marked names mid) :
    NoneExpired P kind amb s' :=
  fun _ _ ht hkind => h.not_expired htimeout hadded (hadded.walked_of_tail ht) hkind

/-- **A record of the kind is not evicted**, when in the tail it points only to records of the
kind. -/
theorem NoneExpired.not_evicted (h : NoneExpired P kind amb s)
    (htimeout : 0 ≤ P.config.blockConfirmationTimeout)
    (hadded : Added P amb record endorseVerified n s s' marked names mid)
    (hclosed : ∀ x t y u, mid[x]? = some t → mid[y]? = some u → y ∈ t.record.recordPointers →
      kind x t.recordEndorseVerified → kind y u.recordEndorseVerified) {x : Name}
    {t : TailingRecordState} (ht : mid[x]? = some t) (hkind : kind x t.recordEndorseVerified) :
    ¬ Evicted mid.lookup P.config amb x := by
  intro he
  refine he.induction (motive := fun x t => ¬ kind x t.recordEndorseVerified)
    (fun x t ht hexp hx => ?_) (fun x t y u ht hu hy ih hx => ?_) ht hkind
  · exact h.not_expired htimeout hadded ((hadded.mid_iff x t).1 ht).1 hx hexp
  · exact ih (hclosed x t y u ht hu hy hx)

/-! ## Runs -/

/-- A call that adds no record changes none. -/
theorem call_sameRecords {c : Call} (hc : ¬ c.Adds) (s : LedgerImpl σ) :
    SameRecords s (call P c s).1 := by
  rcases call_cases (P := P) c s with ⟨amb, record, rfl⟩ | ⟨amb, data, rfl⟩ | ⟨events, h⟩
  · exact absurd trivial hc
  · exact absurd trivial hc
  · exact h.sameRecords

section Runs

variable (hpos : 1 ≤ P.config.confirmWeight) (hsmall : P.config.SmallWeights)
  (htimeout : 0 ≤ P.config.blockConfirmationTimeout)
include hpos hsmall htimeout

/-- What the constructor establishes and insertions keep while nothing of the kind expires
holds in every state of such a run. -/
theorem ReachableBy.unexpired_induction {db : Backend} {certManager : σ} {I : LedgerImpl σ → Prop}
    (hstart : ∀ amb s, Ambient.Writes amb → construct P amb db certManager = (s, .ok ()) → I s)
    (hsame : ∀ a b, I a → SameRecords a b → I b)
    (hins : ∀ amb record endorseVerified n a b marked names mid, Ambient.Writes amb →
      TailInv P a → NoneExpired P kind amb a → I a →
      Inserted P amb record endorseVerified n a b marked names mid → I b)
    (h : ReachableBy P db certManager (Unexpired P kind) s) : I s := by
  induction h with
  | start writes h => exact hstart _ _ writes h
  | @step a b c ha admissible unexpired hrun ih =>
      by_cases hadds : c.Adds
      · have hinv := ha.reachable.inv hpos hsmall
        refine (hinv.moves_induction hpos hsmall admissible.writes
          (I := fun s => I s ∧ NoneExpired P kind c.ambient s) ⟨ih, unexpired hadds⟩
          (fun s s' hs hss => ⟨hsame s s' hs.1 hss, hs.2.congr hss⟩) ?_
          (call_moves hpos hsmall hinv admissible hrun)).1
        intro record e n s s' marked names mid hs hI h
        exact ⟨hins _ record e n s s' marked names mid admissible.writes hs.tail hI.2 hI.1 h,
          hI.2.added htimeout h.toAdded⟩
      · have hab := call_sameRecords (P := P) hadds a
        rw [hrun] at hab
        exact hsame a b ih hab

end Runs

end LedgerImpl

end DLedger
