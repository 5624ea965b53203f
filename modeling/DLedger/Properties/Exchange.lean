import DLedger.Properties.Encoding
import DLedger.Properties.Fetching

set_option autoImplicit false

/-! # One sync Interest

What a ledger puts into a sync Interest and what another one does on it: it fetches the certificate
records that it has not seen and, when there are none, the other records that it has not seen. When
a record that the other one still names has successors here, a sync Interest of its own is due.
-/

namespace DLedger

open Tlv (Bytes Block)

/-- Whether an event schedules the reply to a sync Interest or cancels it. -/
def Event.reply? : Event → Option Bool
  | .replyCancelled => some false
  | .replyScheduled => some true
  | _ => none

namespace LedgerImpl

variable {σ : Type} {P : Peer σ} {s : LedgerImpl σ}

/-- The application parameters of a sync Interest, as `sendSyncInterest` builds them. -/
def syncParameters (certNames tailNames : List Name) : Bytes :=
  Tlv.encodeAll (certNames.map KeyLocator.wireEncode ++ tailNames.map Name.wireEncode)

/-- Each of these names is fetched, in order. -/
def fetchAll (names : List Name) (s : LedgerImpl σ) : LedgerImpl σ :=
  names.foldl (fun s n => fetchRecord n s) s

/-- A name is that of a certificate record that is not seen. -/
def isUnseenCert (P : Peer σ) (s : LedgerImpl σ) (n : Name) : Bool :=
  decide (RecordName.check n = .ok ()) &&
    (decide (RecordName.getRecordType n = .certificateRecord) && !s.seenRecord P n)

def unseenCerts (P : Peer σ) (s : LedgerImpl σ) (certNames : List Name) : List Name :=
  certNames.filter (isUnseenCert P s)

def unseenRecords (P : Peer σ) (s : LedgerImpl σ) (tailNames : List Name) : List Name :=
  tailNames.filter fun n => !s.seenRecord P n

/-- A record is in the tail and no record of another producer is on it. -/
def isTailing (s : LedgerImpl σ) (n : Name) : Bool :=
  (s.tailRecords[n]?).any fun state => state.refSet.card == 0

/-- A record is seen and is not tailing any more. -/
def isBehind (P : Peer σ) (s : LedgerImpl σ) (n : Name) : Bool :=
  !isTailing s n && s.seenRecord P n

/-- What a verified sync Interest with these names makes a ledger do. -/
def onSyncNames (P : Peer σ) (certNames tailNames : List Name) (s : LedgerImpl σ) :
    LedgerImpl σ :=
  let s' := fetchAll (unseenCerts P s certNames) (s.emit .replyCancelled)
  if unseenCerts P s certNames = [] then
    let s' := fetchAll (unseenRecords P s tailNames) s'
    if tailNames.any (isBehind P s) then s'.emit .replyScheduled else s'
  else s'

/-! ## The loop over the parameters -/

/-- What is asked for makes no difference to what is seen. -/
@[simp] theorem fetchRecord_isUnseenCert (m : Name) :
    isUnseenCert P (fetchRecord m s) = isUnseenCert P s := rfl

@[simp] theorem fetchRecord_seenRecord (m : Name) :
    (fetchRecord m s).seenRecord P = s.seenRecord P := rfl

@[simp] theorem fetchRecord_isBehind (m : Name) :
    isBehind P (fetchRecord m s) = isBehind P s := rfl

/-- A key locator is a name of a certificate record. -/
theorem onSyncItem_certName {n : Name} (hsize : (KeyLocator.wireEncode n).value.length < 2 ^ 64)
    (flags : SyncFlags) :
    onSyncItem P (KeyLocator.wireEncode n) (s, flags)
      = (if isUnseenCert P s n then (fetchRecord n s, { flags with isCertPending := true })
          else (s, flags), .ok ()) := by
  have htype : (KeyLocator.wireEncode n).type = KeyLocator.keyLocatorType := rfl
  simp only [onSyncItem, if_pos htype, onSyncCertificate, KeyLocator.getName_wireEncode hsize]
  cases hname : RecordName.ofName n with
  | error e =>
      have hcheck : RecordName.check n ≠ .ok () := by
        intro hcheck
        rw [RecordName.ofName_of_check hcheck] at hname
        cases hname
      simp [isUnseenCert, hcheck]
  | ok certName =>
      have hcheck := RecordName.check_of_ofName hname
      simp [isUnseenCert, hcheck, RecordName.ofName_eq_ok.1 hname]

theorem certLoop_eq {certNames : List Name}
    (hsize : ∀ n ∈ certNames, (KeyLocator.wireEncode n).value.length < 2 ^ 64)
    (flags : SyncFlags) :
    Outcome.forEach (onSyncItem P) (certNames.map KeyLocator.wireEncode) (s, flags)
      = ((fetchAll (unseenCerts P s certNames) s,
          { flags with
            isCertPending := flags.isCertPending || !(unseenCerts P s certNames).isEmpty }),
        .ok ()) := by
  induction certNames generalizing s flags with
  | nil => simp [unseenCerts, fetchAll]
  | cons n certNames ih =>
      have hrest := fun m hm => hsize m (List.mem_cons_of_mem n hm)
      rw [List.map_cons, Outcome.forEach_cons_ok (onSyncItem_certName
        (hsize n List.mem_cons_self) flags)]
      by_cases hunseen : isUnseenCert P s n = true
      · rw [if_pos hunseen, ih hrest]
        simp [unseenCerts, hunseen, fetchAll]
      · rw [if_neg hunseen, ih hrest]
        simp [unseenCerts, hunseen]

theorem type_recordName (n : Name) : (Name.wireEncode n).type ≠ KeyLocator.keyLocatorType := by
  show Name.nameType ≠ KeyLocator.keyLocatorType
  decide

theorem isTailing_seen {n : Name} (h : isTailing s n = true) : s.seenRecord P n = true := by
  obtain ⟨t, ht, _⟩ := (Option.any_eq_true _ _).1 h
  exact seenRecord_iff.2 (Or.inl ⟨t, ht⟩)

/-- Any other item is a name of a record. -/
theorem onSyncItem_recordName {n : Name} (hsize : (Name.wireEncode n).value.length < 2 ^ 64)
    {flags : SyncFlags} (hflag : flags.isCertPending = false) :
    onSyncItem P (Name.wireEncode n) (s, flags)
      = (if isTailing s n then (s, flags)
          else if s.seenRecord P n then (s, { flags with shouldSendSync := true })
          else (fetchRecord n s, flags), .ok ()) := by
  simp only [onSyncItem, if_neg (type_recordName n), hflag, Name.wireDecode_wireEncode n hsize, isTailing,
    Bool.false_eq_true, if_false]
  split_ifs <;> rfl

theorem nameLoop_eq {tailNames : List Name}
    (hsize : ∀ n ∈ tailNames, (Name.wireEncode n).value.length < 2 ^ 64) (flags : SyncFlags)
    (hflag : flags.isCertPending = false) :
    Outcome.forEach (onSyncItem P) (tailNames.map Name.wireEncode) (s, flags)
      = ((fetchAll (unseenRecords P s tailNames) s,
          { flags with shouldSendSync := flags.shouldSendSync || tailNames.any (isBehind P s) }),
        .ok ()) := by
  induction tailNames generalizing s flags with
  | nil => simp [unseenRecords, fetchAll]
  | cons n tailNames ih =>
      have hrest := fun m hm => hsize m (List.mem_cons_of_mem n hm)
      rw [List.map_cons, Outcome.forEach_cons_ok (onSyncItem_recordName
        (hsize n List.mem_cons_self) hflag)]
      by_cases htailing : isTailing s n = true
      · have hseen : s.seenRecord P n = true := isTailing_seen htailing
        rw [if_pos htailing, ih hrest flags hflag]
        simp [unseenRecords, isBehind, htailing, hseen]
      rw [if_neg htailing]
      by_cases hseen : s.seenRecord P n = true
      · have hflag' : ({ flags with shouldSendSync := true } : SyncFlags).isCertPending = false :=
          hflag
        rw [if_pos hseen, ih hrest _ hflag']
        simp [unseenRecords, isBehind, htailing, hseen]
      · rw [if_neg hseen, ih hrest flags hflag]
        simp [unseenRecords, isBehind, htailing, hseen, fetchAll]

/-- Behind a certificate record that is fetched the other items are not read. -/
theorem nameLoop_pending {tailNames : List Name} {flags : SyncFlags}
    (hflag : flags.isCertPending = true) :
    Outcome.forEach (onSyncItem P) (tailNames.map Name.wireEncode) (s, flags)
      = ((s, flags), .ok ()) := by
  induction tailNames with
  | nil => rfl
  | cons n tailNames ih =>
      have hskip : onSyncItem P (Name.wireEncode n) (s, flags) = ((s, flags), .ok ()) := by
        rw [onSyncItem, if_neg (type_recordName n), if_pos hflag]
      rw [List.map_cons, Outcome.forEach_cons_ok hskip, ih]

/-! ## The whole Interest -/

/-- **A verified sync Interest does what its names say.** The parameters are written as blocks and
are read again; the call returns, and it changes nothing but what is sent. -/
theorem onLedgerSyncRequest_eq {interest : Interest} {certNames tailNames : List Name}
    (hverified : P.certManager.verifyInterest s.certManager interest = .ok true)
    (hparameters : interest.applicationParameters = syncParameters certNames tailNames)
    (hsize : (syncParameters certNames tailNames).length < 2 ^ 64) :
    onLedgerSyncRequest P interest s = (onSyncNames P certNames tailNames s, .ok ()) := by
  have hblock : ∀ b ∈ certNames.map KeyLocator.wireEncode ++ tailNames.map Name.wireEncode,
      b.value.length < 2 ^ 64 := fun b hb =>
    lt_of_le_of_lt (b.value_length_le.trans (Tlv.encode_length_le_encodeAll hb)) hsize
  have hcerts : ∀ n ∈ certNames, (KeyLocator.wireEncode n).value.length < 2 ^ 64 := fun n hn =>
    hblock _ (List.mem_append_left _ (List.mem_map_of_mem hn))
  have hnames : ∀ n ∈ tailNames, (Name.wireEncode n).value.length < 2 ^ 64 := fun n hn =>
    hblock _ (List.mem_append_right _ (List.mem_map_of_mem hn))
  have hparse : Tlv.parse interest.applicationParameters
      = some (certNames.map KeyLocator.wireEncode ++ tailNames.map Name.wireEncode) :=
    hparameters ▸ Tlv.parse_encodeAll _ hsize
  have hloop := certLoop_eq (P := P) (s := s.emit .replyCancelled) hcerts {}
  have hsame : unseenCerts P (s.emit .replyCancelled) certNames = unseenCerts P s certNames := rfl
  rw [hsame] at hloop
  simp only [onLedgerSyncRequest, hverified, hparse, Outcome.forEach_append_ok hloop, onSyncNames]
  by_cases hcert : unseenCerts P s certNames = []
  · -- nothing has been fetched yet, and the names are read
    have hnamed := nameLoop_eq (P := P) (s := s.emit .replyCancelled) hnames {} rfl
    have hbehind : isBehind P (s.emit .replyCancelled) = isBehind P s := rfl
    have hunseen : unseenRecords P (s.emit .replyCancelled) tailNames = unseenRecords P s tailNames :=
      rfl
    rw [hbehind, hunseen] at hnamed
    simp only [hcert, List.isEmpty_nil, Bool.not_true, Bool.or_false, fetchAll, List.foldl_nil]
      at hnamed ⊢
    rw [hnamed]
    simp only [Bool.false_or, if_true]
  · have hpending : ({ isCertPending := false || !(unseenCerts P s certNames).isEmpty } :
        SyncFlags).isCertPending = true := by
      simpa using hcert
    rw [nameLoop_pending hpending, if_neg hcert]
    rfl

theorem fetchAll_eq (names : List Name) (s : LedgerImpl σ) :
    fetchAll names s = { s with log := (names.map Event.fetch).reverse ++ s.log } := by
  induction names generalizing s with
  | nil => rfl
  | cons n names ih =>
      have hcons : fetchAll (n :: names) s = fetchAll names (fetchRecord n s) := rfl
      rw [hcons, ih, List.map_cons, List.reverse_cons, List.append_assoc]
      rfl

theorem fetchAll_fetched (names : List Name) (s : LedgerImpl σ) :
    (fetchAll names s).fetched = names.reverse ++ s.fetched := by
  rw [fetchAll_eq, fetched, List.filterMap_append, ← List.map_reverse, List.filterMap_map]
  congr 1
  exact List.filterMap_some

/-! ## What comes of it -/

/-- Whether a reply was scheduled and not cancelled since. -/
def replyDue (s : LedgerImpl σ) : Bool := (s.log.findSome? Event.reply?).getD false

theorem replyDue_fetchAll (names : List Name) (s : LedgerImpl σ) :
    replyDue (fetchAll names s) = replyDue s := by
  induction names generalizing s with
  | nil => rfl
  | cons n names ih => exact ih (fetchRecord n s)

/-- **One sync Interest**, of any lists of names. The call returns, and nothing but the log changes;
it fetches the certificate records that are not seen, each once and in order, or where there are
none the other records that are not seen; a reply is due exactly where it has read the other names
and one of them is behind. -/
theorem sync_exchange {interest : Interest} {certNames tailNames : List Name}
    (hverified : P.certManager.verifyInterest s.certManager interest = .ok true)
    (hparameters : interest.applicationParameters = syncParameters certNames tailNames)
    (hsize : (syncParameters certNames tailNames).length < 2 ^ 64) :
    ∃ s', onLedgerSyncRequest P interest s = (s', .ok ()) ∧ s' = { s with log := s'.log } ∧
      s'.fetched = (if unseenCerts P s certNames = [] then unseenRecords P s tailNames
        else unseenCerts P s certNames).reverse ++ s.fetched ∧
      (replyDue s' = true ↔
        unseenCerts P s certNames = [] ∧ ∃ n ∈ tailNames, isBehind P s n = true) := by
  refine ⟨_, onLedgerSyncRequest_eq hverified hparameters hsize, ?_⟩
  have hcancelled : (s.emit .replyCancelled).fetched = s.fetched := rfl
  have hnone : replyDue (s.emit .replyCancelled) = false := rfl
  unfold onSyncNames
  by_cases hcert : unseenCerts P s certNames = []
  · simp only [hcert, if_true, true_and]
    have hnil : fetchAll [] (s.emit .replyCancelled) = s.emit .replyCancelled := rfl
    rw [hnil]
    have hbehind : (tailNames.any (isBehind P s) = true) ↔ ∃ n ∈ tailNames, isBehind P s n = true :=
      List.any_eq_true
    rw [← hbehind]
    split_ifs with hany
    · refine ⟨by rw [fetchAll_eq]; rfl, ?_, ?_⟩
      · exact (fetchAll_fetched _ _).trans (by rw [hcancelled])
      · exact ⟨fun _ => hany, fun _ => rfl⟩
    · refine ⟨by rw [fetchAll_eq]; rfl, (fetchAll_fetched _ _).trans (by rw [hcancelled]), ?_⟩
      rw [replyDue_fetchAll, hnone]
      simp [hany]
  · simp only [hcert, if_false, false_and, iff_false, Bool.not_eq_true]
    refine ⟨by rw [fetchAll_eq]; rfl, (fetchAll_fetched _ _).trans (by rw [hcancelled]), ?_⟩
    rw [replyDue_fetchAll, hnone]

/-- While a certificate record is fetched, another record that is named is not. -/
theorem sync_exchange_certificate :
    let P := Sample.peer (Sample.config 1 5 1)
    let s := (construct P Sample.ambient Backend.empty ()).1
    let cert := Sample.ndn.fullName (Sample.certificatePacket 65 99 [Sample.genesis])
    let name := Sample.ndn.fullName (Sample.packet 97 0 [Sample.genesis])
    ∃ s', onLedgerSyncRequest P ⟨[], syncParameters [cert] [name], []⟩ s = (s', .ok ()) ∧
      s'.fetched = [cert] ∧ replyDue s' = false := by
  intro P s cert name
  have hparameters : (⟨[], syncParameters [cert] [name], []⟩ : Interest).applicationParameters
      = syncParameters [cert] [name] := rfl
  obtain ⟨s', hrun, _, hfetched, hreply⟩ :=
    sync_exchange (P := P) (s := s) rfl hparameters (by decide +kernel)
  have hcerts : unseenCerts P s [cert] = [cert] := by decide +kernel
  have hnothing : s.fetched = [] := by decide +kernel
  rw [hcerts] at hfetched hreply
  refine ⟨s', hrun, ?_, ?_⟩
  · rw [hfetched, hnothing]
    rfl
  · rw [← Bool.not_eq_true, hreply]
    simp

end LedgerImpl

end DLedger
