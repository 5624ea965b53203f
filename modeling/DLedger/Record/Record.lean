import DLedger.Config
import DLedger.Record.RecordName

set_option autoImplicit false

/-! # Records

A record carries pointers to preceding records and payload items. It is encoded into the
content of a Data packet as two blocks, the header with the pointers and the body with the
items, and read back from them.
-/

namespace DLedger

open Tlv (Bytes Block)

structure Record where
  /-- `m_data`; `none` is the null pointer of a record that is not built yet. -/
  data : Option Data := none
  type : RecordType := .baseRecord
  uniqueIdentifier : Bytes := []
  recordPointers : List Name := []
  contentItems : List Block := []
deriving DecidableEq

namespace Record

variable (ndn : Ndn)

/-- `T_RecordHeader`. -/
def headerType : Nat := 129
/-- `T_RecordContent`. -/
def contentType : Nat := 130

def getRecordName (r : Record) : Name :=
  match r.data with
  | some d => ndn.fullName d
  | none => []

def addRecordItem (r : Record) (item : Block) : Except Exn Record :=
  if r.data.isSome then .error (.runtimeError "Cannot modify built record")
  else .ok { r with contentItems := r.contentItems ++ [item] }

def addPointer (r : Record) (pointer : Name) : Except Exn Record :=
  if r.data.isSome then .error (.runtimeError "Cannot modify built record")
  else .ok { r with recordPointers := r.recordPointers ++ [pointer] }

/-- A null `m_data` is dereferenced where there is none. -/
def getProducerPrefix (r : Record) : Except Fault Name :=
  match r.data with
  | none => .error .nullDereference
  | some d => ((RecordName.ofName d.name).map
      fun n => RecordName.getProducerPrefix n.name).mapError .thrown

/-- The timestamp of a record name, which its constructor has checked to be one. -/
def getGenerationTimestamp (r : Record) : Except Fault Int :=
  match r.data with
  | none => .error .nullDereference
  | some d => ((RecordName.ofName d.name).map
      fun n => (RecordName.getGenerationTimestamp n.name).getD 0).mapError .thrown

/-! ## Encoding -/

def headerWireEncode (r : Record) : Block :=
  ⟨headerType, Tlv.encodeAll (r.recordPointers.map Name.wireEncode), by decide⟩

def bodyWireEncode (r : Record) : Block :=
  ⟨contentType, Tlv.encodeAll r.contentItems, by decide⟩

/-- The value of the Content block after `wireEncode`. -/
def wireEncode (r : Record) : Except Exn Bytes :=
  let content := Tlv.encodeAll [r.headerWireEncode, r.bodyWireEncode]
  if content.length < 2 ^ 64 then .ok content else .error .badAlloc

/-! ## Decoding -/

/-- `Block::parse` of a value. -/
def parse (value : Bytes) : Except Exn (List Block) :=
  match Tlv.parse value with
  | some blocks => .ok blocks
  | none => .error .ndnError

/-- `Block::get`: the first element of a type. -/
def getElement (type : Nat) (elements : List Block) : Except Exn Block :=
  match elements.find? (fun b => b.type == type) with
  | some b => .ok b
  | none => .error .ndnError

/-- The loop of `headerWireDecode`. `pointer` is the variable it decodes into; when
`Name::wireDecode` throws, the error is printed and what `pointer` holds is pushed. -/
def decodePointers : Name → List Block → Except Exn (List Name)
  | _, [] => .ok []
  | pointer, item :: items =>
      if item.type = Name.nameType then
        let pointer := (Name.wireDecode item).getD (ndn.nameAfterError pointer item)
        (decodePointers pointer items).map (pointer :: ·)
      else .error (.runtimeError "Bad header item type")

def headerWireDecode (content : Bytes) : Except Exn (List Name) := do
  let elements ← parse content
  let header ← getElement headerType elements
  let items ← parse header.value
  decodePointers ndn [] items

def bodyWireDecode (content : Bytes) : Except Exn (List Block) := do
  let elements ← parse content
  let body ← getElement contentType elements
  parse body.value

/-- `Record(const std::shared_ptr<Data>&)`. -/
def ofData (d : Data) : Except Exn Record := do
  let name ← RecordName.ofName d.name
  let pointers ← headerWireDecode ndn d.content
  let items ← bodyWireDecode d.content
  return {
    data := some d
    type := RecordName.getRecordType name.name
    uniqueIdentifier := RecordName.getRecordUniqueIdentifier name.name
    recordPointers := pointers
    contentItems := items }

/-- `checkPointerCount(int numPointers)`, called with a `size_t`. -/
def checkPointerCount (r : Record) (numPointers : Nat) : Except Exn Unit :=
  if r.recordPointers.length ≠ ofInt (toInt numPointers) then
    .error (.runtimeError "Less preceding record than expected")
  else if r.recordPointers.toFinset.card ≠ ofInt (toInt numPointers) then
    .error (.runtimeError "Repeated preceding Records")
  else .ok ()

/-! ## What a decoded record is -/

variable {ndn}

/-- The fields of a record read from a packet. -/
theorem ofData_eq_ok {d : Data} {r : Record} (h : ofData ndn d = .ok r) :
    RecordName.check d.name = .ok () ∧ r.data = some d
      ∧ r.type = RecordName.getRecordType d.name
      ∧ headerWireDecode ndn d.content = .ok r.recordPointers
      ∧ bodyWireDecode d.content = .ok r.contentItems := by
  simp only [ofData, bind, Except.bind, pure, Except.pure] at h
  split at h
  · cases h
  · next name hname =>
    split at h
    · cases h
    · next pointers hp =>
      split at h
      · cases h
      · next items hi =>
        cases h
        have hn := RecordName.ofName_eq_ok.1 hname
        exact ⟨RecordName.check_of_ofName hname, rfl, by rw [hn], hp, hi⟩

theorem getRecordName_of_ofData {d : Data} {r : Record} (h : ofData ndn d = .ok r) :
    r.getRecordName ndn = ndn.fullName d := by
  simp only [getRecordName, (ofData_eq_ok h).2.1]

/-- A record as the ledger keeps it under a full name: what the packet of that full name
decodes to. -/
def Named (ndn : Ndn) (n : Name) (r : Record) : Prop :=
  ∃ d, ndn.fullName d = n ∧ ofData ndn d = .ok r

namespace Named

variable {n : Name} {r : Record}

theorem getRecordName (h : Named ndn n r) : r.getRecordName ndn = n := by
  obtain ⟨d, rfl, hd⟩ := h
  exact getRecordName_of_ofData hd

theorem exists_data (h : Named ndn n r) : ∃ d, r.data = some d ∧ ndn.fullName d = n := by
  obtain ⟨d, hn, hd⟩ := h
  exact ⟨d, (ofData_eq_ok hd).2.1, hn⟩

theorem ofData_eq (h : Named ndn n r) {d : Data} (hd : r.data = some d) :
    ofData ndn d = .ok r ∧ ndn.fullName d = n := by
  obtain ⟨d', hn, hdec⟩ := h
  rw [(ofData_eq_ok hdec).2.1] at hd
  cases hd
  exact ⟨hdec, hn⟩

theorem getProducerPrefix (h : Named ndn n r) (hn : RecordName.check n = .ok ()) :
    r.getProducerPrefix = .ok (RecordName.getProducerPrefix n) := by
  obtain ⟨d, rfl, hd⟩ := h
  obtain ⟨hcheck, hdata, _⟩ := ofData_eq_ok hd
  rw [Record.getProducerPrefix, hdata]
  simp only [RecordName.ofName_of_check hcheck, (RecordName.sameReading_fullName hn).producerPrefix]
  rfl

theorem type_eq (h : Named ndn n r) (hn : RecordName.check n = .ok ()) :
    r.type = RecordName.getRecordType n := by
  obtain ⟨d, rfl, hd⟩ := h
  rw [(ofData_eq_ok hd).2.2.1, (RecordName.sameReading_fullName hn).recordType]

end Named

/-! ## Decoding undoes encoding -/

theorem parse_encodeAll {bs : List Block} (h : (Tlv.encodeAll bs).length < 2 ^ 64) :
    parse (Tlv.encodeAll bs) = .ok bs := by
  rw [parse, Tlv.parse_encodeAll bs h]

theorem decodePointers_wireEncode (pointers : List Name)
    (h : (Tlv.encodeAll (pointers.map Name.wireEncode)).length < 2 ^ 64) :
    ∀ pointer, decodePointers ndn pointer (pointers.map Name.wireEncode) = .ok pointers := by
  induction pointers with
  | nil => intro _; rfl
  | cons n ns ih =>
      intro pointer
      rw [List.map_cons, Tlv.encodeAll_cons, List.length_append] at h
      have hv := (Name.wireEncode n).value_length_le
      have hn : Name.wireDecode (Name.wireEncode n) = some n :=
        Name.wireDecode_wireEncode n (by omega)
      rw [List.map_cons, decodePointers, if_pos (by rfl), hn, Option.getD_some]
      simp only [ih (by omega) n]
      rfl

/-- A record that is encoded has items of less than `2 ^ 64` bytes. -/
theorem items_length_lt {r : Record} {content : Bytes} (h : r.wireEncode = .ok content) :
    (Tlv.encodeAll r.contentItems).length < 2 ^ 64 := by
  unfold wireEncode at h
  by_cases hlen : (Tlv.encodeAll [r.headerWireEncode, r.bodyWireEncode]).length < 2 ^ 64
  · have hbody := Tlv.encode_length_le_encodeAll
      (show r.bodyWireEncode ∈ [r.headerWireEncode, r.bodyWireEncode] by simp)
    exact lt_of_le_of_lt (r.bodyWireEncode.value_length_le.trans hbody) hlen
  · simp only [hlen, if_false, reduceCtorEq] at h

variable (ndn) in
/-- **Decoding the header and the body of an encoded record gives its pointers and its
items back.** -/
theorem decode_wireEncode {r : Record} {content : Bytes} (h : r.wireEncode = .ok content) :
    headerWireDecode ndn content = .ok r.recordPointers
      ∧ bodyWireDecode content = .ok r.contentItems := by
  unfold wireEncode at h
  by_cases hlen : (Tlv.encodeAll [r.headerWireEncode, r.bodyWireEncode]).length < 2 ^ 64
  · simp only [hlen, if_true, Except.ok.injEq] at h
    have hheader := Tlv.encode_length_le_encodeAll
      (show r.headerWireEncode ∈ [r.headerWireEncode, r.bodyWireEncode] by simp)
    have hbody := Tlv.encode_length_le_encodeAll
      (show r.bodyWireEncode ∈ [r.headerWireEncode, r.bodyWireEncode] by simp)
    have hhv := r.headerWireEncode.value_length_le
    have hbv := r.bodyWireEncode.value_length_le
    -- what the whole fits into, each part fits into
    have hparse := parse_encodeAll hlen
    have hgh : getElement headerType [r.headerWireEncode, r.bodyWireEncode]
        = .ok r.headerWireEncode := rfl
    have hgb : getElement contentType [r.headerWireEncode, r.bodyWireEncode]
        = .ok r.bodyWireEncode := rfl
    have hph : parse r.headerWireEncode.value = .ok (r.recordPointers.map Name.wireEncode) :=
      parse_encodeAll (lt_of_le_of_lt (hhv.trans hheader) hlen)
    have hpb : parse r.bodyWireEncode.value = .ok r.contentItems :=
      parse_encodeAll (lt_of_le_of_lt (hbv.trans hbody) hlen)
    subst h
    constructor
    · simp only [headerWireDecode, hparse, hgh, hph, bind, Except.bind]
      exact decodePointers_wireEncode _ (lt_of_le_of_lt (hhv.trans hheader) hlen) _
    · simp only [bodyWireDecode, hparse, hgb, hpb, bind, Except.bind]
  · simp only [hlen, if_false, reduceCtorEq] at h

/-- A packet with a good name that has an encoded record in it decodes. -/
theorem exists_ofData {r : Record} {d : Data} (hname : RecordName.check d.name = .ok ())
    (hcontent : r.wireEncode = .ok d.content) : ∃ r', ofData ndn d = .ok r' := by
  obtain ⟨hheader, hbody⟩ := decode_wireEncode ndn hcontent
  simp only [ofData, RecordName.ofName_of_check hname, hheader, hbody, bind, Except.bind, pure,
    Except.pure]
  exact ⟨_, rfl⟩

end Record

end DLedger
