import DLedger.Ledger.Sample

set_option autoImplicit false

/-! # Records survive their encoding

A record is written as two blocks and read back from them; certificate and revocation records
are rebuilt from the items alone. A certificate record does not look at the names it is given
as previous certificate records, but it is rebuilt only where these are empty or record names.
-/

namespace DLedger

open Tlv (Bytes Block)

/-- The name in a key locator is read back. -/
theorem KeyLocator.getName_wireEncode {n : Name}
    (h : (KeyLocator.wireEncode n).value.length < 2 ^ 64) :
    KeyLocator.getName (KeyLocator.wireEncode n) = some n := by
  have hvalue : (KeyLocator.wireEncode n).value = Tlv.encodeAll [Name.wireEncode n] := by
    simp [KeyLocator.wireEncode]
  have hname : Name.wireDecode (Name.wireEncode n) = some n := by
    refine Name.wireDecode_wireEncode n ?_
    exact lt_of_le_of_lt (Name.wireEncode n).value_length_le h
  have htype : (KeyLocator.wireEncode n).type = keyLocatorType := rfl
  rw [KeyLocator.getName, if_pos htype, hvalue, Tlv.parse_encodeAll _ (hvalue ▸ h)]
  exact hname

/-! ## Certificate records -/

namespace CertificateRecord

/-- The calls that add an item to a certificate record. `addRecordItem` is called with the key
locator of a name, as `createRecord` does. -/
inductive ItemCall where
  | addCertificateItem (certificate : Certificate)
  | addPrevCertPointer (recordName : Name)
  | addRecordItem (recordName : Name)

variable (wireEncode : Certificate → Block)

def perform : ItemCall → CertificateRecord → CertificateRecord × Except Exn Unit
  | .addCertificateItem certificate => CertificateRecord.addCertificateItem wireEncode certificate
  | .addPrevCertPointer recordName => CertificateRecord.addPrevCertPointer recordName
  | .addRecordItem recordName => CertificateRecord.addRecordItem (KeyLocator.wireEncode recordName)

/-- The certificate that a call is given, or the name of a previous certificate record. -/
def ItemCall.certificate? : ItemCall → Option Certificate
  | .addCertificateItem certificate => some certificate
  | _ => none

def ItemCall.prevName? : ItemCall → Option Name
  | .addCertificateItem _ => none
  | .addPrevCertPointer recordName => some recordName
  | .addRecordItem recordName => some recordName

def ItemCall.item : ItemCall → Block
  | .addCertificateItem certificate => wireEncode certificate
  | .addPrevCertPointer recordName => KeyLocator.wireEncode recordName
  | .addRecordItem recordName => KeyLocator.wireEncode recordName

/-- Before a record is built, each call adds its item, and each certificate joins the list. -/
theorem perform_ok (c : ItemCall) {r : CertificateRecord} (h : r.record.data = none) :
    ∃ prevCert, perform wireEncode c r = ({
      record := { r.record with contentItems := r.record.contentItems ++ [c.item wireEncode] }
      certList := r.certList ++ c.certificate?.toList
      prevCert }, .ok ()) := by
  have hadd : ∀ item, r.record.addRecordItem item
      = .ok { r.record with contentItems := r.record.contentItems ++ [item] } := by
    intro item
    simp [Record.addRecordItem, h]
  cases c with
  | addCertificateItem certificate =>
      refine ⟨r.prevCert, ?_⟩
      simp only [perform, CertificateRecord.addCertificateItem, CertificateRecord.addRecordItem,
        hadd, ItemCall.item, ItemCall.certificate?, Option.toList_some]
  | addPrevCertPointer recordName =>
      refine ⟨r.prevCert ++ [recordName], ?_⟩
      simp only [perform, CertificateRecord.addPrevCertPointer, CertificateRecord.addRecordItem,
        hadd, ItemCall.item, ItemCall.certificate?, Option.toList_none, List.append_nil]
  | addRecordItem recordName =>
      refine ⟨r.prevCert, ?_⟩
      simp only [perform, CertificateRecord.addRecordItem, hadd, ItemCall.item,
        ItemCall.certificate?, Option.toList_none, List.append_nil]

theorem forEach_perform (calls : List ItemCall) {r : CertificateRecord}
    (h : r.record.data = none) :
    ∃ prevCert, Outcome.forEach (perform wireEncode) calls r = ({
      record := { r.record with
        contentItems := r.record.contentItems ++ calls.map (ItemCall.item wireEncode) }
      certList := r.certList ++ calls.filterMap ItemCall.certificate?
      prevCert }, .ok ()) := by
  induction calls generalizing r with
  | nil => exact ⟨r.prevCert, by simp⟩
  | cons c calls ih =>
      obtain ⟨prevCert, hc⟩ := perform_ok wireEncode c h
      rw [Outcome.forEach_cons_ok hc]
      obtain ⟨prevCert', hrest⟩ := ih (show ({
        record := { r.record with contentItems := r.record.contentItems ++ [c.item wireEncode] }
        certList := r.certList ++ c.certificate?.toList
        prevCert } : CertificateRecord).record.data = none from h)
      refine ⟨prevCert', hrest.trans ?_⟩
      cases hcert : c.certificate? <;> simp [hcert]

variable {wireEncode} {ndn : Ndn}

/-- The items of the calls are read back as certificates and names. -/
theorem readItems_items {calls : List ItemCall}
    (hcert : ∀ certificate ∈ calls.filterMap ItemCall.certificate?,
      (wireEncode certificate).type ≠ KeyLocator.keyLocatorType ∧
        ndn.decodeCertificate (wireEncode certificate) = some certificate)
    (hsize : (Tlv.encodeAll (calls.map (ItemCall.item wireEncode))).length < 2 ^ 64)
    (hnames : ∀ n ∈ calls.filterMap ItemCall.prevName?, n = [] ∨ RecordName.check n = .ok ()) :
    readItems ndn (calls.map (ItemCall.item wireEncode))
      = .ok (calls.filterMap ItemCall.certificate?, calls.filterMap ItemCall.prevName?) := by
  induction calls with
  | nil => rfl
  | cons c calls ih =>
      rw [List.map_cons, Tlv.encodeAll_cons, List.length_append] at hsize
      have hrest := ih (fun certificate hmem => hcert certificate (by
          rw [List.filterMap_cons]; cases c.certificate? <;> simp [hmem]))
        (by omega)
        (fun n hmem => hnames n (by rw [List.filterMap_cons]; cases c.prevName? <;> simp [hmem]))
      -- two of the three calls append a key locator, and it is read back in one way
      have hlocator : ∀ recordName, c.item wireEncode = KeyLocator.wireEncode recordName →
          (recordName = [] ∨ RecordName.check recordName = .ok ()) →
          readItems ndn (c.item wireEncode :: calls.map (ItemCall.item wireEncode))
            = .ok (calls.filterMap ItemCall.certificate?,
                recordName :: calls.filterMap ItemCall.prevName?) := by
        intro recordName hitem hgood
        have hlen := (KeyLocator.wireEncode recordName).value_length_le
        rw [hitem] at hsize
        have hname := KeyLocator.getName_wireEncode (n := recordName) (by omega)
        rw [hitem, readItems, if_pos (by rfl), hname]
        simp only [hrest, bind, Except.bind, pure, Except.pure]
        by_cases hempty : recordName = []
        · simp [hempty]
        · simp [hempty, hgood.resolve_left hempty]
      cases c with
      | addCertificateItem certificate =>
          obtain ⟨htype, hdec⟩ := hcert certificate (by simp [ItemCall.certificate?])
          rw [List.map_cons]
          simp only [ItemCall.item, readItems, if_neg htype, hdec, hrest, bind, Except.bind, pure,
            Except.pure]
          rfl
      | addPrevCertPointer recordName =>
          rw [List.map_cons, hlocator recordName rfl (hnames recordName (by
            simp [ItemCall.prevName?]))]
          rfl
      | addRecordItem recordName =>
          rw [List.map_cons, hlocator recordName rfl (hnames recordName (by
            simp [ItemCall.prevName?]))]
          rfl

/-- When the items are read, so are those behind the first one, and a key locator names a record
or nothing. -/
theorem readItems_cons_ok {block : Block} {blocks : List Block}
    {items : List Certificate × List Name} (h : readItems ndn (block :: blocks) = .ok items) :
    (∃ rest, readItems ndn blocks = .ok rest) ∧
      (block.type = KeyLocator.keyLocatorType → ∀ n, KeyLocator.getName block = some n →
        n = [] ∨ RecordName.check n = .ok ()) := by
  rw [readItems] at h
  by_cases htype : block.type = KeyLocator.keyLocatorType
  · rw [if_pos htype] at h
    cases hname : KeyLocator.getName block with
    | none => rw [hname] at h; cases h
    | some recordName =>
        rw [hname] at h
        have hgood : recordName = [] ∨ RecordName.check recordName = .ok () := by
          by_cases hempty : recordName = []
          · exact Or.inl hempty
          · cases hcheck : RecordName.check recordName with
            | ok _ => exact Or.inr rfl
            | error e => simp [hempty, hcheck, bind, Except.bind] at h
        refine ⟨?_, fun _ n hn => Option.some.inj hn ▸ hgood⟩
        cases hrest : readItems ndn blocks with
        | ok rest => exact ⟨rest, rfl⟩
        | error e => rcases hgood with rfl | hcheck <;> simp_all [bind, Except.bind]
  · rw [if_neg htype] at h
    refine ⟨?_, fun htype' => absurd htype' htype⟩
    cases hcert : ndn.decodeCertificate block with
    | none => rw [hcert] at h; cases h
    | some cert =>
        cases hrest : readItems ndn blocks with
        | ok rest => exact ⟨rest, rfl⟩
        | error e => simp [hcert, hrest, bind, Except.bind] at h

theorem checked_of_readItems {blocks : List Block} {items : List Certificate × List Name}
    (h : readItems ndn blocks = .ok items) {block : Block} (hmem : block ∈ blocks)
    (htype : block.type = KeyLocator.keyLocatorType) {n : Name}
    (hname : KeyLocator.getName block = some n) : n = [] ∨ RecordName.check n = .ok () := by
  induction blocks generalizing items with
  | nil => cases hmem
  | cons b blocks ih =>
      obtain ⟨⟨rest, hrest⟩, hgood⟩ := readItems_cons_ok h
      rcases List.mem_cons.1 hmem with rfl | hmem
      · exact hgood htype n hname
      · exact ih hrest hmem

variable (wireEncode) in
/-- The item that carries a name. -/
theorem ItemCall.item_of_prevName {c : ItemCall} {n : Name} (h : c.prevName? = some n) :
    c.item wireEncode = KeyLocator.wireEncode n := by
  cases c with
  | addCertificateItem certificate => cases h
  | addPrevCertPointer recordName => cases h; rfl
  | addRecordItem recordName => cases h; rfl

/-- **A certificate record is rebuilt from its decoded record, with the same certificates and the
names of the same previous certificate records in the same order, exactly when each of these
names is empty or a record name.** -/
theorem ofRecord_iff {identifier : Bytes} {calls : List ItemCall} {pointers : List Name}
    {content : Bytes} {data : Data} {record : Record}
    (hcert : ∀ certificate ∈ calls.filterMap ItemCall.certificate?,
      (wireEncode certificate).type ≠ KeyLocator.keyLocatorType ∧
        ndn.decodeCertificate (wireEncode certificate) = some certificate)
    (hcontent : ({ (Outcome.forEach (perform wireEncode) calls (ofIdentifier identifier)).1.record
      with recordPointers := pointers } : Record).wireEncode = .ok content)
    (hdata : data.content = content) (hdec : Record.ofData ndn data = .ok record)
    (htype : record.type = .certificateRecord) :
    (∃ rebuilt, ofRecord ndn record = .ok rebuilt ∧
      rebuilt.certList = calls.filterMap ItemCall.certificate? ∧
      rebuilt.prevCert = calls.filterMap ItemCall.prevName?) ↔
      ∀ n ∈ calls.filterMap ItemCall.prevName?, n = [] ∨ RecordName.check n = .ok () := by
  obtain ⟨prevCert, hbuilt⟩ := forEach_perform wireEncode calls
    (show (ofIdentifier identifier).record.data = none from rfl)
  rw [hbuilt] at hcontent
  obtain ⟨_, hbody⟩ := Record.decode_wireEncode ndn hcontent
  obtain ⟨_, _, _, _, hitems⟩ := Record.ofData_eq_ok hdec
  rw [hdata, hbody] at hitems
  have hrecord : record.contentItems = calls.map (ItemCall.item wireEncode) := by
    rw [← Except.ok.inj hitems]
    rfl
  have hsize : (Tlv.encodeAll (calls.map (ItemCall.item wireEncode))).length < 2 ^ 64 :=
    Record.items_length_lt hcontent
  have hof : ofRecord ndn record
      = (readItems ndn (calls.map (ItemCall.item wireEncode))).map
        fun items => ⟨record, items.1, items.2⟩ := by
    rw [ofRecord, if_neg (not_not.2 htype), hrecord]
  constructor
  · rintro ⟨rebuilt, hrebuilt, _, _⟩ n hn
    rw [hof] at hrebuilt
    -- all items were read, so a `RecordName` was constructed of each name that is not empty
    cases hread : readItems ndn (calls.map (ItemCall.item wireEncode)) with
    | error e => rw [hread] at hrebuilt; cases hrebuilt
    | ok items =>
        obtain ⟨c, hc, hname⟩ := List.mem_filterMap.1 hn
        have hitem := ItemCall.item_of_prevName wireEncode hname
        have hmem : KeyLocator.wireEncode n ∈ calls.map (ItemCall.item wireEncode) :=
          List.mem_map.2 ⟨c, hc, hitem⟩
        have hlen := Tlv.encode_length_le_encodeAll hmem
        have hvalue := (KeyLocator.wireEncode n).value_length_le
        exact checked_of_readItems hread hmem rfl (KeyLocator.getName_wireEncode (by omega))
  · intro hnames
    refine ⟨⟨record, _, _⟩, ?_, rfl, rfl⟩
    rw [hof, readItems_items hcert hsize hnames]
    rfl

end CertificateRecord

/-! ## Revocation records -/

namespace RevocationRecord

theorem forEach_addCertificateNameItem (names : List Name) {r : RevocationRecord}
    (h : r.record.data = none) :
    Outcome.forEach addCertificateNameItem names r = ({
      record := { r.record with
        contentItems := r.record.contentItems ++ names.map Name.wireEncode }
      revokedCertList := r.revokedCertList ++ names }, .ok ()) := by
  induction names generalizing r with
  | nil => simp
  | cons n names ih =>
      have hadd : addCertificateNameItem n r = ({
          record := { r.record with
            contentItems := r.record.contentItems ++ [Name.wireEncode n] }
          revokedCertList := r.revokedCertList ++ [n] }, .ok ()) := by
        simp [addCertificateNameItem, Record.addRecordItem, h]
      rw [Outcome.forEach_cons_ok hadd, ih]
      · simp
      · exact h

theorem readItems_wireEncode {names : List Name}
    (h : (Tlv.encodeAll (names.map Name.wireEncode)).length < 2 ^ 64) :
    readItems (names.map Name.wireEncode) = .ok names := by
  induction names with
  | nil => rfl
  | cons n names ih =>
      rw [List.map_cons, Tlv.encodeAll_cons, List.length_append] at h
      have hlen := (Name.wireEncode n).value_length_le
      have hname : Name.wireDecode (Name.wireEncode n) = some n :=
        Name.wireDecode_wireEncode n (by omega)
      rw [List.map_cons, readItems, hname]
      simp only [ih (by omega)]
      rfl

/-- A revocation record is rebuilt from its decoded record with the names it was given. -/
theorem ofRecord_eq {identifier : Bytes} {names pointers : List Name} {content : Bytes}
    {ndn : Ndn} {data : Data} {record : Record}
    (hcontent : ({ (Outcome.forEach addCertificateNameItem names (ofIdentifier identifier)).1.record
      with recordPointers := pointers } : Record).wireEncode = .ok content)
    (hdata : data.content = content) (hdec : Record.ofData ndn data = .ok record)
    (htype : record.type = .revocationRecord) : ofRecord record = .ok ⟨record, names⟩ := by
  rw [forEach_addCertificateNameItem names
    (show (ofIdentifier identifier).record.data = none from rfl)] at hcontent
  obtain ⟨_, hbody⟩ := Record.decode_wireEncode ndn hcontent
  obtain ⟨_, _, _, _, hitems⟩ := Record.ofData_eq_ok hdec
  rw [hdata, hbody] at hitems
  have hrecord : record.contentItems = names.map Name.wireEncode := by
    rw [← Except.ok.inj hitems]
    rfl
  rw [ofRecord, if_neg (not_not.2 htype), hrecord,
    readItems_wireEncode (Record.items_length_lt hcontent)]
  rfl

end RevocationRecord

/-! ## The whole format -/

open CertificateRecord (ItemCall)

/-- **Decoding undoes encoding.** The pointers and the items of every record are read back, and
certificate and revocation records are rebuilt as they were; for a certificate record this needs
each name of a previous certificate record to be empty or a record name. -/
theorem decode_undoes_encode (ndn : Ndn) (wireEncode : Certificate → Block) :
    (∀ (record : Record) (content : Bytes), record.wireEncode = .ok content →
      Record.headerWireDecode ndn content = .ok record.recordPointers ∧
        Record.bodyWireDecode content = .ok record.contentItems) ∧
    (∀ (identifier : Bytes) (calls : List ItemCall) (pointers : List Name) (content : Bytes)
        (data : Data) (record : Record),
      (∀ certificate ∈ calls.filterMap ItemCall.certificate?,
        (wireEncode certificate).type ≠ KeyLocator.keyLocatorType ∧
          ndn.decodeCertificate (wireEncode certificate) = some certificate) →
      ({ (Outcome.forEach (CertificateRecord.perform wireEncode) calls
          (CertificateRecord.ofIdentifier identifier)).1.record
        with recordPointers := pointers } : Record).wireEncode = .ok content →
      data.content = content → Record.ofData ndn data = .ok record →
      record.type = .certificateRecord →
      ((∃ rebuilt, CertificateRecord.ofRecord ndn record = .ok rebuilt ∧
        rebuilt.certList = calls.filterMap ItemCall.certificate? ∧
        rebuilt.prevCert = calls.filterMap ItemCall.prevName?) ↔
        ∀ n ∈ calls.filterMap ItemCall.prevName?, n = [] ∨ RecordName.check n = .ok ())) ∧
    ∀ (identifier : Bytes) (names pointers : List Name) (content : Bytes) (data : Data)
        (record : Record),
      ({ (Outcome.forEach RevocationRecord.addCertificateNameItem names
          (RevocationRecord.ofIdentifier identifier)).1.record
        with recordPointers := pointers } : Record).wireEncode = .ok content →
      data.content = content → Record.ofData ndn data = .ok record →
      record.type = .revocationRecord →
      RevocationRecord.ofRecord record = .ok ⟨record, names⟩ := by
  refine ⟨fun _ _ h => Record.decode_wireEncode ndn h, ?_, ?_⟩
  · intro identifier calls pointers content data record hcert hcontent hdata hdec htype
    exact CertificateRecord.ofRecord_iff hcert hcontent hdata hdec htype
  · intro identifier names pointers content data record hcontent hdata hdec htype
    exact RevocationRecord.ofRecord_eq hcontent hdata hdec htype

/-- The TLV type of a Data packet is a type number. -/
theorem dataType_valid : 0 < 6 ∧ 6 < 2 ^ 32 := by decide

/-- The wire format of the certificates of the small ledger. -/
def sampleWire (certificate : Certificate) : Block := ⟨6, certificate.signature, dataType_valid⟩

/-- The packet of a certificate record that these calls have filled. -/
def calledPacket (calls : List ItemCall) : Data :=
  let record := (Outcome.forEach (CertificateRecord.perform sampleWire) calls
    (CertificateRecord.ofIdentifier [120])).1.record
  { name := (Sample.certificatePacket 65 99 []).name
    content := Tlv.encodeAll [record.headerWireEncode, record.bodyWireEncode]
    signature := [0] }

theorem decode_undoes_encode_calls :
    let calls : List ItemCall := [.addCertificateItem (Sample.certificate 99),
      .addPrevCertPointer Sample.genesis, .addRecordItem []]
    ∃ record rebuilt, Record.ofData Sample.certificateNdn (calledPacket calls) = .ok record ∧
      CertificateRecord.ofRecord Sample.certificateNdn record = .ok rebuilt ∧
      rebuilt.certList = [Sample.certificate 99] ∧ rebuilt.prevCert = [Sample.genesis, []] := by
  intro calls
  have htype : ((Record.ofData Sample.certificateNdn (calledPacket calls)).toOption.map
      Record.type) = some .certificateRecord := by
    decide +kernel
  cases hdec : Record.ofData Sample.certificateNdn (calledPacket calls) with
  | error e => rw [hdec] at htype; cases htype
  | ok record =>
      rw [hdec] at htype
      have hrebuilt : ∃ rebuilt,
          CertificateRecord.ofRecord Sample.certificateNdn record = .ok rebuilt ∧
          rebuilt.certList = calls.filterMap ItemCall.certificate? ∧
          rebuilt.prevCert = calls.filterMap ItemCall.prevName? := by
        refine ((decode_undoes_encode Sample.certificateNdn sampleWire).2.1 [120] calls []
          (calledPacket calls).content (calledPacket calls) record ?_ ?_ rfl hdec
          (Option.some.inj htype)).2 ?_
        · intro certificate hmem
          rw [List.mem_singleton.1 hmem]
          exact ⟨by decide, by decide +kernel⟩
        · have hlen : (calledPacket calls).content.length < 2 ^ 64 := by decide +kernel
          rw [Record.wireEncode]
          exact if_pos hlen
        · have hgood : ∀ n ∈ [Sample.genesis, []], n = [] ∨ RecordName.check n = .ok () := by
            decide +kernel
          exact hgood
      obtain ⟨rebuilt, hof, hcerts, hprevs⟩ := hrebuilt
      exact ⟨record, rebuilt, rfl, hof, hcerts, hprevs⟩

/-- **A name that is no record name is taken as that of a previous certificate record, and the
record cannot be rebuilt from its packet.** -/
theorem not_rebuilt_addPrevCertPointer :
    ¬ ∀ (calls : List ItemCall) (record : Record),
      Record.ofData Sample.certificateNdn (calledPacket calls) = .ok record →
      ∃ rebuilt, CertificateRecord.ofRecord Sample.certificateNdn record = .ok rebuilt ∧
        rebuilt.certList = calls.filterMap ItemCall.certificate? ∧
        rebuilt.prevCert = calls.filterMap ItemCall.prevName? := by
  intro hall
  have hfails : ((Record.ofData Sample.certificateNdn
      (calledPacket [.addPrevCertPointer [.generic [97]]])).toOption.map fun record =>
        (CertificateRecord.ofRecord Sample.certificateNdn record).toOption.isSome)
          = some false := by
    decide +kernel
  cases hdec : Record.ofData Sample.certificateNdn
      (calledPacket [.addPrevCertPointer [.generic [97]]]) with
  | error e => rw [hdec] at hfails; cases hfails
  | ok record =>
      obtain ⟨rebuilt, hrebuilt, _⟩ := hall _ record hdec
      rw [hdec] at hfails
      simp [hrebuilt, Except.toOption] at hfails

end DLedger
