import DLedger.Ledger.Sample

set_option autoImplicit false

/-! # What the record decoder accepts

The content of a record is a sequence of blocks. The first one of the header's type holds the
names that the record points to, the first one of the body's type holds its items. The decoder
accepts this grammar and reads the pointers as they stand there, as long as no element of the
header has the type of a name without being one: such an element is printed and kept.
-/

namespace DLedger

open Tlv (Bytes Block)

/-! ## Names -/

namespace Name

theorem componentBlock_of_ofComponentBlock {b : Block} {c : Component}
    (h : ofComponentBlock b = some c) : componentBlock c = b := by
  rw [ofComponentBlock] at h
  by_cases htype : b.type < 2 ^ 16
  · rw [dif_pos htype, Option.some.injEq] at h
    subst h
    rfl
  · rw [dif_neg htype] at h
    contradiction

theorem mapM_ofComponentBlock_iff {blocks : List Block} {n : Name} :
    blocks.mapM ofComponentBlock = some n ↔ n.map componentBlock = blocks := by
  constructor
  · intro h
    induction blocks generalizing n with
    | nil =>
        rw [List.mapM_nil, Option.pure_def, Option.some.injEq] at h
        subst h
        rfl
    | cons b blocks ih =>
        simp only [List.mapM_cons, Option.bind_eq_bind, Option.bind_eq_some_iff, Option.pure_def,
          Option.some.injEq] at h
        obtain ⟨c, hc, rest, hrest, rfl⟩ := h
        rw [List.map_cons, componentBlock_of_ofComponentBlock hc, ih hrest]
  · rintro rfl
    exact mapM_ofComponentBlock n

/-- A block is a name: it has the type of names, and its value is the sequence of the name's
components. -/
def Encodes (n : Name) (block : Block) : Prop :=
  block.type = nameType ∧ Tlv.Encodes (n.map componentBlock) block.value

theorem wireDecode_eq_some_iff {n : Name} {block : Block} :
    wireDecode block = some n ↔ n.Encodes block := by
  unfold wireDecode Encodes
  by_cases htype : block.type = nameType
  · simp only [htype, if_true, true_and, Option.bind_eq_some_iff]
    constructor
    · rintro ⟨blocks, hparse, hcomponents⟩
      rw [mapM_ofComponentBlock_iff.1 hcomponents]
      exact Tlv.parse_eq_some_iff.1 hparse
    · intro h
      exact ⟨_, Tlv.parse_eq_some_iff.2 h, mapM_ofComponentBlock n⟩
  · simp [htype]

end Name

namespace Record

/-! ## The grammar -/

/-- The element of a type that a content has: the first one, where there are more. -/
def IsFirst (type : Nat) (elements : List Block) (element : Block) : Prop :=
  element.type = type ∧
    ∃ before after, elements = before ++ element :: after ∧ ∀ b ∈ before, b.type ≠ type

/-- A content is a sequence of blocks, of which the header and the body have these elements. -/
def Layout (content : Bytes) (headerItems items : List Block) : Prop :=
  ∃ elements header body, Tlv.Encodes elements content ∧
    IsFirst headerType elements header ∧ Tlv.Encodes headerItems header.value ∧
    IsFirst contentType elements body ∧ Tlv.Encodes items body.value

/-- A content is the record with these pointers and items: the elements of its header are the
names of the pointers, one by one. -/
def Grammar (content : Bytes) (pointers : List Name) (items : List Block) : Prop :=
  ∃ headerItems, Layout content headerItems items ∧
    List.Forall₂ Name.Encodes pointers headerItems

/-- The decoder does what the grammar says for a packet: it succeeds just where the content is in
the grammar, and reads its pointers and its items. -/
def DecodesGrammar (ndn : Ndn) (d : Data) : Prop :=
  ((∃ r, ofData ndn d = .ok r) ↔ ∃ pointers items, Grammar d.content pointers items) ∧
    ∀ r, ofData ndn d = .ok r → Grammar d.content r.recordPointers r.contentItems

/-- A content that only fails the grammar by elements of the header that have the type of a name
and are none. -/
def HasMalformedName (content : Bytes) : Prop :=
  ∃ headerItems items, Layout content headerItems items ∧
    (∀ item ∈ headerItems, item.type = Name.nameType) ∧
    ∃ item ∈ headerItems, ∀ n : Name, ¬ n.Encodes item

/-! ## The decoder, by its parts -/

theorem parse_eq_ok_iff {value : Bytes} {blocks : List Block} :
    parse value = .ok blocks ↔ Tlv.Encodes blocks value := by
  rw [← Tlv.parse_eq_some_iff, parse]
  cases Tlv.parse value <;> simp

theorem getElement_eq_ok_iff {type : Nat} {elements : List Block} {element : Block} :
    getElement type elements = .ok element ↔ IsFirst type elements element := by
  have hfind : getElement type elements = .ok element ↔
      elements.find? (fun b => b.type == type) = some element := by
    rw [getElement]
    cases elements.find? (fun b => b.type == type) <;> simp
  rw [hfind, List.find?_eq_some_iff_append, IsFirst]
  simp

variable {ndn : Ndn}

/-- The loop at an element of the right type. -/
theorem decodePointers_cons {item : Block} (h : item.type = Name.nameType) (pointer : Name)
    (items : List Block) :
    decodePointers ndn pointer (item :: items)
      = (decodePointers ndn ((Name.wireDecode item).getD (ndn.nameAfterError pointer item))
          items).map ((Name.wireDecode item).getD (ndn.nameAfterError pointer item) :: ·) := by
  rw [decodePointers, if_pos h]

/-- The loop over the header throws exactly where an element has another type than names. -/
theorem exists_decodePointers_iff {items : List Block} (pointer : Name) :
    (∃ pointers, decodePointers ndn pointer items = .ok pointers) ↔
      ∀ item ∈ items, item.type = Name.nameType := by
  induction items generalizing pointer with
  | nil => simp [decodePointers]
  | cons item items ih =>
      rw [List.forall_mem_cons]
      by_cases htype : item.type = Name.nameType
      · rw [decodePointers_cons htype,
          ← ih ((Name.wireDecode item).getD (ndn.nameAfterError pointer item))]
        cases hrest : decodePointers ndn ((Name.wireDecode item).getD
          (ndn.nameAfterError pointer item)) items <;> simp [htype, Except.map]
      · simp [decodePointers, htype]

/-- Where every element is a name, the loop reads these names. -/
theorem decodePointers_eq_ok {items : List Block} {pointers : List Name}
    (h : List.Forall₂ Name.Encodes pointers items) (pointer : Name) :
    decodePointers ndn pointer items = .ok pointers := by
  induction h generalizing pointer with
  | nil => rfl
  | @cons n item pointers items hname _ ih =>
      have hdec : Name.wireDecode item = some n := Name.wireDecode_eq_some_iff.2 hname
      rw [decodePointers_cons hname.1, hdec, Option.getD_some, ih n]
      rfl

/-- The elements of a header are the names of some pointers when each is a name. -/
theorem exists_forall₂_encodes {items : List Block} :
    (∃ pointers, List.Forall₂ Name.Encodes pointers items) ↔
      ∀ item ∈ items, ∃ n : Name, n.Encodes item := by
  induction items with
  | nil => simp
  | cons item items ih => simp [List.forall₂_cons_right_iff, ← ih]

theorem headerWireDecode_eq_ok_iff {content : Bytes} {pointers : List Name} :
    headerWireDecode ndn content = .ok pointers ↔
      ∃ elements header items, Tlv.Encodes elements content ∧
        IsFirst headerType elements header ∧ Tlv.Encodes items header.value ∧
        decodePointers ndn [] items = .ok pointers := by
  simp only [← parse_eq_ok_iff, ← getElement_eq_ok_iff, headerWireDecode, bind, Except.bind]
  cases parse content with
  | error e => simp
  | ok elements =>
      cases hheader : getElement headerType elements with
      | error e => simp [hheader]
      | ok header =>
          cases hitems : parse header.value <;> simp [hheader, hitems]

theorem bodyWireDecode_eq_ok_iff {content : Bytes} {items : List Block} :
    bodyWireDecode content = .ok items ↔
      ∃ elements body, Tlv.Encodes elements content ∧
        IsFirst contentType elements body ∧ Tlv.Encodes items body.value := by
  simp only [← parse_eq_ok_iff, ← getElement_eq_ok_iff, bodyWireDecode, bind, Except.bind]
  cases parse content with
  | error e => simp
  | ok elements => cases hbody : getElement contentType elements <;> simp [hbody]

/-- The element of a type is determined. -/
theorem IsFirst.unique {type : Nat} {elements : List Block} {a b : Block}
    (ha : IsFirst type elements a) (hb : IsFirst type elements b) : a = b := by
  rw [← getElement_eq_ok_iff] at ha hb
  exact Except.ok.inj (ha.symm.trans hb)

theorem encodes_unique {value : Bytes} {a b : List Block} (ha : Tlv.Encodes a value)
    (hb : Tlv.Encodes b value) : a = b := by
  rw [← parse_eq_ok_iff] at ha hb
  exact Except.ok.inj (ha.symm.trans hb)

/-- A content has one layout. -/
theorem Layout.unique {content : Bytes} {headerItems headerItems' items items' : List Block}
    (h : Layout content headerItems items) (h' : Layout content headerItems' items') :
    headerItems = headerItems' ∧ items = items' := by
  obtain ⟨elements, header, body, hcontent, hheader, hhi, hbody, hbi⟩ := h
  obtain ⟨elements', header', body', hcontent', hheader', hhi', hbody', hbi'⟩ := h'
  have helements := encodes_unique hcontent hcontent'
  subst helements
  rw [← hheader.unique hheader'] at hhi'
  rw [← hbody.unique hbody'] at hbi'
  exact ⟨encodes_unique hhi hhi', encodes_unique hbi hbi'⟩

/-! ## The decoder -/

/-- What the decoder accepts: a layout in which the loop over the header does not throw. -/
theorem ofData_layout {d : Data} {r : Record} (h : ofData ndn d = .ok r) :
    ∃ headerItems, Layout d.content headerItems r.contentItems ∧
      decodePointers ndn [] headerItems = .ok r.recordPointers := by
  obtain ⟨_, _, _, hheader, hbody⟩ := ofData_eq_ok h
  obtain ⟨elements, header, headerItems, hcontent, hfirst, hitems, hloop⟩ :=
    headerWireDecode_eq_ok_iff.1 hheader
  obtain ⟨elements', body, hcontent', hfirst', hitems'⟩ := bodyWireDecode_eq_ok_iff.1 hbody
  rw [← encodes_unique hcontent hcontent'] at hfirst'
  exact ⟨headerItems, ⟨elements, header, body, hcontent, hfirst, hitems, hfirst', hitems'⟩, hloop⟩

theorem exists_ofData_of_layout {d : Data} (hname : RecordName.check d.name = .ok ())
    {headerItems items : List Block} {pointers : List Name}
    (hlayout : Layout d.content headerItems items)
    (hloop : decodePointers ndn [] headerItems = .ok pointers) :
    ∃ r, ofData ndn d = .ok r ∧ r.recordPointers = pointers ∧ r.contentItems = items := by
  obtain ⟨elements, header, body, hcontent, hfirst, hhi, hfirst', hbi⟩ := hlayout
  have hheader : headerWireDecode ndn d.content = .ok pointers :=
    headerWireDecode_eq_ok_iff.2 ⟨elements, header, headerItems, hcontent, hfirst, hhi, hloop⟩
  have hbody : bodyWireDecode d.content = .ok items :=
    bodyWireDecode_eq_ok_iff.2 ⟨elements, body, hcontent, hfirst', hbi⟩
  simp only [ofData, RecordName.ofName_of_check hname, hheader, hbody, bind, Except.bind, pure,
    Except.pure]
  exact ⟨_, rfl, rfl, rfl⟩

/-- A malformed name is accepted, where nothing else is wrong. -/
theorem not_decodesGrammar {d : Data} (hname : RecordName.check d.name = .ok ())
    (h : HasMalformedName d.content) : ¬ DecodesGrammar ndn d := by
  obtain ⟨headerItems, items, hlayout, htypes, item, hitem, hnone⟩ := h
  rintro ⟨haccepts, _⟩
  obtain ⟨pointers, hloop⟩ : ∃ pointers, decodePointers ndn [] headerItems = .ok pointers :=
    (exists_decodePointers_iff []).2 htypes
  obtain ⟨r, hr, _⟩ := exists_ofData_of_layout hname hlayout hloop
  obtain ⟨names, items', headerItems', hlayout', hnames⟩ := haccepts.1 ⟨r, hr⟩
  rw [(hlayout.unique hlayout').1] at hitem
  obtain ⟨n, hn⟩ := exists_forall₂_encodes.1 ⟨names, hnames⟩ item hitem
  exact hnone n hn

/-- **The decoder accepts exactly the grammar, and reads the pointers that stand in the header, on
every packet but those whose content fails the grammar only by malformed names.** -/
theorem decodesGrammar_iff (ndn : Ndn) (d : Data) (hname : RecordName.check d.name = .ok ()) :
    DecodesGrammar ndn d ↔ ¬ HasMalformedName d.content := by
  constructor
  · intro hdecodes hbad
    exact not_decodesGrammar hname hbad hdecodes
  · intro hgood
    have hread : ∀ r, ofData ndn d = .ok r → Grammar d.content r.recordPointers r.contentItems := by
      intro r hr
      obtain ⟨headerItems, hlayout, hloop⟩ := ofData_layout hr
      have htypes := (exists_decodePointers_iff []).1 ⟨_, hloop⟩
      have hnames : ∀ item ∈ headerItems, ∃ n : Name, n.Encodes item := by
        intro item hitem
        by_contra hnone
        exact hgood ⟨headerItems, _, hlayout, htypes, item, hitem, not_exists.1 hnone⟩
      obtain ⟨pointers, hpointers⟩ := exists_forall₂_encodes.2 hnames
      have hsame : pointers = r.recordPointers :=
        Except.ok.inj ((decodePointers_eq_ok hpointers []).symm.trans hloop)
      exact ⟨headerItems, hlayout, hsame ▸ hpointers⟩
    refine ⟨⟨fun ⟨r, hr⟩ => ⟨_, _, hread r hr⟩, ?_⟩, hread⟩
    rintro ⟨pointers, items, headerItems, hlayout, hpointers⟩
    obtain ⟨r, hr, _⟩ := exists_ofData_of_layout hname hlayout (decodePointers_eq_ok hpointers [])
    exact ⟨r, hr⟩

theorem headerType_valid : 0 < headerType ∧ headerType < 2 ^ 32 := by decide

theorem contentType_valid : 0 < contentType ∧ contentType < 2 ^ 32 := by decide

theorem nameType_valid : 0 < Name.nameType ∧ Name.nameType < 2 ^ 32 := by decide

/-- A packet with these blocks in its header and an empty body. -/
def headerPacket (headerItems : List Block) : Data :=
  { Sample.packet 97 0 [] with
    content := Tlv.encodeAll [⟨headerType, Tlv.encodeAll headerItems, headerType_valid⟩,
      ⟨contentType, [], contentType_valid⟩] }

theorem headerPacket_layout {headerItems : List Block}
    (h : (Tlv.encodeAll headerItems).length < 2 ^ 64) :
    Layout (headerPacket headerItems).content headerItems [] := by
  refine ⟨[⟨headerType, Tlv.encodeAll headerItems, headerType_valid⟩,
    ⟨contentType, [], contentType_valid⟩], _, _, ⟨rfl, ?_⟩, ⟨rfl, [], _, rfl, by simp⟩,
    ⟨rfl, ?_⟩, ⟨rfl, [_], [], rfl, ?_⟩, ⟨rfl, by simp⟩⟩
  · simpa using h
  · intro b hb
    exact lt_of_le_of_lt (b.value_length_le.trans (Tlv.encode_length_le_encodeAll hb)) h
  · simp [headerType, contentType]

/-- A name of one letter. -/
def letterName : Block := Name.wireEncode [.generic [97]]

/-- A block with the type of a name that ends within its component. -/
def truncatedName : Block := ⟨Name.nameType, [8, 5, 1], nameType_valid⟩

theorem decodesGrammar_iff_letter :
    DecodesGrammar Sample.ndn (headerPacket [letterName, letterName]) := by
  refine (decodesGrammar_iff Sample.ndn _ rfl).2 ?_
  rintro ⟨headerItems, items, hlayout, _, item, hitem, hnone⟩
  rw [← (headerPacket_layout (by decide)).unique hlayout |>.1] at hitem
  have hletter : item = letterName := by simpa using hitem
  exact hnone [.generic [97]] (hletter ▸ Name.wireDecode_eq_some_iff.1 (by decide))

/-- **A header with a truncated name behind a good one is accepted.** -/
theorem not_decodesGrammar_truncated :
    ¬ DecodesGrammar Sample.ndn (headerPacket [letterName, truncatedName]) := by
  refine not_decodesGrammar rfl ⟨_, _, headerPacket_layout (by decide), by decide, truncatedName,
    by simp, ?_⟩
  intro n hn
  have hnone : Name.wireDecode truncatedName = none := by decide
  rw [Name.wireDecode_eq_some_iff.2 hn] at hnone
  contradiction

end Record

end DLedger
