import DLedger.Ndn.Packet

set_option autoImplicit false

/-! # Record names

The name of a record is `/<producer-prefix>/<record-type>/<identifier>/<timestamp>`, its full
name has the digest of the packet after that. The accessors count components from the end
and skip the digest when the last component is one. A `RecordName` is a name that the
constructor of that class accepts.
-/

namespace DLedger

open Tlv (Bytes Block)

inductive RecordType where
  | baseRecord
  | genericRecord
  | certificateRecord
  | revocationRecord
  | genesisRecord
deriving DecidableEq

def recordTypeToString : RecordType → Bytes
  | .genericRecord => ascii ['G', 'e', 'n', 'e', 'r', 'i', 'c']
  | .certificateRecord => ascii ['C', 'e', 'r', 't']
  | .revocationRecord => ascii ['R', 'e', 'v', 'o', 'c', 'a', 't', 'i', 'o', 'n']
  | .genesisRecord => ascii ['G', 'e', 'n', 'e', 's', 'i', 's']
  | .baseRecord => ascii ['U', 'n', 'd', 'e', 'f', 'i', 'n', 'e', 'd']

def stringToRecordType (type : Bytes) : RecordType :=
  if type = ascii ['G', 'e', 'n', 'e', 'r', 'i', 'c'] then .genericRecord
  else if type = ascii ['C', 'e', 'r', 't'] then .certificateRecord
  else if type = ascii ['R', 'e', 'v', 'o', 'c', 'a', 't', 'i', 'o', 'n'] then .revocationRecord
  else if type = ascii ['G', 'e', 'n', 'e', 's', 'i', 's'] then .genesisRecord
  else .baseRecord

theorem stringToRecordType_recordTypeToString (t : RecordType) :
    stringToRecordType (recordTypeToString t) = t := by
  cases t <;> decide

theorem recordTypeToString_alphanumeric (t : RecordType) :
    recordTypeToString t ≠ [] ∧ (recordTypeToString t).all isAlphanumeric = true := by
  cases t <;> decide

/-! ## The accessors

They are defined on every name; `none` and the empty string stand where `Name::get` throws,
which the length check of the constructor rules out. -/

namespace RecordName

def hasImplicitDigest (n : Name) : Bool :=
  ((n.get (-1)).map Component.isImplicitSha256Digest).getD false

def getProducerPrefix (n : Name) : Name :=
  let numSuffix : Int := if hasImplicitDigest n then 4 else 3
  n.getPrefix (n.length - numSuffix)

def getRecordType (n : Name) : RecordType :=
  let location : Int := if hasImplicitDigest n then -4 else -3
  stringToRecordType (((n.get location).map Component.value).getD [])

def getRecordUniqueIdentifier (n : Name) : Bytes :=
  let location : Int := if hasImplicitDigest n then -3 else -2
  ((n.get location).map Component.value).getD []

def getGenerationTimestamp (n : Name) : Option Int :=
  let location : Int := if hasImplicitDigest n then -2 else -1
  (n.get location).bind Component.toTimestamp

/-- The checks of `RecordName(const Name&)`. -/
def check (n : Name) : Except Exn Unit :=
  if n.length < 4 || (hasImplicitDigest n && n.length < 5) then
    .error (.runtimeError "record name too short")
  else if (getGenerationTimestamp n).isNone then
    .error .ndnError
  else if getRecordType n = .baseRecord then
    .error (.runtimeError "record name invalid type")
  else .ok ()

end RecordName

/-- A name that passes the checks of the constructor. -/
structure RecordName where
  name : Name
  valid : RecordName.check name = .ok ()

namespace RecordName

/-- `RecordName(const Name&)`. -/
def ofName (n : Name) : Except Exn RecordName :=
  match h : check n with
  | .ok () => .ok ⟨n, h⟩
  | .error e => .error e

/-- `RecordName(peerPrefix, type, identifier, time)`: the strings are appended as names, that
is, parsed as URIs. The result is not checked. -/
def build (ndn : Ndn) (peerPrefix : Name) (type : RecordType) (identifier : Bytes)
    (time : Int) : Name :=
  peerPrefix ++ ndn.ofUri (recordTypeToString type) ++ ndn.ofUri identifier
    ++ [Component.ofTimestamp time]

theorem ofName_eq_ok {n : Name} {r : RecordName} :
    ofName n = .ok r ↔ r.name = n := by
  unfold ofName
  constructor
  · intro h
    split at h
    · cases h; rfl
    · cases h
  · rintro rfl
    split
    · rfl
    · next e h => rw [r.valid] at h; cases h

theorem ofName_of_check {n : Name} (h : check n = .ok ()) : ofName n = .ok ⟨n, h⟩ :=
  ofName_eq_ok.2 rfl

theorem ofName_of_check_error {n : Name} {e : Exn} (h : check n = .error e) :
    ofName n = .error e := by
  unfold ofName
  split
  · next h' => rw [h] at h'; cases h'
  · next e' h' => rw [h] at h'; cases h'; rfl

theorem check_of_ofName {n : Name} {r : RecordName} (h : ofName n = .ok r) :
    check n = .ok () := by
  rw [← ofName_eq_ok.1 h]; exact r.valid

/-- The three checks, as propositions. -/
theorem check_eq_ok_iff (n : Name) :
    check n = .ok () ↔
      (4 ≤ n.length ∧ (hasImplicitDigest n = true → 5 ≤ n.length)) ∧
        (getGenerationTimestamp n).isSome = true ∧ getRecordType n ≠ .baseRecord := by
  have hlen : (n.length < 4 || (hasImplicitDigest n && n.length < 5)) = false ↔
      4 ≤ n.length ∧ (hasImplicitDigest n = true → 5 ≤ n.length) := by
    simp [Bool.or_eq_false_iff]
  unfold check
  rw [← hlen]
  cases (n.length < 4 || (hasImplicitDigest n && n.length < 5)) with
  | true => simp
  | false =>
      cases getGenerationTimestamp n with
      | none => simp
      | some t => by_cases ht : getRecordType n = .baseRecord <;> simp [ht]

/-! ## Reading a full name

A full name that passes the checks comes from a name that does not itself end with a
digest, and every accessor reads the same from both. -/

section FullName

variable (n : Name) (digest : Bytes)

@[simp] theorem hasImplicitDigest_concat :
    hasImplicitDigest (n ++ [Component.implicitSha256Digest digest]) = true := by
  rw [hasImplicitDigest, Name.get_concat_neg_one]
  rfl

theorem getGenerationTimestamp_concat :
    getGenerationTimestamp (n ++ [Component.implicitSha256Digest digest])
      = (n.get (-1)).bind Component.toTimestamp := by
  simp only [getGenerationTimestamp, hasImplicitDigest_concat, if_true]
  rw [Name.get_concat _ _ (by omega)]
  rfl

theorem getRecordType_concat :
    getRecordType (n ++ [Component.implicitSha256Digest digest])
      = stringToRecordType (((n.get (-3)).map Component.value).getD []) := by
  simp only [getRecordType, hasImplicitDigest_concat, if_true]
  rw [Name.get_concat _ _ (by omega)]
  rfl

theorem getProducerPrefix_concat (h : 3 ≤ n.length) :
    getProducerPrefix (n ++ [Component.implicitSha256Digest digest])
      = n.take (n.length - 3) := by
  have hk : ((n ++ [Component.implicitSha256Digest digest]).length : Int) - 4
      = ((n.length - 3 : Nat) : Int) := by
    rw [List.length_append, List.length_singleton]; omega
  simp only [getProducerPrefix, hasImplicitDigest_concat, if_true, hk]
  rw [Name.getPrefix_natCast, List.take_append_of_le_length (by omega)]

theorem getRecordUniqueIdentifier_concat :
    getRecordUniqueIdentifier (n ++ [Component.implicitSha256Digest digest])
      = ((n.get (-2)).map Component.value).getD [] := by
  simp only [getRecordUniqueIdentifier, hasImplicitDigest_concat, if_true]
  rw [Name.get_concat _ _ (by omega)]
  rfl

variable {n} in
/-- A name that does not end with a digest stays a record name when one is appended. -/
theorem check_concat (h : check n = .ok ()) (hdigest : hasImplicitDigest n = false) :
    check (n ++ [Component.implicitSha256Digest digest]) = .ok () := by
  obtain ⟨⟨hlen, _⟩, ht, htype⟩ := (check_eq_ok_iff _).1 h
  simp only [getGenerationTimestamp, hdigest, Bool.false_eq_true, if_false] at ht
  simp only [getRecordType, hdigest, Bool.false_eq_true, if_false] at htype
  refine (check_eq_ok_iff _).2 ⟨⟨?_, fun _ => ?_⟩, ?_, ?_⟩
  · rw [List.length_append, List.length_singleton]
    omega
  · rw [List.length_append, List.length_singleton]
    omega
  · rw [getGenerationTimestamp_concat]
    exact ht
  · rw [getRecordType_concat]
    exact htype

/-- Two names that the accessors read the same from. -/
structure SameReading (n m : Name) : Prop where
  producerPrefix : getProducerPrefix n = getProducerPrefix m
  recordType : getRecordType n = getRecordType m
  uniqueIdentifier : getRecordUniqueIdentifier n = getRecordUniqueIdentifier m
  generationTimestamp : getGenerationTimestamp n = getGenerationTimestamp m

variable {n} in
/-- The accessors skip a digest behind a name that does not end with one. -/
theorem sameReading_concat (hlen : 3 ≤ n.length) (hdigest : hasImplicitDigest n = false) :
    SameReading (n ++ [Component.implicitSha256Digest digest]) n := by
  have hk : (n.length : Int) - 3 = ((n.length - 3 : Nat) : Int) := by omega
  refine ⟨?_, ?_, ?_, ?_⟩
  · rw [getProducerPrefix_concat _ _ hlen]
    simp only [getProducerPrefix, hdigest, Bool.false_eq_true, if_false, hk]
    rw [Name.getPrefix_natCast]
  · rw [getRecordType_concat]
    simp only [getRecordType, hdigest, Bool.false_eq_true, if_false]
  · rw [getRecordUniqueIdentifier_concat]
    simp only [getRecordUniqueIdentifier, hdigest, Bool.false_eq_true, if_false]
  · rw [getGenerationTimestamp_concat]
    simp only [getGenerationTimestamp, hdigest, Bool.false_eq_true, if_false]

variable {ndn : Ndn} {d : Data}

/-- The data name of a record with a good full name does not end with a digest. -/
theorem hasImplicitDigest_of_check_fullName (h : check (ndn.fullName d) = .ok ()) :
    hasImplicitDigest d.name = false := by
  have ht := ((check_eq_ok_iff _).1 h).2.1
  rw [Ndn.fullName, getGenerationTimestamp_concat] at ht
  unfold hasImplicitDigest
  cases hl : d.name.get (-1) with
  | none => rfl
  | some c =>
      rw [hl, Option.bind_some, Component.toTimestamp] at ht
      split_ifs at ht with hc
      · simp only [Bool.and_eq_true, beq_iff_eq] at hc
        simp [Component.isImplicitSha256Digest, hc.1, Component.timestampType,
          Component.implicitSha256DigestType]
      · cases ht

theorem four_le_length_of_check_fullName (h : check (ndn.fullName d) = .ok ()) :
    4 ≤ d.name.length := by
  have hlen := ((check_eq_ok_iff _).1 h).1.2 (hasImplicitDigest_concat _ _)
  rw [Ndn.fullName, List.length_append, List.length_singleton] at hlen
  omega

/-- Every accessor reads the same from the name of a record and from its full name. -/
theorem sameReading_fullName (h : check (ndn.fullName d) = .ok ()) :
    SameReading (ndn.fullName d) d.name := by
  have hlen := four_le_length_of_check_fullName h
  exact sameReading_concat _ (by omega) (hasImplicitDigest_of_check_fullName h)

/-- The data name of a good full name is a good name. -/
theorem check_of_check_fullName (h : check (ndn.fullName d) = .ok ()) :
    check d.name = .ok () := by
  have hsame := sameReading_fullName h
  obtain ⟨_, ht, htype⟩ := (check_eq_ok_iff _).1 h
  rw [hsame.generationTimestamp] at ht
  rw [hsame.recordType] at htype
  refine (check_eq_ok_iff _).2 ⟨⟨four_le_length_of_check_fullName h, ?_⟩, ht, htype⟩
  rw [hasImplicitDigest_of_check_fullName h]
  intro hdigest
  cases hdigest

end FullName

end RecordName

end DLedger
