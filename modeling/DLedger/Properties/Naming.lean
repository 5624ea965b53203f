import DLedger.Ledger.Sample

set_option autoImplicit false

/-! # What record names say

A record is checked by its Data name and kept under its full name, and a new record gets a name
that is built from its parts. The two names read the same unless the Data name ends with a digest
itself, and the parts are read back when the identifier is parsed as one component that holds it.
-/

namespace DLedger

open Tlv (Bytes Block)

/-! ## Data names and full names -/

section FullName

variable {ndn : Ndn} {d : Data} {record : Record}

/-- **The full name of a record is a record name that reads like its Data name exactly when the
Data name does not itself end with a digest.** -/
theorem fullName_reads_iff (h : Record.ofData ndn d = .ok record) :
    (RecordName.check (ndn.fullName d) = .ok () ∧
      RecordName.SameReading (ndn.fullName d) d.name) ↔
      RecordName.hasImplicitDigest d.name = false := by
  constructor
  · rintro ⟨hcheck, _⟩
    exact RecordName.hasImplicitDigest_of_check_fullName hcheck
  · intro hdigest
    have hcheck : RecordName.check (ndn.fullName d) = .ok () :=
      RecordName.check_concat _ (Record.ofData_eq_ok h).1 hdigest
    exact ⟨hcheck, RecordName.sameReading_fullName hcheck⟩

theorem fullName_reads_packet :
    let d := Sample.packet 97 0 [Sample.genesis]
    (RecordName.check (Sample.ndn.fullName d) = .ok () ∧
      RecordName.SameReading (Sample.ndn.fullName d) d.name) ↔
      RecordName.hasImplicitDigest d.name = false :=
  fullName_reads_iff (Sample.ofData_packet 97 0 [Sample.genesis] (by decide +kernel))

/-- A record packet whose name ends with the 32 bytes of a digest. -/
def digestNamedPacket : Data :=
  let packet := Sample.packet 97 0 [Sample.genesis]
  { packet with
    name := packet.name ++ [.implicitSha256Digest (List.replicate 32 0)]
    signature := List.replicate 32 1 }

/-- **A packet whose name ends with a digest makes a record, but its full name is no record
name.** -/
theorem fullName_unread_digestNamedPacket :
    ¬ ∀ d record, Record.ofData Sample.ndn d = .ok record →
      RecordName.check (Sample.ndn.fullName d) = .ok () ∧
        RecordName.SameReading (Sample.ndn.fullName d) d.name := by
  intro hall
  have hdecoded : (Record.ofData Sample.ndn digestNamedPacket).toOption.isSome = true := by
    decide +kernel
  have hunread : RecordName.check (Sample.ndn.fullName digestNamedPacket) = .error .ndnError := by
    decide +kernel
  cases hdec : Record.ofData Sample.ndn digestNamedPacket with
  | error e =>
      rw [hdec] at hdecoded
      cases hdecoded
  | ok record =>
      obtain ⟨hcheck, _⟩ := hall digestNamedPacket record hdec
      rw [hunread] at hcheck
      cases hcheck

end FullName

/-! ## Names that are built -/

section Build

variable {ndn : Ndn} {n peerPrefix : Name} {type : RecordType} {identifier : Bytes} {time : Int}

/-- A name is accepted as a record name, and these are its parts. -/
structure ReadsAs (n peerPrefix : Name) (type : RecordType) (identifier : Bytes) (time : Int) :
    Prop where
  check : RecordName.check n = .ok ()
  producerPrefix : RecordName.getProducerPrefix n = peerPrefix
  recordType : RecordName.getRecordType n = type
  uniqueIdentifier : RecordName.getRecordUniqueIdentifier n = identifier
  generationTimestamp : RecordName.getGenerationTimestamp n = some time

/-- A digest that is appended changes nothing. -/
theorem ReadsAs.concat (h : ReadsAs n peerPrefix type identifier time)
    (hdigest : RecordName.hasImplicitDigest n = false) (digest : Bytes) :
    ReadsAs (n ++ [.implicitSha256Digest digest]) peerPrefix type identifier time := by
  have hlen := ((RecordName.check_eq_ok_iff n).1 h.check).1.1
  have hsame := RecordName.sameReading_concat digest (le_trans (by norm_num) hlen) hdigest
  exact ⟨RecordName.check_concat digest h.check hdigest,
    hsame.producerPrefix.trans h.producerPrefix, hsame.recordType.trans h.recordType,
    hsame.uniqueIdentifier.trans h.uniqueIdentifier,
    hsame.generationTimestamp.trans h.generationTimestamp⟩

/-- The producer is the prefix only where the identifier is one component: the accessors count
from the end. -/
theorem length_ofUri_of_build (hpeer : peerPrefix ≠ [])
    (h : RecordName.getProducerPrefix (RecordName.build ndn peerPrefix type identifier time)
      = peerPrefix) : (ndn.ofUri identifier).length = 1 := by
  have hpos := List.length_pos_iff.2 hpeer
  have hlen : (RecordName.build ndn peerPrefix type identifier time).length
      = peerPrefix.length + 1 + (ndn.ofUri identifier).length + 1 := by
    rw [build_type]
    simp only [List.length_append, List.length_singleton]
  have hk : ((RecordName.build ndn peerPrefix type identifier time).length : Int) - 3
      = ((peerPrefix.length + (ndn.ofUri identifier).length - 1 : Nat) : Int) := by
    omega
  simp only [RecordName.getProducerPrefix, hasImplicitDigest_build, Bool.false_eq_true, if_false,
    hk, Name.getPrefix_natCast] at h
  have hcount := congrArg List.length h
  rw [List.length_take, hlen] at hcount
  omega

/-- **A name that is built is read back as its parts, without and with a digest behind it,
exactly when its identifier is parsed as one component that holds the identifier itself.** -/
theorem build_reads_iff (hpeer : peerPrefix ≠ []) (htype : type ≠ .baseRecord)
    (hepoch : 0 ≤ time) (hmax : time < 2 ^ 63) (hmicro : time % 1000 = 0) :
    (ReadsAs (RecordName.build ndn peerPrefix type identifier time) peerPrefix type identifier
        time ∧
      ∀ digest, ReadsAs (RecordName.build ndn peerPrefix type identifier time
        ++ [.implicitSha256Digest digest]) peerPrefix type identifier time) ↔
      ∃ c, ndn.ofUri identifier = [c] ∧ c.value = identifier := by
  constructor
  · rintro ⟨h, _⟩
    obtain ⟨c, hc⟩ := List.length_eq_one_iff.1 (length_ofUri_of_build hpeer h.producerPrefix)
    refine ⟨c, hc, ?_⟩
    rw [← (read_build hc peerPrefix type time).2]
    exact h.uniqueIdentifier
  · rintro ⟨c, hc, hvalue⟩
    obtain ⟨hread, hident⟩ := read_build hc peerPrefix type time
    have htime : time / 1000 * 1000 = time := by omega
    have h : ReadsAs (RecordName.build ndn peerPrefix type identifier time) peerPrefix type
        identifier time := by
      refine ⟨check_build hc hpeer htype hepoch hmax, getProducerPrefix_build hc time, hread,
        hident.trans hvalue, ?_⟩
      rw [getGenerationTimestamp_build, Component.toTimestamp_ofTimestamp hepoch hmax, htime]
    exact ⟨h, h.concat (hasImplicitDigest_build _ _ _ _ _)⟩

theorem build_reads_one :
    (ReadsAs (RecordName.build Sample.ndn [.generic [97]] .genericRecord [49] 1000)
        [.generic [97]] .genericRecord [49] 1000 ∧
      ∀ digest, ReadsAs (RecordName.build Sample.ndn [.generic [97]] .genericRecord [49] 1000
        ++ [.implicitSha256Digest digest]) [.generic [97]] .genericRecord [49] 1000) ↔
      ∃ c, Sample.ndn.ofUri [49] = [c] ∧ c.value = [49] :=
  build_reads_iff (by decide) (by decide) (by norm_num) (by norm_num) (by norm_num)

/-- **An identifier with a slash is two components**, of which the first is then read as the
record type: `/a/Generic/b/c/<time>` is no record name. -/
theorem build_unread_slash :
    ¬ ∀ (peerPrefix : Name) (type : RecordType) (identifier : Bytes) (time : Int),
      peerPrefix ≠ [] → type ≠ .baseRecord → 0 ≤ time → time % 1000 = 0 →
      ReadsAs (RecordName.build Sample.ndn peerPrefix type identifier time) peerPrefix type
        identifier time := by
  intro hall
  have hunread : RecordName.check
      (RecordName.build Sample.ndn [.generic [97]] .genericRecord [98, 47, 99] 0)
        = .error (.runtimeError "record name invalid type") := by
    decide +kernel
  have hcheck := (hall [.generic [97]] .genericRecord [98, 47, 99] 0 (by decide) (by decide)
    (by norm_num) (by norm_num)).check
  rw [hunread] at hcheck
  cases hcheck

end Build

end DLedger
