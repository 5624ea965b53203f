import DLedger.Ndn.Packet

set_option autoImplicit false

/-! # The database

LevelDB is an ordered map from keys to values, ordered by the bytes of the keys. A record is
stored under the URI of its full name.
-/

namespace DLedger

open Tlv (Bytes Block)

structure Backend where
  db : Std.TreeMap Bytes Data

namespace Backend

variable (ndn : Ndn)

/-- `Backend::getRecord`; `none` is the null pointer. -/
def getRecord (b : Backend) (recordName : Name) : Option Data :=
  b.db[ndn.toUri recordName]?

/-- `Backend::putRecord`. `ok` tells whether the write to the database succeeds. -/
def putRecord (b : Backend) (ok : Bool) (recordData : Data) : Backend × Bool :=
  if ok then (⟨b.db.insert (ndn.toUri (ndn.fullName recordData)) recordData⟩, true)
  else (b, false)

/-- `Backend::deleteRecord`. -/
def deleteRecord (b : Backend) (ok : Bool) (recordName : Name) : Backend :=
  if ok then ⟨b.db.erase (ndn.toUri recordName)⟩ else b

/-- `Backend::listRecord`: the scan starts at the first key not below the URI of the prefix
and stops at the first key that is not the URI of a name under it. -/
def listRecord (b : Backend) (namePrefix : Name) : List Name :=
  ((b.db.keys.dropWhile fun key => compare key (ndn.toUri namePrefix) == .lt).takeWhile
    fun key => namePrefix.isPrefixOf (ndn.ofUri key)).map ndn.ofUri

def empty : Backend := ⟨∅⟩

@[simp] theorem getRecord_empty (n : Name) : empty.getRecord ndn n = none := by
  simp [getRecord, empty]

/-- A successful write stores the packet under its full name and touches nothing else. -/
@[simp] theorem getRecord_putRecord (b : Backend) (d : Data) (n : Name) :
    (b.putRecord ndn true d).1.getRecord ndn n
      = if ndn.fullName d = n then some d else b.getRecord ndn n := by
  simp only [getRecord, putRecord, if_true, Std.TreeMap.getElem?_insert,
    Std.LawfulEqOrd.compare_eq_iff_eq, ndn.toUri_inj]

@[simp] theorem putRecord_false (b : Backend) (d : Data) :
    (b.putRecord ndn false d).1 = b := rfl

/-! ## Writes that succeed -/

inductive Write where
  | put (recordData : Data)
  | delete (recordName : Name)

def write (b : Backend) : Write → Backend
  | .put d => (b.putRecord ndn true d).1
  | .delete n => b.deleteRecord ndn true n

/-- The names that are stored after a write, as a set. -/
def Write.store (names : Finset Name) : Write → Finset Name
  | .put d => insert (ndn.fullName d) names
  | .delete n => names.erase n

/-- The names that are stored after a sequence of writes to an empty database. -/
def stored (ws : List Write) : Finset Name := ws.foldl (Write.store ndn) ∅

/-- The keys of the database are the URIs of a set of names. -/
def Holds (b : Backend) (names : Finset Name) : Prop :=
  ∀ key, key ∈ b.db ↔ ∃ n ∈ names, ndn.toUri n = key

theorem holds_empty : empty.Holds ndn ∅ := by
  intro key
  simp [empty]

variable {ndn} in
theorem Holds.write {b : Backend} {names : Finset Name} (h : b.Holds ndn names) (w : Write) :
    (b.write ndn w).Holds ndn (w.store ndn names) := by
  intro key
  cases w with
  | put d =>
      simp only [Backend.write, putRecord, if_true, Write.store, Std.TreeMap.mem_insert,
        Std.LawfulEqOrd.compare_eq_iff_eq, h key, Finset.exists_mem_insert]
  | delete n =>
      simp only [Backend.write, deleteRecord, if_true, Write.store, Std.TreeMap.mem_erase, h key,
        Finset.mem_erase]
      constructor
      · rintro ⟨hne, m, hm, rfl⟩
        refine ⟨m, ⟨fun heq => hne ?_, hm⟩, rfl⟩
        exact Std.LawfulEqOrd.compare_eq_iff_eq.2 (by rw [heq])
      · rintro ⟨m, ⟨hne, hm⟩, rfl⟩
        refine ⟨fun heq => hne ?_, m, hm, rfl⟩
        exact (ndn.toUri_inj.1 (Std.LawfulEqOrd.eq_of_compare heq)).symm

/-- After any sequence of writes the keys are the URIs of the stored names. -/
theorem holds_writes (ws : List Write) :
    (ws.foldl (write ndn) empty).Holds ndn (stored ndn ws) := by
  have hrun : ∀ (b : Backend) (names : Finset Name), b.Holds ndn names →
      (ws.foldl (write ndn) b).Holds ndn (ws.foldl (Write.store ndn) names) := by
    induction ws with
    | nil => exact fun _ _ h => h
    | cons w ws ih => exact fun b names h => ih _ _ (h.write w)
  exact hrun empty ∅ (holds_empty ndn)

end Backend

end DLedger
