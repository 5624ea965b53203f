import DLedger.Lib.Tlv
import Mathlib.Data.Finset.Card

set_option autoImplicit false

/-! # NDN names

A name is a list of components; a component has a TLV type and a value. Names are ordered
by the NDN canonical order: component by component, a component by its type, then by the
length of its value, then by the bytes of the value, and a shorter name before its
extensions. `std::map<Name, _>` and `std::set<Name>` are the ordered map and set of the
standard library over this order.
-/

namespace DLedger

open Tlv (Bytes Block)

/-! ## Components -/

/-- A name component; its type number has two bytes and is not `0`. -/
structure Component where
  type : Nat
  value : Bytes
  type_valid : 0 < type ∧ type < 2 ^ 16 := by decide
deriving DecidableEq

namespace Component

/-! The TLV types of components that the code names or makes. -/

def implicitSha256DigestType : Nat := 1
def genericType : Nat := 8
def timestampType : Nat := 36

def generic (value : Bytes) : Component := { type := genericType, value }

def implicitSha256Digest (digest : Bytes) : Component :=
  { type := implicitSha256DigestType, value := digest }

def isImplicitSha256Digest (c : Component) : Bool := c.type == implicitSha256DigestType

/-- Times are nanoseconds since the Unix epoch; a timestamp component counts microseconds
in the shortest of the four widths of a non-negative integer. -/
def ofTimestamp (time : Int) : Component :=
  let n := (time / 1000).toNat
  let width := if n < 2 ^ 8 then 1 else if n < 2 ^ 16 then 2 else if n < 2 ^ 32 then 4 else 8
  { type := timestampType, value := Tlv.bigEndian width n }

/-- `none` where `Component::toTimestamp` throws. Counts that overflow the 64-bit nanoseconds of the
library are times like the others here. -/
def toTimestamp (c : Component) : Option Int :=
  if c.type == timestampType && [1, 2, 4, 8].contains c.value.length then
    some ((Tlv.ofBigEndian c.value : Int) * 1000)
  else none

/-- A time that a 64-bit count of nanoseconds since the epoch holds is read back, without the
part below a microsecond. -/
theorem toTimestamp_ofTimestamp {time : Int} (hepoch : 0 ≤ time) (hmax : time < 2 ^ 63) :
    (ofTimestamp time).toTimestamp = some (time / 1000 * 1000) := by
  set n := (time / 1000).toNat with hn
  have hcast : ((n : Nat) : Int) = time / 1000 := by omega
  obtain ⟨width, hwidth, hvalue, hlt⟩ : ∃ width, [1, 2, 4, 8].contains width = true ∧
      (ofTimestamp time).value = Tlv.bigEndian width n ∧ n < 256 ^ width := by
    refine ⟨if n < 2 ^ 8 then 1 else if n < 2 ^ 16 then 2 else if n < 2 ^ 32 then 4 else 8,
      ?_, rfl, ?_⟩
    · split_ifs <;> rfl
    · split_ifs <;> omega
  have htype : (ofTimestamp time).type = timestampType := rfl
  rw [toTimestamp, htype, hvalue, Tlv.bigEndian_length, hwidth, Tlv.ofBigEndian_bigEndian hlt,
    hcast]
  rfl

/-- The canonical order of components. -/
def order (a b : Component) : Ordering :=
  (compare a.type b.type).then
    ((compare a.value.length b.value.length).then (compare a.value b.value))

instance : Ord Component := ⟨order⟩

instance : Std.TransOrd Component :=
  inferInstanceAs <| Std.TransCmp (compareLex (compareOn Component.type)
    (compareLex (compareOn (fun c => c.value.length)) (compareOn Component.value)))

instance : Std.LawfulEqOrd Component where
  compare_self {a} := by
    show order a a = .eq
    simp [order]
  eq_of_compare {a b} h := by
    have h' : order a b = .eq := h
    simp only [order, Ordering.then_eq_eq, Std.LawfulEqOrd.compare_eq_iff_eq] at h'
    obtain ⟨ta, va, _⟩ := a
    obtain ⟨tb, vb, _⟩ := b
    obtain ⟨rfl, _, rfl⟩ := h'
    rfl

end Component

/-! ## Names -/

abbrev Name := List Component

namespace Name

/-- `Name::get`: a negative index counts from the end; `none` where it throws. -/
def get (n : Name) (i : Int) : Option Component :=
  if 0 ≤ i then n[i.toNat]?
  else if 0 ≤ n.length + i then n[(n.length + i).toNat]? else none

/-- `Name::getPrefix`: a negative argument drops components from the end. Below `-size()`
the count wraps to a large one and the whole name is returned. -/
def getPrefix (n : Name) (k : Int) : Name :=
  if 0 ≤ k then n.take k.toNat
  else if 0 ≤ n.length + k then n.take (n.length + k).toNat else n

def isPrefixOf (p n : Name) : Bool := List.isPrefixOf p n

theorem isPrefixOf_iff (p n : Name) : isPrefixOf p n = true ↔ p <+: n :=
  List.isPrefixOf_iff_prefix

theorem take_isPrefixOf (n : Name) (k : Nat) : isPrefixOf (n.take k) n = true :=
  (isPrefixOf_iff _ _).2 (List.take_prefix k n)

theorem getPrefix_isPrefixOf (n : Name) (k : Int) : isPrefixOf (n.getPrefix k) n = true := by
  unfold getPrefix
  split_ifs
  · exact take_isPrefixOf n _
  · exact take_isPrefixOf n _
  · exact (isPrefixOf_iff n n).2 (List.prefix_refl n)

theorem getPrefix_natCast (n : Name) (k : Nat) : n.getPrefix (k : Int) = n.take k := by
  rw [getPrefix, if_pos (Int.natCast_nonneg k), Int.toNat_natCast]

theorem get_concat_neg_one (n : Name) (c : Component) : get (n ++ [c]) (-1) = some c := by
  simp [get]

/-- Behind its last component a name reads as without it, one place further. -/
theorem get_concat (n : Name) (c : Component) {i : Int} (hi : i < -1) :
    get (n ++ [c]) i = get n (i + 1) := by
  have hneg : ¬ 0 ≤ i := by omega
  have hneg' : ¬ 0 ≤ i + 1 := by omega
  have hk : ((n ++ [c]).length : Int) + i = n.length + (i + 1) := by
    rw [List.length_append, List.length_singleton]; push_cast; ring
  simp only [get, hneg, hneg', if_false, hk]
  by_cases h : 0 ≤ (n.length : Int) + (i + 1)
  · rw [if_pos h, if_pos h, List.getElem?_append_left (by omega)]
  · rw [if_neg h, if_neg h]

/-! ### Wire format -/

/-- The TLV type of a name. -/
def nameType : Nat := 7

def componentBlock (c : Component) : Block :=
  ⟨c.type, c.value, c.type_valid.1, lt_trans c.type_valid.2 (by norm_num)⟩

def ofComponentBlock (b : Block) : Option Component :=
  if h : b.type < 2 ^ 16 then some ⟨b.type, b.value, b.type_valid.1, h⟩ else none

/-- `Name::wireEncode`. -/
def wireEncode (n : Name) : Block :=
  ⟨nameType, Tlv.encodeAll (n.map componentBlock), by decide⟩

/-- `Name::wireDecode`; `none` where it throws. -/
def wireDecode (b : Block) : Option Name :=
  if b.type = nameType then
    (Tlv.parse b.value).bind fun bs => bs.mapM ofComponentBlock
  else none

@[simp] theorem ofComponentBlock_componentBlock (c : Component) :
    ofComponentBlock (componentBlock c) = some c := by
  rw [ofComponentBlock, dif_pos (show (componentBlock c).type < 2 ^ 16 from c.type_valid.2)]
  rfl

theorem mapM_ofComponentBlock (n : Name) :
    (n.map componentBlock).mapM ofComponentBlock = some n := by
  induction n with
  | nil => rfl
  | cons c n ih => simp [List.mapM_cons, ih]

/-- Decoding a name undoes encoding it. -/
theorem wireDecode_wireEncode (n : Name) (h : (wireEncode n).value.length < 2 ^ 64) :
    wireDecode (wireEncode n) = some n := by
  simp only [wireDecode, wireEncode, if_true] at h ⊢
  rw [Tlv.parse_encodeAll _ h]
  exact mapM_ofComponentBlock n

end Name

end DLedger
