import Mathlib.Tactic

set_option autoImplicit false

/-! # Type-length-value blocks

A block is a type number and a string of bytes. On the wire it is the type, the length of
the value and the value; types and lengths are *variable-length numbers*: one byte below
`253`, else a marker byte `253`, `254` or `255` followed by two, four or eight bytes, big
end first, in the shortest of these forms. A value is again a sequence of blocks when
`parse` succeeds on it.

The main facts are `parse_encodeAll`: parsing undoes encoding, for every list of blocks whose
encoding is shorter than `2 ^ 64` bytes; and `parse_eq_some_iff`: what parses is an encoding, and
an encoding of nothing else.
-/

namespace Tlv

abbrev Bytes := List UInt8

/-! ## Fixed-width numbers -/

/-- The `k` bytes of `n`, big end first. -/
def bigEndian : Nat → Nat → Bytes
  | 0, _ => []
  | k + 1, n => UInt8.ofNat (n / 256 ^ k) :: bigEndian k n

/-- The number a string of bytes denotes, big end first. -/
def ofBigEndian (bs : Bytes) : Nat := bs.foldl (fun acc b => acc * 256 + b.toNat) 0

@[simp] theorem bigEndian_length (k n : Nat) : (bigEndian k n).length = k := by
  induction k with
  | zero => rfl
  | succ k ih => simp [bigEndian, ih]

private theorem foldl_bigEndian (k n acc : Nat) :
    (bigEndian k n).foldl (fun acc b => acc * 256 + b.toNat) acc
      = acc * 256 ^ k + n % 256 ^ k := by
  induction k generalizing acc with
  | zero => simp [bigEndian, Nat.mod_one]
  | succ k ih =>
      have hb : (UInt8.ofNat (n / 256 ^ k)).toNat = n / 256 ^ k % 256 := by simp
      have hmod : n % 256 ^ (k + 1) = 256 ^ k * (n / 256 ^ k % 256) + n % 256 ^ k := by
        rw [pow_succ, Nat.mod_mul]; ring
      rw [bigEndian, List.foldl_cons, ih, hb, hmod]
      ring

theorem ofBigEndian_bigEndian {k n : Nat} (h : n < 256 ^ k) :
    ofBigEndian (bigEndian k n) = n := by
  rw [ofBigEndian, foldl_bigEndian, Nat.mod_eq_of_lt h]
  omega

private theorem foldl_ofBigEndian (bs : Bytes) (acc : Nat) :
    bs.foldl (fun acc b => acc * 256 + b.toNat) acc
      = acc * 256 ^ bs.length + ofBigEndian bs := by
  induction bs generalizing acc with
  | nil => simp [ofBigEndian]
  | cons b bs ih =>
      have htail : ofBigEndian (b :: bs) = b.toNat * 256 ^ bs.length + ofBigEndian bs := by
        rw [ofBigEndian, List.foldl_cons, ih, Nat.zero_mul, Nat.zero_add]
      rw [List.foldl_cons, ih, htail, List.length_cons, pow_succ]
      ring

theorem ofBigEndian_cons (b : UInt8) (bs : Bytes) :
    ofBigEndian (b :: bs) = b.toNat * 256 ^ bs.length + ofBigEndian bs := by
  rw [ofBigEndian, List.foldl_cons, foldl_ofBigEndian, Nat.zero_mul, Nat.zero_add]

theorem ofBigEndian_lt (bs : Bytes) : ofBigEndian bs < 256 ^ bs.length := by
  induction bs with
  | nil => simp [ofBigEndian]
  | cons b bs ih =>
      have hb : b.toNat < 256 := b.toNat_lt
      calc ofBigEndian (b :: bs)
          = b.toNat * 256 ^ bs.length + ofBigEndian bs := ofBigEndian_cons b bs
        _ < b.toNat * 256 ^ bs.length + 256 ^ bs.length := by omega
        _ = (b.toNat + 1) * 256 ^ bs.length := by ring
        _ ≤ 256 * 256 ^ bs.length := by apply Nat.mul_le_mul_right; omega
        _ = 256 ^ (b :: bs).length := by rw [List.length_cons, pow_succ]; ring

/-- The `k` low bytes of a number do not depend on what stands above them. -/
theorem bigEndian_add_mul (k m a : Nat) : bigEndian k (a * 256 ^ k + m) = bigEndian k m := by
  induction k generalizing a with
  | zero => rfl
  | succ k ih =>
      have hpos : 0 < 256 ^ k := by positivity
      have hsplit : a * 256 ^ (k + 1) + m = a * 256 * 256 ^ k + m := by rw [pow_succ]; ring
      have hdiv : (a * 256 * 256 ^ k + m) / 256 ^ k = m / 256 ^ k + 256 * a := by
        rw [Nat.add_comm, Nat.add_mul_div_right _ _ hpos]
        ring
      have hbyte : UInt8.ofNat (m / 256 ^ k + 256 * a) = UInt8.ofNat (m / 256 ^ k) := by
        apply UInt8.toNat_inj.1
        simp only [UInt8.toNat_ofNat']
        omega
      rw [bigEndian, bigEndian, hsplit, hdiv, hbyte, ih]

/-- Writing a number back gives the bytes that it was read from. -/
theorem bigEndian_ofBigEndian (bs : Bytes) : bigEndian bs.length (ofBigEndian bs) = bs := by
  induction bs with
  | nil => rfl
  | cons b bs ih =>
      have hlt := ofBigEndian_lt bs
      have hdiv : (b.toNat * 256 ^ bs.length + ofBigEndian bs) / 256 ^ bs.length = b.toNat := by
        rw [Nat.add_comm, Nat.add_mul_div_right _ _ (by positivity), Nat.div_eq_of_lt hlt]
        omega
      rw [List.length_cons, bigEndian, ofBigEndian_cons, hdiv, bigEndian_add_mul, ih,
        UInt8.ofNat_toNat]

/-! ## Variable-length numbers -/

def encodeNumber (n : Nat) : Bytes :=
  if n < 253 then [UInt8.ofNat n]
  else if n < 2 ^ 16 then 253 :: bigEndian 2 n
  else if n < 2 ^ 32 then 254 :: bigEndian 4 n
  else 255 :: bigEndian 8 n

/-- Read `k` bytes as a number that has no shorter form: it is at least `least`. -/
def decodeWide (k least : Nat) (bs : Bytes) : Option (Nat × Bytes) :=
  if k ≤ bs.length ∧ least ≤ ofBigEndian (bs.take k) then
    some (ofBigEndian (bs.take k), bs.drop k)
  else none

def decodeNumber : Bytes → Option (Nat × Bytes)
  | [] => none
  | b :: bs =>
      if b < 253 then some (b.toNat, bs)
      else if b = 253 then decodeWide 2 253 bs
      else if b = 254 then decodeWide 4 (2 ^ 16) bs
      else decodeWide 8 (2 ^ 32) bs

theorem encodeNumber_ne_nil (n : Nat) : encodeNumber n ≠ [] := by
  unfold encodeNumber
  split_ifs <;> simp

private theorem decodeWide_bigEndian {k least n : Nat} (hn : n < 256 ^ k) (hl : least ≤ n)
    (rest : Bytes) : decodeWide k least (bigEndian k n ++ rest) = some (n, rest) := by
  have htake : (bigEndian k n ++ rest).take k = bigEndian k n := by
    rw [List.take_left' (bigEndian_length k n)]
  have hdrop : (bigEndian k n ++ rest).drop k = rest := by
    rw [List.drop_left' (bigEndian_length k n)]
  rw [decodeWide, htake, hdrop, ofBigEndian_bigEndian hn, if_pos]
  exact ⟨by simp, hl⟩

/-- Reading a number back from the front of its encoding. -/
theorem decodeNumber_encodeNumber {n : Nat} (h : n < 2 ^ 64) (rest : Bytes) :
    decodeNumber (encodeNumber n ++ rest) = some (n, rest) := by
  unfold encodeNumber
  split_ifs with h1 h2 h3
  · have hn : (UInt8.ofNat n).toNat = n := by simp; omega
    have hlt : UInt8.ofNat n < 253 := by rw [UInt8.lt_iff_toNat_lt, hn]; exact h1
    rw [List.singleton_append, decodeNumber, if_pos hlt, hn]
  · rw [List.cons_append, decodeNumber, if_neg (by decide), if_pos rfl]
    exact decodeWide_bigEndian (by omega) (by omega) rest
  · rw [List.cons_append, decodeNumber, if_neg (by decide), if_neg (by decide), if_pos rfl]
    exact decodeWide_bigEndian (by omega) (by omega) rest
  · rw [List.cons_append, decodeNumber, if_neg (by decide), if_neg (by decide),
      if_neg (by decide)]
    exact decodeWide_bigEndian (by omega) (by omega) rest

private theorem decodeWide_eq_some {k least n : Nat} {bs rest : Bytes}
    (h : decodeWide k least bs = some (n, rest)) :
    least ≤ n ∧ n < 256 ^ k ∧ bigEndian k n ++ rest = bs := by
  rw [decodeWide] at h
  by_cases hwide : k ≤ bs.length ∧ least ≤ ofBigEndian (bs.take k)
  · rw [if_pos hwide, Option.some.injEq, Prod.mk.injEq] at h
    obtain ⟨rfl, rfl⟩ := h
    have hlen : (bs.take k).length = k := by rw [List.length_take]; omega
    have hlt := ofBigEndian_lt (bs.take k)
    have hback := bigEndian_ofBigEndian (bs.take k)
    rw [hlen] at hlt hback
    exact ⟨hwide.2, hlt, by rw [hback, List.take_append_drop]⟩
  · rw [if_neg hwide] at h
    contradiction

/-- A number that is read is below `2 ^ 64`, and stood there in its only form. -/
theorem encodeNumber_of_decodeNumber {bs rest : Bytes} {n : Nat}
    (h : decodeNumber bs = some (n, rest)) : n < 2 ^ 64 ∧ encodeNumber n ++ rest = bs := by
  cases bs with
  | nil => contradiction
  | cons b bs =>
      rw [decodeNumber] at h
      by_cases h1 : b < 253
      · have hb : b.toNat < 253 := UInt8.lt_iff_toNat_lt.1 h1
        rw [if_pos h1, Option.some.injEq, Prod.mk.injEq] at h
        obtain ⟨rfl, rfl⟩ := h
        refine ⟨by omega, ?_⟩
        rw [encodeNumber, if_pos hb, UInt8.ofNat_toNat]
        rfl
      rw [if_neg h1] at h
      by_cases h2 : b = 253
      · rw [if_pos h2] at h
        obtain ⟨hle, hlt, hbs⟩ := decodeWide_eq_some h
        refine ⟨by omega, ?_⟩
        rw [encodeNumber, if_neg (by omega), if_pos (by omega), h2, ← hbs]
        rfl
      rw [if_neg h2] at h
      by_cases h3 : b = 254
      · rw [if_pos h3] at h
        obtain ⟨hle, hlt, hbs⟩ := decodeWide_eq_some h
        refine ⟨by omega, ?_⟩
        rw [encodeNumber, if_neg (by omega), if_neg (by omega), if_pos (by omega), h3, ← hbs]
        rfl
      · rw [if_neg h3] at h
        obtain ⟨hle, hlt, hbs⟩ := decodeWide_eq_some h
        -- the last marker: the only byte that is none of the others
        have hb : b = 255 := by
          apply UInt8.toNat_inj.1
          have h1' : ¬ b.toNat < 253 := fun hlt' => h1 (UInt8.lt_iff_toNat_lt.2 hlt')
          have h2' : b.toNat ≠ 253 := fun heq => h2 (UInt8.toNat_inj.1 heq)
          have h3' : b.toNat ≠ 254 := fun heq => h3 (UInt8.toNat_inj.1 heq)
          have hmax := b.toNat_lt
          show b.toNat = 255
          omega
        refine ⟨by omega, ?_⟩
        rw [encodeNumber, if_neg (by omega), if_neg (by omega), if_neg (by omega), hb, ← hbs]
        rfl

/-! ## Blocks -/

/-- A block: a type number of four bytes other than `0`, and a value. -/
structure Block where
  type : Nat
  value : Bytes
  type_valid : 0 < type ∧ type < 2 ^ 32
deriving DecidableEq

def Block.encode (b : Block) : Bytes :=
  encodeNumber b.type ++ (encodeNumber b.value.length ++ b.value)

def encodeAll (bs : List Block) : Bytes := bs.flatMap Block.encode

/-- Read one block from the front of a string of bytes. -/
def decodeBlock (bs : Bytes) : Option (Block × Bytes) :=
  match decodeNumber bs with
  | none => none
  | some (type, bs) =>
      if h : 0 < type ∧ type < 2 ^ 32 then
        match decodeNumber bs with
        | none => none
        | some (len, bs) =>
            if len ≤ bs.length then some (⟨type, bs.take len, h⟩, bs.drop len) else none
      else none

/-- Read blocks until no byte is left; `fuel` bounds their number. -/
def parseFuel : Nat → Bytes → Option (List Block)
  | _, [] => some []
  | 0, _ :: _ => none
  | fuel + 1, b :: bs =>
      match decodeBlock (b :: bs) with
      | none => none
      | some (block, rest) => (parseFuel fuel rest).map (block :: ·)

/-- The blocks a string of bytes is the encoding of. Every block takes at least one byte,
so the length of the string is fuel enough. -/
def parse (bs : Bytes) : Option (List Block) := parseFuel bs.length bs

@[simp] theorem encodeAll_nil : encodeAll [] = [] := rfl

@[simp] theorem encodeAll_cons (b : Block) (bs : List Block) :
    encodeAll (b :: bs) = b.encode ++ encodeAll bs := rfl

theorem Block.encode_ne_nil (b : Block) : b.encode ≠ [] := by
  simp [Block.encode, encodeNumber_ne_nil]

theorem Block.value_length_le (b : Block) : b.value.length ≤ b.encode.length := by
  simp only [Block.encode, List.length_append]
  omega

theorem decodeBlock_encode (b : Block) (hlen : b.value.length < 2 ^ 64) (rest : Bytes) :
    decodeBlock (b.encode ++ rest) = some (b, rest) := by
  have htype : b.type < 2 ^ 64 := lt_trans b.type_valid.2 (by norm_num)
  simp only [decodeBlock, Block.encode, List.append_assoc,
    decodeNumber_encodeNumber htype, decodeNumber_encodeNumber hlen]
  rw [dif_pos b.type_valid, if_pos (by simp)]
  simp

theorem encode_length_le_encodeAll {b : Block} {bs : List Block} (h : b ∈ bs) :
    b.encode.length ≤ (encodeAll bs).length := by
  induction bs with
  | nil => cases h
  | cons c cs ih =>
      rw [encodeAll_cons, List.length_append]
      rcases List.mem_cons.mp h with rfl | h
      · omega
      · have := ih h; omega

theorem parseFuel_encodeAll (bs : List Block) (h : ∀ b ∈ bs, b.value.length < 2 ^ 64) :
    ∀ fuel, (encodeAll bs).length ≤ fuel → parseFuel fuel (encodeAll bs) = some bs := by
  induction bs with
  | nil => intro fuel _; cases fuel <;> rfl
  | cons b bs ih =>
      intro fuel hfuel
      have hpos : 0 < b.encode.length := List.length_pos_iff.2 b.encode_ne_nil
      rw [encodeAll_cons, List.length_append] at hfuel
      obtain ⟨fuel, rfl⟩ : ∃ f, fuel = f + 1 := ⟨fuel - 1, by omega⟩
      have hdec : decodeBlock (b.encode ++ encodeAll bs) = some (b, encodeAll bs) :=
        decodeBlock_encode b (h b List.mem_cons_self) _
      have hrest := ih (fun c hc => h c (List.mem_cons_of_mem b hc)) fuel (by omega)
      rw [encodeAll_cons]
      obtain ⟨c, cs, hc⟩ := List.exists_cons_of_ne_nil
        (show b.encode ++ encodeAll bs ≠ [] by simp [b.encode_ne_nil])
      rw [hc] at hdec ⊢
      simp only [parseFuel, hdec, hrest, Option.map_some]

/-- **Parsing undoes encoding.** -/
theorem parse_encodeAll (bs : List Block) (h : (encodeAll bs).length < 2 ^ 64) :
    parse (encodeAll bs) = some bs := by
  refine parseFuel_encodeAll bs ?_ _ le_rfl
  intro b hb
  exact lt_of_le_of_lt (b.value_length_le.trans (encode_length_le_encodeAll hb)) h

/-! ## What parses -/

/-- A block that is read has a length that eight bytes hold, and stood there encoded. -/
theorem encode_of_decodeBlock {bs rest : Bytes} {b : Block}
    (h : decodeBlock bs = some (b, rest)) : b.value.length < 2 ^ 64 ∧ b.encode ++ rest = bs := by
  rw [decodeBlock] at h
  cases hd1 : decodeNumber bs with
  | none => simp only [hd1] at h; contradiction
  | some read =>
      obtain ⟨type, bs1⟩ := read
      simp only [hd1] at h
      by_cases htype : 0 < type ∧ type < 2 ^ 32
      · rw [dif_pos htype] at h
        cases hd2 : decodeNumber bs1 with
        | none => simp only [hd2] at h; contradiction
        | some read =>
            obtain ⟨len, bs2⟩ := read
            simp only [hd2] at h
            by_cases hle : len ≤ bs2.length
            · rw [if_pos hle, Option.some.injEq, Prod.mk.injEq] at h
              obtain ⟨rfl, rfl⟩ := h
              -- the two numbers are in their shortest form, so encoding gives them back
              obtain ⟨_, hbs⟩ := encodeNumber_of_decodeNumber hd1
              obtain ⟨hlt, hbs1⟩ := encodeNumber_of_decodeNumber hd2
              have hvalue : (bs2.take len).length = len := by rw [List.length_take]; omega
              refine ⟨lt_of_eq_of_lt hvalue hlt, ?_⟩
              rw [← hbs, ← hbs1]
              simp only [Block.encode, hvalue, List.append_assoc, List.take_append_drop]
            · rw [if_neg hle] at h
              contradiction
      · rw [dif_neg htype] at h
        contradiction

theorem encodeAll_of_parseFuel {fuel : Nat} {bs : Bytes} {blocks : List Block}
    (h : parseFuel fuel bs = some blocks) :
    encodeAll blocks = bs ∧ ∀ b ∈ blocks, b.value.length < 2 ^ 64 := by
  induction fuel generalizing bs blocks with
  | zero =>
      cases bs with
      | nil => rw [parseFuel, Option.some.injEq] at h; subst h; simp
      | cons c cs => contradiction
  | succ fuel ih =>
      cases bs with
      | nil => rw [parseFuel, Option.some.injEq] at h; subst h; simp
      | cons c cs =>
          rw [parseFuel] at h
          cases hd : decodeBlock (c :: cs) with
          | none => simp only [hd] at h; contradiction
          | some read =>
              obtain ⟨block, rest⟩ := read
              simp only [hd] at h
              obtain ⟨blocks, hrest, rfl⟩ := Option.map_eq_some_iff.1 h
              obtain ⟨hlen, hblock⟩ := encode_of_decodeBlock hd
              obtain ⟨hall, hlens⟩ := ih hrest
              refine ⟨by rw [encodeAll_cons, hall, hblock], ?_⟩
              intro b hb
              rcases List.mem_cons.1 hb with rfl | hb
              · exact hlen
              · exact hlens b hb

/-- A string of bytes is a sequence of blocks: it is their encoding, and the length of each
value is one that can be written. -/
def Encodes (blocks : List Block) (bs : Bytes) : Prop :=
  encodeAll blocks = bs ∧ ∀ b ∈ blocks, b.value.length < 2 ^ 64

/-- **What parses is the encoding of what it parses to, and every encoding parses.** -/
theorem parse_eq_some_iff {bs : Bytes} {blocks : List Block} :
    parse bs = some blocks ↔ Encodes blocks bs := by
  constructor
  · intro h
    exact encodeAll_of_parseFuel h
  · rintro ⟨rfl, hlens⟩
    exact parseFuel_encodeAll blocks hlens _ le_rfl

end Tlv
