import Mathlib.Tactic

set_option autoImplicit false

/-! # Frames on a stream

A reader that takes a stream element by element knows where an item ends when no encoding is a
prefix of another one: a prefix code. The frames with a header of fixed size, a length and that
many bytes are such a code.
-/

namespace Framing

/-! ## Prefix codes -/

/-- A decoder that waits while an encoding is not complete. -/
structure PrefixCode (β α : Type) where
  encode : α → List β
  decode : List β → Option α
  decode_of_prefix : ∀ {a : α} {got : List β}, encode a <+: got → decode got = some a
  decode_of_short : ∀ {a : α} {got : List β}, got <+: encode a → got ≠ encode a →
    decode got = none

namespace PrefixCode

variable {β α : Type} (C : PrefixCode β α) {a : α} {as : List α} {b : β} {got rest more : List β}

def encodeAll (as : List α) : List β := (as.map C.encode).flatten

@[simp] theorem encodeAll_nil : C.encodeAll [] = [] := rfl

@[simp] theorem encodeAll_cons (a : α) (as : List α) :
    C.encodeAll (a :: as) = C.encode a ++ C.encodeAll as := rfl

theorem encodeAll_append (as bs : List α) :
    C.encodeAll (as ++ bs) = C.encodeAll as ++ C.encodeAll bs := by
  simp [encodeAll]

theorem decode_encode (a : α) : C.decode (C.encode a) = some a :=
  C.decode_of_prefix List.prefix_rfl

variable {C}

/-- A reader that waits has more to read. -/
theorem rest_ne_nil (hstream : got ++ rest = C.encode a ++ more) (hwait : C.decode got = none) :
    rest ≠ [] := by
  rintro rfl
  rw [List.append_nil] at hstream
  have hdone := C.decode_of_prefix (hstream ▸ List.prefix_append (C.encode a) more)
  rw [hwait] at hdone
  cases hdone

/-- **One more element** leaves the reader waiting, or it completes the item, and what is left is
what comes behind the item. -/
theorem decode_next (hstream : got ++ b :: rest = C.encode a ++ more)
    (hwait : C.decode got = none) :
    C.decode (got ++ [b]) = none ∨ C.decode (got ++ [b]) = some a ∧ rest = more := by
  have hstream' : (got ++ [b]) ++ rest = C.encode a ++ more := by
    rw [List.append_assoc]
    exact hstream
  rcases List.append_eq_append_iff.1 hstream' with ⟨tail, hencode, hrest⟩ | ⟨tail, hgot, hmore⟩
  · by_cases htail : tail = []
    · subst htail
      rw [List.append_nil] at hencode
      rw [List.nil_append] at hrest
      exact Or.inr ⟨by rw [← hencode, C.decode_encode], hrest⟩
    · refine Or.inl (C.decode_of_short ⟨tail, hencode.symm⟩ fun heq => htail ?_)
      rw [← heq, List.self_eq_append_right] at hencode
      exact hencode
  · -- the item was complete with this element: it was not before
    rcases List.eq_nil_or_concat tail with rfl | ⟨init, last, rfl⟩
    · rw [List.append_nil] at hgot
      rw [List.nil_append] at hmore
      exact Or.inr ⟨by rw [hgot, C.decode_encode], hmore.symm⟩
    · have hprefix : C.encode a <+: got := by
        rw [List.concat_eq_append, ← List.append_assoc] at hgot
        exact ⟨init, (List.append_inj_left' hgot rfl).symm⟩
      rw [C.decode_of_prefix hprefix] at hwait
      cases hwait

end PrefixCode

/-! ## Lengths -/

/-- Four bytes, least significant first. -/
def le32 (n : Nat) : List UInt8 :=
  [UInt8.ofNat n, UInt8.ofNat (n / 2 ^ 8), UInt8.ofNat (n / 2 ^ 16), UInt8.ofNat (n / 2 ^ 24)]

def ofLe32 (bytes : List UInt8) : Nat := bytes.foldr (fun b n => b.toNat + 2 ^ 8 * n) 0

@[simp] theorem le32_length (n : Nat) : (le32 n).length = 4 := rfl

theorem ofLe32_le32 {n : Nat} (h : n < 2 ^ 32) : ofLe32 (le32 n) = n := by
  simp only [ofLe32, le32, List.foldr_cons, List.foldr_nil, UInt8.toNat_ofNat']
  omega

theorem ofLe32_lt {bytes : List UInt8} (h : bytes.length = 4) : ofLe32 bytes < 2 ^ 32 := by
  match bytes, h with
  | [a, b, c, d], _ =>
      have ha := a.toNat_lt
      have hb := b.toNat_lt
      have hc := c.toNat_lt
      have hd := d.toNat_lt
      simp only [ofLe32, List.foldr_cons, List.foldr_nil]
      omega

/-! ## Frames -/

/-- A header of fixed size and a payload whose length fits into four bytes. -/
@[ext] structure Frame (size : Nat) where
  header : List UInt8
  payload : List UInt8
  header_length : header.length = size
  payload_length : payload.length < 2 ^ 32

namespace Frame

variable {size : Nat}

def encode (f : Frame size) : List UInt8 := f.header ++ le32 f.payload.length ++ f.payload

def decode (got : List UInt8) : Option (Frame size) :=
  if h : got.length < size + 4 then none
  else
    let n := ofLe32 ((got.drop size).take 4)
    if h' : got.length < size + 4 + n then none
    else some {
      header := got.take size
      payload := (got.drop (size + 4)).take n
      header_length := by rw [List.length_take]; omega
      payload_length := by
        have hn : n < 2 ^ 32 := ofLe32_lt (by rw [List.length_take, List.length_drop]; omega)
        exact lt_of_le_of_lt (List.length_take_le _ _) hn }

theorem encode_length (f : Frame size) : f.encode.length = size + 4 + f.payload.length := by
  rw [encode, List.length_append, List.length_append, f.header_length, le32_length]

theorem encode_ne_nil (f : Frame size) : f.encode ≠ [] := by
  intro h
  have hlength := f.encode_length
  rw [h, List.length_nil] at hlength
  omega

/-- The length is read when it is there. -/
theorem drop_take_encode (f : Frame size) {got : List UInt8} (hgot : size + 4 ≤ got.length)
    (h : got <+: f.encode ∨ f.encode <+: got) :
    ofLe32 ((got.drop size).take 4) = f.payload.length := by
  have htake : got.take (size + 4) = f.header ++ le32 f.payload.length := by
    have hboth : got.take (size + 4) = f.encode.take (size + 4) := by
      rcases h with ⟨tail, heq⟩ | ⟨tail, heq⟩
      · rw [← heq, List.take_append_of_le_length hgot]
      · rw [← heq, List.take_append_of_le_length (by rw [f.encode_length]; omega)]
    rw [hboth, encode]
    exact List.take_left' (by rw [List.length_append, f.header_length, le32_length])
  have hdrop : (got.drop size).take 4 = le32 f.payload.length := by
    have hcomm : (got.drop size).take 4 = (got.take (size + 4)).drop size := by
      rw [List.drop_take, Nat.add_sub_cancel_left]
    rw [hcomm, htake]
    exact List.drop_left' f.header_length
  rw [hdrop, ofLe32_le32 f.payload_length]

end Frame

/-- **Frames are a prefix code.** -/
def frameCode (size : Nat) : PrefixCode UInt8 (Frame size) where
  encode := Frame.encode
  decode := Frame.decode
  decode_of_prefix := by
    intro f got h
    have hle := h.length_le
    rw [f.encode_length] at hle
    have hlength := f.drop_take_encode (by omega) (Or.inr h)
    obtain ⟨tail, heq⟩ := h
    have hheader : got.take size = f.header := by
      rw [← heq, Frame.encode, List.append_assoc, List.append_assoc]
      exact List.take_left' f.header_length
    have hpayload : (got.drop (size + 4)).take f.payload.length = f.payload := by
      have hdrop : got.drop (size + 4) = f.payload ++ tail := by
        rw [← heq, Frame.encode, List.append_assoc]
        exact List.drop_left' (by rw [List.length_append, f.header_length, le32_length])
      rw [hdrop]
      exact List.take_left' rfl
    rw [Frame.decode, dif_neg (by omega), dif_neg (by omega)]
    congr 1
    ext1
    · exact hheader
    · rw [← hlength] at hpayload
      exact hpayload
  decode_of_short := by
    intro f got h hne
    have hlt : got.length < f.encode.length :=
      lt_of_le_of_ne h.length_le fun heq => hne (h.eq_of_length heq)
    rw [f.encode_length] at hlt
    rw [Frame.decode]
    by_cases hshort : got.length < size + 4
    · rw [dif_pos hshort]
    · have hlength := f.drop_take_encode (by omega) (Or.inl h)
      rw [dif_neg hshort, dif_pos (by omega)]

end Framing
