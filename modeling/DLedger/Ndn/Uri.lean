import DLedger.Ndn.Packet

set_option autoImplicit false

/-! # The URI form of names

The canonical URI of a name has a slash before each component. A component is its type as a
decimal number, an equals sign and its value; a generic component is its value alone. In a
value every byte but the unreserved ones is percent-encoded, and three dots come before a
value of dots only, also before the empty one. `Ndn.sample` is an `Ndn` with these URIs.
-/

namespace DLedger

open Tlv (Bytes Block)

namespace Uri

/-! ## Percent encoding -/

def isUnreserved (b : UInt8) : Bool :=
  isAlphanumeric b || b == 45 || b == 46 || b == 95 || b == 126

def hexDigit (n : Nat) : UInt8 := UInt8.ofNat (if n < 10 then 48 + n else 55 + n)

def ofHexDigit (b : UInt8) : Nat := if b ≤ 57 then b.toNat - 48 else b.toNat - 55

def escapeByte (b : UInt8) : Bytes :=
  if isUnreserved b then [b] else [37, hexDigit (b.toNat / 16), hexDigit (b.toNat % 16)]

def escape (value : Bytes) : Bytes := value.flatMap escapeByte

def unescape : Bytes → Bytes
  | b :: high :: low :: rest =>
      if b = 37 then UInt8.ofNat (16 * ofHexDigit high + ofHexDigit low) :: unescape rest
      else b :: unescape (high :: low :: rest)
  | b :: rest => b :: unescape rest
  | [] => []

theorem unescape_cons {b : UInt8} (hb : b ≠ 37) (rest : Bytes) :
    unescape (b :: rest) = b :: unescape rest := by
  match rest with
  | [] => rfl
  | [_] => rfl
  | _ :: _ :: _ => rw [unescape, if_neg hb]

theorem ofHexDigit_hexDigit {n : Nat} (h : n < 16) : ofHexDigit (hexDigit n) = n := by
  interval_cases n <;> rfl

theorem unescape_escapeByte (b : UInt8) (rest : Bytes) :
    unescape (escapeByte b ++ rest) = b :: unescape rest := by
  unfold escapeByte
  split_ifs with h
  · refine unescape_cons (fun heq => ?_) rest
    rw [heq] at h
    exact absurd h (by decide)
  · have hb := b.toNat_lt
    have hsum : 16 * (b.toNat / 16) + b.toNat % 16 = b.toNat := Nat.div_add_mod _ 16
    simp only [List.cons_append, List.nil_append, unescape, if_true]
    rw [ofHexDigit_hexDigit (by omega), ofHexDigit_hexDigit (Nat.mod_lt _ (by omega)), hsum,
      UInt8.ofNat_toNat]

theorem unescape_escape (value : Bytes) : unescape (escape value) = value := by
  induction value with
  | nil => rfl
  | cons b value ih =>
      rw [escape, List.flatMap_cons, unescape_escapeByte]
      exact congrArg (b :: ·) ih

theorem isUnreserved_hexDigit {n : Nat} (h : n < 16) : isUnreserved (hexDigit n) = true := by
  interval_cases n <;> decide

/-- An escaped value has unreserved bytes and percent signs. -/
theorem of_mem_escape {value : Bytes} {c : UInt8} (hc : c ∈ escape value) :
    isUnreserved c = true ∨ c = 37 := by
  obtain ⟨b, _, hc⟩ := List.mem_flatMap.1 hc
  have hb := b.toNat_lt
  unfold escapeByte at hc
  split_ifs at hc with h
  · exact Or.inl (List.mem_singleton.1 hc ▸ h)
  · simp only [List.mem_cons, List.not_mem_nil, or_false] at hc
    rcases hc with rfl | rfl | rfl
    · exact Or.inr rfl
    · exact Or.inl (isUnreserved_hexDigit (by omega))
    · exact Or.inl (isUnreserved_hexDigit (Nat.mod_lt _ (by omega)))

/-! ## Values -/

def isDot (b : UInt8) : Bool := b == 46

def valueToUri (value : Bytes) : Bytes :=
  if value.all isDot then 46 :: 46 :: 46 :: value else escape value

def valueOfUri (s : Bytes) : Bytes := if s.all isDot then s.drop 3 else unescape s

/-- A value with another byte than a dot is escaped to one. -/
theorem escape_all_isDot {value : Bytes} (h : ¬ value.all isDot = true) :
    ¬ (escape value).all isDot = true := by
  intro hall
  refine h (List.all_eq_true.2 fun b hb => ?_)
  have hmem : ∀ c ∈ escapeByte b, isDot c = true := fun c hc =>
    List.all_eq_true.1 hall c (List.mem_flatMap.2 ⟨b, hb, hc⟩)
  unfold escapeByte at hmem
  split_ifs at hmem with hu
  · exact hmem b (List.mem_singleton_self b)
  · exact absurd (hmem 37 List.mem_cons_self) (by decide)

theorem valueOfUri_valueToUri (value : Bytes) : valueOfUri (valueToUri value) = value := by
  unfold valueToUri
  split_ifs with h
  · have hdots : (46 :: 46 :: 46 :: value).all isDot = true := by simpa [isDot] using h
    rw [valueOfUri, if_pos hdots]
    rfl
  · rw [valueOfUri, if_neg (escape_all_isDot h), unescape_escape]

theorem of_mem_valueToUri {value : Bytes} {c : UInt8} (hc : c ∈ valueToUri value) :
    isUnreserved c = true ∨ c = 37 := by
  unfold valueToUri at hc
  split_ifs at hc with h
  · have hdot : isDot c = true := by
      simp only [List.mem_cons] at hc
      rcases hc with rfl | rfl | rfl | hc
      · rfl
      · rfl
      · rfl
      · exact List.all_eq_true.1 h c hc
    rw [isDot, beq_iff_eq] at hdot
    exact Or.inl (hdot ▸ by decide)
  · exact of_mem_escape hc

theorem valueToUri_ne_nil (value : Bytes) : valueToUri value ≠ [] := by
  unfold valueToUri
  split_ifs with h
  · exact List.cons_ne_nil _ _
  · intro hnil
    exact escape_all_isDot h (by rw [hnil]; rfl)

/-- A value of letters and digits is its own URI. -/
theorem valueOfUri_of_alphanumeric {s : Bytes} (hne : s ≠ []) (h : s.all isAlphanumeric = true) :
    valueOfUri s = s := by
  have hu : ∀ b ∈ s, isUnreserved b = true := by
    intro b hb
    simp [isUnreserved, List.all_eq_true.1 h b hb]
  have hescape : ∀ t : Bytes, (∀ b ∈ t, isUnreserved b = true) → escape t = t := by
    intro t ht
    induction t with
    | nil => rfl
    | cons b t ih =>
        rw [escape, List.flatMap_cons, escapeByte, if_pos (ht b List.mem_cons_self)]
        exact congrArg (b :: ·) (ih fun c hc => ht c (List.mem_cons_of_mem b hc))
  have hdots : ¬ s.all isDot = true := by
    intro hall
    obtain ⟨b, t, rfl⟩ := List.exists_cons_of_ne_nil hne
    have hb := List.all_eq_true.1 hall b List.mem_cons_self
    rw [isDot, beq_iff_eq] at hb
    have := List.all_eq_true.1 h b List.mem_cons_self
    rw [hb] at this
    exact absurd this (by decide)
  rw [valueOfUri, if_neg hdots]
  conv_lhs => rw [← hescape s hu]
  exact unescape_escape s

/-! ## Components -/

def ofDecimal (s : Bytes) : Nat := Nat.ofDigitChars 10 (s.map fun b => Char.ofNat b.toNat) 0

def componentToUri (c : Component) : Bytes :=
  if c.type = Component.genericType then valueToUri c.value
  else toString c.type ++ 61 :: valueToUri c.value

/-- A type that is not a type number is read as the generic one. -/
def componentOfUri (s : Bytes) : Component :=
  if s.contains 61 then
    let type := ofDecimal (s.takeWhile (· != 61))
    let value := valueOfUri ((s.dropWhile (· != 61)).drop 1)
    if h : 0 < type ∧ type < 2 ^ 16 then ⟨type, value, h⟩ else .generic value
  else .generic (valueOfUri s)

theorem ofDecimal_toString (n : Nat) : ofDecimal (toString n) = n := by
  have hchars : ((toString n).map fun b => Char.ofNat b.toNat) = Nat.toDigits 10 n := by
    rw [toString, List.map_map]
    refine (List.map_congr_left fun c hc => ?_).trans (List.map_id _)
    have hdigit : c.isDigit = true := Nat.isDigit_of_mem_toDigits (by omega) (by omega) hc
    simp only [Char.isDigit, Bool.and_eq_true, decide_eq_true_eq] at hdigit
    have hhi : c.toNat ≤ 57 := by simpa using UInt32.le_iff_toNat_le.1 hdigit.2
    have hbyte : (UInt8.ofNat c.toNat).toNat = c.toNat := by
      rw [UInt8.toNat_ofNat']
      exact Nat.mod_eq_of_lt (by omega)
    simp only [Function.comp, hbyte, Char.ofNat_toNat, id]
  rw [ofDecimal, hchars, Nat.ofDigitChars_ten_toDigits]

theorem notMem_of_not_unreserved {s : Bytes} {b : UInt8}
    (hs : ∀ c ∈ s, isUnreserved c = true ∨ c = 37) (hb : isUnreserved b = false) (hne : b ≠ 37) :
    b ∉ s := by
  intro hmem
  rcases hs b hmem with h | h
  · rw [hb] at h; cases h
  · exact hne h

theorem of_mem_toString {n : Nat} {c : UInt8} (hc : c ∈ toString n) :
    isUnreserved c = true ∨ c = 37 := by
  left
  simp [isUnreserved, List.all_eq_true.1 (toString_alphanumeric n).2 c hc]

theorem componentOfUri_componentToUri (c : Component) :
    componentOfUri (componentToUri c) = c := by
  -- an `=` is escaped in a value, so the first one ends the type
  have hvalue : (61 : UInt8) ∉ valueToUri c.value :=
    notMem_of_not_unreserved (fun b => of_mem_valueToUri) (by decide) (by decide)
  unfold componentToUri
  split_ifs with htype
  · rw [componentOfUri, if_neg (by simpa using hvalue), valueOfUri_valueToUri]
    obtain ⟨type, value, _⟩ := c
    cases htype
    rfl
  · have hdigits : ∀ b ∈ toString c.type, (b != 61) = true := by
      intro b hb
      have hnot : (61 : UInt8) ∉ toString c.type :=
        notMem_of_not_unreserved (fun b => of_mem_toString) (by decide) (by decide)
      rw [bne_iff_ne]
      exact fun heq => hnot (heq ▸ hb)
    have htake : (toString c.type ++ 61 :: valueToUri c.value).takeWhile (· != 61)
        = toString c.type := by
      rw [List.takeWhile_append_of_pos hdigits]
      simp
    have hdrop : (toString c.type ++ 61 :: valueToUri c.value).dropWhile (· != 61)
        = 61 :: valueToUri c.value := by
      rw [List.dropWhile_append_of_pos hdigits]
      simp
    rw [componentOfUri, if_pos (by simp)]
    simp only [htake, hdrop, List.drop_succ_cons, List.drop_zero, ofDecimal_toString,
      valueOfUri_valueToUri]
    rw [dif_pos c.type_valid]

/-! ## Names -/

def toUri (n : Name) : Bytes := 47 :: [(47 : UInt8)].intercalate (n.map componentToUri)

def ofUri (s : Bytes) : Name :=
  let path := if s.head? = some 47 then s.tail else s
  if path = [] then [] else (path.splitOn 47).map componentOfUri

theorem slash_notMem_componentToUri (c : Component) : (47 : UInt8) ∉ componentToUri c := by
  have hvalue : (47 : UInt8) ∉ valueToUri c.value :=
    notMem_of_not_unreserved (fun b => of_mem_valueToUri) (by decide) (by decide)
  have hnumber : (47 : UInt8) ∉ toString c.type :=
    notMem_of_not_unreserved (fun b => of_mem_toString) (by decide) (by decide)
  unfold componentToUri
  split_ifs
  · exact hvalue
  · simp [hvalue, hnumber]

theorem componentToUri_ne_nil (c : Component) : componentToUri c ≠ [] := by
  unfold componentToUri
  split_ifs
  · exact valueToUri_ne_nil c.value
  · simp

/-- **Parsing the URI of a name gives the name.** -/
theorem ofUri_toUri (n : Name) : ofUri (toUri n) = n := by
  cases n with
  | nil => rfl
  | cons c n =>
      have hpath : [(47 : UInt8)].intercalate ((c :: n).map componentToUri) ≠ [] := by
        intro hnil
        have hsplit : ([(47 : UInt8)].intercalate ((c :: n).map componentToUri)).splitOn 47
            = (c :: n).map componentToUri :=
          List.splitOn_intercalate _ (by simp [slash_notMem_componentToUri]) (by simp)
        rw [hnil, List.map_cons] at hsplit
        simp only [List.splitOn_nil, List.cons.injEq] at hsplit
        exact componentToUri_ne_nil c hsplit.1.symm
      simp only [ofUri, toUri, List.head?_cons, if_true, List.tail_cons, if_neg hpath]
      rw [List.splitOn_intercalate _ (by simp [slash_notMem_componentToUri]) (by simp),
        List.map_map]
      exact (List.map_congr_left fun c _ => componentOfUri_componentToUri c).trans
        (List.map_id _)

/-! ### Prefixes

Below the slash the canonical URIs have the percent sign, the hyphen and the dot. -/

/-- The URI of a name that is not empty, component by component. -/
def path (n : Name) : Bytes := n.flatMap fun c => 47 :: componentToUri c

theorem path_cons (c : Component) (n : Name) :
    path (c :: n) = 47 :: (componentToUri c ++ path n) := by
  rw [path, List.flatMap_cons, List.cons_append, path]

theorem toUri_eq_path {n : Name} (h : n ≠ []) : toUri n = path n := by
  obtain ⟨c, n, rfl⟩ := List.exists_cons_of_ne_nil h
  clear h
  induction n generalizing c with
  | nil => simp [toUri, path]
  | cons d n ih =>
      have hd := ih d
      rw [toUri] at hd ⊢
      rw [List.map_cons, List.map_cons, List.intercalate_cons_cons, ← List.map_cons, path_cons,
        ← hd]
      simp

theorem path_append (p n : Name) : path (p ++ n) = path p ++ path n := by
  simp [path]

theorem path_head (n : Name) : path n = [] ∨ ∃ s, path n = 47 :: s := by
  cases n with
  | nil => exact Or.inl rfl
  | cons c n => exact Or.inr ⟨_, path_cons c n⟩

/-- A component ends where its URI ends or meets a slash. -/
theorem takeWhile_componentToUri (c : Component) {s : Bytes} (hs : s = [] ∨ ∃ t, s = 47 :: t) :
    (componentToUri c ++ s).takeWhile (· != 47) = componentToUri c := by
  have hall : ∀ b ∈ componentToUri c, (b != 47) = true := by
    intro b hb
    rw [bne_iff_ne]
    exact fun heq => slash_notMem_componentToUri c (heq ▸ hb)
  rw [List.takeWhile_append_of_pos hall]
  rcases hs with rfl | ⟨t, rfl⟩ <;> simp

/-- A name whose URI goes on with a slash after that of a prefix is under the prefix. -/
theorem prefix_of_path {p n : Name} {s : Bytes} (h : path n = path p ++ 47 :: s) : p <+: n := by
  induction p generalizing n with
  | nil => exact List.nil_prefix
  | cons d p ih =>
      cases n with
      | nil => simp [path] at h
      | cons c n =>
          rw [path_cons, path_cons] at h
          simp only [List.cons_append, List.append_assoc, List.cons.injEq, true_and] at h
          have hrest : path p ++ 47 :: s = [] ∨ ∃ t, path p ++ 47 :: s = 47 :: t := by
            rcases path_head p with hp | ⟨t, hp⟩
            · exact Or.inr ⟨s, by rw [hp]; rfl⟩
            · exact Or.inr ⟨_, by rw [hp, List.cons_append]⟩
          have hcd : componentToUri c = componentToUri d := by
            rw [← takeWhile_componentToUri c (path_head n), h, takeWhile_componentToUri d hrest]
          rw [hcd, List.append_cancel_left_eq] at h
          have hc : c = d := by
            rw [← componentOfUri_componentToUri c, hcd, componentOfUri_componentToUri]
          rw [hc, List.cons_prefix_cons]
          exact ⟨rfl, ih h⟩

theorem ofUri_alphanumeric (s : Bytes) (hne : s ≠ []) (h : s.all isAlphanumeric = true) :
    ofUri s = [Component.generic s] := by
  have hnot : ∀ b : UInt8, isAlphanumeric b = false → b ∉ s := by
    intro b hb hmem
    rw [List.all_eq_true.1 h b hmem] at hb
    cases hb
  have hhead : s.head? ≠ some 47 := fun heq =>
    hnot 47 (by decide) (List.mem_of_mem_head? heq)
  have hsplit : s.splitOn 47 = [s] := by
    have hjoin : ([(47 : UInt8)].intercalate [s]).splitOn 47 = [s] :=
      List.splitOn_intercalate _ (by simpa using hnot 47 (by decide)) (by simp)
    simpa using hjoin
  have hequals : s.contains 61 = false := by simpa using hnot 61 (by decide)
  simp only [ofUri, if_neg hhead, if_neg hne, hsplit, List.map_cons, List.map_nil,
    componentOfUri, hequals, Bool.false_eq_true, if_false, valueOfUri_of_alphanumeric hne h]

end Uri

/-- An ndn-cxx with canonical URIs whose packets have their signature for a digest. Which
signatures are good and what is a certificate is left open. -/
def Ndn.sample (verifyData : Data → Certificate → Bool)
    (decodeCertificate : Block → Option Certificate) : Ndn where
  digest d := d.signature
  toUri := Uri.toUri
  ofUri := Uri.ofUri
  ofUri_toUri := Uri.ofUri_toUri
  ofUri_alphanumeric := Uri.ofUri_alphanumeric
  verifyData := verifyData
  verifyInterest _ _ := true
  decodeCertificate := decodeCertificate
  interestKeyName _ := none
  isValidAt _ _ := true
  sha256Signature _ _ := []
  nameAfterError n _ := n

end DLedger
