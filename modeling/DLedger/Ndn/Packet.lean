import DLedger.Ndn.Name

set_option autoImplicit false

/-! # Packets, and what the ledger takes from ndn-cxx

A Data packet is its name, the bytes of its content and a signature; a certificate is a
Data packet. What ndn-cxx does that the ledger relies on and that is not in this repository
is collected in the structure `Ndn`: the digest of a packet, the URI form of names,
signature checks, the decoding of certificates. The model takes an `Ndn` as a parameter,
so every theorem holds for all of them.
-/

namespace DLedger

open Tlv (Bytes Block)

/-! ## Exceptions -/

/-- A C++ exception derived from `std::exception`. -/
inductive Exn where
  | runtimeError (what : String)
  /-- Thrown by a decoder or an accessor of ndn-cxx. -/
  | ndnError
  /-- An allocation of `2 ^ 64` bytes or more. -/
  | badAlloc
deriving DecidableEq

/-- How a call can end other than by returning: an exception escapes, or an empty optional
or a null pointer is dereferenced, which is undefined behaviour and which nothing catches. -/
inductive Fault where
  | thrown (e : Exn)
  | nullDereference
deriving DecidableEq

/-! ## Packets -/

/-- A Data packet. The signature is opaque; the name is not yet the full name, which ends
with the digest of the packet. -/
structure Data where
  name : Name
  content : Bytes
  signature : Bytes
deriving DecidableEq

abbrev Certificate := Data

/-- An Interest packet with its application parameters, the value of that element. -/
structure Interest where
  name : Name
  applicationParameters : Bytes
  signature : Bytes
deriving DecidableEq

namespace Certificate

/-- `Certificate::KEY_COMPONENT_OFFSET`: certificate names end with
`/KEY/<key-id>/<issuer>/<version>`. -/
def keyComponentOffset : Int := -4

def keyComponent : Component := .generic [75, 69, 89]

def getIdentity (c : Certificate) : Name := c.name.getPrefix keyComponentOffset

def isValidName (n : Name) : Bool :=
  4 ≤ n.length && n.get keyComponentOffset == some keyComponent

end Certificate

/-! ## Key locators -/

namespace KeyLocator

def keyLocatorType : Nat := 28

/-- `KeyLocator(name).wireEncode()`. -/
def wireEncode (n : Name) : Block :=
  ⟨keyLocatorType, (Name.wireEncode n).encode, by decide⟩

/-- `KeyLocator(block).getName()`; `none` where one of the two throws. -/
def getName (b : Block) : Option Name :=
  if b.type = keyLocatorType then
    match Tlv.parse b.value with
    | some (first :: _) => Name.wireDecode first
    | _ => none
  else none

end KeyLocator

/-! ## Strings -/

/-- The bytes of an ASCII string. -/
def ascii (s : List Char) : Bytes := s.map fun c => UInt8.ofNat c.toNat

/-- A letter or a digit of ASCII. -/
def isAlphanumeric (b : UInt8) : Bool :=
  (48 ≤ b && b ≤ 57) || (65 ≤ b && b ≤ 90) || (97 ≤ b && b ≤ 122)

/-- `std::to_string`. -/
def toString (n : Nat) : Bytes := (Nat.toDigits 10 n).map fun c => UInt8.ofNat c.toNat

/-- A decimal number has digits only. -/
theorem toString_alphanumeric (n : Nat) :
    toString n ≠ [] ∧ (toString n).all isAlphanumeric = true := by
  constructor
  · rw [toString, ne_eq, List.map_eq_nil_iff]
    exact Nat.toDigits_ne_nil
  · simp only [toString, List.all_eq_true, List.mem_map]
    rintro b ⟨c, hc, rfl⟩
    have hdigit : c.isDigit = true := Nat.isDigit_of_mem_toDigits (by omega) (by omega) hc
    simp only [Char.isDigit, Bool.and_eq_true, decide_eq_true_eq] at hdigit
    have hlo : 48 ≤ c.toNat := by simpa using UInt32.le_iff_toNat_le.1 hdigit.1
    have hhi : c.toNat ≤ 57 := by simpa using UInt32.le_iff_toNat_le.1 hdigit.2
    interval_cases c.toNat <;> decide

/-! ## ndn-cxx -/

/-- What the ledger uses of ndn-cxx. -/
structure Ndn where
  /-- The SHA-256 digest of the encoded packet. -/
  digest : Data → Bytes
  toUri : Name → Bytes
  /-- The conversion of a string to a `Name`, which parses it as a URI. No components stand for a
  string that the parser rejects. -/
  ofUri : Bytes → Name
  ofUri_toUri : ∀ n, ofUri (toUri n) = n
  /-- A non-empty string of letters and digits is one generic component. -/
  ofUri_alphanumeric : ∀ s, s ≠ [] → s.all isAlphanumeric = true →
    ofUri s = [Component.generic s]
  /-- `security::verifySignature` of a Data packet. -/
  verifyData : Data → Certificate → Bool
  /-- `security::verifySignature` of an Interest packet. -/
  verifyInterest : Interest → Certificate → Bool
  /-- `security::Certificate(block)`; `none` where it throws. -/
  decodeCertificate : Block → Option Certificate
  /-- The name in the key locator of a signed Interest; `none` where reading it throws. -/
  interestKeyName : Interest → Option Name
  /-- `Certificate::isValid` at a time. -/
  isValidAt : Certificate → Int → Bool
  /-- The signature of `signingWithSha256` over a name and a content. -/
  sha256Signature : Name → Bytes → Bytes
  /-- What a `Name` holds after its `wireDecode` has thrown on a block. -/
  nameAfterError : Name → Block → Name

namespace Ndn

variable (ndn : Ndn)

/-- `Data::getFullName`. -/
def fullName (d : Data) : Name :=
  d.name ++ [Component.implicitSha256Digest (ndn.digest d)]

theorem toUri_injective : Function.Injective ndn.toUri :=
  Function.LeftInverse.injective ndn.ofUri_toUri

theorem toUri_inj {n m : Name} : ndn.toUri n = ndn.toUri m ↔ n = m :=
  ndn.toUri_injective.eq_iff

end Ndn

end DLedger
