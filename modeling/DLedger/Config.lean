import DLedger.Ndn.Packet

set_option autoImplicit false

/-! # Configuration

The fields of `Config` that the ledger reads. The weights and counts are of the C++ type
`size_t`; where the source passes one through an `int`, the model narrows it with `toInt`
and widens it back with `ofInt`.
-/

namespace DLedger

/-! ## Machine integers -/

/-- The conversion of a `size_t` to a 32-bit `int`. -/
def toInt (n : Nat) : Int :=
  let m : Nat := n % 2 ^ 32
  if m < 2 ^ 31 then (m : Int) else (m : Int) - 2 ^ 32

/-- The conversion of an `int` to a 64-bit `size_t`. -/
def ofInt (i : Int) : Nat := (i % 2 ^ 64).toNat

/-- The low half of the range of 32 bits stands for itself, the high half for negative numbers. -/
theorem toInt_of_mod_lt {n : Nat} (h : n % 2 ^ 32 < 2 ^ 31) : toInt n = (n % 2 ^ 32 : Nat) := by
  rw [toInt, if_pos h]

theorem toInt_of_le_mod {n : Nat} (h : 2 ^ 31 ≤ n % 2 ^ 32) :
    toInt n = (n % 2 ^ 32 : Nat) - 2 ^ 32 := by
  rw [toInt, if_neg (not_lt.2 h)]

theorem toInt_of_lt {n : Nat} (h : n < 2 ^ 31) : toInt n = n := by
  have hm : n % 2 ^ 32 = n := Nat.mod_eq_of_lt (by omega)
  rw [toInt_of_mod_lt (by omega), hm]

theorem ofInt_natCast {n : Nat} (h : n < 2 ^ 64) : ofInt (n : Int) = n := by
  unfold ofInt
  omega

/-! ## Config -/

structure Config where
  /-- The number of preceding records that a record references. -/
  precedingRecordNum : Nat
  /-- The maximum weight of a record that this peer references. -/
  appendWeight : Nat
  /-- The maximum weight of a record that may be referenced. -/
  contributionWeight : Nat
  /-- The weight at which a record is confirmed. -/
  confirmWeight : Nat
  /-- The number of genesis records. -/
  numGenesisBlock : Nat
  ancestorFetchTimeout : Int
  clockSkewTolerance : Int
  /-- The maximum time a record can stay unconfirmed. -/
  blockConfirmationTimeout : Int
  peerPrefix : Name

namespace Config

variable (config : Config)

/-- `int removeWeight = max(contributionWeight + 1, confirmWeight)`, with the `int`-valued
`max` of the source, as a `size_t` is compared with it. -/
def removeWeight : Nat :=
  ofInt (max (toInt ((config.contributionWeight + 1) % 2 ^ 64)) (toInt config.confirmWeight))

/-- The weights are far enough below `2 ^ 31` for `removeWeight` to be exact. -/
structure SmallWeights : Prop where
  contribution : config.contributionWeight + 1 < 2 ^ 31
  confirm : config.confirmWeight < 2 ^ 31

theorem SmallWeights.removeWeight_eq {config : Config} (h : config.SmallWeights) :
    config.removeWeight = max (config.contributionWeight + 1) config.confirmWeight := by
  have hc := h.contribution
  have hk := h.confirm
  rw [removeWeight, Nat.mod_eq_of_lt (by omega), toInt_of_lt hc, toInt_of_lt hk,
    ← Nat.cast_max, ofInt_natCast (by omega)]

theorem SmallWeights.confirmWeight_le {config : Config} (h : config.SmallWeights) :
    config.confirmWeight ≤ config.removeWeight := by
  rw [h.removeWeight_eq]; exact le_max_right _ _

theorem SmallWeights.contributionWeight_lt {config : Config} (h : config.SmallWeights) :
    config.contributionWeight < config.removeWeight := by
  rw [h.removeWeight_eq]; exact lt_of_lt_of_le (Nat.lt_succ_self _) (le_max_left _ _)

end Config

end DLedger
