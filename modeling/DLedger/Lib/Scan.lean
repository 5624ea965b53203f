import Mathlib.Data.List.Basic
import Mathlib.Tactic

set_option autoImplicit false

/-! # Scanning a sorted list from a key

An iterator over an ordered map is set to the first key that is not below a given one and goes on
while a predicate holds. `scan_exact_iff` says when this yields all keys with the predicate: none
of those without it may stand between the start and one of them.
-/

namespace Scan

variable {α : Type} [Ord α]

def scan (start : α) (p : α → Bool) (keys : List α) : List α :=
  (keys.dropWhile fun k => compare k start == .lt).takeWhile p

variable {start : α} {p : α → Bool} {keys : List α}

theorem scan_sublist : (scan start p keys).Sublist keys :=
  (List.takeWhile_sublist p).trans (List.dropWhile_sublist _)

theorem scan_cons_below {k : α} (h : compare k start = .lt) :
    scan start p (k :: keys) = scan start p keys := by
  simp [scan, h]

theorem scan_cons_stop {k : α} (h : compare k start ≠ .lt) (hp : p k = false) :
    scan start p (k :: keys) = [] := by
  simp [scan, h, hp]

/-- When no key is below the start, nothing is skipped. -/
theorem scan_of_not_below (h : ∀ k ∈ keys, compare k start ≠ .lt) :
    scan start p keys = keys.takeWhile p := by
  cases keys with
  | nil => rfl
  | cons k keys => simp [scan, h k List.mem_cons_self]

variable [Std.TransOrd α]

theorem not_lt_self (k : α) : compare k k ≠ .lt := by
  intro h
  rw [show compare k k = .eq from Std.ReflCmp.compare_self] at h
  cases h

theorem not_lt_of_lt {k k' : α} (h : compare k k' = .lt) : compare k' k ≠ .lt := by
  intro h'
  have hgt := Std.OrientedCmp.gt_of_lt h'
  rw [h] at hgt
  cases hgt

/-- The scan yields a key that is not below the start when the predicate holds up to it. -/
theorem mem_scan (hsorted : keys.Pairwise fun a b => compare a b = .lt) (k : α) :
    k ∈ scan start p keys ↔ k ∈ keys ∧ compare k start ≠ .lt ∧
      ∀ k' ∈ keys, compare k' start ≠ .lt → compare k k' ≠ .lt → p k' = true := by
  induction keys with
  | nil => simp [scan]
  | cons k₀ keys ih =>
      obtain ⟨hfirst, hsorted⟩ := List.pairwise_cons.1 hsorted
      by_cases hbelow : compare k₀ start = .lt
      · rw [scan_cons_below hbelow, ih hsorted]
        constructor
        · rintro ⟨hk, hge, hall⟩
          refine ⟨List.mem_cons_of_mem k₀ hk, hge, fun k' hk' hge' hle => ?_⟩
          rcases List.mem_cons.1 hk' with rfl | hk'
          · exact absurd hbelow hge'
          · exact hall k' hk' hge' hle
        · rintro ⟨hk, hge, hall⟩
          refine ⟨?_, hge, fun k' hk' => hall k' (List.mem_cons_of_mem k₀ hk')⟩
          rcases List.mem_cons.1 hk with rfl | hk
          · exact absurd hbelow hge
          · exact hk
      -- from here on nothing is below the start
      have hrest : ∀ k ∈ keys, compare k start ≠ .lt := fun k hk hlt =>
        hbelow (Std.TransCmp.lt_trans (hfirst k hk) hlt)
      have hle : ∀ k ∈ k₀ :: keys, compare k k₀ ≠ .lt := by
        intro k hk hlt
        rcases List.mem_cons.1 hk with rfl | hk
        · exact not_lt_self k hlt
        · exact not_lt_of_lt hlt (hfirst k hk)
      cases hp : p k₀ with
      | false =>
          rw [scan_cons_stop hbelow hp]
          refine iff_of_false List.not_mem_nil ?_
          rintro ⟨hk, _, hall⟩
          rw [hall k₀ List.mem_cons_self hbelow (hle k hk)] at hp
          cases hp
      | true =>
          rw [scan_of_not_below (by
            intro k' hk'
            rcases List.mem_cons.1 hk' with rfl | hk'
            · exact hbelow
            · exact hrest k' hk'), List.takeWhile_cons_of_pos hp, List.mem_cons,
            ← scan_of_not_below hrest, ih hsorted]
          constructor
          · rintro (rfl | ⟨hk, hge, hall⟩)
            · refine ⟨List.mem_cons_self, hbelow, fun k' hk' _ hle' => ?_⟩
              rcases List.mem_cons.1 hk' with rfl | hk'
              · exact hp
              · exact absurd (hfirst k' hk') hle'
            · refine ⟨List.mem_cons_of_mem k₀ hk, hge, fun k' hk' hge' hle' => ?_⟩
              rcases List.mem_cons.1 hk' with rfl | hk'
              · exact hp
              · exact hall k' hk' hge' hle'
          · rintro ⟨hk, hge, hall⟩
            rcases List.mem_cons.1 hk with rfl | hk
            · exact Or.inl rfl
            · exact Or.inr ⟨hk, hge, fun k' hk' => hall k' (List.mem_cons_of_mem k₀ hk')⟩

/-- **The scan yields exactly the keys with the predicate** when none without it stands between
the start and one of them. -/
theorem scan_exact_iff [Std.LawfulEqOrd α] (hsorted : keys.Pairwise fun a b => compare a b = .lt)
    (hstart : ∀ k ∈ keys, p k = true → compare k start ≠ .lt) :
    (∀ k, k ∈ scan start p keys ↔ k ∈ keys ∧ p k = true) ↔
      ∀ k ∈ keys, p k = true → ∀ k' ∈ keys, compare k' start ≠ .lt → compare k' k = .lt →
        p k' = true := by
  constructor
  · intro h k hk hp k' hk' hge hlt
    exact ((mem_scan hsorted k).1 ((h k).2 ⟨hk, hp⟩)).2.2 k' hk' hge (not_lt_of_lt hlt)
  · intro h k
    rw [mem_scan hsorted]
    constructor
    · rintro ⟨hk, hge, hall⟩
      exact ⟨hk, hall k hk hge (not_lt_self k)⟩
    · rintro ⟨hk, hp⟩
      refine ⟨hk, hstart k hk hp, fun k' hk' hge hle => ?_⟩
      rcases hcmp : compare k' k with _ | _ | _
      · exact h k hk hp k' hk' hge hcmp
      · exact Std.LawfulEqOrd.eq_of_compare hcmp ▸ hp
      · exact absurd (Std.OrientedCmp.lt_of_gt hcmp) hle

/-! ## The lexicographic order -/

omit [Std.TransOrd α] in
theorem compare_append_left [Std.ReflOrd α] (u a b : List α) :
    compare (u ++ a) (u ++ b) = compare a b := by
  induction u with
  | nil => rfl
  | cons x u ih =>
      have hself : compare x x = .eq := Std.ReflCmp.compare_self
      rw [List.cons_append, List.cons_append, List.compare_cons_cons, hself, ih]
      rfl

omit [Std.TransOrd α] in
/-- What is neither below a list nor above an extension of it extends it. -/
theorem prefix_of_between [Std.LawfulEqOrd α] {u a k : List α} (hlow : compare k u ≠ .lt)
    (hhigh : compare k (u ++ a) = .lt) : u <+: k := by
  induction u generalizing k with
  | nil => exact List.nil_prefix
  | cons x u ih =>
      cases k with
      | nil => exact absurd List.compare_nil_cons hlow
      | cons y k =>
          rw [List.compare_cons_cons] at hlow
          rw [List.cons_append, List.compare_cons_cons] at hhigh
          rcases hcmp : compare y x with _ | _ | _
          · rw [hcmp] at hlow
            exact absurd rfl hlow
          · rw [hcmp] at hlow hhigh
            rw [Std.LawfulEqOrd.eq_of_compare hcmp, List.cons_prefix_cons]
            exact ⟨rfl, ih hlow hhigh⟩
          · rw [hcmp] at hhigh
            cases hhigh

end Scan
