import DLedger.Backend
import DLedger.Lib.Scan
import DLedger.Ledger.Sample

set_option autoImplicit false

/-! # Listing the stored names under a prefix

`Backend::listRecord` starts at the URI of the prefix and stops at the first key that is not
under it. A percent sign, a hyphen and a dot come before the slash, so the URI of a name whose
component extends the last one of the prefix by one of these stands between the prefix and the
names under it.
-/

namespace DLedger

open Tlv (Bytes Block)

namespace Uri

variable {p n m : Name}

/-- The URI of a name extends those of its prefixes. -/
theorem toUri_prefix (h : p <+: n) : ∃ t, toUri n = toUri p ++ t := by
  obtain ⟨r, rfl⟩ := h
  by_cases hp : p = []
  · subst hp
    exact ⟨_, rfl⟩
  · refine ⟨path r, ?_⟩
    rw [toUri_eq_path hp, toUri_eq_path (List.append_ne_nil_of_left_ne_nil hp r), path_append]

theorem compare_toUri_prefix (h : p <+: n) : compare (toUri n) (toUri p) ≠ .lt := by
  obtain ⟨t, ht⟩ := toUri_prefix h
  have hself : compare (toUri p ++ t) (toUri p ++ []) = compare t [] :=
    Scan.compare_append_left (toUri p) t []
  rw [List.append_nil] at hself
  rw [ht, hself]
  cases t <;> simp [List.compare_cons_nil]

/-- The URI of a name goes on from that of the prefix with a byte below the slash. -/
def Intervenes (p n : Name) : Prop :=
  ¬ p <+: n ∧ ∃ b w, toUri n = toUri p ++ b :: w ∧ b < 47

/-- A name that is not under the prefix stands between it and a name under it exactly when it
intervenes. -/
theorem between_iff (hm : p <+: m) :
    (¬ p <+: n ∧ compare (toUri n) (toUri p) ≠ .lt ∧ compare (toUri n) (toUri m) = .lt) ↔
      Intervenes p n ∧ p ≠ m := by
  by_cases hp : p = []
  · subst hp
    exact iff_of_false (fun h => h.1 List.nil_prefix) (fun h => h.1.1 List.nil_prefix)
  have huri := toUri_eq_path hp
  obtain ⟨r, rfl⟩ := hm
  have hbelow : toUri (p ++ r) = toUri p ++ path r := by
    rw [toUri_eq_path (List.append_ne_nil_of_left_ne_nil hp r), path_append, huri]
  rw [hbelow]
  constructor
  · rintro ⟨hnot, hlow, hhigh⟩
    -- between two texts that begin with the prefix all texts do
    obtain ⟨t, ht⟩ := Scan.prefix_of_between hlow hhigh
    rw [← ht, Scan.compare_append_left] at hhigh
    have hr : r ≠ [] := by
      intro hr
      rw [hr, path, List.flatMap_nil] at hhigh
      cases t <;> cases hhigh
    refine ⟨⟨hnot, ?_⟩, fun heq => hr (by simpa using heq)⟩
    obtain ⟨d, r, rfl⟩ := List.exists_cons_of_ne_nil hr
    rw [path_cons] at hhigh
    -- the text goes on below the slash of the next component, or the name is under the prefix
    cases t with
    | nil =>
        rw [List.append_nil] at ht
        have hnp : p = n := by rw [← ofUri_toUri p, ht, ofUri_toUri]
        exact absurd (hnp ▸ List.prefix_refl p) hnot
    | cons b w =>
        refine ⟨b, w, ht.symm, ?_⟩
        rw [List.compare_cons_cons] at hhigh
        rcases hcmp : compare b 47 with _ | _ | _
        · exact Std.compare_eq_lt.1 hcmp
        · -- a slash would put the name under the prefix
          rw [Std.LawfulEqOrd.eq_of_compare hcmp, huri] at ht
          have hn : n ≠ [] := by
            rintro rfl
            obtain ⟨c, p, rfl⟩ := List.exists_cons_of_ne_nil hp
            rw [path_cons, toUri] at ht
            simp at ht
          rw [toUri_eq_path hn] at ht
          exact absurd (prefix_of_path ht.symm) hnot
        · rw [hcmp] at hhigh
          cases hhigh
  · rintro ⟨⟨hnot, b, w, hn, hb⟩, hne⟩
    have hr : r ≠ [] := by
      rintro rfl
      exact hne (List.append_nil p).symm
    obtain ⟨d, r, rfl⟩ := List.exists_cons_of_ne_nil hr
    refine ⟨hnot, ?_, ?_⟩
    · have hself : compare (toUri p ++ b :: w) (toUri p ++ []) = compare (b :: w) [] :=
        Scan.compare_append_left (toUri p) (b :: w) []
      rw [List.append_nil] at hself
      rw [hn, hself, List.compare_cons_nil]
      intro h
      cases h
    · rw [hn, Scan.compare_append_left, path_cons, List.compare_cons_cons,
        Std.compare_eq_lt.2 hb]
      rfl

end Uri

namespace Backend

variable {ndn : Ndn} {b : Backend} {names : Finset Name} {p : Name}

theorem mem_listRecord (hholds : b.Holds ndn names) (n : Name) :
    n ∈ b.listRecord ndn p ↔ ndn.toUri n ∈
      Scan.scan (ndn.toUri p) (fun key => p.isPrefixOf (ndn.ofUri key)) b.db.keys := by
  rw [listRecord, List.mem_map]
  constructor
  · rintro ⟨key, hkey, rfl⟩
    obtain ⟨m, _, rfl⟩ := (hholds key).1 (Std.TreeMap.mem_keys.1 (Scan.scan_sublist.subset hkey))
    rwa [ndn.ofUri_toUri]
  · exact fun h => ⟨_, h, ndn.ofUri_toUri n⟩

theorem nodup_listRecord (hholds : b.Holds ndn names) : (b.listRecord ndn p).Nodup := by
  refine List.Nodup.map_on ?_ (Std.TreeMap.nodup_keys.sublist Scan.scan_sublist)
  intro key hkey key' hkey' heq
  obtain ⟨n, _, rfl⟩ := (hholds key).1 (Std.TreeMap.mem_keys.1 (Scan.scan_sublist.subset hkey))
  obtain ⟨m, _, rfl⟩ := (hholds key').1 (Std.TreeMap.mem_keys.1 (Scan.scan_sublist.subset hkey'))
  rw [ndn.ofUri_toUri, ndn.ofUri_toUri] at heq
  rw [heq]

/-- The listing is exact when the scan yields all keys of names under the prefix. -/
theorem listRecord_exact_iff_scan (hholds : b.Holds ndn names) :
    (∀ n, n ∈ b.listRecord ndn p ↔ n ∈ names ∧ p <+: n) ↔
      ∀ key, key ∈ Scan.scan (ndn.toUri p) (fun key => p.isPrefixOf (ndn.ofUri key)) b.db.keys ↔
        key ∈ b.db.keys ∧ p.isPrefixOf (ndn.ofUri key) = true := by
  have hkey : ∀ n, n ∈ names ↔ ndn.toUri n ∈ b.db.keys := by
    intro n
    rw [Std.TreeMap.mem_keys, hholds]
    constructor
    · exact fun hn => ⟨n, hn, rfl⟩
    · rintro ⟨m, hm, heq⟩
      exact ndn.toUri_inj.1 heq ▸ hm
  constructor
  · intro h key
    constructor
    · intro hscan
      have hmem := Scan.scan_sublist.subset hscan
      obtain ⟨n, _, rfl⟩ := (hholds key).1 (Std.TreeMap.mem_keys.1 hmem)
      refine ⟨hmem, ?_⟩
      rw [ndn.ofUri_toUri, Name.isPrefixOf_iff]
      exact ((h n).1 ((mem_listRecord hholds n).2 hscan)).2
    · rintro ⟨hmem, hunder⟩
      obtain ⟨n, hn, rfl⟩ := (hholds key).1 (Std.TreeMap.mem_keys.1 hmem)
      rw [ndn.ofUri_toUri, Name.isPrefixOf_iff] at hunder
      exact (mem_listRecord hholds n).1 ((h n).2 ⟨hn, hunder⟩)
  · intro h n
    rw [mem_listRecord hholds, h, hkey, ndn.ofUri_toUri, Name.isPrefixOf_iff]

/-- **After any sequence of successful writes the stored names under a prefix are listed, each
once and nothing else, exactly when no stored name intervenes between the prefix and another
name under it.** -/
theorem listRecord_exact_iff (huri : ndn.toUri = Uri.toUri) (ws : List Write) (p : Name) :
    (((ws.foldl (write ndn) empty).listRecord ndn p).Nodup ∧
      ∀ n, n ∈ (ws.foldl (write ndn) empty).listRecord ndn p ↔ n ∈ stored ndn ws ∧ p <+: n) ↔
      ¬ ∃ n ∈ stored ndn ws, ∃ m ∈ stored ndn ws, Uri.Intervenes p n ∧ p <+: m ∧ p ≠ m := by
  have hholds := holds_writes ndn ws
  set b := ws.foldl (write ndn) empty
  -- no name under the prefix comes before it, so the seek misses none
  have hstart : ∀ key ∈ b.db.keys, p.isPrefixOf (ndn.ofUri key) = true →
      compare key (ndn.toUri p) ≠ .lt := by
    intro key hkey hunder
    obtain ⟨n, _, rfl⟩ := (hholds key).1 (Std.TreeMap.mem_keys.1 hkey)
    rw [ndn.ofUri_toUri, Name.isPrefixOf_iff] at hunder
    rw [huri]
    exact Uri.compare_toUri_prefix hunder
  rw [and_iff_right (nodup_listRecord hholds), listRecord_exact_iff_scan hholds,
    Scan.scan_exact_iff Std.TreeMap.ordered_keys hstart]
  constructor
  · rintro h ⟨n, hn, m, hm, hbetween⟩
    obtain ⟨hnot, hlow, hhigh⟩ := (Uri.between_iff hbetween.2.1).2 ⟨hbetween.1, hbetween.2.2⟩
    rw [← huri] at hlow hhigh
    have hunder := h (ndn.toUri m) (Std.TreeMap.mem_keys.2 ((hholds _).2 ⟨m, hm, rfl⟩))
      (by rw [ndn.ofUri_toUri, Name.isPrefixOf_iff]; exact hbetween.2.1)
      (ndn.toUri n) (Std.TreeMap.mem_keys.2 ((hholds _).2 ⟨n, hn, rfl⟩)) hlow hhigh
    rw [ndn.ofUri_toUri, Name.isPrefixOf_iff] at hunder
    exact hnot hunder
  · intro h key hkey hunder key' hkey' hlow hhigh
    obtain ⟨m, hm, rfl⟩ := (hholds key).1 (Std.TreeMap.mem_keys.1 hkey)
    obtain ⟨n, hn, rfl⟩ := (hholds key').1 (Std.TreeMap.mem_keys.1 hkey')
    rw [ndn.ofUri_toUri, Name.isPrefixOf_iff] at hunder ⊢
    rw [huri] at hlow hhigh
    by_contra hnot
    obtain ⟨hintervenes, hne⟩ := (Uri.between_iff hunder).1 ⟨hnot, hlow, hhigh⟩
    exact h ⟨n, hn, m, hm, hintervenes, hunder, hne⟩

theorem listRecord_exact_packet :
    let ws := [Write.put (Sample.packet 97 0 [Sample.genesis])]
    let b := ws.foldl (write Sample.ndn) empty
    ((b.listRecord Sample.ndn [.generic [97]]).Nodup ∧
      ∀ n, n ∈ b.listRecord Sample.ndn [.generic [97]] ↔
        n ∈ stored Sample.ndn ws ∧ [.generic [97]] <+: n) ↔
      ¬ ∃ n ∈ stored Sample.ndn ws, ∃ m ∈ stored Sample.ndn ws,
        Uri.Intervenes [.generic [97]] n ∧ [.generic [97]] <+: m ∧ [.generic [97]] ≠ m :=
  listRecord_exact_iff rfl [.put (Sample.packet 97 0 [Sample.genesis])] [.generic [97]]

/-- A packet of the producer `/a-b`. -/
def hyphenPacket : Data :=
  let packet := Sample.packet 97 0 [Sample.genesis]
  { packet with name := .generic [97, 45, 98] :: packet.name.tail }

/-- **With records of `/a` and of `/a-b` in the database, the listing under `/a` is empty**: the
key of `/a-b` comes first. -/
theorem listRecord_hides_hyphen :
    ¬ ∀ (ws : List Write) (p : Name),
      ((ws.foldl (write Sample.ndn) empty).listRecord Sample.ndn p).Nodup ∧
        ∀ n, n ∈ (ws.foldl (write Sample.ndn) empty).listRecord Sample.ndn p ↔
          n ∈ stored Sample.ndn ws ∧ p <+: n := by
  intro hall
  let ws := [Write.put (Sample.packet 97 0 [Sample.genesis]), Write.put hyphenPacket]
  have hempty : (ws.foldl (write Sample.ndn) empty).listRecord Sample.ndn [.generic [97]] = [] := by
    decide +kernel
  have hstored : Sample.ndn.fullName (Sample.packet 97 0 [Sample.genesis])
      ∈ stored Sample.ndn ws :=
    Finset.mem_insert_of_mem (Finset.mem_insert_self _ _)
  have hlisted := ((hall ws [.generic [97]]).2 _).2 ⟨hstored, ⟨_, rfl⟩⟩
  rw [hempty] at hlisted
  cases hlisted

end Backend

end DLedger
