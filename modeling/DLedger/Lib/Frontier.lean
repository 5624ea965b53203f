import Mathlib.Data.List.Nodup
import Mathlib.Tactic

set_option autoImplicit false

/-! # The frontier of a chain that is kept by pushing and removing

Nodes arrive one after the other, each with a list of predecessors. A list of last nodes is
kept: a node that arrives is pushed, and then its predecessors are removed. The result is meant
to be the frontier, the nodes that no other node lists. It is, where every node that is listed
by an earlier node is listed by a later one as well (`isFrontier_iff`).
-/

namespace Frontier

variable {α : Type} [DecidableEq α]

/-- A node and its predecessors. -/
abbrev Link (α : Type) := α × List α

def push (last : List α) (link : Link α) : List α :=
  (last ++ [link.1]).filter (· ∉ link.2)

def run (links : List (Link α)) : List α := links.foldl push []

/-- The nodes that no other node lists, without duplicates. -/
structure IsFrontier (links : List (Link α)) (last : List α) : Prop where
  nodup : last.Nodup
  mem_iff : ∀ x, x ∈ last ↔ (∃ link ∈ links, link.1 = x) ∧
    ∀ link ∈ links, link.1 ≠ x → x ∉ link.2

/-- A node is listed by another one exactly if it is listed when it arrives or later. -/
def InOrder (links : List (Link α)) : Prop :=
  ∀ before link after, links = before ++ link :: after →
    ((∃ l ∈ before ++ after, link.1 ∈ l.2) ↔ ∃ l ∈ link :: after, link.1 ∈ l.2)

omit [DecidableEq α] in
/-- It is so where no node is listed by itself or by an earlier one. -/
theorem InOrder.of_pairwise {links : List (Link α)} (hself : ∀ link ∈ links, link.1 ∉ link.2)
    (h : links.Pairwise fun l link => link.1 ∉ l.2) : InOrder links := by
  rintro before link after rfl
  rw [List.pairwise_append] at h
  obtain ⟨_, _, hbefore⟩ := h
  constructor
  · rintro ⟨l, hl, hmem⟩
    rcases List.mem_append.1 hl with hl | hl
    · exact absurd hmem (hbefore l hl link List.mem_cons_self)
    · exact ⟨l, List.mem_cons_of_mem _ hl, hmem⟩
  · rintro ⟨l, hl, hmem⟩
    rcases List.mem_cons.1 hl with rfl | hl
    · exact absurd hmem (hself l (List.mem_append_right _ List.mem_cons_self))
    · exact ⟨l, List.mem_append_right _ hl, hmem⟩

theorem mem_push {last : List α} {link : Link α} {x : α} :
    x ∈ push last link ↔ (x ∈ last ∨ x = link.1) ∧ x ∉ link.2 := by
  simp only [push, List.mem_filter, List.mem_append, List.mem_singleton, decide_eq_true_eq]

/-- What was there stays unless it is listed. -/
theorem mem_foldl_push {links : List (Link α)} {last : List α} {x : α}
    (hx : ∀ link ∈ links, link.1 ≠ x) :
    x ∈ links.foldl push last ↔ x ∈ last ∧ ∀ link ∈ links, x ∉ link.2 := by
  induction links generalizing last with
  | nil => simp
  | cons link links ih =>
      have hne : x ≠ link.1 := fun h => hx link List.mem_cons_self h.symm
      rw [List.foldl_cons, ih fun l hl => hx l (List.mem_cons_of_mem link hl), mem_push,
        List.forall_mem_cons, and_assoc]
      simp only [hne, or_false]

theorem foldl_push_sublist (links : List (Link α)) (last : List α) :
    (links.foldl push last).Sublist (last ++ links.map Prod.fst) := by
  induction links generalizing last with
  | nil => simp
  | cons link links ih =>
      have hpush : (push last link).Sublist (last ++ [link.1]) := List.filter_sublist
      apply (ih (push last link)).trans
      simpa using hpush.append_right (links.map Prod.fst)

/-- A node is kept exactly if neither it nor a later one lists it. -/
theorem mem_run_iff {links before after : List (Link α)} {link : Link α}
    (hnodup : (links.map Prod.fst).Nodup) (hlinks : links = before ++ link :: after) :
    link.1 ∈ run links ↔ ∀ l ∈ link :: after, link.1 ∉ l.2 := by
  subst hlinks
  have hafter : ∀ l ∈ after, l.1 ≠ link.1 := by
    intro l hl heq
    rw [List.map_append, List.map_cons, List.nodup_append] at hnodup
    exact (List.nodup_cons.1 hnodup.2.1).1 (List.mem_map.2 ⟨l, hl, heq⟩)
  rw [run, List.foldl_append, List.foldl_cons, mem_foldl_push hafter, mem_push,
    List.forall_mem_cons]
  simp

/-- **The list is the frontier exactly if the nodes arrive in order.** -/
theorem isFrontier_iff {links : List (Link α)} (hnodup : (links.map Prod.fst).Nodup) :
    IsFrontier links (run links) ↔ InOrder links := by
  have hsub : (run links).Sublist (links.map Prod.fst) := foldl_push_sublist links []
  -- the other nodes are those before and behind
  have hother : ∀ before link after, links = before ++ link :: after →
      ((∀ l ∈ links, l.1 ≠ link.1 → link.1 ∉ l.2) ↔ ∀ l ∈ before ++ after, link.1 ∉ l.2) := by
    rintro before link after rfl
    rw [List.map_append, List.map_cons, List.nodup_middle, List.nodup_cons, ← List.map_append]
      at hnodup
    constructor
    · intro h l hl
      refine h l ?_ fun heq => hnodup.1 (List.mem_map.2 ⟨l, hl, heq⟩)
      rcases List.mem_append.1 hl with hl | hl <;> simp [hl]
    · intro h l hl hne
      apply h l
      simp only [List.mem_append, List.mem_cons] at hl ⊢
      rcases hl with hl | rfl | hl
      · exact Or.inl hl
      · exact absurd rfl hne
      · exact Or.inr hl
  constructor
  · intro h before link after hlinks
    have hmem : link ∈ links := by rw [hlinks]; simp
    have hiff := h.mem_iff link.1
    rw [mem_run_iff hnodup hlinks, hother before link after hlinks] at hiff
    have hboth : (∀ l ∈ link :: after, link.1 ∉ l.2) ↔ ∀ l ∈ before ++ after, link.1 ∉ l.2 :=
      hiff.trans ⟨fun h => h.2, fun h => ⟨⟨link, hmem, rfl⟩, h⟩⟩
    rw [← not_iff_not]
    push Not
    exact hboth.symm
  · intro h
    refine ⟨hnodup.sublist hsub, fun x => ?_⟩
    constructor
    · intro hx
      obtain ⟨link, hmem, rfl⟩ := List.mem_map.1 (hsub.subset hx)
      obtain ⟨before, after, hlinks⟩ := List.append_of_mem hmem
      refine ⟨⟨link, hmem, rfl⟩, (hother before link after hlinks).2 fun l hl hlisted => ?_⟩
      obtain ⟨l', hl', hlisted'⟩ := (h before link after hlinks).1 ⟨l, hl, hlisted⟩
      exact (mem_run_iff hnodup hlinks).1 hx l' hl' hlisted'
    · rintro ⟨⟨link, hmem, rfl⟩, hnone⟩
      obtain ⟨before, after, hlinks⟩ := List.append_of_mem hmem
      refine (mem_run_iff hnodup hlinks).2 fun l hl hlisted => ?_
      obtain ⟨l', hl', hlisted'⟩ := (h before link after hlinks).2 ⟨l, hl, hlisted⟩
      exact (hother before link after hlinks).1 hnone l' hl' hlisted'

end Frontier
