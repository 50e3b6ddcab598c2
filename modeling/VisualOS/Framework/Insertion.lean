import Mathlib.Data.List.DropRight
import Mathlib.Order.Basic
import Mathlib.Tactic

/-!
# Stable insertion

A new element goes behind the last element whose key is not greater than its own.  Inserting the
elements of a list one after the other sorts it by key and keeps elements with the same key in
their order.
-/

namespace VisualOS.Framework

variable {α κ : Type*} [LinearOrder κ] (key : α → κ)

/-- The part of the list in front of the place of a new element. -/
def upTo (l : List α) (a : α) : List α := l.rdropWhile fun b => key a < key b

/-- The part behind its place: the elements at the end with a greater key. -/
def above (l : List α) (a : α) : List α := l.rtakeWhile fun b => key a < key b

def insertByKey (l : List α) (a : α) : List α := upTo key l a ++ a :: above key l a

def sortByKey (l : List α) : List α := l.foldl (insertByKey key) []

/-- By key, and by `r` where the keys are the same. -/
def KeyOrdered (r : α → α → Prop) (l : List α) : Prop :=
  l.Pairwise fun a b => key a < key b ∨ key a = key b ∧ r a b

variable {key} {r : α → α → Prop} {l : List α} {a b : α}

theorem upTo_append_above (l : List α) (a : α) : upTo key l a ++ above key l a = l :=
  List.rdropWhile_append_rtakeWhile

private theorem upTo_sublist (l : List α) (a : α) : (upTo key l a).Sublist l :=
  (List.rdropWhile_prefix _ l).sublist

private theorem lt_of_mem_above (h : b ∈ above key l a) : key a < key b := by
  simpa using List.mem_rtakeWhile_imp h

theorem upTo_ne_nil (hb : b ∈ l) (hle : key b ≤ key a) : upTo key l a ≠ [] := by
  rw [upTo, Ne, List.rdropWhile_eq_nil_iff]
  intro hall
  exact absurd (of_decide_eq_true (hall b hb)) hle.not_gt

private theorem getLast_upTo_le (h : upTo key l a ≠ []) :
    key ((upTo key l a).getLast h) ≤ key a := by
  have hlast := List.rdropWhile_last_not (fun b => decide (key a < key b)) l h
  rwa [decide_eq_true_eq, not_lt] at hlast

/-! The place seen from the end of the list, one element at a time. -/

theorem upTo_concat_of_lt (l : List α) (h : key a < key b) : upTo key (l ++ [b]) a = upTo key l a :=
  List.rdropWhile_concat_pos _ _ _ (decide_eq_true h)

theorem above_concat_of_lt (l : List α) (h : key a < key b) :
    above key (l ++ [b]) a = above key l a ++ [b] :=
  List.rtakeWhile_concat_pos _ _ _ (decide_eq_true h)

theorem upTo_concat_of_le (l : List α) (h : key b ≤ key a) : upTo key (l ++ [b]) a = l ++ [b] :=
  List.rdropWhile_concat_neg _ _ _ (by simpa using h)

theorem above_concat_of_le (l : List α) (h : key b ≤ key a) : above key (l ++ [b]) a = [] :=
  List.rtakeWhile_concat_neg _ _ _ (by simpa using h)

theorem insertByKey_perm (l : List α) (a : α) : (insertByKey key l a).Perm (a :: l) := by
  apply List.perm_middle.trans
  rw [upTo_append_above]

private theorem KeyOrdered.le_of_mem_upTo (h : KeyOrdered key r l) (hb : b ∈ upTo key l a) :
    key b ≤ key a := by
  have hne := List.ne_nil_of_mem hb
  have hlast := getLast_upTo_le hne
  have hordered : KeyOrdered key r (upTo key l a) := h.sublist (upTo_sublist l a)
  rw [KeyOrdered, ← List.dropLast_append_getLast hne, List.pairwise_append] at hordered
  rw [← List.dropLast_append_getLast hne, List.mem_append, List.mem_singleton] at hb
  rcases hb with hb | rfl
  · rcases hordered.2.2 b hb _ List.mem_cons_self with hlt | ⟨heq, -⟩
    · exact hlt.le.trans hlast
    · exact heq.le.trans hlast
  · exact hlast

private theorem KeyOrdered.insert (h : KeyOrdered key r l) (hr : ∀ b ∈ l, r b a) :
    KeyOrdered key r (insertByKey key l a) := by
  have habove : (above key l a).Sublist l := (List.rtakeWhile_suffix _ l).sublist
  rw [KeyOrdered, insertByKey, List.pairwise_append, List.pairwise_cons]
  refine ⟨h.sublist (upTo_sublist l a),
    ⟨fun b hb => .inl (lt_of_mem_above hb), h.sublist habove⟩, ?_⟩
  intro b hb c hc
  have hle := h.le_of_mem_upTo hb
  rcases List.mem_cons.mp hc with rfl | hc
  · rcases hle.lt_or_eq with hlt | heq
    · exact .inl hlt
    · exact .inr ⟨heq, hr b ((upTo_sublist l c).subset hb)⟩
  · exact .inl (hle.trans_lt (lt_of_mem_above hc))

theorem insertByKey_cons {first : α} {rest : List α} (h : key first ≤ key a) :
    ∃ rest', insertByKey key (first :: rest) a = first :: rest' := by
  have hsplit : upTo key (first :: rest) a ++ above key (first :: rest) a = first :: rest :=
    upTo_append_above _ a
  have hne := upTo_ne_nil (l := first :: rest) List.mem_cons_self h
  rw [insertByKey]
  cases hfront : upTo key (first :: rest) a with
  | nil => exact absurd hfront hne
  | cons b front =>
      rw [hfront, List.cons_append, List.cons.injEq] at hsplit
      rw [hsplit.1]
      exact ⟨_, rfl⟩

section Fold

variable {start : List α}

private theorem foldl_insertByKey_perm (start l : List α) :
    (l.foldl (insertByKey key) start).Perm (start ++ l) := by
  induction l generalizing start with
  | nil => rw [List.foldl_nil, List.append_nil]
  | cons a l ih =>
      rw [List.foldl_cons]
      apply (ih _).trans
      apply ((insertByKey_perm start a).append_right l).trans
      exact List.perm_middle.symm

private theorem KeyOrdered.insertAll (h : KeyOrdered key r start) (hl : l.Pairwise r)
    (hr : ∀ b ∈ start, ∀ a ∈ l, r b a) : KeyOrdered key r (l.foldl (insertByKey key) start) := by
  induction l generalizing start with
  | nil => exact h
  | cons a l ih =>
      rw [List.pairwise_cons] at hl
      rw [List.foldl_cons]
      apply ih
      · exact h.insert fun b hb => hr b hb a List.mem_cons_self
      · exact hl.2
      · intro b hb c hc
        rcases List.mem_cons.mp ((insertByKey_perm start a).mem_iff.mp hb) with rfl | hb
        · exact hl.1 c hc
        · exact hr b hb c (List.mem_cons_of_mem a hc)

end Fold

theorem sortByKey_perm (l : List α) : (sortByKey key l).Perm l :=
  foldl_insertByKey_perm [] l

theorem sortByKey_ordered (hl : l.Pairwise r) : KeyOrdered key r (sortByKey key l) :=
  KeyOrdered.insertAll .nil hl (fun _ hb => absurd hb List.not_mem_nil)

end VisualOS.Framework
