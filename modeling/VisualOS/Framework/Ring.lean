import Mathlib.GroupTheory.Perm.List
import Mathlib.Tactic

/-!
# Doubly linked rings

A list whose elements are linked in a circle: `next` leads from each element to its cyclic
successor, and `previous` back.  The cyclic successor is the list's `formPerm`, so that where
the list is cut does not matter.
-/

namespace VisualOS.Framework

variable {κ : Type} [DecidableEq κ]

structure IsRing (next previous : κ → κ) (l : List κ) : Prop where
  nodup : l.Nodup
  next : ∀ x ∈ l, next x = l.formPerm x
  previous : ∀ x ∈ l, previous (l.formPerm x) = x

namespace IsRing

variable {next previous next' previous' : κ → κ} {l m : List κ} {a c h : κ}

theorem nil (next previous : κ → κ) : IsRing next previous [] where
  nodup := List.nodup_nil
  next _ hx := absurd hx List.not_mem_nil
  previous _ hx := absurd hx List.not_mem_nil

theorem singleton (hnext : next c = c) (hprevious : previous c = c) :
    IsRing next previous [c] where
  nodup := List.nodup_singleton c
  next x hx := by simp [List.mem_singleton.mp hx, hnext]
  previous x hx := by simp [List.mem_singleton.mp hx, hprevious]

theorem congr (hr : IsRing next previous l) (hnext : ∀ x ∈ l, next' x = next x)
    (hprevious : ∀ x ∈ l, previous' x = previous x) : IsRing next' previous' l where
  nodup := hr.nodup
  next x hx := (hnext x hx).trans (hr.next x hx)
  previous x hx := by
    rw [hprevious _ (List.formPerm_apply_mem_of_mem hx), hr.previous x hx]

theorem rotate (hr : IsRing next previous (l ++ m)) : IsRing next previous (m ++ l) := by
  have hperm : (l ++ m).formPerm = (m ++ l).formPerm :=
    List.formPerm_eq_of_isRotated hr.nodup List.isRotated_append
  refine ⟨List.nodup_append_comm.mp hr.nodup, ?_, ?_⟩
  · intro x hx
    rw [← hperm]
    exact hr.next x (by simpa [or_comm] using hx)
  · intro x hx
    rw [← hperm]
    exact hr.previous x (by simpa [or_comm] using hx)

theorem next_mem (hr : IsRing next previous l) (hc : c ∈ l) : next c ∈ l := by
  rw [hr.next c hc]
  exact List.formPerm_apply_mem_of_mem hc

theorem previous_next (hr : IsRing next previous l) (hc : c ∈ l) : previous (next c) = c := by
  rw [hr.next c hc, hr.previous c hc]

private theorem exists_next_eq (hr : IsRing next previous l) (hc : c ∈ l) :
    ∃ x ∈ l, next x = c ∧ previous c = x := by
  have hpred : l.formPerm (l.formPerm.symm c) = c := Equiv.apply_symm_apply _ c
  have hmem : l.formPerm.symm c ∈ l := by
    rw [← List.formPerm_mem_iff_mem, hpred]
    exact hc
  have hprevious := hr.previous _ hmem
  rw [hpred] at hprevious
  exact ⟨_, hmem, (hr.next _ hmem).trans hpred, hprevious⟩

theorem previous_mem (hr : IsRing next previous l) (hc : c ∈ l) : previous c ∈ l := by
  obtain ⟨x, hx, -, rfl⟩ := hr.exists_next_eq hc
  exact hx

theorem next_previous (hr : IsRing next previous l) (hc : c ∈ l) : next (previous c) = c := by
  obtain ⟨x, -, hnext, rfl⟩ := hr.exists_next_eq hc
  exact hnext

theorem next_last (hr : IsRing next previous (m ++ [a])) (hh : (m ++ [a]).head? = some h) :
    next a = h := by
  rw [hr.next a (by simp)]
  cases m with
  | nil =>
      rw [List.nil_append, List.head?_cons, Option.some.injEq] at hh
      simp [hh]
  | cons x m =>
      rw [List.cons_append, List.head?_cons, Option.some.injEq] at hh
      simp [hh]

private theorem previous_head (hr : IsRing next previous (m ++ [a]))
    (hh : (m ++ [a]).head? = some h) : previous h = a := by
  rw [← hr.next_last hh]
  exact hr.previous_next (by simp)

private theorem formPerm_concat {x : κ} (hc : c ∉ m ++ [a]) :
    (m ++ [a, c]).formPerm x =
      if x = a then c else if x = c then (m ++ [a]).formPerm a else (m ++ [a]).formPerm x := by
  rw [List.formPerm_append_pair, Equiv.Perm.mul_apply]
  by_cases hxa : x = a
  · rw [if_pos hxa, hxa, Equiv.swap_apply_left, List.formPerm_apply_of_notMem hc]
  · rw [if_neg hxa]
    by_cases hxc : x = c
    · rw [if_pos hxc, hxc, Equiv.swap_apply_right]
    · rw [if_neg hxc, Equiv.swap_apply_of_ne_of_ne hxa hxc]

theorem insert (hr : IsRing next previous l) (hh : l.head? = some h) (hc : c ∉ l) :
    IsRing (Function.update (Function.update next c h) (previous h) c)
      (Function.update (Function.update previous c (previous h)) h c) (l ++ [c]) := by
  obtain rfl | ⟨m, a, rfl⟩ := List.eq_nil_or_concat' l
  · simp at hh
  have hlast := hr.next_last hh
  have hhead := hr.previous_head hh
  have hhm : h ∈ m ++ [a] := List.mem_of_head? hh
  have hac : a ≠ c := by
    rintro rfl
    simp at hc
  have hhc : h ≠ c := fun h' => hc (h' ▸ hhm)
  have hperm : ∀ x, (m ++ [a] ++ [c]).formPerm x =
      if x = a then c else if x = c then h else (m ++ [a]).formPerm x := by
    intro x
    rw [List.append_assoc, List.singleton_append, formPerm_concat hc, ← hr.next a (by simp),
      hlast]
  rw [hhead]
  refine ⟨?_, ?_, ?_⟩
  · rw [List.nodup_append_comm]
    exact List.nodup_cons.mpr ⟨hc, hr.nodup⟩
  · intro x hx
    rw [hperm]
    by_cases hxa : x = a
    · simp [hxa]
    · by_cases hxc : x = c
      · simp [hxc, hac.symm]
      · have hxm : x ∈ m ++ [a] := by simpa [hxc] using hx
        simp [hxa, hxc, hr.next x hxm]
  · intro x hx
    rw [hperm]
    by_cases hxa : x = a
    · simp [hxa, hhc.symm]
    · by_cases hxc : x = c
      · simp [hxc, hac.symm]
      · have hxm : x ∈ m ++ [a] := by simpa [hxc] using hx
        have hmem := List.formPerm_apply_mem_of_mem hxm
        have hne : (m ++ [a]).formPerm x ≠ h := by
          intro heq
          rw [← hlast, hr.next a (by simp)] at heq
          exact hxa (Equiv.injective _ heq)
        have hnc : (m ++ [a]).formPerm x ≠ c := fun heq => hc (heq ▸ hmem)
        simp [hxa, hxc, hne, hnc, hr.previous x hxm]

theorem remove (hr : IsRing next previous (l ++ [c])) (hl : l ≠ []) :
    IsRing (Function.update next (previous c) (next c))
      (Function.update previous (next c) (previous c)) l := by
  obtain rfl | ⟨m, a, rfl⟩ := List.eq_nil_or_concat' l
  · exact absurd rfl hl
  have hnodup := List.nodup_append_comm.mp hr.nodup
  rw [List.singleton_append, List.nodup_cons] at hnodup
  obtain ⟨hc, hnodup⟩ := hnodup
  have hac : a ≠ c := by
    rintro rfl
    simp at hc
  have hperm : ∀ x, (m ++ [a] ++ [c]).formPerm x =
      if x = a then c else if x = c then (m ++ [a]).formPerm a else (m ++ [a]).formPerm x := by
    intro x
    rw [List.append_assoc, List.singleton_append, formPerm_concat hc]
  have hnext : next c = (m ++ [a]).formPerm a := by
    rw [hr.next c (by simp), hperm, if_neg hac.symm, if_pos rfl]
  have hprevious : previous c = a := by
    have := hr.previous a (by simp)
    rwa [hperm, if_pos rfl] at this
  rw [hnext, hprevious]
  refine ⟨hnodup, ?_, ?_⟩
  · intro x hx
    have hxc : x ≠ c := fun h' => hc (h' ▸ hx)
    by_cases hxa : x = a
    · simp [hxa]
    · rw [Function.update_of_ne hxa, hr.next x (List.mem_append_left _ hx), hperm, if_neg hxa,
        if_neg hxc]
  · intro x hx
    have hxc : x ≠ c := fun h' => hc (h' ▸ hx)
    by_cases hxa : x = a
    · simp [hxa]
    · have hne : (m ++ [a]).formPerm x ≠ (m ++ [a]).formPerm a :=
        fun heq => hxa (Equiv.injective _ heq)
      have := hr.previous x (List.mem_append_left _ hx)
      rw [hperm, if_neg hxa, if_neg hxc] at this
      rw [Function.update_of_ne hne, this]

/-- Following `next` from the first element visits the list in order, over and over. -/
theorem iterate_next (hr : IsRing next previous (h :: l)) (n : Nat) :
    (h :: l)[n % (h :: l).length]? = some (next^[n] h) := by
  induction n with
  | zero => simp
  | succ n ih =>
      obtain ⟨hlt, hget⟩ := List.getElem?_eq_some_iff.mp ih
      have hmem : next^[n] h ∈ h :: l := hget ▸ List.getElem_mem hlt
      rw [Function.iterate_succ_apply', hr.next _ hmem, ← hget,
        List.formPerm_apply_getElem _ hr.nodup, ← List.getElem?_eq_getElem, Nat.mod_add_mod]

end IsRing

end VisualOS.Framework
