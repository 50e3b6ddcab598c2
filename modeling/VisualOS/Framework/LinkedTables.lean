import Mathlib.Tactic

/-!
# Tables linked through their entries

A memory of tables, some of whose entries name another table.  Descending from a root along
a path of indices visits one table per index; the tables up to a fixed depth form a tree when
no two paths lead to the same one.  In such a tree a write to one entry is seen on one path
only, and hanging an empty table under an unused entry changes no other path.
-/

namespace VisualOS.Framework

variable {κ ι ω : Type}

section Descend

variable (target : ω → Option κ) (memory : κ → ι → ω)

/-- The table at the end of a path. -/
def descend (root : κ) : List ι → Option κ
  | [] => some root
  | i :: path => (target (memory root i)).bind fun k => descend k path

/-- The entry with index `i` in the table at the end of a path. -/
def lookup (root : κ) (path : List ι) (i : ι) : Option ω :=
  (descend target memory root path).map fun k => memory k i

/-- No two paths up to the given depth lead to the same table. -/
def Separated (root : κ) (depth : Nat) : Prop :=
  ∀ p q k, p.length ≤ depth → q.length ≤ depth →
    descend target memory root p = some k → descend target memory root q = some k → p = q

/-- No path up to the given depth leads to `k`. -/
def Unreached (root : κ) (depth : Nat) (k : κ) : Prop :=
  ∀ q, q.length ≤ depth → descend target memory root q ≠ some k

end Descend

section Writes

variable [DecidableEq κ]

def clearTable (memory : κ → ι → ω) (k : κ) (w : ω) : κ → ι → ω :=
  Function.update memory k fun _ => w

variable {memory : κ → ι → ω} {k k' : κ} {i j : ι} {w : ω}

theorem clearTable_same : clearTable memory k w k j = w := by
  simp [clearTable]

theorem clearTable_other (h : k' ≠ k) : clearTable memory k w k' j = memory k' j := by
  simp [clearTable, h]

variable [DecidableEq ι]

def writeEntry (memory : κ → ι → ω) (k : κ) (i : ι) (w : ω) : κ → ι → ω :=
  Function.update memory k (Function.update (memory k) i w)

theorem writeEntry_same : writeEntry memory k i w k i = w := by
  simp [writeEntry]

theorem writeEntry_other (h : ¬(k' = k ∧ j = i)) :
    writeEntry memory k i w k' j = memory k' j := by
  by_cases hk : k' = k
  · subst k'
    have hj : j ≠ i := fun hj => h ⟨rfl, hj⟩
    simp [writeEntry, hj]
  · simp [writeEntry, hk]

theorem writeEntry_self : writeEntry memory k i (memory k i) = memory := by
  simp [writeEntry]

end Writes

section Paths

variable {target : ω → Option κ} {memory : κ → ι → ω} {root k : κ} {depth : Nat}
  {p q : List ι} {i j : ι}

private theorem descend_append :
    descend target memory root (p ++ q) =
      (descend target memory root p).bind fun k => descend target memory k q := by
  induction p generalizing root with
  | nil => rfl
  | cons i p ih =>
      simp only [List.cons_append, descend, Option.bind_assoc]
      exact congrArg _ (funext fun k => ih)

theorem descend_concat :
    descend target memory root (q ++ [j]) =
      (descend target memory root q).bind fun k => target (memory k j) := by
  rw [descend_append]
  simp [descend]

theorem descend_of_isPrefix (h : descend target memory root q = some k) (hpq : p <+: q) :
    ∃ k', descend target memory root p = some k' := by
  obtain ⟨rest, rfl⟩ := hpq
  rw [descend_append, Option.bind_eq_some_iff] at h
  obtain ⟨k', hk', -⟩ := h
  exact ⟨k', hk'⟩

theorem descend_of_target {memory' : κ → ι → ω}
    (h : ∀ k i, target (memory' k i) = target (memory k i)) :
    descend target memory' root q = descend target memory root q := by
  induction q generalizing root with
  | nil => rfl
  | cons j q ih =>
      simp only [descend, h]
      exact congrArg _ (funext fun k => ih)

theorem Separated.congr {memory' : κ → ι → ω} {depth : Nat}
    (hsep : Separated target memory root depth)
    (h : ∀ p, descend target memory' root p = descend target memory root p) :
    Separated target memory' root depth := by
  intro p q k hp hq hkp hkq
  rw [h] at hkp hkq
  exact hsep p q k hp hq hkp hkq

theorem descend_congr {memory' : κ → ι → ω} (path : List ι)
    (h : ∀ q k, q <+: path → q ≠ path → descend target memory root q = some k →
      memory' k = memory k) :
    descend target memory' root path = descend target memory root path := by
  induction path using List.reverseRecOn with
  | nil => rfl
  | append_singleton path j ih =>
      have hshorter (q : List ι) (hq : q <+: path) : q <+: path ++ [j] ∧ q ≠ path ++ [j] := by
        refine ⟨hq.trans (List.prefix_append path [j]), ?_⟩
        rintro rfl
        have := hq.length_le
        rw [List.length_append, List.length_singleton] at this
        omega
      rw [descend_concat, descend_concat, ih fun q k hq _ => h q k (hshorter q hq).1 (hshorter q hq).2]
      cases hk : descend target memory root path with
      | none => rfl
      | some k =>
          have hpath := hshorter path (List.prefix_refl path)
          rw [Option.bind_some, Option.bind_some, h path k hpath.1 hpath.2 hk]

theorem descend_unchanged {memory' : κ → ι → ω}
    (h : ∀ q k, q.length ≤ depth → descend target memory root q = some k → memory' k = memory k)
    (hp : p.length ≤ depth + 1) :
    descend target memory' root p = descend target memory root p := by
  apply descend_congr
  intro q k hq hne hk
  refine h q k ?_ hk
  have hlength := hq.length_le
  have hproper : q.length ≠ p.length := fun hlen => hne (hq.eq_of_length hlen)
  omega

/-- A change of links that is confined to one entry of the tree.  Below the last level the
entry was unused and is given an empty table, if any; on the last level it may change freely. -/
theorem Separated.descend_change [DecidableEq ι] (hsep : Separated target memory root depth)
    (memory' : κ → ι → ω) (hk : descend target memory root p = some k) (hp : p.length ≤ depth)
    (hkeep : ∀ r k' j, r.length ≤ depth → descend target memory root r = some k' →
      ¬(k' = k ∧ j = i) → target (memory' k' j) = target (memory k' j))
    (hunused : p.length < depth → target (memory k i) = none)
    (hempty : p.length < depth → ∀ k' j, target (memory' k i) = some k' →
      target (memory' k' j) = none)
    (hq : q.length ≤ depth + 1) :
    descend target memory' root q =
      if q = p ++ [i] then target (memory' k i) else descend target memory root q := by
  induction q using List.reverseRecOn with
  | nil => simp [descend]
  | append_singleton q j ih =>
      rw [List.length_append, List.length_singleton] at hq
      rw [descend_concat, descend_concat, ih (by omega)]
      by_cases hnew : q = p ++ [i]
      · -- Below the entry that changed: nothing there before, nothing there now.
        have hlt : p.length < depth := by
          rw [hnew, List.length_append, List.length_singleton] at hq
          omega
        have hne : q ++ [j] ≠ p ++ [i] := by
          intro h
          have := congrArg List.length h
          simp [hnew] at this
        rw [if_pos hnew, if_neg hne, hnew, descend_concat, hk]
        simp only [Option.bind_some, hunused hlt, Option.bind_none]
        cases htarget : target (memory' k i) with
        | none => rfl
        | some k' => exact hempty hlt k' j htarget
      · rw [if_neg hnew]
        cases hd : descend target memory root q with
        | none =>
            have hne : q ++ [j] ≠ p ++ [i] := by
              intro h
              rw [(List.append_inj' h rfl).1, hk] at hd
              exact absurd hd (Option.some_ne_none k)
            simp [hne]
        | some k' =>
            simp only [Option.bind_some]
            by_cases hhere : q ++ [j] = p ++ [i]
            · obtain ⟨rfl, hji⟩ := List.append_inj' hhere rfl
              rw [hk, Option.some.injEq] at hd
              rw [if_pos hhere, hd, List.singleton_inj.mp hji]
            · rw [if_neg hhere]
              refine hkeep q k' j (by omega) hd ?_
              rintro ⟨rfl, rfl⟩
              exact hhere (by rw [hsep q p k' (by omega) hp hd hk])

end Paths

section Effects

variable [DecidableEq κ] [DecidableEq ι] {target : ω → Option κ} {memory : κ → ι → ω}
  {root k fresh : κ} {depth : Nat} {p q : List ι} {i j : ι} {w zero : ω}

theorem Separated.descend_writeEntry_last (hsep : Separated target memory root depth)
    (hk : descend target memory root p = some k) (hp : p.length = depth)
    (hq : q.length ≤ depth + 1) :
    descend target (writeEntry memory k i w) root q =
      if q = p ++ [i] then target w else descend target memory root q := by
  have h := hsep.descend_change (writeEntry memory k i w) (i := i) hk hp.le
    (fun r k' j _ _ hne => by rw [writeEntry_other hne]) (fun h => absurd h (by omega))
    (fun h => absurd h (by omega)) hq
  rwa [writeEntry_same] at h

theorem Separated.writeEntry_last (hsep : Separated target memory root depth)
    (hk : descend target memory root p = some k) (hp : p.length = depth) :
    Separated target (writeEntry memory k i w) root depth := by
  have hsame : ∀ q, q.length ≤ depth →
      descend target (writeEntry memory k i w) root q = descend target memory root q := by
    intro q hq
    rw [hsep.descend_writeEntry_last hk hp (by omega), if_neg]
    rintro rfl
    rw [List.length_append, List.length_singleton] at hq
    omega
  intro p q k' hp hq h₁ h₂
  rw [hsame p hp] at h₁
  rw [hsame q hq] at h₂
  exact hsep p q k' hp hq h₁ h₂

theorem Separated.lookup_writeEntry (hsep : Separated target memory root depth)
    (hk : descend target memory root p = some k) (hp : p.length ≤ depth)
    (hsame : descend target (writeEntry memory k i w) root q = descend target memory root q)
    (hq : q.length ≤ depth) :
    lookup target (writeEntry memory k i w) root q j =
      if q = p ∧ j = i then some w else lookup target memory root q j := by
  rw [lookup, lookup, hsame]
  by_cases h : q = p ∧ j = i
  · obtain ⟨rfl, rfl⟩ := h
    simp [hk, writeEntry_same]
  · rw [if_neg h]
    cases hd : descend target memory root q with
    | none => rfl
    | some k' =>
        simp only [Option.map_some, Option.some.injEq]
        refine writeEntry_other ?_
        rintro ⟨rfl, rfl⟩
        exact h ⟨hsep q p k' hq hp hd hk, rfl⟩

/-- Hanging an emptied table that was not part of the tree under an unused entry. -/
theorem Separated.descend_link (hsep : Separated target memory root depth)
    (hk : descend target memory root p = some k) (hp : p.length < depth)
    (hunused : target (memory k i) = none) (hfresh : Unreached target memory root depth fresh)
    (hzero : target zero = none) (hw : target w = some fresh) (hq : q.length ≤ depth + 1) :
    descend target (writeEntry (clearTable memory fresh zero) k i w) root q =
      if q = p ++ [i] then some fresh else descend target memory root q := by
  have hkf : fresh ≠ k := by
    rintro rfl
    exact hfresh p hp.le hk
  have h := hsep.descend_change (writeEntry (clearTable memory fresh zero) k i w) (i := i)
    hk hp.le ?_ (fun _ => hunused) ?_ hq
  · rwa [writeEntry_same, hw] at h
  · intro r k' j hr hk' hne
    have hk'f : k' ≠ fresh := by
      rintro rfl
      exact hfresh r hr hk'
    rw [writeEntry_other hne, clearTable_other hk'f]
  · intro _ k' j htarget
    rw [writeEntry_same, hw, Option.some.injEq] at htarget
    subst k'
    rw [writeEntry_other (fun h => hkf h.1), clearTable_same, hzero]

theorem Separated.link (hsep : Separated target memory root depth)
    (hk : descend target memory root p = some k) (hp : p.length < depth)
    (hunused : target (memory k i) = none) (hfresh : Unreached target memory root depth fresh)
    (hzero : target zero = none) (hw : target w = some fresh) :
    Separated target (writeEntry (clearTable memory fresh zero) k i w) root depth := by
  intro a b k' ha hb h₁ h₂
  rw [hsep.descend_link hk hp hunused hfresh hzero hw (by omega)] at h₁ h₂
  split at h₁ <;> split at h₂
  · rename_i ha' hb'
    rw [ha', hb']
  · exact absurd (h₂.trans h₁.symm) (hfresh b hb)
  · exact absurd (h₁.trans h₂.symm) (hfresh a ha)
  · exact hsep a b k' ha hb h₁ h₂

theorem Separated.lookup_link (hsep : Separated target memory root depth)
    (hk : descend target memory root p = some k) (hp : p.length < depth)
    (hunused : target (memory k i) = none) (hfresh : Unreached target memory root depth fresh)
    (hzero : target zero = none) (hw : target w = some fresh) (hq : q.length ≤ depth) :
    lookup target (writeEntry (clearTable memory fresh zero) k i w) root q j =
      if q = p ∧ j = i then some w else
      if q = p ++ [i] then some zero else lookup target memory root q j := by
  have hkf : fresh ≠ k := by
    rintro rfl
    exact hfresh p hp.le hk
  rw [lookup, lookup, hsep.descend_link hk hp hunused hfresh hzero hw (by omega)]
  by_cases hnew : q = p ++ [i]
  · have hqp : q ≠ p := by
      rw [hnew]
      simp
    rw [if_pos hnew, if_neg (fun h => hqp h.1), if_pos hnew, Option.map_some,
      writeEntry_other (fun h => hkf h.1), clearTable_same]
  · rw [if_neg hnew, if_neg hnew]
    by_cases h : q = p ∧ j = i
    · obtain ⟨rfl, rfl⟩ := h
      simp [hk, writeEntry_same]
    · rw [if_neg h]
      cases hd : descend target memory root q with
      | none => rfl
      | some k' =>
          have hk'f : k' ≠ fresh := by
            rintro rfl
            exact hfresh q hq hd
          simp only [Option.map_some, Option.some.injEq]
          rw [writeEntry_other, clearTable_other hk'f]
          rintro ⟨rfl, rfl⟩
          exact h ⟨hsep q p k' hq hp.le hd hk, rfl⟩

end Effects

end VisualOS.Framework
