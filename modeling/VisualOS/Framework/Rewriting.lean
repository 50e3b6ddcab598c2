import VisualOS.Framework.LinkedTables

/-!
# Rewriting entries on the way down

A walk from the root of linked tables that rewrites every entry it comes to, and goes on with
the table the rewritten entry names.  When the rewriting keeps what the entries lead to, the
walk comes to the entries of the path and to no others, and a sequence of walks rewrites the
entries of all their paths once.
-/

namespace VisualOS.Framework

variable {κ ι ω : Type}

/-- The entries at the given cells are rewritten, and no other entry is. -/
structure Rewritten (f : ω → ω) (cells : Set (κ × ι)) (memory memory' : κ → ι → ω) : Prop where
  inside : ∀ k i, (k, i) ∈ cells → memory' k i = f (memory k i)
  outside : ∀ k i, (k, i) ∉ cells → memory' k i = memory k i

/-- The cells that a descent along the path reads. -/
def cellsOn (target : ω → Option κ) (memory : κ → ι → ω) (k : κ) : List ι → List (κ × ι)
  | [] => []
  | i :: path =>
      (k, i) :: (target (memory k i)).elim [] fun next => cellsOn target memory next path

section Walks

variable [DecidableEq κ] [DecidableEq ι] (f : ω → ω) (link : ω → κ)

def rewriteEntry (memory : κ → ι → ω) (k : κ) (i : ι) : κ → ι → ω :=
  writeEntry memory k i (f (memory k i))

/-- The walk, which goes on with what `link` makes of the rewritten entry. -/
def rewriteWalk (memory : κ → ι → ω) (k : κ) : List ι → κ → ι → ω
  | [] => memory
  | i :: path => rewriteWalk (rewriteEntry f memory k i) (link (f (memory k i))) path

/-- The cells that the walk comes to. -/
def visited (memory : κ → ι → ω) (k : κ) : List ι → List (κ × ι)
  | [] => []
  | i :: path => (k, i) :: visited (rewriteEntry f memory k i) (link (f (memory k i))) path

/-- One walk after the other, all from the same root. -/
def rewriteWalks (root : κ) (memory : κ → ι → ω) : List (List ι) → κ → ι → ω
  | [] => memory
  | path :: paths => rewriteWalks root (rewriteWalk f link memory root path) paths

def visitedAll (root : κ) (memory : κ → ι → ω) : List (List ι) → List (κ × ι)
  | [] => []
  | path :: paths =>
      visited f link memory root path ++ visitedAll root (rewriteWalk f link memory root path) paths

end Walks

/-! ## Cells of a path -/

section Cells

variable {target : ω → Option κ} {memory memory' : κ → ι → ω} {root k : κ} {path : List ι} {i : ι}

private theorem mem_cellsOn :
    (k, i) ∈ cellsOn target memory root path ↔
      ∃ p, p ++ [i] <+: path ∧ descend target memory root p = some k := by
  induction path generalizing root with
  | nil => simp [cellsOn]
  | cons j path ih =>
      rw [cellsOn, List.mem_cons, Prod.mk.injEq]
      have hbelow : (k, i) ∈ ((target (memory root j)).elim []
            fun next => cellsOn target memory next path) ↔
          ∃ p, p ++ [i] <+: path ∧ descend target memory root (j :: p) = some k := by
        cases htarget : target (memory root j) with
        | none => simp [descend, htarget]
        | some next => simp [descend, htarget, ih]
      rw [hbelow]
      constructor
      · rintro (⟨rfl, rfl⟩ | ⟨p, hp, hk⟩)
        · exact ⟨[], by simp, rfl⟩
        · exact ⟨j :: p, List.cons_prefix_cons.mpr ⟨rfl, hp⟩, hk⟩
      · rintro ⟨p, hp, hk⟩
        cases p with
        | nil =>
            rw [List.nil_append, List.cons_prefix_cons] at hp
            exact .inl ⟨(Option.some.inj hk).symm, hp.1⟩
        | cons j' p =>
            rw [List.cons_append, List.cons_prefix_cons] at hp
            obtain ⟨rfl, hp⟩ := hp
            exact .inr ⟨p, hp, hk⟩

theorem Separated.mem_cellsOn {depth : Nat} {p : List ι} (h : Separated target memory root depth)
    (hk : descend target memory root p = some k) (hp : p.length ≤ depth)
    (hpath : path.length ≤ depth + 1) :
    (k, i) ∈ cellsOn target memory root path ↔ p ++ [i] <+: path := by
  rw [Framework.mem_cellsOn]
  constructor
  · rintro ⟨q, hq, hqk⟩
    have hlength := hq.length_le
    rw [List.length_append, List.length_singleton] at hlength
    rwa [h p q k hp (by omega) hk hqk]
  · exact fun hprefix => ⟨p, hprefix, hk⟩

private theorem cellsOn_congr (h : ∀ k i, target (memory' k i) = target (memory k i)) :
    cellsOn target memory' k path = cellsOn target memory k path := by
  induction path generalizing k with
  | nil => rfl
  | cons i path ih =>
      rw [cellsOn, cellsOn, h]
      simp only [ih]

end Cells

/-! ## What is rewritten -/

namespace Rewritten

variable {target : ω → Option κ} {f : ω → ω} {cells cells' : Set (κ × ι)}
  {memory memory' memory'' : κ → ι → ω} {root k : κ} {path : List ι} {i : ι}

theorem refl (f : ω → ω) (memory : κ → ι → ω) : Rewritten f ∅ memory memory where
  inside _ _ h := absurd h (Set.notMem_empty _)
  outside _ _ _ := rfl

theorem trans (hf : ∀ w, f (f w) = f w) (h : Rewritten f cells memory memory')
    (h' : Rewritten f cells' memory' memory'') : Rewritten f (cells ∪ cells') memory memory'' where
  inside k i hcell := by
    by_cases hlast : (k, i) ∈ cells'
    · rw [h'.inside k i hlast]
      by_cases hfirst : (k, i) ∈ cells
      · rw [h.inside k i hfirst, hf]
      · rw [h.outside k i hfirst]
    · rw [h'.outside k i hlast, h.inside k i (hcell.resolve_right hlast)]
  outside k i hcell := by
    rw [h'.outside k i fun hlast => hcell (.inr hlast), h.outside k i fun hfirst => hcell (.inl hfirst)]

theorem congr (h : Rewritten f cells memory memory') (hcells : ∀ c, c ∈ cells ↔ c ∈ cells') :
    Rewritten f cells' memory memory' where
  inside k i hcell := h.inside k i ((hcells _).mpr hcell)
  outside k i hcell := h.outside k i fun hmem => hcell ((hcells _).mp hmem)

private theorem eq_or (h : Rewritten f cells memory memory') (k : κ) (i : ι) :
    memory' k i = f (memory k i) ∨ memory' k i = memory k i := by
  by_cases hcell : (k, i) ∈ cells
  · exact .inl (h.inside k i hcell)
  · exact .inr (h.outside k i hcell)

/-- The rewriting keeps what the entries at the cells lead to. -/
def Keeps (target : ω → Option κ) (f : ω → ω) (memory : κ → ι → ω) (cells : Set (κ × ι)) : Prop :=
  ∀ k i, (k, i) ∈ cells → target (f (memory k i)) = target (memory k i)

private theorem target_eq (h : Rewritten f cells memory memory')
    (hkeeps : Keeps target f memory cells)
    (k : κ) (i : ι) : target (memory' k i) = target (memory k i) := by
  by_cases hcell : (k, i) ∈ cells
  · rw [h.inside k i hcell, hkeeps k i hcell]
  · rw [h.outside k i hcell]

theorem descend_eq (h : Rewritten f cells memory memory') (hkeeps : Keeps target f memory cells) :
    descend target memory' root path = descend target memory root path :=
  descend_of_target (h.target_eq hkeeps)

private theorem cellsOn_eq (h : Rewritten f cells memory memory')
    (hkeeps : Keeps target f memory cells) :
    cellsOn target memory' root path = cellsOn target memory root path :=
  cellsOn_congr (h.target_eq hkeeps)

private theorem keeps (hf : ∀ w, f (f w) = f w) (h : Rewritten f cells memory memory')
    (hkeeps : Keeps target f memory cells)
    (hcell : target (f (memory k i)) = target (memory k i)) :
    target (f (memory' k i)) = target (memory' k i) := by
  rw [h.target_eq hkeeps]
  rcases h.eq_or k i with heq | heq
  · rw [heq, hf, hcell]
  · rw [heq, hcell]

variable [DecidableEq κ] [DecidableEq ι]

theorem entry (f : ω → ω) (memory : κ → ι → ω) (k : κ) (i : ι) :
    Rewritten f {(k, i)} memory (rewriteEntry f memory k i) where
  inside k' i' hcell := by
    obtain ⟨rfl, rfl⟩ := Prod.mk.inj (Set.mem_singleton_iff.mp hcell)
    exact writeEntry_same
  outside k' i' hcell := by
    apply writeEntry_other
    rintro ⟨rfl, rfl⟩
    exact hcell rfl

end Rewritten

/-! ## The walks -/

section Walks

variable [DecidableEq κ] [DecidableEq ι] {target : ω → Option κ} {f : ω → ω} {link : ω → κ}
  {memory : κ → ι → ω} {root k : κ} {path : List ι} {paths : List (List ι)}

private theorem rewriteWalk_rewritten (hf : ∀ w, f (f w) = f w) :
    Rewritten f {c | c ∈ visited f link memory k path} memory
      (rewriteWalk f link memory k path) := by
  induction path generalizing memory k with
  | nil => exact (Rewritten.refl f memory).congr (by simp [visited])
  | cons i path ih =>
      apply ((Rewritten.entry f memory k i).trans hf ih).congr
      intro c
      simp [visited]

theorem rewriteWalks_rewritten (hf : ∀ w, f (f w) = f w) :
    Rewritten f {c | c ∈ visitedAll f link root memory paths} memory
      (rewriteWalks f link root memory paths) := by
  induction paths generalizing memory with
  | nil => exact (Rewritten.refl f memory).congr (by simp [visitedAll])
  | cons path paths ih =>
      apply ((rewriteWalk_rewritten hf).trans hf ih).congr
      intro c
      simp [visitedAll]

/-- The walk stays on its path as long as the entries that it rewrites there keep what they lead
to. -/
theorem visited_eq (hf : ∀ w, f (f w) = f w) (hlink : ∀ w k, target w = some k → link w = k)
    (hpath : descend target memory k path ≠ none)
    (hkeeps : ∀ c ∈ visited f link memory k path, c ∈ cellsOn target memory k path →
      target (f (memory c.1 c.2)) = target (memory c.1 c.2)) :
    visited f link memory k path = cellsOn target memory k path := by
  induction path generalizing memory k with
  | nil => rfl
  | cons i path ih =>
      rw [visited, cellsOn] at hkeeps ⊢
      have hhere := hkeeps (k, i) List.mem_cons_self List.mem_cons_self
      rw [descend] at hpath
      cases htarget : target (memory k i) with
      | none => simp [htarget] at hpath
      | some next =>
          rw [htarget] at hpath hkeeps hhere
          have hnext : link (f (memory k i)) = next := hlink _ _ hhere
          have hentry := Rewritten.entry f memory k i
          have hkept : Rewritten.Keeps target f memory {(k, i)} := by
            intro k' i' hcell
            obtain ⟨rfl, rfl⟩ := Prod.mk.inj (Set.mem_singleton_iff.mp hcell)
            exact hhere.trans htarget.symm
          rw [hnext] at hkeeps ⊢
          rw [ih, hentry.cellsOn_eq hkept]
          · rfl
          · rw [hentry.descend_eq hkept]
            exact hpath
          · intro c hc hcell
            rw [hentry.cellsOn_eq hkept] at hcell
            exact hentry.keeps hf hkept
              (hkeeps c (List.mem_cons_of_mem _ hc) (List.mem_cons_of_mem _ hcell))

theorem visitedAll_eq (hf : ∀ w, f (f w) = f w) (hlink : ∀ w k, target w = some k → link w = k)
    (hpaths : ∀ path ∈ paths, descend target memory root path ≠ none)
    (hkeeps : ∀ c ∈ visitedAll f link root memory paths,
      c ∈ paths.flatMap (cellsOn target memory root) →
        target (f (memory c.1 c.2)) = target (memory c.1 c.2)) :
    visitedAll f link root memory paths = paths.flatMap (cellsOn target memory root) := by
  induction paths generalizing memory with
  | nil => rfl
  | cons path paths ih =>
      rw [visitedAll, List.flatMap_cons] at hkeeps ⊢
      rw [List.forall_mem_cons] at hpaths
      have hfirst := visited_eq hf hlink hpaths.1 fun c hc hcell =>
        hkeeps c (List.mem_append_left _ hc) (List.mem_append_left _ hcell)
      have hwalk : Rewritten f {c | c ∈ visited f link memory root path} memory
          (rewriteWalk f link memory root path) := rewriteWalk_rewritten hf
      have hkept : Rewritten.Keeps target f memory {c | c ∈ visited f link memory root path} := by
        intro k i hc
        exact hkeeps (k, i) (List.mem_append_left _ hc) (List.mem_append_left _ (hfirst ▸ hc))
      have hcells : paths.flatMap (cellsOn target (rewriteWalk f link memory root path) root) =
          paths.flatMap (cellsOn target memory root) :=
        List.flatMap_congr fun path _ => hwalk.cellsOn_eq hkept
      rw [hfirst, ih, hcells]
      · intro path hpath
        rw [hwalk.descend_eq hkept]
        exact hpaths.2 path hpath
      · intro c hc hcell
        rw [hcells] at hcell
        exact hwalk.keeps hf hkept
          (hkeeps c (List.mem_append_right _ hc) (List.mem_append_right _ hcell))

end Walks

end VisualOS.Framework
