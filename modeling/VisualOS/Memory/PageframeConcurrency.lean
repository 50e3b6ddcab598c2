import Mathlib.Tactic
import VisualOS.Framework.Transition
import VisualOS.Memory.PageframeOwnership

/-!
# The page frame allocator on several processors

Requests and frees that run at the same time, interleaved where they touch what they share: at each
acquire and release of a mutex bit, each probe of the bitmap, each read or update of
`s_current_index` and each `pageframe_manipulate`.  Requests exclude each other by one mutex bit and
frees by another, but a request reads `s_current_index` again for every probe and for the address
it returns, and a free may have stored to it in between.
-/

namespace VisualOS.Kernel

open Framework

/-- Where a processor is.  `pageframe_request` takes the steps of `pageframe_request_pages` for one
page. -/
inductive AllocPc
  | idle
  /-- `_pageframe_spinlock(PAGEFRAME_MUTEX_REQUEST)`. -/
  | acquire (pages : Nat)
  /-- The test of the loop. -/
  | compare (pages : Nat)
  /-- The read of `s_current_index` for the probe of a page. -/
  | readIndex (pages j : Nat)
  | probe (pages j index : Nat)
  /-- The update of `s_current_index` past a page in use. -/
  | skip (pages j : Nat)
  /-- The read of `s_current_index` for the address. -/
  | readPage (pages : Nat)
  /-- The update of `s_current_index` past the block. -/
  | advance (pages page : Nat)
  /-- `_pageframe_spinlock(PAGEFRAME_MUTEX_LOCK)` in `pageframe_lock`. -/
  | acquireLock (pages page : Nat)
  | mark (pages page : Nat) (rest : List Nat)
  /-- The release of the request's mutex bit; the request returns `page`. -/
  | release (pages page : Nat)
  /-- `_pageframe_spinlock(PAGEFRAME_MUTEX_FREE)`. -/
  | acquireFree (block : Block)
  | clear (rest : List Nat)
  /-- The comparison of `s_current_index` with the page that was freed. -/
  | compareFree (i : Nat) (rest : List Nat)
  /-- The store to `s_current_index`. -/
  | writeFree (i : Nat) (rest : List Nat)
  deriving DecidableEq

/-- The next step of the inner loop. -/
def AllocPc.scanAt (pages j : Nat) : AllocPc := if j < pages then readIndex pages j else readPage pages

/-- One step of a processor; `none` while a mutex bit is held by another, or when it does nothing. -/
def allocNext (s : Pageframe) : AllocPc → Option (AllocPc × Pageframe)
  | .idle => none
  | .acquire pages => (pageframeSpinlock .request s).map fun s => (.compare pages, s)
  | .compare pages => some (if s.currentIndex < s.frames then .scanAt pages 0 else .release 0 0, s)
  | .readIndex pages j => some (.probe pages j s.currentIndex, s)
  | .probe pages j index =>
      some (if bitmapGet s.pageframemap ((index + j) % 2 ^ 64) then .skip pages j
        else .scanAt pages (j + 1), s)
  | .skip pages j =>
      some (.compare pages, { s with currentIndex := (s.currentIndex + (j + 1)) % 2 ^ 64 })
  | .readPage pages => some (.advance pages (s.currentIndex * 4096 % 2 ^ 64), s)
  | .advance pages page =>
      some (.acquireLock pages page, { s with currentIndex := (s.currentIndex + pages) % 2 ^ 64 })
  | .acquireLock pages page =>
      (pageframeSpinlock .lock s).map fun s => (.mark pages page (frameIndexes page pages), s)
  | .mark pages page (i :: rest) => some (.mark pages page rest, markFrame .used s i)
  | .mark pages page [] => some (.release pages page, pageframeUnlock .lock s)
  | .release _ _ => some (.idle, pageframeUnlock .request s)
  | .acquireFree block => (pageframeSpinlock .free s).map fun s =>
      (.clear (frameIndexes block.address block.pages), s)
  | .clear (i :: rest) =>
      let (ok, s) := pageframeManipulate i false s
      some (if ok then (.compareFree i rest, s.shrink .used) else (.clear rest, s))
  | .clear [] => some (.idle, pageframeUnlock .free s)
  | .compareFree i rest => some (if s.currentIndex > i then .writeFree i rest else .clear rest, s)
  | .writeFree i rest => some (.clear rest, { s with currentIndex := i })

/-- The blocks that are live after a step from a point: a request that returns hands its block
out. -/
def AllocPc.handsOut (live : List Block) : AllocPc → List Block
  | .release pages page => handOut page pages live
  | _ => live

/-- The allocator, the processors, and the blocks that were returned and not yet given back. -/
structure AllocSystem (κ : Type) where
  shared : Pageframe
  pc : κ → AllocPc
  live : List Block

/-- One processor goes on to another point and leaves the allocator in another state. -/
def AllocSystem.goto {κ : Type} [DecidableEq κ] (s : AllocSystem κ) (cpu : κ) (q : AllocPc)
    (t : Pageframe) : AllocSystem κ :=
  { s with shared := t, pc := Function.update s.pc cpu q }

inductive AllocAction (κ : Type)
  | request (cpu : κ)
  | requestPages (cpu : κ) (pages : Nat)
  | free (cpu : κ) (block : Block)
  | step (cpu : κ)
  deriving DecidableEq

section Model

variable {κ : Type} [DecidableEq κ]

inductive AllocStep : AllocSystem κ → AllocAction κ → AllocSystem κ → Prop
  | request {s : AllocSystem κ} {cpu : κ} : s.pc cpu = .idle →
      AllocStep s (.request cpu) (s.goto cpu (.acquire 1) s.shared)
  | requestPages {s : AllocSystem κ} {cpu : κ} {pages : Nat} : s.pc cpu = .idle →
      AllocStep s (.requestPages cpu pages) (s.goto cpu (.acquire pages) s.shared)
  /-- The block is not live any more when it is passed to `pageframe_free`. -/
  | free {s : AllocSystem κ} {cpu : κ} {block : Block} : s.pc cpu = .idle → block ∈ s.live →
      AllocStep s (.free cpu block)
        { s.goto cpu (.acquireFree block) s.shared with live := s.live.erase block }
  | step {s : AllocSystem κ} {cpu : κ} {q : AllocPc} {t : Pageframe} :
      allocNext s.shared (s.pc cpu) = some (q, t) →
      AllocStep s (.step cpu)
        { s.goto cpu q t with live := (s.pc cpu).handsOut s.live }

end Model

/-! ## What a processor holds -/

/-- The block is aligned and begins at one of `n` frames. -/
def Block.Tracked (n : Nat) (b : Block) : Prop :=
  b.address % 4096 = 0 ∧ b.address / 4096 < n ∧ b.address / 4096 + b.pages < 2 ^ 64

namespace AllocPc

/-- The processor holds the request's mutex bit. -/
def requesting : AllocPc → Bool
  | .compare _ | .readIndex _ _ | .probe _ _ _ | .skip _ _ | .readPage _ | .advance _ _
  | .acquireLock _ _ | .mark _ _ _ | .release _ _ => true
  | _ => false

/-- The processor is between the test of the loop and the read for the address. -/
def scanning : AllocPc → Bool
  | .readIndex _ _ | .probe _ _ _ | .readPage _ => true
  | _ => false

/-- The processor's next step is the store of a free to `s_current_index`. -/
def storing : AllocPc → Bool
  | .writeFree _ _ => true
  | _ => false

/-- The frames of the block that a request is about to return, or that a free has still to clear. -/
def claims : AllocPc → Set Nat
  | .advance pages page | .acquireLock pages page | .mark pages page _ | .release pages page =>
      (Block.mk page pages).frames
  | .acquireFree block => block.frames
  | .clear rest | .compareFree _ rest | .writeFree _ rest => { i | i ∈ rest }
  | _ => ∅

/-- The part of them that is marked in the bitmap. -/
def marked : AllocPc → Set Nat
  | .mark pages page rest => { i | i ∈ (Block.mk page pages).frames ∧ i ∉ rest }
  | .release pages page => (Block.mk page pages).frames
  | .acquireFree block => block.frames
  | .clear rest | .compareFree _ rest | .writeFree _ rest => { i | i ∈ rest }
  | _ => ∅

/-- What a processor knows: a scan has found the pages free that it has probed, from where
`s_current_index` is. -/
def Knows (n : Nat) (s : Pageframe) : AllocPc → Prop
  | .acquire pages | .compare pages | .skip pages _ => n + pages ≤ 2 ^ 64
  | .readIndex pages j => n + pages ≤ 2 ^ 64 ∧ s.currentIndex < n ∧ j < pages ∧
      ∀ k < j, s.inUse (s.currentIndex + k) = false
  | .probe pages j index => n + pages ≤ 2 ^ 64 ∧ s.currentIndex < n ∧ j < pages ∧
      index = s.currentIndex ∧ ∀ k < j, s.inUse (s.currentIndex + k) = false
  | .readPage pages => n + pages ≤ 2 ^ 64 ∧ s.currentIndex < n ∧
      ∀ k < pages, s.inUse (s.currentIndex + k) = false
  | .advance pages page | .acquireLock pages page | .mark pages page _ =>
      (Block.mk page pages).Tracked n
  | .release pages page => page ≠ 0 → (Block.mk page pages).Tracked n
  | .acquireFree block => block.address / 4096 + block.pages < 2 ^ 64
  | .clear rest | .compareFree _ rest | .writeFree _ rest => rest.Nodup
  | .idle => True

end AllocPc

/-- No frame that the bitmap tracks is in both. -/
def Apart (n : Nat) (a b : Set Nat) : Prop := ∀ i ≤ n, i ∈ a → i ∉ b

theorem Apart.symm {n : Nat} {a b : Set Nat} (h : Apart n a b) : Apart n b a :=
  fun i hi hb ha => h i hi ha hb

section Invariant

variable {κ : Type}

/-- Live blocks, what the processors claim and the frames `r` that are never handed out are apart, and
marked in the bitmap but for the block that a request has still to mark. -/
structure AllocGood (n : Nat) (r : Set Nat) (s : AllocSystem κ) : Prop where
  frames : s.shared.frames = n
  locked : ∀ c, (s.pc c).requesting = true →
    s.shared.mutex.getLsbD PageframeMutexBit.request.toNat = true
  exclusive : ∀ c c', (s.pc c).requesting = true → (s.pc c').requesting = true → c = c'
  knows : ∀ c, (s.pc c).Knows n s.shared
  tracked : ∀ b ∈ s.live, b.Tracked n
  blocks : s.live.Pairwise fun b b' => Apart n b.frames b'.frames
  blockClaims : ∀ b ∈ s.live, ∀ c, Apart n b.frames (s.pc c).claims
  claims : ∀ c c', c ≠ c' → Apart n (s.pc c).claims (s.pc c').claims
  reservedBlocks : ∀ b ∈ s.live, Apart n r b.frames
  reservedClaims : ∀ c, Apart n r (s.pc c).claims
  blockMarked : ∀ b ∈ s.live, ∀ i ≤ n, i ∈ b.frames → s.shared.inUse i = true
  marked : ∀ c, ∀ i ≤ n, i ∈ (s.pc c).marked → s.shared.inUse i = true
  reservedMarked : ∀ i ≤ n, i ∈ r → s.shared.inUse i = true

/-- The frame is never handed out, or belongs to a live block or to another processor. -/
def HeldByOther (r : Set Nat) (s : AllocSystem κ) (cpu : κ) (i : Nat) : Prop :=
  i ∈ r ∨ (∃ b ∈ s.live, i ∈ b.frames) ∨ ∃ c ≠ cpu, i ∈ (s.pc c).claims

private theorem AllocPc.marked_subset_claims {p : AllocPc} : p.marked ⊆ p.claims := by
  cases p with
  | mark pages page rest => exact fun i hi => hi.1
  | release pages page => exact subset_rfl
  | acquireFree block => exact subset_rfl
  | clear rest => exact subset_rfl
  | compareFree i rest => exact subset_rfl
  | writeFree i rest => exact subset_rfl
  | _ => exact Set.empty_subset _

private theorem AllocPc.Knows.mono {n : Nat} {s t : Pageframe} {p : AllocPc} (h : p.Knows n s)
    (hscan : p.scanning = true →
      t.currentIndex = s.currentIndex ∧ ∀ i, t.inUse i = true → s.inUse i = true) :
    p.Knows n t := by
  have hfree : ∀ i, p.scanning = true → s.inUse i = false → t.inUse i = false := by
    intro i hp hi
    by_contra ht
    rw [Bool.not_eq_false] at ht
    rw [(hscan hp).2 i ht] at hi
    cases hi
  cases p with
  | readIndex pages j =>
      obtain ⟨hpages, hindex, hj, hprobed⟩ := h
      rw [Knows, (hscan rfl).1]
      exact ⟨hpages, hindex, hj, fun k hk => hfree _ rfl (hprobed k hk)⟩
  | probe pages j index =>
      obtain ⟨hpages, hindex, hj, heq, hprobed⟩ := h
      rw [Knows, (hscan rfl).1]
      exact ⟨hpages, hindex, hj, heq, fun k hk => hfree _ rfl (hprobed k hk)⟩
  | readPage pages =>
      obtain ⟨hpages, hindex, hprobed⟩ := h
      rw [Knows, (hscan rfl).1]
      exact ⟨hpages, hindex, fun k hk => hfree _ rfl (hprobed k hk)⟩
  | _ => exact h

private theorem AllocPc.requesting_of_scanning {p : AllocPc} (h : p.scanning = true) :
    p.requesting = true := by
  cases p with
  | readIndex pages j => rfl
  | probe pages j index => rfl
  | readPage pages => rfl
  | _ => exact absurd h (by simp [scanning])

private theorem AllocPc.claims_subset_marked {p : AllocPc} (h : p.requesting = false) :
    p.claims ⊆ p.marked := by
  cases p with
  | acquireFree block => exact subset_rfl
  | clear rest => exact subset_rfl
  | compareFree i rest => exact subset_rfl
  | writeFree i rest => exact subset_rfl
  | idle => exact Set.empty_subset _
  | acquire pages => exact Set.empty_subset _
  | _ => exact absurd h (by simp [requesting])

private theorem AllocGood.handOut {n : Nat} {r : Set Nat} {s : AllocSystem κ} {b : Block}
    (h : AllocGood n r s) (hb : b.Tracked n) (hreserved : Apart n r b.frames)
    (hblocks : ∀ b' ∈ s.live, Apart n b.frames b'.frames)
    (hclaims : ∀ c, Apart n b.frames (s.pc c).claims)
    (hmarked : ∀ i ≤ n, i ∈ b.frames → s.shared.inUse i = true) :
    AllocGood n r { s with live := b :: s.live } where
  frames := h.frames
  locked := h.locked
  exclusive := h.exclusive
  knows := h.knows
  tracked := List.forall_mem_cons.mpr ⟨hb, h.tracked⟩
  blocks := List.pairwise_cons.mpr ⟨hblocks, h.blocks⟩
  blockClaims := List.forall_mem_cons.mpr ⟨hclaims, h.blockClaims⟩
  claims := h.claims
  reservedBlocks := List.forall_mem_cons.mpr ⟨hreserved, h.reservedBlocks⟩
  reservedClaims := h.reservedClaims
  blockMarked := List.forall_mem_cons.mpr ⟨hmarked, h.blockMarked⟩
  marked := h.marked
  reservedMarked := h.reservedMarked

private theorem AllocGood.knows_at {n : Nat} {r : Set Nat} {s : AllocSystem κ} {cpu : κ}
    {p : AllocPc} (h : AllocGood n r s) (hp : s.pc cpu = p) : p.Knows n s.shared := hp ▸ h.knows cpu

private theorem AllocGood.not_heldByOther {n i : Nat} {r : Set Nat} {s : AllocSystem κ} {cpu : κ}
    (h : AllocGood n r s) (hi : i ≤ n) (hmem : i ∈ (s.pc cpu).claims) : ¬HeldByOther r s cpu i := by
  rintro (hir | ⟨b, hb, hib⟩ | ⟨c, hc, hic⟩)
  · exact h.reservedClaims cpu i hi hir hmem
  · exact h.blockClaims b hb cpu i hi hib hmem
  · exact h.claims c cpu hc i hi hic hmem

private theorem AllocGood.alone {n : Nat} {r : Set Nat} {s : AllocSystem κ} {cpu c : κ}
    (h : AllocGood n r s)
    (hp : (s.pc cpu).requesting = true) (hc : c ≠ cpu) : (s.pc c).requesting = false := by
  by_contra hother
  rw [Bool.not_eq_false] at hother
  exact hc (h.exclusive c cpu hother hp)

theorem AllocGood.initial (s₀ : Pageframe) :
    AllocGood s₀.frames {i | s₀.inUse i = true} (⟨s₀, fun _ => .idle, []⟩ : AllocSystem κ) where
  frames := rfl
  locked _ h := by cases h
  exclusive _ _ h := by cases h
  knows _ := trivial
  tracked _ h := absurd h List.not_mem_nil
  blocks := .nil
  blockClaims _ h := absurd h List.not_mem_nil
  claims _ _ _ _ _ h := h.elim
  reservedBlocks _ h := absurd h List.not_mem_nil
  reservedClaims _ _ _ _ h := h.elim
  blockMarked _ h := absurd h List.not_mem_nil
  marked _ _ _ h := h.elim
  reservedMarked _ _ h := h

section Move

variable [DecidableEq κ] {n : Nat} {r : Set Nat} {s : AllocSystem κ} {cpu : κ} {p q : AllocPc} {t : Pageframe}

private theorem pairwise_update {R : AllocPc → AllocPc → Prop} (hsymm : ∀ p p', R p p' → R p' p)
    {pc : κ → AllocPc} (h : ∀ c c', c ≠ c' → R (pc c) (pc c')) (hq : ∀ c ≠ cpu, R q (pc c))
    (c c' : κ) (hne : c ≠ c') : R (Function.update pc cpu q c) (Function.update pc cpu q c') := by
  by_cases hc : c = cpu
  · subst c
    rw [Function.update_self, Function.update_of_ne (Ne.symm hne)]
    exact hq c' (Ne.symm hne)
  · rw [Function.update_of_ne hc]
    by_cases hc' : c' = cpu
    · subst c'
      rw [Function.update_self]
      exact hsymm _ _ (hq c hc)
    · rw [Function.update_of_ne hc']
      exact h c c' hne

/-- One processor moves on.  It may claim frames that no one else holds, has to know and to have
marked what it should, and must leave alone what the others rely on. -/
theorem AllocGood.move (h : AllocGood n r s) (hframes : t.frames = s.shared.frames)
    (hlock : q.requesting = true →
      t.mutex.getLsbD PageframeMutexBit.request.toNat = true ∧
        ∀ c ≠ cpu, (s.pc c).requesting = false)
    (hlocks : ∀ c ≠ cpu, (s.pc c).requesting = true →
      t.mutex.getLsbD PageframeMutexBit.request.toNat = true)
    (hknows : q.Knows n t) (hothers : ∀ c ≠ cpu, (s.pc c).Knows n t)
    (hclaims : ∀ i ≤ n, i ∈ q.claims → i ∈ (s.pc cpu).claims ∨ ¬HeldByOther r s cpu i)
    (hmarked : ∀ i ≤ n, i ∈ q.marked → t.inUse i = true)
    (hkept : ∀ i ≤ n, HeldByOther r s cpu i → s.shared.inUse i = true → t.inUse i = true) :
    AllocGood n r (s.goto cpu q t) := by
  have hown : ∀ i ≤ n, i ∈ q.claims → ¬HeldByOther r s cpu i := by
    intro i hi hmem
    rcases hclaims i hi hmem with hmem | hfree
    · exact h.not_heldByOther hi hmem
    · exact hfree
  apply AllocGood.mk
  · exact hframes.trans h.frames
  · apply (Function.forall_update_iff s.pc fun _ pc => pc.requesting = true →
      t.mutex.getLsbD PageframeMutexBit.request.toNat = true).mpr
    exact ⟨fun hq => (hlock hq).1, hlocks⟩
  · intro c c' hc hc'
    by_contra hne
    refine pairwise_update (R := fun p p' => ¬(p.requesting = true ∧ p'.requesting = true))
      (fun p p' hpp hpp' => hpp hpp'.symm) ?_ ?_ c c' hne ⟨hc, hc'⟩
    · intro c c' hne hboth
      exact hne (h.exclusive c c' hboth.1 hboth.2)
    · intro c hc hboth
      rw [(hlock hboth.1).2 c hc] at hboth
      cases hboth.2
  · exact (Function.forall_update_iff s.pc fun _ pc => pc.Knows n t).mpr ⟨hknows, hothers⟩
  · exact h.tracked
  · exact h.blocks
  · intro b hb
    apply (Function.forall_update_iff s.pc fun _ pc => Apart n b.frames pc.claims).mpr
    apply And.intro
    · intro i hi hib hmem
      exact hown i hi hmem (.inr (.inl ⟨b, hb, hib⟩))
    · intro c _
      exact h.blockClaims b hb c
  · apply pairwise_update (R := fun p p' => Apart n p.claims p'.claims) (fun _ _ => Apart.symm) h.claims
    intro c hc i hi hmem hmem'
    exact hown i hi hmem (.inr (.inr ⟨c, hc, hmem'⟩))
  · exact h.reservedBlocks
  · apply (Function.forall_update_iff s.pc fun _ pc => Apart n r pc.claims).mpr
    apply And.intro
    · intro i hi hir hmem
      exact hown i hi hmem (.inl hir)
    · exact fun c _ => h.reservedClaims c
  · intro b hb i hi hib
    exact hkept i hi (.inr (.inl ⟨b, hb, hib⟩)) (h.blockMarked b hb i hi hib)
  · apply (Function.forall_update_iff s.pc fun _ pc => ∀ i ≤ n, i ∈ pc.marked →
      t.inUse i = true).mpr
    apply And.intro
    · exact hmarked
    · intro c hc i hi hmem
      exact hkept i hi (.inr (.inr ⟨c, hc, AllocPc.marked_subset_claims hmem⟩)) (h.marked c i hi hmem)
  · intro i hi hir
    exact hkept i hi (.inl hir) (h.reservedMarked i hi hir)

private theorem AllocGood.moveRequest (h : AllocGood n r s) (hp : (s.pc cpu).requesting = true)
    (hframes : t.frames = s.shared.frames)
    (hmutex : t.mutex.getLsbD PageframeMutexBit.request.toNat = true) (hknows : q.Knows n t)
    (hclaims : ∀ i ≤ n, i ∈ q.claims → i ∈ (s.pc cpu).claims ∨ ¬HeldByOther r s cpu i)
    (hmarked : ∀ i ≤ n, i ∈ q.marked → t.inUse i = true)
    (hkept : ∀ i ≤ n, s.shared.inUse i = true → t.inUse i = true) :
    AllocGood n r (s.goto cpu q t) := by
  apply h.move hframes (fun _ => ⟨hmutex, fun c hc => h.alone hp hc⟩) (fun _ _ _ => hmutex) hknows _
    hclaims hmarked (fun i hi _ => hkept i hi)
  intro c hc
  apply (h.knows c).mono
  intro hscan
  have hother := h.alone hp hc
  rw [AllocPc.requesting_of_scanning hscan] at hother
  cases hother

private theorem AllocGood.keepRequest (h : AllocGood n r s) (hp : (s.pc cpu).requesting = true)
    (hmap : t.pageframemap = s.shared.pageframemap)
    (hmutex : t.mutex.getLsbD PageframeMutexBit.request.toNat = true) (hknows : q.Knows n t)
    (hclaims : ∀ i ≤ n, i ∈ q.claims → i ∈ (s.pc cpu).claims ∨ ¬HeldByOther r s cpu i)
    (hmarked : ∀ i ≤ n, i ∈ q.marked → i ∈ (s.pc cpu).marked) :
    AllocGood n r (s.goto cpu q t) := by
  have hinUse : ∀ i, t.inUse i = s.shared.inUse i := by
    intro i
    rw [Pageframe.inUse, hmap]
    rfl
  apply h.moveRequest hp (frames_of_size (congrArg Bitmap.size hmap)) hmutex hknows hclaims
  · intro i hi hmem
    rw [hinUse]
    exact h.marked cpu i hi (hmarked i hi hmem)
  · intro i _ hi
    rw [hinUse]
    exact hi

private theorem AllocGood.moveFree (h : AllocGood n r s) (hq : q.requesting = false)
    (hframes : t.frames = s.shared.frames)
    (hmutex : t.mutex.getLsbD PageframeMutexBit.request.toNat =
      s.shared.mutex.getLsbD PageframeMutexBit.request.toNat)
    (hindex : (∃ c, (s.pc c).scanning = true) → t.currentIndex = s.shared.currentIndex)
    (hinUse : ∀ i, t.inUse i = true → s.shared.inUse i = true) (hknows : q.Knows n t)
    (hclaims : ∀ i ≤ n, i ∈ q.claims → i ∈ (s.pc cpu).claims)
    (hmarked : ∀ i ≤ n, i ∈ q.marked → t.inUse i = true)
    (hkept : ∀ i ≤ n, HeldByOther r s cpu i → s.shared.inUse i = true → t.inUse i = true) :
    AllocGood n r (s.goto cpu q t) := by
  apply h.move hframes
  · intro hreq
    rw [hq] at hreq
    cases hreq
  · intro c _ hc
    rw [hmutex]
    exact h.locked c hc
  · exact hknows
  · intro c _
    exact (h.knows c).mono fun hscan => ⟨hindex ⟨c, hscan⟩, hinUse⟩
  · exact fun i hi hmem => .inl (hclaims i hi hmem)
  · exact hmarked
  · exact hkept

private theorem AllocGood.keepFree (h : AllocGood n r s) (hq : q.requesting = false)
    (hmap : t.pageframemap = s.shared.pageframemap)
    (hmutex : t.mutex.getLsbD PageframeMutexBit.request.toNat =
      s.shared.mutex.getLsbD PageframeMutexBit.request.toNat)
    (hindex : (∃ c, (s.pc c).scanning = true) → t.currentIndex = s.shared.currentIndex)
    (hknows : q.Knows n t) (hclaims : ∀ i ≤ n, i ∈ q.claims → i ∈ (s.pc cpu).claims)
    (hmarked : ∀ i ≤ n, i ∈ q.marked → i ∈ (s.pc cpu).marked) :
    AllocGood n r (s.goto cpu q t) := by
  have hinUse : ∀ i, t.inUse i = s.shared.inUse i := by
    intro i
    rw [Pageframe.inUse, hmap]
    rfl
  apply h.moveFree hq (frames_of_size (congrArg Bitmap.size hmap)) hmutex hindex _ hknows hclaims
  · intro i hi hmem
    rw [hinUse]
    exact h.marked cpu i hi (hmarked i hi hmem)
  · intro i _ _ hi
    rw [hinUse]
    exact hi
  · intro i hi
    rwa [hinUse] at hi

private theorem AllocGood.still (h : AllocGood n r s) (hq : q.requesting = false)
    (hknows : q.Knows n s.shared) (hclaims : ∀ i ≤ n, i ∈ q.claims → i ∈ (s.pc cpu).claims)
    (hmarked : ∀ i ≤ n, i ∈ q.marked → i ∈ (s.pc cpu).marked) :
    AllocGood n r (s.goto cpu q s.shared) :=
  h.keepFree hq rfl rfl (fun _ => rfl) hknows hclaims hmarked

end Move

/-! ## The steps of a request -/

section Request

variable [DecidableEq κ] {n : Nat} {r : Set Nat} {s : AllocSystem κ} {cpu : κ} {t : Pageframe}
  {pages j index page : Nat}

private theorem AllocGood.acquire (h : AllocGood n r s) (hp : s.pc cpu = .acquire pages)
    (hstep : pageframeSpinlock .request s.shared = some t) :
    AllocGood n r (s.goto cpu (.compare pages) t) := by
  obtain ⟨hfree, rfl⟩ := pageframeSpinlock_some hstep
  have hknows := h.knows_at hp
  have hidle : ∀ c, (s.pc c).requesting = false := by
    intro c
    by_contra hreq
    rw [Bool.not_eq_false] at hreq
    rw [h.locked c hreq] at hfree
    cases hfree
  apply AllocGood.move h
  · rfl
  · intro _
    exact ⟨by simp [PageframeMutexBit.toNat], fun c _ => hidle c⟩
  · intro c _ hc
    rw [hidle c] at hc
    cases hc
  · exact hknows
  · exact fun c _ => (h.knows c).mono fun _ => ⟨rfl, fun _ hi => hi⟩
  · exact fun _ _ hmem => hmem.elim
  · exact fun _ _ hmem => hmem.elim
  · exact fun _ _ _ hi => hi

private theorem AllocPc.knows_scanAt (hpages : n + pages ≤ 2 ^ 64) (hindex : t.currentIndex < n)
    (hj : j ≤ pages) (hprobed : ∀ k < j, t.inUse (t.currentIndex + k) = false) :
    (AllocPc.scanAt pages j).Knows n t := by
  rw [AllocPc.scanAt]
  split_ifs with hlt
  · exact ⟨hpages, hindex, hlt, hprobed⟩
  · have : j = pages := by omega
    exact ⟨hpages, hindex, this ▸ hprobed⟩

private theorem AllocPc.scanAt_claims : (AllocPc.scanAt pages j).claims = ∅ := by
  rw [AllocPc.scanAt]
  split_ifs <;> rfl

private theorem AllocGood.scan {q : AllocPc} (h : AllocGood n r s)
    (hp : (s.pc cpu).requesting = true) (hknows : q.Knows n s.shared) (hq : q.claims = ∅) :
    AllocGood n r (s.goto cpu q s.shared) := by
  apply h.keepRequest hp rfl (h.locked cpu hp) hknows
  · intro i _ hmem
    rw [hq] at hmem
    exact hmem.elim
  · intro i _ hmem
    have := AllocPc.marked_subset_claims hmem
    rw [hq] at this
    exact this.elim

private theorem AllocGood.compare (h : AllocGood n r s) (hp : s.pc cpu = .compare pages) :
    AllocGood n r (s.goto cpu (if s.shared.currentIndex < s.shared.frames then .scanAt pages 0
      else .release 0 0) s.shared) := by
  have hknows := h.knows_at hp
  apply h.scan (by rw [hp]; rfl)
  · split_ifs with hlt
    · exact AllocPc.knows_scanAt hknows (h.frames ▸ hlt) (Nat.zero_le _)
        (fun k hk => absurd hk (Nat.not_lt_zero k))
    · exact fun hne => absurd rfl hne
  · split_ifs
    · exact AllocPc.scanAt_claims
    · simp [AllocPc.claims, Block.frames]

private theorem AllocGood.readIndex (h : AllocGood n r s) (hp : s.pc cpu = .readIndex pages j) :
    AllocGood n r (s.goto cpu (.probe pages j s.shared.currentIndex) s.shared) := by
  have hknows := h.knows_at hp
  obtain ⟨hpages, hindex, hj, hprobed⟩ := hknows
  exact h.scan (by rw [hp]; rfl) ⟨hpages, hindex, hj, rfl, hprobed⟩ rfl

private theorem AllocGood.probe (h : AllocGood n r s) (hp : s.pc cpu = .probe pages j index) :
    AllocGood n r (s.goto cpu (if bitmapGet s.shared.pageframemap ((index + j) % 2 ^ 64)
      then .skip pages j else .scanAt pages (j + 1)) s.shared) := by
  have hknows := h.knows_at hp
  obtain ⟨hpages, hindex, hj, rfl, hprobed⟩ := hknows
  rw [Nat.mod_eq_of_lt (by omega)]
  apply h.scan (by rw [hp]; rfl)
  · split_ifs with hused
    · exact hpages
    · apply AllocPc.knows_scanAt hpages hindex hj
      intro k hk
      rcases Nat.lt_succ_iff_lt_or_eq.mp hk with hk | rfl
      · exact hprobed k hk
      · exact Bool.eq_false_iff.mpr hused
  · split_ifs
    · rfl
    · exact AllocPc.scanAt_claims

private theorem AllocGood.skip (h : AllocGood n r s) (hp : s.pc cpu = .skip pages j) (index : Nat) :
    AllocGood n r (s.goto cpu (.compare pages) { s.shared with currentIndex := index }) := by
  have hknows := h.knows_at hp
  have hreq : (s.pc cpu).requesting = true := by rw [hp]; rfl
  apply h.keepRequest hreq
  · rfl
  · exact h.locked cpu hreq
  · exact hknows
  · exact fun _ _ hmem => hmem.elim
  · exact fun _ _ hmem => hmem.elim

/-- The block begins where the probes began, so its frames are still free. -/
theorem AllocGood.readPage (h : AllocGood n r s) (hp : s.pc cpu = .readPage pages)
    (hn : n ≤ 2 ^ 52) :
    AllocGood n r (s.goto cpu (.advance pages (s.shared.currentIndex * 4096 % 2 ^ 64)) s.shared) := by
  have hknows := h.knows_at hp
  have hreq : (s.pc cpu).requesting = true := by rw [hp]; rfl
  obtain ⟨hpages, hindex, hprobed⟩ := hknows
  rw [Nat.mod_eq_of_lt (by omega)]
  have hdiv : s.shared.currentIndex * 4096 / 4096 = s.shared.currentIndex :=
    Nat.mul_div_cancel _ (by decide)
  apply h.keepRequest hreq
  · rfl
  · exact h.locked cpu hreq
  · rw [AllocPc.Knows, Block.Tracked, hdiv]
    exact ⟨Nat.mul_mod_left _ _, hindex, show s.shared.currentIndex + pages < 2 ^ 64 by omega⟩
  · intro i hi hmem
    right
    change i ∈ (Block.mk (s.shared.currentIndex * 4096) pages).frames at hmem
    rw [mem_frames_mul] at hmem
    have hfree := hprobed (i - s.shared.currentIndex) (by omega)
    rw [Nat.add_sub_cancel' hmem.1] at hfree
    -- No other processor requests, so what the others claim is marked and was not found free.
    rintro (hir | ⟨b, hb, hib⟩ | ⟨c, hc, hic⟩)
    · rw [h.reservedMarked i hi hir] at hfree
      cases hfree
    · rw [h.blockMarked b hb i hi hib] at hfree
      cases hfree
    · have hclaimed := AllocPc.claims_subset_marked (h.alone hreq hc) hic
      rw [h.marked c i hi hclaimed] at hfree
      cases hfree
  · exact fun _ _ hmem => hmem.elim

private theorem AllocGood.advance (h : AllocGood n r s) (hp : s.pc cpu = .advance pages page)
    (index : Nat) : AllocGood n r (s.goto cpu (.acquireLock pages page)
      { s.shared with currentIndex := index }) := by
  have hknows := h.knows_at hp
  have hreq : (s.pc cpu).requesting = true := by rw [hp]; rfl
  apply h.keepRequest hreq
  · rfl
  · exact h.locked cpu hreq
  · exact hknows
  · intro i _ hmem
    rw [hp]
    exact .inl hmem
  · exact fun _ _ hmem => hmem.elim

private theorem AllocGood.acquireLock (h : AllocGood n r s)
    (hp : s.pc cpu = .acquireLock pages page) (hstep : pageframeSpinlock .lock s.shared = some t) :
    AllocGood n r (s.goto cpu (.mark pages page (frameIndexes page pages)) t) := by
  obtain ⟨-, rfl⟩ := pageframeSpinlock_some hstep
  have hknows := h.knows_at hp
  have hreq : (s.pc cpu).requesting = true := by rw [hp]; rfl
  apply h.keepRequest hreq
  · rfl
  · dsimp only
    rw [getLsbD_taken_ne (by decide)]
    exact h.locked cpu hreq
  · exact hknows
  · intro i _ hmem
    rw [hp]
    exact .inl hmem
  · rintro i _ ⟨hmem, hrest⟩
    exact absurd ((mem_frameIndexes hknows.2.2).mpr hmem) hrest

private theorem AllocGood.mark {i : Nat} {rest : List Nat} (h : AllocGood n r s)
    (hp : s.pc cpu = .mark pages page (i :: rest)) :
    AllocGood n r (s.goto cpu (.mark pages page rest) (markFrame .used s.shared i)) := by
  have hmarked := markFrame_marked .used s.shared i
  have hknows := h.knows_at hp
  have hreq : (s.pc cpu).requesting = true := by rw [hp]; rfl
  apply h.moveRequest hreq
  · exact hmarked.frames
  · rw [hmarked.mutex]
    exact h.locked cpu hreq
  · exact hknows
  · intro k _ hmem
    rw [hp]
    exact .inl hmem
  · rintro k hk ⟨hmem, hrest⟩
    rw [hmarked.inUse, h.frames]
    by_cases hki : k = i
    · simp [hki, hki ▸ hk]
    · have hbefore : k ∈ (s.pc cpu).marked := by
        rw [hp]
        exact ⟨hmem, by simp [hki, hrest]⟩
      rw [h.marked cpu k hk hbefore, Bool.true_or]
  · intro k _ hk
    rw [hmarked.inUse, hk, Bool.true_or]

private theorem AllocGood.releaseLock (h : AllocGood n r s) (hp : s.pc cpu = .mark pages page []) :
    AllocGood n r (s.goto cpu (.release pages page) (pageframeUnlock .lock s.shared)) := by
  have hknows := h.knows_at hp
  have hreq : (s.pc cpu).requesting = true := by rw [hp]; rfl
  apply h.keepRequest hreq
  · rfl
  · rw [pageframeUnlock, getLsbD_released_ne (by decide)]
    exact h.locked cpu hreq
  · exact fun _ => hknows
  · intro i _ hmem
    rw [hp]
    exact .inl hmem
  · intro i _ hmem
    rw [hp]
    exact ⟨hmem, List.not_mem_nil⟩

private theorem AllocGood.releaseRequest (h : AllocGood n r s)
    (hp : s.pc cpu = .release pages page) :
    AllocGood n r (s.goto cpu .idle (pageframeUnlock .request s.shared)) := by
  have hreq : (s.pc cpu).requesting = true := by rw [hp]; rfl
  apply AllocGood.move h
  · rfl
  · intro hfalse
    cases hfalse
  · intro c hc hother
    rw [h.alone hreq hc] at hother
    cases hother
  · trivial
  · exact fun c _ => (h.knows c).mono fun _ => ⟨rfl, fun _ hi => hi⟩
  · exact fun _ _ hmem => hmem.elim
  · exact fun _ _ hmem => hmem.elim
  · exact fun _ _ _ hi => hi

private theorem AllocGood.release (h : AllocGood n r s) (hp : s.pc cpu = .release pages page) :
    AllocGood n r { s.goto cpu .idle (pageframeUnlock .request s.shared) with
      live := Kernel.handOut page pages s.live } := by
  have hreleased := h.releaseRequest hp
  rw [Kernel.handOut]
  split_ifs with hpage
  · exact hreleased
  · have hclaimed : (s.pc cpu).claims = (Block.mk page pages).frames := by rw [hp]; rfl
    have hmarked : (s.pc cpu).marked = (Block.mk page pages).frames := by rw [hp]; rfl
    apply hreleased.handOut
    · exact h.knows_at hp hpage
    · rw [← hclaimed]
      exact h.reservedClaims cpu
    · intro b hb
      rw [← hclaimed]
      exact (h.blockClaims b hb cpu).symm
    · intro c
      by_cases hc : c = cpu
      · subst c
        simp only [AllocSystem.goto, Function.update_self]
        exact fun _ _ _ hmem => hmem.elim
      · simp only [AllocSystem.goto, Function.update_of_ne hc]
        rw [← hclaimed]
        exact h.claims cpu c (Ne.symm hc)
    · intro i hi hmem
      rw [← hmarked] at hmem
      exact h.marked cpu i hi hmem

end Request

/-! ## The steps of a free -/

section Free

variable [DecidableEq κ] {n : Nat} {r : Set Nat} {s : AllocSystem κ} {cpu : κ} {t : Pageframe} {i : Nat}
  {rest : List Nat}

private theorem AllocGood.acquireFree {b : Block} (h : AllocGood n r s)
    (hp : s.pc cpu = .acquireFree b) (hstep : pageframeSpinlock .free s.shared = some t) :
    AllocGood n r (s.goto cpu (.clear (frameIndexes b.address b.pages)) t) := by
  obtain ⟨-, rfl⟩ := pageframeSpinlock_some hstep
  have hknows := h.knows_at hp
  have hframes : ∀ i, i ∈ frameIndexes b.address b.pages → i ∈ b.frames :=
    fun i hi => (mem_frameIndexes hknows).mp hi
  apply h.keepFree
  · rfl
  · rfl
  · dsimp only
    rw [getLsbD_taken_ne (by decide)]
  · exact fun _ => rfl
  · exact List.nodup_range'
  · intro i _ hmem
    rw [hp]
    exact hframes i hmem
  · intro i _ hmem
    rw [hp]
    exact hframes i hmem

private theorem AllocGood.clear (h : AllocGood n r s) (hp : s.pc cpu = .clear (i :: rest)) :
    AllocGood n r (s.goto cpu (.compareFree i rest)
      ((pageframeManipulate i false s.shared).2.shrink .used)) := by
  obtain ⟨used, reserved, hshrink⟩ :=
    shrink_fields (pageframeManipulate i false s.shared).2 .used
  obtain ⟨bitmap, hbitmap, hsize, hget⟩ := pageframeManipulate_spec i false s.shared
  have hknows := h.knows_at hp
  obtain ⟨hnot, hnodup⟩ := List.nodup_cons.mp hknows
  rw [hshrink, hbitmap]
  apply h.moveFree
  · rfl
  · exact frames_of_size hsize
  · rfl
  · exact fun _ => rfl
  · intro k hk
    change bitmapGet bitmap k = true at hk
    rw [hget] at hk
    split_ifs at hk
    exact hk
  · exact hnodup
  · intro k _ hmem
    rw [hp]
    exact List.mem_cons_of_mem i hmem
  · intro k hk hmem
    change bitmapGet bitmap k = true
    have hki : k ≠ i := fun heq => hnot (heq ▸ hmem)
    have hbefore : k ∈ (s.pc cpu).marked := by
      rw [hp]
      exact List.mem_cons_of_mem i hmem
    rw [hget, if_neg (fun hand => hki hand.1)]
    exact h.marked cpu k hk hbefore
  · intro k hk hheld hin
    change bitmapGet bitmap k = true
    have hown : i ∈ (s.pc cpu).claims := by
      rw [hp]
      exact List.mem_cons_self
    have hki : k ≠ i := by
      rintro rfl
      exact h.not_heldByOther hk hown hheld
    rw [hget, if_neg (fun hand => hki hand.1)]
    exact hin

private theorem AllocGood.releaseFree (h : AllocGood n r s) :
    AllocGood n r (s.goto cpu .idle (pageframeUnlock .free s.shared)) := by
  apply h.keepFree
  · rfl
  · rfl
  · rw [pageframeUnlock, getLsbD_released_ne (by decide)]
  · exact fun _ => rfl
  · trivial
  · exact fun _ _ hmem => hmem.elim
  · exact fun _ _ hmem => hmem.elim

private theorem AllocGood.compareFree (h : AllocGood n r s) (hp : s.pc cpu = .compareFree i rest) :
    AllocGood n r (s.goto cpu (if s.shared.currentIndex > i then .writeFree i rest else .clear rest)
      s.shared) := by
  have hknows := h.knows_at hp
  split_ifs
  · exact h.still rfl hknows (by rw [hp]; exact fun _ _ hmem => hmem)
      (by rw [hp]; exact fun _ _ hmem => hmem)
  · exact h.still rfl hknows (by rw [hp]; exact fun _ _ hmem => hmem)
      (by rw [hp]; exact fun _ _ hmem => hmem)

private theorem AllocGood.writeFree (h : AllocGood n r s) (hp : s.pc cpu = .writeFree i rest)
    (hscan : ∀ c, (s.pc c).scanning = false) :
    AllocGood n r (s.goto cpu (.clear rest) { s.shared with currentIndex := i }) := by
  have hknows := h.knows_at hp
  apply h.keepFree
  · rfl
  · rfl
  · rfl
  · rintro ⟨c, hc⟩
    rw [hscan c] at hc
    cases hc
  · exact hknows
  · intro k _ hmem
    rw [hp]
    exact hmem
  · intro k _ hmem
    rw [hp]
    exact hmem

end Free

/-! ## Whole runs -/

section Runs

variable [DecidableEq κ] {n : Nat} {r : Set Nat} {s t : AllocSystem κ} {cpu : κ} {pages : Nat}

/-- No request is for so many pages that its indices leave 64 bits, and no free stores to
`s_current_index` while a request is between the test of its loop and the read for the address. -/
def ScansUndisturbed (s : AllocSystem κ) : AllocAction κ → Prop
  | .requestPages _ pages => s.shared.frames + pages ≤ 2 ^ 64
  | .step cpu => (s.pc cpu).storing = true → ∀ c, (s.pc c).scanning = false
  | _ => True

private theorem AllocGood.call (h : AllocGood n r s) (hpages : n + pages ≤ 2 ^ 64) :
    AllocGood n r (s.goto cpu (.acquire pages) s.shared) :=
  h.still rfl hpages (fun _ _ hmem => hmem.elim) (fun _ _ hmem => hmem.elim)

private theorem AllocGood.callFree {b : Block} (h : AllocGood n r s) (hb : b ∈ s.live) :
    AllocGood n r { s.goto cpu (.acquireFree b) s.shared with live := s.live.erase b } := by
  have hperm := List.perm_cons_erase hb
  have hpair : (b :: s.live.erase b).Pairwise fun b b' => Apart n b.frames b'.frames :=
    (hperm.pairwise_iff Apart.symm).mp h.blocks
  obtain ⟨hapart, hrest⟩ := List.pairwise_cons.mp hpair
  have hsub : ∀ b' ∈ s.live.erase b, b' ∈ s.live := fun b' hb' => List.mem_of_mem_erase hb'
  have hdropped : AllocGood n r { s with live := s.live.erase b } :=
    { h with
      tracked := fun b' hb' => h.tracked b' (hsub b' hb')
      blocks := hrest
      blockClaims := fun b' hb' => h.blockClaims b' (hsub b' hb')
      reservedBlocks := fun b' hb' => h.reservedBlocks b' (hsub b' hb')
      blockMarked := fun b' hb' => h.blockMarked b' (hsub b' hb') }
  apply AllocGood.move hdropped
  · rfl
  · intro hfalse
    cases hfalse
  · exact fun c _ hc => h.locked c hc
  · exact (h.tracked b hb).2.2
  · exact fun c _ => h.knows c
  · intro i hi hmem
    right
    rintro (hir | ⟨b', hb', hib'⟩ | ⟨c, _, hic⟩)
    · exact h.reservedBlocks b hb i hi hir hmem
    · exact hapart b' hb' i hi hmem hib'
    · exact h.blockClaims b hb c i hi hmem hic
  · exact fun i hi hmem => h.blockMarked b hb i hi hmem
  · exact fun _ _ _ hin => hin

private theorem AllocGood.step {q : AllocPc} {t : Pageframe} (h : AllocGood n r s) (hn : n ≤ 2 ^ 52)
    (hguard : (s.pc cpu).storing = true → ∀ c, (s.pc c).scanning = false)
    (hstep : allocNext s.shared (s.pc cpu) = some (q, t)) :
    AllocGood n r { s.goto cpu q t with live := (s.pc cpu).handsOut s.live } := by
  cases hp : s.pc cpu with
  | idle =>
      rw [hp] at hstep
      cases hstep
  | acquire pages =>
      rw [hp, allocNext, Option.map_eq_some_iff] at hstep
      obtain ⟨u, hlock, heq⟩ := hstep
      cases heq
      exact h.acquire hp hlock
  | compare pages =>
      rw [hp] at hstep
      cases hstep
      exact h.compare hp
  | readIndex pages j =>
      rw [hp] at hstep
      cases hstep
      exact h.readIndex hp
  | probe pages j index =>
      rw [hp] at hstep
      cases hstep
      exact h.probe hp
  | skip pages j =>
      rw [hp] at hstep
      cases hstep
      exact h.skip hp _
  | readPage pages =>
      rw [hp] at hstep
      cases hstep
      exact h.readPage hp hn
  | advance pages page =>
      rw [hp] at hstep
      cases hstep
      exact h.advance hp _
  | acquireLock pages page =>
      rw [hp, allocNext, Option.map_eq_some_iff] at hstep
      obtain ⟨u, hlock, heq⟩ := hstep
      cases heq
      exact h.acquireLock hp hlock
  | mark pages page rest =>
      rw [hp] at hstep
      cases rest with
      | nil =>
          cases hstep
          exact h.releaseLock hp
      | cons i rest =>
          cases hstep
          exact h.mark hp
  | release pages page =>
      rw [hp] at hstep
      cases hstep
      exact h.release hp
  | acquireFree b =>
      rw [hp, allocNext, Option.map_eq_some_iff] at hstep
      obtain ⟨u, hlock, heq⟩ := hstep
      cases heq
      exact h.acquireFree hp hlock
  | clear rest =>
      rw [hp] at hstep
      cases rest with
      | nil =>
          cases hstep
          exact h.releaseFree
      | cons i rest =>
          have hok := pageframeManipulate_false_fst i s.shared
          simp only [allocNext, hok, if_true, Option.some.injEq, Prod.mk.injEq] at hstep
          obtain ⟨rfl, rfl⟩ := hstep
          exact h.clear hp
  | compareFree i rest =>
      rw [hp] at hstep
      cases hstep
      exact h.compareFree hp
  | writeFree i rest =>
      rw [hp] at hstep
      cases hstep
      exact h.writeFree hp (hguard (by rw [hp]; rfl))

theorem AllocGood.guarded {a : AllocAction κ} (h : AllocGood n r s) (hn : n ≤ 2 ^ 52)
    (hstep : Guarded AllocStep ScansUndisturbed s a t) : AllocGood n r t := by
  obtain ⟨hguard, hstep⟩ := hstep
  cases hstep with
  | request _ => exact h.call (by omega)
  | requestPages _ => exact h.call (h.frames ▸ hguard)
  | free _ hb => exact h.callFree hb
  | step hnext => exact h.step hn hguard hnext

end Runs

end Invariant

/-- On any number of processors, as long as no free stores to `s_current_index` in the middle of a
request's scan, no frame belongs to two live blocks. -/
theorem no_double_allocation {κ : Type} [DecidableEq κ] {s₀ : Pageframe}
    {actions : List (AllocAction κ)} {s : AllocSystem κ}
    (hsize : s₀.pageframemap.size < 2 ^ 49)
    (h : Run (Guarded AllocStep ScansUndisturbed) ⟨s₀, fun _ => .idle, []⟩ actions s) :
    s.live.Pairwise fun b b' => Disjoint b.frames b'.frames := by
  have hframes := frames_eq_of_size hsize
  have hgood : AllocGood s₀.frames {i | s₀.inUse i = true} s :=
    h.invariant (fun _ _ _ hs hstep => hs.guarded (by omega) hstep) (.initial s₀)
  apply hgood.blocks.imp_of_mem
  intro b b' hb hb' hapart
  exact disjoint_of_tracked (hgood.tracked b hb).2.1 (hgood.tracked b' hb').2.1 hapart

/-! ## Runs that are executed -/

section Execution

variable {κ : Type} [DecidableEq κ]

def allocExec (s : AllocSystem κ) : AllocAction κ → AllocSystem κ
  | .request cpu => s.goto cpu (.acquire 1) s.shared
  | .requestPages cpu pages => s.goto cpu (.acquire pages) s.shared
  | .free cpu block => { s.goto cpu (.acquireFree block) s.shared with live := s.live.erase block }
  | .step cpu =>
      match allocNext s.shared (s.pc cpu) with
      | none => s
      | some (q, t) => { s.goto cpu q t with live := (s.pc cpu).handsOut s.live }

def allocEnabled (s : AllocSystem κ) : AllocAction κ → Bool
  | .request cpu | .requestPages cpu _ => s.pc cpu = .idle
  | .free cpu block => s.pc cpu = .idle ∧ block ∈ s.live
  | .step cpu => (allocNext s.shared (s.pc cpu)).isSome

theorem allocExec_step {s : AllocSystem κ} {a : AllocAction κ} (h : allocEnabled s a = true) :
    AllocStep s a (allocExec s a) := by
  cases a with
  | request cpu => exact .request (of_decide_eq_true h)
  | requestPages cpu pages => exact .requestPages (of_decide_eq_true h)
  | free cpu block =>
      obtain ⟨hidle, hlive⟩ := of_decide_eq_true h
      exact .free hidle hlive
  | step cpu =>
      obtain ⟨⟨q, t⟩, hnext⟩ := Option.isSome_iff_exists.mp h
      simp only [allocExec, hnext]
      exact .step hnext

private theorem allocExec_run {ok : AllocSystem κ → AllocAction κ → Prop} {s : AllocSystem κ}
    {actions : List (AllocAction κ)}
    (h : Along allocExec (fun s a => ok s a ∧ allocEnabled s a = true) s actions) :
    Run (Guarded AllocStep ok) s actions (actions.foldl allocExec s) :=
  h.run.mono fun _ _ _ hstep => ⟨hstep.1.1, hstep.2 ▸ allocExec_step hstep.1.2⟩

instance [Fintype κ] (s : AllocSystem κ) : (a : AllocAction κ) → Decidable (ScansUndisturbed s a)
  | .request _ => inferInstanceAs (Decidable True)
  | .requestPages _ pages => inferInstanceAs (Decidable (s.shared.frames + pages ≤ 2 ^ 64))
  | .free _ _ => inferInstanceAs (Decidable True)
  | .step cpu => inferInstanceAs
      (Decidable ((s.pc cpu).storing = true → ∀ c, (s.pc c).scanning = false))

end Execution

def twoCpus : AllocSystem Bool := ⟨eightFrames, fun _ => .idle, []⟩

def stepsOf (cpu : Bool) (steps : Nat) : List (AllocAction Bool) := List.replicate steps (.step cpu)

/-- One processor takes frames 1 and 2, one by one.  The other asks for two pages and has found
frames 3 and 4 free when the first one frees frame 1 and compares `s_current_index` with it. -/
def freeDuringScan : List (AllocAction Bool) :=
  [[.request false], stepsOf false 14, [.request false], stepsOf false 10,
    [.requestPages true 2], stepsOf true 6, [.free false ⟨4096, 1⟩], stepsOf false 3].flatten

/-- The free stores to `s_current_index` after the request has read its address. -/
def storeAfterRead : List (AllocAction Bool) :=
  [freeDuringScan, stepsOf true 1, stepsOf false 1, stepsOf true 6].flatten

theorem no_double_allocation_two_cpus :
    ∃ s, Run (Guarded AllocStep ScansUndisturbed) twoCpus storeAfterRead s ∧
      s.live = [⟨12288, 2⟩, ⟨8192, 1⟩] ∧
      s.live.Pairwise fun b b' => Disjoint b.frames b'.frames := by
  have hok : Along allocExec (fun s a => ScansUndisturbed s a ∧ allocEnabled s a = true) twoCpus
      storeAfterRead := by
    decide +kernel
  have hrun := allocExec_run hok
  have hsize : eightFrames.pageframemap.size < 2 ^ 49 := by decide
  exact ⟨_, hrun, by decide +kernel, no_double_allocation hsize hrun⟩

/-- The free stores to `s_current_index` before the request reads its address. -/
def storeBeforeRead : List (AllocAction Bool) :=
  [freeDuringScan, stepsOf false 1, stepsOf true 7].flatten

/-- The request returns frames 1 and 2, of which it has probed neither. -/
theorem double_allocation :
    ∃ s, Run AllocStep twoCpus storeBeforeRead s ∧ s.live = [⟨4096, 2⟩, ⟨8192, 1⟩] ∧
      ¬s.live.Pairwise fun b b' => Disjoint b.frames b'.frames := by
  have hok : Along allocExec (fun s a => True ∧ allocEnabled s a = true) twoCpus
      storeBeforeRead := by
    decide +kernel
  have hrun := allocExec_run hok
  have hlive : (storeBeforeRead.foldl allocExec twoCpus).live = [⟨4096, 2⟩, ⟨8192, 1⟩] := by
    decide +kernel
  refine ⟨_, hrun.mono fun _ _ _ hstep => hstep.2, hlive, ?_⟩
  intro hpair
  rw [hlive] at hpair
  have hdisjoint := List.rel_of_pairwise_cons hpair List.mem_cons_self
  have hfirst : 2 ∈ (Block.mk 4096 2).frames := by simp [Block.frames]
  have hsecond : 2 ∈ (Block.mk 8192 1).frames := by simp [Block.frames]
  exact Set.disjoint_left.mp hdisjoint hfirst hsecond

/-- Requests of one page each: a free stores to `s_current_index` between the probe of a page and the
read of its address. -/
def onePageRequests : List (AllocAction Bool) :=
  [[.request true], stepsOf true 14, [.request true], stepsOf true 10,
    [.free true ⟨4096, 1⟩], stepsOf true 5, [.request false], stepsOf false 10,
    [.request false], stepsOf false 3, [.free true ⟨8192, 1⟩], stepsOf true 2,
    stepsOf false 3, stepsOf true 1, stepsOf false 4, [.request false], stepsOf false 4,
    stepsOf true 1, stepsOf false 6].flatten

example : Along allocExec (fun s a => allocEnabled s a = true) twoCpus onePageRequests ∧
    (onePageRequests.foldl allocExec twoCpus).live = [⟨8192, 1⟩, ⟨8192, 1⟩, ⟨4096, 1⟩] := by
  decide +kernel

end VisualOS.Kernel
