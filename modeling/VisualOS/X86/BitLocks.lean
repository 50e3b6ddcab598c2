import Mathlib.Tactic
import VisualOS.Framework.Transition
import VisualOS.X86.Atomic

/-!
# Bit locks on several processors

The routines of `atomic.asm` interleaved on one mutex word.  `lock bts` is one step, but the `btr` of
`atomic_unlock` has no lock: it loads the word and stores it in two steps, and what another
processor takes in between is lost with the store.
-/

namespace VisualOS.Kernel

open Framework

/-- Where a processor is. -/
inductive LockPc
  | idle
  /-- The `lock bts` of `atomic_lock`. -/
  | lock (bit : Fin 64)
  /-- `.acquire` of `atomic_spinlock`. -/
  | acquire (bit : Fin 64)
  /-- `.spin` of `atomic_spinlock`. -/
  | spin (bit : Fin 64)
  /-- The load of the `btr` of `atomic_unlock`. -/
  | load (bit : Fin 64)
  /-- Its store, with the word that was loaded. -/
  | store (bit : Fin 64) (word : BitVec 64)
  deriving DecidableEq

/-- The mutex word, the processors, and the bits each of them has acquired and not yet released. -/
structure LockSystem (κ : Type) where
  word : BitVec 64
  pc : κ → LockPc
  holds : κ → Fin 64 → Bool

inductive LockAction (κ : Type)
  | lock (cpu : κ) (bit : Fin 64)
  | spinlock (cpu : κ) (bit : Fin 64)
  | unlock (cpu : κ) (bit : Fin 64)
  | step (cpu : κ)

section Model

variable {κ : Type} [DecidableEq κ]

namespace LockSystem

def goto (s : LockSystem κ) (cpu : κ) (pc : LockPc) : LockSystem κ :=
  { s with pc := Function.update s.pc cpu pc }

def setHolds (s : LockSystem κ) (cpu : κ) (bit : Fin 64) (value : Bool) : LockSystem κ :=
  { s with holds := fun c b => if c = cpu ∧ b = bit then value else s.holds c b }

/-- `lock bts` and where it goes on when the bit was set already. -/
def bts (s : LockSystem κ) (cpu : κ) (bit : Fin 64) (otherwise : LockPc) : LockSystem κ :=
  let (taken, word) := atomicLock s.word bit
  if taken then { (s.goto cpu .idle).setHolds cpu bit true with word }
  else { s.goto cpu otherwise with word }

end LockSystem

/-- One step of a processor in a routine. -/
def lockStep (s : LockSystem κ) (cpu : κ) : Option (LockSystem κ) :=
  match s.pc cpu with
  | .idle => none
  | .lock bit => some (s.bts cpu bit .idle)
  | .acquire bit => some (s.bts cpu bit (.spin bit))
  | .spin bit => some (s.goto cpu (if s.word.getLsbD bit then .spin bit else .acquire bit))
  | .load bit => some (s.goto cpu (.store bit s.word))
  | .store bit word =>
      some { (s.goto cpu .idle).setHolds cpu bit false with word := (atomicUnlock word bit).2 }

/-- A processor that is in no routine calls one, and unlocks only what it holds. -/
def lockNext (s : LockSystem κ) : LockAction κ → Option (LockSystem κ)
  | .lock cpu bit => if s.pc cpu = .idle then some (s.goto cpu (.lock bit)) else none
  | .spinlock cpu bit => if s.pc cpu = .idle then some (s.goto cpu (.acquire bit)) else none
  | .unlock cpu bit =>
      if s.pc cpu = .idle ∧ s.holds cpu bit = true then some (s.goto cpu (.load bit)) else none
  | .step cpu => lockStep s cpu

def LockStep (s : LockSystem κ) (a : LockAction κ) (t : LockSystem κ) : Prop := lockNext s a = some t

/-- No processor is in a routine or holds a bit. -/
def lockStart (word : BitVec 64) : LockSystem κ := ⟨word, fun _ => .idle, fun _ _ => false⟩

/-- No two processors hold one bit, and what is held is set. -/
structure Excluded (s : LockSystem κ) : Prop where
  exclusive : ∀ c c' bit, s.holds c bit = true → s.holds c' bit = true → c = c'
  kept : ∀ c bit, s.holds c bit = true → s.word.getLsbD bit = true

/-- A store writes a word in which the bits of the other processors were already set. -/
def FreshStore (s : LockSystem κ) : LockAction κ → Prop
  | .step cpu =>
      match s.pc cpu with
      | .store _ word =>
          ∀ other held, other ≠ cpu → s.holds other held = true → word.getLsbD held = true
      | _ => True
  | _ => True

end Model

/-! ## Steps -/

section Invariant

variable {κ : Type} {s : LockSystem κ} {bit : Fin 64}

/-- What is known of a processor by where it is: one that has loaded the word has its own bits in it,
since nobody else takes or releases them. -/
def LockPc.Sound (holds : Fin 64 → Bool) : LockPc → Prop
  | .load bit => holds bit = true
  | .store bit word => holds bit = true ∧ ∀ own, holds own = true → word.getLsbD own = true
  | _ => True

structure LockGood (s : LockSystem κ) : Prop extends Excluded s where
  sound : ∀ c, (s.pc c).Sound (s.holds c)

namespace LockGood

private theorem start (word : BitVec 64) : LockGood (lockStart (κ := κ) word) where
  exclusive := by simp [lockStart]
  kept := by simp [lockStart]
  sound _ := trivial

private theorem holds_eq_false (h : LockGood s) (hbit : s.word.getLsbD bit = false) (c : κ) :
    s.holds c bit = false := by
  by_contra hne
  have hset := h.kept c bit (by simpa using hne)
  rw [hbit] at hset
  cases hset

end LockGood

end Invariant

section Steps

variable {κ : Type} [DecidableEq κ] {s t : LockSystem κ} {cpu : κ} {bit : Fin 64}

namespace LockSystem

private theorem goto_pc (s : LockSystem κ) (cpu : κ) (pc : LockPc) (c : κ) :
    (s.goto cpu pc).pc c = if c = cpu then pc else s.pc c :=
  Function.update_apply s.pc cpu pc c

private theorem setHolds_of_ne {c : κ} (hc : c ≠ cpu) (value : Bool) :
    (s.setHolds cpu bit value).holds c = s.holds c := by
  funext b
  simp [setHolds, hc]

private theorem bts_taken (h : s.word.getLsbD bit = false) (otherwise : LockPc) :
    s.bts cpu bit otherwise =
      { (s.goto cpu .idle).setHolds cpu bit true with word := s.word ||| BitVec.twoPow 64 bit } := by
  simp only [bts, atomicLock, h, Bool.not_false, if_true]

private theorem bts_held (h : s.word.getLsbD bit = true) (otherwise : LockPc) :
    s.bts cpu bit otherwise = s.goto cpu otherwise := by
  simp [bts, atomicLock_held h, goto]

end LockSystem

namespace LockGood

private theorem goto (h : LockGood s) {pc : LockPc} (hpc : pc.Sound (s.holds cpu)) :
    LockGood (s.goto cpu pc) where
  exclusive := h.exclusive
  kept := h.kept
  sound c := by
    rw [LockSystem.goto_pc]
    split
    · rename_i hc
      subst c
      exact hpc
    · exact h.sound c

private theorem holds_cases {value : Bool} {c : κ} {b : Fin 64}
    (hc : (s.setHolds cpu bit value).holds c b = true) :
    c = cpu ∧ b = bit ∧ value = true ∨ ¬(c = cpu ∧ b = bit) ∧ s.holds c b = true := by
  simp only [LockSystem.setHolds] at hc
  split at hc
  · rename_i heq
    exact .inl ⟨heq.1, heq.2, hc⟩
  · rename_i hne
    exact .inr ⟨hne, hc⟩

private theorem sound_idle (h : LockGood s) (value : Bool) (word : BitVec 64) (c : κ) :
    ({ (s.goto cpu .idle).setHolds cpu bit value with word } : LockSystem κ).pc c |>.Sound
      (((s.goto cpu .idle).setHolds cpu bit value).holds c) := by
  by_cases hc : c = cpu
  · subst c
    simp [LockSystem.setHolds, LockSystem.goto, LockPc.Sound]
  · rw [LockSystem.setHolds_of_ne hc]
    simpa [LockSystem.setHolds, LockSystem.goto, hc] using h.sound c

private theorem taken (h : LockGood s) (hbit : s.word.getLsbD bit = false) :
    LockGood { (s.goto cpu .idle).setHolds cpu bit true with
      word := s.word ||| BitVec.twoPow 64 bit } where
  exclusive c c' b hc hc' := by
    -- Before the step no one held the bit that is taken.
    rcases holds_cases hc with ⟨rfl, rfl, -⟩ | ⟨-, hold⟩
    · rcases holds_cases hc' with ⟨rfl, -, -⟩ | ⟨-, hold'⟩
      · rfl
      · exact absurd hold' (by simp [LockSystem.goto, h.holds_eq_false hbit])
    · rcases holds_cases hc' with ⟨rfl, rfl, -⟩ | ⟨-, hold'⟩
      · exact absurd hold (by simp [LockSystem.goto, h.holds_eq_false hbit])
      · exact h.exclusive c c' b hold hold'
  kept c b hc := by
    rcases holds_cases hc with ⟨-, rfl, -⟩ | ⟨-, hold⟩
    · simp
    · rw [BitVec.getLsbD_or, h.kept c b hold, Bool.true_or]
  sound := h.sound_idle true _

private theorem stored (h : LockGood s) {word : BitVec 64} (hpc : s.pc cpu = .store bit word)
    (hfresh : ∀ other held, other ≠ cpu → s.holds other held = true → word.getLsbD held = true) :
    LockGood { (s.goto cpu .idle).setHolds cpu bit false with
      word := (atomicUnlock word bit).2 } where
  exclusive c c' b hc hc' := by
    rcases holds_cases hc with ⟨-, -, hfalse⟩ | ⟨-, hold⟩
    · cases hfalse
    · rcases holds_cases hc' with ⟨-, -, hfalse⟩ | ⟨-, hold'⟩
      · cases hfalse
      · exact h.exclusive c c' b hold hold'
  kept c b hc := by
    rcases holds_cases hc with ⟨-, -, hfalse⟩ | ⟨hne, hold⟩
    · cases hfalse
    · have hsound := h.sound cpu
      rw [hpc] at hsound
      -- The bit that is cleared was the storing processor's own.
      have hbit : bit ≠ b := by
        rintro rfl
        exact hne ⟨h.exclusive c cpu bit hold hsound.1, rfl⟩
      have hword : word.getLsbD b = true := by
        by_cases hcpu : c = cpu
        · subst c
          exact hsound.2 b hold
        · exact hfresh c b hcpu hold
      show (atomicUnlock word bit).2.getLsbD b = true
      rw [getLsbD_released_ne (fun heq => hbit (Fin.ext heq)), hword]
  sound := h.sound_idle false _

private theorem bts (h : LockGood s) {otherwise : LockPc} (hpc : otherwise.Sound (s.holds cpu)) :
    LockGood (s.bts cpu bit otherwise) := by
  by_cases hbit : s.word.getLsbD bit = true
  · rw [LockSystem.bts_held hbit]
    exact h.goto hpc
  · have hclear : s.word.getLsbD bit = false := by simpa using hbit
    rw [LockSystem.bts_taken hclear]
    exact h.taken hclear

/-- Every step keeps the invariant, as long as stores are fresh. -/
theorem step {a : LockAction κ} (h : LockGood s) (hfresh : FreshStore s a) (hstep : LockStep s a t) :
    LockGood t := by
  unfold LockStep lockNext at hstep
  cases a with
  | lock cpu bit =>
      obtain ⟨-, ht⟩ := Option.ite_none_right_eq_some.mp hstep
      obtain rfl := Option.some.inj ht
      exact h.goto trivial
  | spinlock cpu bit =>
      obtain ⟨-, ht⟩ := Option.ite_none_right_eq_some.mp hstep
      obtain rfl := Option.some.inj ht
      exact h.goto trivial
  | unlock cpu bit =>
      obtain ⟨hidle, ht⟩ := Option.ite_none_right_eq_some.mp hstep
      obtain rfl := Option.some.inj ht
      exact h.goto hidle.2
  | step cpu =>
      dsimp only at hstep
      cases hpc : s.pc cpu with
      | idle => simp [lockStep, hpc] at hstep
      | lock bit =>
          obtain rfl : s.bts cpu bit .idle = t := by simpa [lockStep, hpc] using hstep
          exact h.bts trivial
      | acquire bit =>
          obtain rfl : s.bts cpu bit (.spin bit) = t := by simpa [lockStep, hpc] using hstep
          exact h.bts trivial
      | spin bit =>
          simp only [lockStep, hpc, Option.some.injEq] at hstep
          subst t
          apply h.goto
          split <;> trivial
      | load bit =>
          simp only [lockStep, hpc, Option.some.injEq] at hstep
          subst t
          have hsound := h.sound cpu
          rw [hpc] at hsound
          exact h.goto ⟨hsound, h.kept cpu⟩
      | store bit word =>
          simp only [lockStep, hpc, Option.some.injEq] at hstep
          subst t
          simp only [FreshStore, hpc] at hfresh
          exact h.stored hpc hfresh

end LockGood

/-- A store that loses a bit of another processor leaves that bit held and clear. -/
theorem freshStore_of_excluded {a : LockAction κ} (hstep : LockStep s a t) (ht : Excluded t) :
    FreshStore s a := by
  cases a with
  | step cpu =>
      cases hpc : s.pc cpu with
      | store bit word =>
          simp only [FreshStore, hpc]
          intro other held hother hheld
          obtain rfl : { (s.goto cpu .idle).setHolds cpu bit false with
              word := (atomicUnlock word bit).2 } = t := by
            simpa [LockStep, lockNext, lockStep, hpc] using hstep
          have hset : (word &&& ~~~BitVec.twoPow 64 bit).getLsbD held = true :=
            ht.kept other held (by simpa [LockSystem.setHolds, LockSystem.goto, hother] using hheld)
          rw [BitVec.getLsbD_and, Bool.and_eq_true] at hset
          exact hset.1
      | _ => simp only [FreshStore, hpc]
  | _ => trivial

end Steps

/-! ## Runs -/

section Runs

variable {κ : Type} [DecidableEq κ] {t : LockSystem κ}

/-- Along a run the locks exclude each other and keep their bits if and only if every store of
`atomic_unlock` is fresh. -/
theorem bit_locks_exclude_iff {word : BitVec 64} {actions : List (LockAction κ)}
    (h : Run LockStep (lockStart word) actions t) :
    (∀ before after u, actions = before ++ after → Run LockStep (lockStart word) before u →
        Excluded u) ↔
      Run (Guarded LockStep FreshStore) (lockStart word) actions t := by
  have hdet : ∀ s a t u, LockStep (κ := κ) s a t → LockStep s a u → t = u := by
    intro s a t u ht hu
    exact Option.some.inj (ht.symm.trans hu)
  have hkeep : ∀ s a t, LockGood (κ := κ) s → FreshStore s a → LockStep s a t → LockGood t := by
    intro s a t hs hfresh hstep
    exact hs.step hfresh hstep
  exact Run.good_iff_guarded hdet (fun s hs => hs.toExcluded) hkeep
    (fun s a t _ hstep ht => freshStore_of_excluded hstep ht) (.start word) h

end Runs

/-- One processor takes a bit and gives it back before another takes it. -/
theorem bit_locks_exclude_handover :
    ∃ t, Run LockStep (lockStart (κ := Fin 2) 0)
        [.spinlock 0 1, .step 0, .unlock 0 1, .step 0, .step 0, .lock 1 1, .step 1] t ∧
      Excluded t := by
  have hguarded : ∃ t, Run (Guarded LockStep FreshStore) (lockStart (κ := Fin 2) 0)
      [.spinlock 0 1, .step 0, .unlock 0 1, .step 0, .step 0, .lock 1 1, .step 1] t := by
    refine ⟨_, .cons ⟨trivial, rfl⟩ (.cons ⟨trivial, rfl⟩ (.cons ⟨trivial, rfl⟩
      (.cons ⟨trivial, rfl⟩ (.cons ⟨?_, rfl⟩ (.cons ⟨trivial, rfl⟩ (.cons ⟨trivial, rfl⟩
        (.nil _)))))))⟩
    -- The other processor holds nothing yet.
    intro other held hother hheld
    obtain rfl : other = 1 := by omega
    have hfalse : false = true := hheld
    cases hfalse
  obtain ⟨t, hguarded⟩ := hguarded
  have hrun := hguarded.mono fun _ _ _ h => h.2
  exact ⟨t, hrun, (bit_locks_exclude_iff hrun).mpr hguarded _ [] t (List.append_nil _).symm hrun⟩

/-- A processor that releases `PAGEFRAME_MUTEX_LOCK` has loaded the word when another takes
`PAGEFRAME_MUTEX_FREE`; its store clears both bits, and it can take the second one as well. -/
theorem bit_locks_shared :
    ∃ t, Run LockStep (lockStart (κ := Fin 2) 0)
        [.spinlock 0 1, .step 0, .unlock 0 1, .step 0, .spinlock 1 2, .step 1, .step 0,
          .spinlock 0 2, .step 0] t ∧
      t.holds 0 2 = true ∧ t.holds 1 2 = true := by
  refine ⟨_, @Run.foldlM _ _ lockNext _ _ _ rfl, ?_, ?_⟩
  · rfl
  · rfl

end VisualOS.Kernel
