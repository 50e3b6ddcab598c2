import VisualOS.Framework.Transition

/-!
# Programs on a shared state

Threads run programs that make one access to a shared state at a time, in any order.  What a
thread may rely on is what every other thread guarantees with each of its accesses; a program is
safe where it works under that much interference.  The guarantees may speak of more than is
stored: worlds carry the shared state and whatever the argument needs besides.
-/

namespace VisualOS.Framework

/-- A program: its answer, or an access and what comes next.  An access that is not possible is a
fault, unless the program waits for it. -/
inductive Prog (σ α : Type) : Type 1
  | done (a : α)
  | access {β : Type} (waits : Bool) (f : σ → Option (β × σ)) (next : β → Prog σ α)

namespace Prog

variable {σ α β : Type}

def bind : Prog σ α → (α → Prog σ β) → Prog σ β
  | done a, k => k a
  | access waits f next, k => .access waits f fun b => (next b).bind k

instance : Monad (Prog σ) where
  pure := done
  bind := bind

def act (f : σ → Option (β × σ)) : Prog σ β := .access false f .done

def await (f : σ → Option (β × σ)) : Prog σ β := .access true f .done

/-- The program alone, without anyone else. -/
def run : Prog σ α → σ → Option (α × σ)
  | done a, s => some (a, s)
  | access _ f next, s => (f s).bind fun r => (next r.1).run r.2

@[simp] theorem run_pure (a : α) (s : σ) : (pure a : Prog σ α).run s = some (a, s) := rfl

@[simp] theorem run_act (f : σ → Option (β × σ)) (s : σ) : (act f).run s = f s := by
  cases h : f s <;> simp [act, run, h]

@[simp] theorem run_await (f : σ → Option (β × σ)) (s : σ) : (await f).run s = f s := by
  cases h : f s <;> simp [await, run, h]

@[simp] theorem run_bind (p : Prog σ α) (k : α → Prog σ β) (s : σ) :
    (p >>= k).run s = (p.run s).bind fun r => (k r.1).run r.2 := by
  induction p generalizing s with
  | done a => rfl
  | access waits f next ih =>
      change ((f s).bind fun r => (next r.1 >>= k).run r.2) = _
      rw [run, Option.bind_assoc]
      exact congrArg _ (funext fun r => ih r.1 r.2)

/-- The next access is not possible. -/
def Faults : Prog σ α → σ → Prop
  | done _, _ => False
  | access waits f _, s => waits = false ∧ f s = none

end Prog

/-! ## Pools of threads -/

section Pools

variable {κ σ α : Type} [DecidableEq κ]

/-- The shared state, what each thread has still to do, and the answer that its call goes by until
it has one. -/
structure Pool (κ σ α : Type) : Type 1 where
  shared : σ
  threads : κ → Prog σ α
  meanwhile : κ → α

/-- A thread makes its next access, or begins one of the calls that it may make with the answer of
the last.  Only the accesses in `allowed` are considered. -/
inductive PoolStep (calls : κ → α → α → Prog σ α → Prop) (allowed : σ → σ → Prop) :
    Pool κ σ α → κ → Pool κ σ α → Prop
  | access {s : Pool κ σ α} {c : κ} {β : Type} {waits : Bool} {f : σ → Option (β × σ)}
      {next : β → Prog σ α} {b : β} {t : σ} :
      s.threads c = .access waits f next → f s.shared = some (b, t) → allowed s.shared t →
      PoolStep calls allowed s c { s with shared := t, threads := Function.update s.threads c (next b) }
  | call {s : Pool κ σ α} {c : κ} {a a' : α} {p : Prog σ α} :
      s.threads c = .done a → calls c a a' p →
      PoolStep calls allowed s c { s with
        threads := Function.update s.threads c p
        meanwhile := Function.update s.meanwhile c a' }

end Pools

/-! ## What threads rely on -/

/-- What holds of all worlds, and what each thread guarantees with each of its accesses. -/
structure Protocol (κ σ ω : Type) where
  shared : ω → σ
  inv : ω → Prop
  guar : κ → ω → ω → Prop
  allowed : σ → σ → Prop

namespace Protocol

variable {κ σ ω α β : Type} (P : Protocol κ σ ω) {c : κ} {A A' : ω → Prop} {Q : α → ω → Prop}
  {B : β → ω → Prop} {w w' : ω}

/-- One access of another thread. -/
def Other (c : κ) (w w' : ω) : Prop := P.inv w ∧ P.inv w' ∧ ∃ c' ≠ c, P.guar c' w w'

/-- Others do not invalidate it. -/
def Stable (c : κ) (A : ω → Prop) : Prop := ∀ w w', A w → P.Other c w w' → A w'

/-- Whatever the others do before each access: it is possible, and it keeps the guarantee. -/
def Safe (c : κ) (Q : α → ω → Prop) : Prog σ α → ω → Prop
  | .done a, w => Q a w
  | .access waits f next, w => ∀ w', Relation.ReflTransGen (P.Other c) w w' → P.inv w' →
      (waits = false → f (P.shared w') ≠ none) ∧
      ∀ b t, f (P.shared w') = some (b, t) → P.allowed (P.shared w') t →
        ∃ u, P.shared u = t ∧ P.guar c w' u ∧ P.inv u ∧ Safe c Q (next b) u

/-- From any world in which `A` holds the program is safe, and `Q` holds of its answer. -/
def Triple (c : κ) (A : ω → Prop) (p : Prog σ α) (Q : α → ω → Prop) : Prop :=
  ∀ w, P.inv w → A w → P.Safe c Q p w

variable {P}

private theorem Stable.rely (h : P.Stable c A) (hw : A w)
    (hrely : Relation.ReflTransGen (P.Other c) w w') : A w' := by
  induction hrely with
  | refl => exact hw
  | tail _ hother ih => exact h _ _ ih hother

private theorem Safe.other {p : Prog σ α} (hQ : ∀ a, P.Stable c (Q a)) (h : P.Safe c Q p w)
    (hother : P.Other c w w') : P.Safe c Q p w' := by
  cases p with
  | done a => exact hQ a w w' h hother
  | access waits f next =>
      intro u hrely
      exact h u (.head hother hrely)

private theorem Safe.bind {p : Prog σ β} {k : β → Prog σ α} (h : P.Safe c B p w) (hw : P.inv w)
    (hk : ∀ b, P.Triple c (B b) (k b) Q) : P.Safe c Q (p >>= k) w := by
  induction p generalizing w with
  | done b => exact hk b w hw h
  | access waits f next ih =>
      intro w' hrely hinv
      obtain ⟨hpossible, hstep⟩ := h w' hrely hinv
      refine ⟨hpossible, ?_⟩
      intro b t hf hallowed
      obtain ⟨u, hshared, hguar, hinv', hsafe⟩ := hstep b t hf hallowed
      exact ⟨u, hshared, hguar, hinv', ih b hsafe hinv'⟩

private theorem Safe.post {p : Prog σ α} {Q' : α → ω → Prop} (h : P.Safe c Q' p w)
    (hQ : ∀ a w, Q' a w → Q a w) : P.Safe c Q p w := by
  induction p generalizing w with
  | done a => exact hQ a w h
  | access waits f next ih =>
      intro w' hrely hinv
      obtain ⟨hpossible, hstep⟩ := h w' hrely hinv
      refine ⟨hpossible, ?_⟩
      intro b t hf hallowed
      obtain ⟨u, hshared, hguar, hinv', hsafe⟩ := hstep b t hf hallowed
      exact ⟨u, hshared, hguar, hinv', ih b hsafe⟩

theorem Triple.bind {p : Prog σ β} {k : β → Prog σ α} (h : P.Triple c A p B)
    (hk : ∀ b, P.Triple c (B b) (k b) Q) : P.Triple c A (p >>= k) Q :=
  fun w hw hA => (h w hw hA).bind hw hk

theorem Triple.andThen {p : Prog σ β} {k : β → Prog σ α} {b : β}
    (h : P.Triple c A p fun b' w => b' = b ∧ A' w) (hk : P.Triple c A' (k b) Q) :
    P.Triple c A (p >>= k) Q := by
  refine h.bind ?_
  rintro _ w hw ⟨rfl, hA'⟩
  exact hk w hw hA'

theorem Triple.pure {a : α} (h : ∀ w, P.inv w → A w → Q a w) : P.Triple c A (pure a) Q :=
  fun w hw hA => h w hw hA

theorem Triple.post {p : Prog σ α} {Q' : α → ω → Prop} (h : P.Triple c A p Q')
    (hQ : ∀ a w, Q' a w → Q a w) : P.Triple c A p Q :=
  fun w hw hA => (h w hw hA).post hQ

theorem Triple.pre {p : Prog σ α} (h : P.Triple c A' p Q) (hA : ∀ w, P.inv w → A w → A' w) :
    P.Triple c A p Q :=
  fun w hw hw' => h w hw (hA w hw hw')

theorem Triple.act {f : σ → Option (β × σ)} (hA : P.Stable c A)
    (h : ∀ w, P.inv w → A w → ∃ b t, f (P.shared w) = some (b, t) ∧
      (P.allowed (P.shared w) t →
        ∃ u, P.shared u = t ∧ P.guar c w u ∧ P.inv u ∧ B b u)) :
    P.Triple c A (Prog.act f) B := by
  intro w _ hw w' hrely hinv
  obtain ⟨b, t, hf, hstep⟩ := h w' hinv (hA.rely hw hrely)
  refine ⟨fun _ => by rw [hf]; exact Option.some_ne_none _, ?_⟩
  intro b' t' hf' hallowed
  obtain ⟨rfl, rfl⟩ := Prod.mk.inj (Option.some.inj (hf.symm.trans hf'))
  exact hstep hallowed

theorem Triple.await {f : σ → Option (β × σ)} (hA : P.Stable c A)
    (h : ∀ w, P.inv w → A w → ∀ b t, f (P.shared w) = some (b, t) → P.allowed (P.shared w) t →
      ∃ u, P.shared u = t ∧ P.guar c w u ∧ P.inv u ∧ B b u) :
    P.Triple c A (Prog.await f) B := by
  intro w _ hw w' hrely hinv
  exact ⟨fun hwaits => absurd hwaits (by decide), h w' hinv (hA.rely hw hrely)⟩

/-! ## What holds during a program -/

variable (P) in
/-- No access of the program ends `D`. -/
def Maintains (c : κ) (D : ω → Prop) : Prog σ α → Prop
  | .done _ => True
  | .access _ f next => ∀ w b u, P.inv w → D w → f (P.shared w) = some (b, P.shared u) →
      P.guar c w u → P.inv u → D u ∧ Maintains c D (next b)

theorem Maintains.bind {D : ω → Prop} {p : Prog σ β} {k : β → Prog σ α} (h : P.Maintains c D p)
    (hk : ∀ b, P.Maintains c D (k b)) : P.Maintains c D (p >>= k) := by
  induction p with
  | done b => exact hk b
  | access waits f next ih =>
      intro w b u hw hD hf hguar hu
      obtain ⟨hD', hnext⟩ := h w b u hw hD hf hguar hu
      exact ⟨hD', ih b hnext⟩

theorem Maintains.of_forall {D : ω → Prop} (hD : ∀ w, D w) (p : Prog σ α) :
    P.Maintains c D p := by
  induction p with
  | done a => trivial
  | access waits f next ih => exact fun _ b u _ _ _ _ _ => ⟨hD u, ih b⟩

/-- The calls that threads make, and what holds between and during them. -/
structure SafeCalls (P : Protocol κ σ ω) (calls : κ → α → α → Prog σ α → Prop)
    (post during : κ → α → ω → Prop) : Prop where
  stable : ∀ c a, P.Stable c (post c a)
  stable_during : ∀ c a, P.Stable c (during c a)
  triple : ∀ c a a' p, calls c a a' p → P.Triple c (post c a) p (post c)
  begins : ∀ c a a' p w, calls c a a' p → P.inv w → post c a w → during c a' w
  maintains : ∀ c a a' p, calls c a a' p → P.Maintains c (during c a') p

/-- All threads are safe in one and the same world. -/
structure PoolSafe (P : Protocol κ σ ω) (post during : κ → α → ω → Prop) (s : Pool κ σ α) (w : ω) :
    Prop where
  shared : P.shared w = s.shared
  inv : P.inv w
  threads : ∀ c, P.Safe c (post c) (s.threads c) w
  meanwhile : ∀ c, during c (s.meanwhile c) w
  maintains : ∀ c, P.Maintains c (during c (s.meanwhile c)) (s.threads c)

variable {post during : κ → α → ω → Prop}

theorem PoolSafe.not_faults {s : Pool κ σ α} (h : PoolSafe P post during s w) (c : κ) :
    ¬(s.threads c).Faults s.shared := by
  have hsafe := h.threads c
  cases hthread : s.threads c with
  | done a => exact id
  | access waits f next =>
      rw [hthread] at hsafe
      rintro ⟨hwaits, hf⟩
      rw [← h.shared] at hf
      exact (hsafe w .refl h.inv).1 hwaits hf

variable [DecidableEq κ] {calls : κ → α → α → Prog σ α → Prop} {s t : Pool κ σ α}

private theorem PoolSafe.step (h : PoolSafe P post during s w)
    (hcalls : P.SafeCalls calls post during) {c : κ}
    (hstep : PoolStep calls P.allowed s c t) : ∃ w', PoolSafe P post during t w' := by
  cases hstep with
  | access hthread hf hallowed =>
      have hsafe := h.threads c
      have hmaintains := h.maintains c
      rw [hthread] at hsafe hmaintains
      rw [← h.shared] at hf hallowed
      obtain ⟨u, rfl, hguar, hinv, hnext⟩ := (hsafe w .refl h.inv).2 _ _ hf hallowed
      obtain ⟨hduring, hrest⟩ := hmaintains w _ u h.inv (h.meanwhile c) hf hguar hinv
      have hother : ∀ c' ≠ c, P.Other c' w u := fun c' hne => ⟨h.inv, hinv, c, hne.symm, hguar⟩
      refine ⟨u, rfl, hinv, ?_, ?_, ?_⟩ <;> intro c' <;> dsimp only <;>
        rcases eq_or_ne c' c with rfl | hne
      · rw [Function.update_self]
        exact hnext
      · rw [Function.update_of_ne hne]
        exact (h.threads c').other (hcalls.stable c') (hother c' hne)
      · exact hduring
      · exact hcalls.stable_during c' _ w u (h.meanwhile c') (hother c' hne)
      · rw [Function.update_self]
        exact hrest
      · rw [Function.update_of_ne hne]
        exact h.maintains c'
  | call hthread hcall =>
      have hpost := h.threads c
      rw [hthread] at hpost
      refine ⟨w, h.shared, h.inv, ?_, ?_, ?_⟩ <;> intro c' <;> dsimp only <;>
        rcases eq_or_ne c' c with rfl | hne
      · rw [Function.update_self]
        exact hcalls.triple c' _ _ _ hcall w h.inv hpost
      · rw [Function.update_of_ne hne]
        exact h.threads c'
      · rw [Function.update_self]
        exact hcalls.begins c' _ _ _ w hcall h.inv hpost
      · rw [Function.update_of_ne hne]
        exact h.meanwhile c'
      · rw [Function.update_self, Function.update_self]
        exact hcalls.maintains c' _ _ _ hcall
      · rw [Function.update_of_ne hne, Function.update_of_ne hne]
        exact h.maintains c'

/-- Calls that are safe one by one are safe together, in every interleaving. -/
theorem PoolSafe.run (h : PoolSafe P post during s w) (hcalls : P.SafeCalls calls post during)
    {cs : List κ} (hrun : Run (PoolStep calls P.allowed) s cs t) :
    ∃ w', PoolSafe P post during t w' := by
  induction hrun generalizing w with
  | nil => exact ⟨w, h⟩
  | cons hstep _ ih =>
      obtain ⟨w', hw'⟩ := h.step hcalls hstep
      exact ih hw'

end Protocol

end VisualOS.Framework
