import VisualOS.Framework.Transition

/-!
# First-in first-out lists with strict priority

One list per queue.  At most one task runs, and it is the head of its list.  A turn ends by
moving that head to the back, or dropping it if it has finished, and by picking the head of
the first non-empty list.
-/

namespace VisualOS.Framework

variable {Q α : Type*}

/-- `running` is the queue whose head runs, and whether that task has finished. -/
structure Fifo (Q α : Type*) where
  lists : Q → List α
  running : Option (Q × Bool)

inductive FifoAction (Q α : Type*)
  | add (q : Q) (a : α)
  | finish
  | next (selected : Option (Q × α))
  deriving DecidableEq

namespace Fifo

def empty : Fifo Q α := ⟨fun _ => [], none⟩

/-- The head of the first non-empty list. -/
def select (order : List Q) (lists : Q → List α) : Option (Q × α) :=
  order.findSome? fun q => (lists q).head?.map (q, ·)

section Operations

variable [DecidableEq Q]

def add (f : Fifo Q α) (q : Q) (a : α) : Fifo Q α :=
  { f with lists := Function.update f.lists q (f.lists q ++ [a]) }

/-- The lists once the running task has given up its turn. -/
def release (f : Fifo Q α) : Q → List α :=
  match f.running with
  | none => f.lists
  | some (q, finished) =>
      Function.update f.lists q (if finished then (f.lists q).tail else (f.lists q).rotate 1)

def next (order : List Q) (f : Fifo Q α) : Fifo Q α :=
  ⟨f.release, (select order f.release).map fun selected => (selected.1, false)⟩

inductive Step (order : List Q) : Fifo Q α → FifoAction Q α → Fifo Q α → Prop
  | add {f : Fifo Q α} {q : Q} {a : α} :
      (∀ q', a ∉ f.lists q') → Step order f (.add q a) (f.add q a)
  | finish {f : Fifo Q α} {q : Q} {finished : Bool} :
      f.running = some (q, finished) → Step order f .finish { f with running := some (q, true) }
  | next (f : Fifo Q α) : Step order f (.next (select order f.release)) (f.next order)

end Operations

theorem select_eq_some {order : List Q} {lists : Q → List α} {q : Q} {a : α}
    (h : select order lists = some (q, a)) : (lists q).head? = some a := by
  obtain ⟨q', -, hq'⟩ := List.exists_of_findSome?_eq_some h
  rw [Option.map_eq_some_iff] at hq'
  obtain ⟨a', ha', heq⟩ := hq'
  rw [Prod.mk.injEq] at heq
  obtain ⟨rfl, rfl⟩ := heq
  exact ha'

theorem select_eq_none {order : List Q} {lists : Q → List α} :
    select order lists = none ↔ ∀ q ∈ order, lists q = [] := by
  simp [select]

theorem select_map_snd (order : List Q) (lists : Q → List α) :
    (select order lists).map Prod.snd = (order.flatMap lists).head? := by
  rw [List.head?_flatMap, select, List.map_findSome?]
  congr 1
  funext q
  simp [Function.comp_def]

/-! ## What is selected between two turns of a task -/

/-- The tasks selected from a queue, in order. -/
def selections [DecidableEq Q] (q : Q) (actions : List (FifoAction Q α)) : List α :=
  actions.filterMap fun
    | .next (some (q', a)) => if q' = q then some a else none
    | _ => none

private theorem selections_cons [DecidableEq Q] (q : Q) (action : FifoAction Q α)
    (actions : List (FifoAction Q α)) :
    selections q (action :: actions) = selections q [action] ++ selections q actions := by
  rw [selections, selections, selections, ← List.filterMap_append, List.singleton_append]

section Turns

variable [DecidableEq Q] {order : List Q} {f g : Fifo Q α} {q : Q} {a : α} {m : List α}
  {actions : List (FifoAction Q α)}

/-- A list without the task that runs. -/
def pending (f : Fifo Q α) (q : Q) : List α :=
  match f.running with
  | none => f.lists q
  | some (q', _) => if q' = q then (f.lists q).tail else f.lists q

private theorem pending_prefix_release (f : Fifo Q α) (q : Q) : f.pending q <+: f.release q := by
  rw [pending, release]
  cases f.running with
  | none => exact List.prefix_rfl
  | some running =>
      obtain ⟨q', finished⟩ := running
      dsimp only
      by_cases hq : q' = q
      · subst hq
        rw [if_pos rfl, Function.update_self]
        cases f.lists q' with
        | nil => simp
        | cons c l => cases finished <;> simp
      · rw [if_neg hq, Function.update_of_ne (Ne.symm hq)]

private theorem pending_prefix_add (f : Fifo Q α) (q q' : Q) (c : α) :
    f.pending q <+: (f.add q' c).pending q := by
  have hlists : ∃ l, (f.add q' c).lists q = f.lists q ++ l := by
    rw [add]
    dsimp only
    by_cases hq : q = q'
    · subst hq
      exact ⟨[c], Function.update_self ..⟩
    · exact ⟨[], by rw [Function.update_of_ne hq, List.append_nil]⟩
  obtain ⟨l, hl⟩ := hlists
  rw [pending, pending, hl, show (f.add q' c).running = f.running from rfl]
  cases f.running with
  | none => exact List.prefix_append _ _
  | some running =>
      dsimp only
      split
      · cases f.lists q with
        | nil => exact List.nil_prefix
        | cons x m => exact List.prefix_append _ _
      · exact List.prefix_append _ _

/-- `m` is what will be selected from the queue before `a` is. -/
def Waiting (f : Fifo Q α) (q : Q) (a : α) (m : List α) : Prop := (m ++ [a]) <+: f.pending q

private theorem next_waiting (hrelease : (m ++ [a]) <+: f.release q)
    (hother : select order f.release ≠ some (q, a)) :
    ∃ m', Waiting (f.next order) q a m' ∧
      m = selections q [.next (select order f.release)] ++ m' := by
  have hpending : (f.next order).pending q =
      match select order f.release with
      | none => f.release q
      | some (q', _) => if q' = q then (f.release q).tail else f.release q := by
    rw [pending, next]
    cases select order f.release <;> rfl
  cases hselect : select order f.release with
  | none =>
      rw [hselect] at hpending
      refine ⟨m, ?_, rfl⟩
      rwa [Waiting, hpending]
  | some selected =>
      obtain ⟨q', c⟩ := selected
      rw [hselect] at hpending hother
      dsimp only at hpending
      by_cases hq : q' = q
      · subst hq
        have hhead := select_eq_some hselect
        obtain ⟨z, hz⟩ := hrelease
        rw [if_pos rfl, ← hz] at hpending
        rw [← hz] at hhead
        cases m with
        | nil =>
            obtain rfl : a = c := Option.some.inj hhead
            exact absurd rfl hother
        | cons c' m' =>
            obtain rfl : c' = c := Option.some.inj hhead
            refine ⟨m', ⟨z, hpending.symm⟩, by simp [selections]⟩
      · rw [if_neg hq] at hpending
        refine ⟨m, ?_, by simp [selections, hq]⟩
        rwa [Waiting, hpending]

private theorem Step.waiting {action : FifoAction Q α} (hstep : Step order f action g)
    (h : Waiting f q a m) (hother : action ≠ .next (some (q, a))) :
    ∃ m', Waiting g q a m' ∧ m = selections q [action] ++ m' := by
  cases hstep with
  | add _ => exact ⟨m, h.trans (pending_prefix_add ..), rfl⟩
  | finish hrunning =>
      refine ⟨m, ?_, rfl⟩
      rw [Waiting, pending, hrunning] at h
      exact h
  | next =>
      refine next_waiting (h.trans (pending_prefix_release f q)) ?_
      intro hselect
      exact hother (by rw [hselect])

private theorem run_waiting (hrun : Run (Step order) f actions g) (h : Waiting f q a m)
    (hother : .next (some (q, a)) ∉ actions) :
    ∃ m', Waiting g q a m' ∧ m = selections q actions ++ m' := by
  induction hrun generalizing m with
  | nil => exact ⟨m, h, rfl⟩
  | @cons _ _ _ action actions hstep _ ih =>
      rw [List.mem_cons, not_or] at hother
      obtain ⟨m₁, h₁, rfl⟩ := hstep.waiting h (Ne.symm hother.1)
      obtain ⟨m₂, h₂, rfl⟩ := ih h₁ hother.2
      refine ⟨m₂, h₂, ?_⟩
      rw [← List.append_assoc, ← selections_cons]

private theorem mem_of_mem_release (h : a ∈ f.release q) : a ∈ f.lists q := by
  rw [release] at h
  cases hrunning : f.running with
  | none =>
      rw [hrunning] at h
      exact h
  | some running =>
      obtain ⟨q', finished⟩ := running
      rw [hrunning] at h
      dsimp only at h
      by_cases hq : q = q'
      · subst hq
        rw [Function.update_self] at h
        cases finished with
        | true => exact List.mem_of_mem_tail h
        | false => exact List.mem_rotate.mp h
      · rwa [Function.update_of_ne hq] at h

private theorem run_absent (hrun : Run (Step order) f actions g) (h : a ∉ f.lists q)
    (hadd : .add q a ∉ actions) : a ∉ g.lists q := by
  induction hrun with
  | nil => exact h
  | cons hstep _ ih =>
      rw [List.mem_cons, not_or] at hadd
      refine ih ?_ hadd.2
      cases hstep with
      | @add q' c _ =>
          rw [add]
          dsimp only
          by_cases hq : q = q'
          · subst hq
            rw [Function.update_self, List.mem_append, List.mem_singleton, not_or]
            refine ⟨h, ?_⟩
            rintro rfl
            exact hadd.1 rfl
          · rwa [Function.update_of_ne hq]
      | finish _ => exact h
      | next => exact fun hmem => h (mem_of_mem_release hmem)

private theorem select_release_of_step (hstep : Step order f (.next (some (q, a))) g) :
    (f.release q).head? = some a := by
  generalize haction : FifoAction.next (some (q, a)) = action at hstep
  cases hstep with
  | add _ => cases haction
  | finish _ => cases haction
  | next => exact select_eq_some (FifoAction.next.inj haction).symm

private theorem eq_nil_of_head_release (h : (m ++ [a]) <+: f.release q)
    (hhead : (f.release q).head? = some a) (ha : a ∉ m) : m = [] := by
  obtain ⟨z, hz⟩ := h
  cases m with
  | nil => rfl
  | cons c m =>
      rw [← hz] at hhead
      obtain rfl : c = a := Option.some.inj hhead
      exact absurd List.mem_cons_self ha

private theorem release_running {finished : Bool} (hrunning : f.running = some (q, finished))
    (hlist : f.lists q = a :: m) : f.release q = if finished then m else m ++ [a] := by
  rw [release, hrunning]
  dsimp only
  rw [Function.update_self, hlist]
  cases finished <;> simp

private theorem selections_after_turn {finished : Bool} {g' : Fifo Q α}
    (hrest : Run (Step order) (f.next order) actions g)
    (hlast : Step order g (.next (some (q, a))) g') (hrunning : f.running = some (q, finished))
    (hlist : f.lists q = a :: m) (ha : a ∉ m) (hselect : select order f.release ≠ some (q, a))
    (hother : .next (some (q, a)) ∉ actions) (hadd : .add q a ∉ actions) :
    selections q (.next (select order f.release) :: actions) = m := by
  have hrelease := release_running hrunning hlist
  have hhead := select_release_of_step hlast
  cases finished with
  | true =>
      have habsent : a ∉ (f.next order).lists q := by
        rw [show (f.next order).lists = f.release from rfl, hrelease]
        exact ha
      have hgone := run_absent hrest habsent hadd
      exact absurd (mem_of_mem_release (List.mem_of_head? hhead)) hgone
  | false =>
      have hprefix : (m ++ [a]) <+: f.release q := hrelease ▸ List.prefix_rfl
      obtain ⟨m₁, hwaiting, hm₁⟩ := next_waiting hprefix hselect
      obtain ⟨m₂, hwaiting₂, rfl⟩ := run_waiting hrest hwaiting hother
      have ha₂ : a ∉ m₂ := by
        intro hmem
        exact ha (by simp [hm₁, hmem])
      obtain rfl := eq_nil_of_head_release (hwaiting₂.trans (pending_prefix_release ..)) hhead ha₂
      rw [hm₁, List.append_nil, ← selections_cons]

/-- From a turn of `a` to its next one, exactly the tasks behind it in its list, and those added
to the list during the turn, are selected from the queue, each once. -/
theorem selections_between {finished : Bool} {g' : Fifo Q α} (hrun : Run (Step order) f actions g)
    (hlast : Step order g (.next (some (q, a))) g') (hrunning : f.running = some (q, finished))
    (hlist : f.lists q = a :: m) (hnodup : (a :: m).Nodup)
    (hother : .next (some (q, a)) ∉ actions) (hadd : ∀ q', .add q' a ∉ actions) :
    ∃ new, selections q actions = m ++ new ∧ (a :: (m ++ new)).Nodup := by
  -- The induction follows the first turn; once it ends, `m` stands in front of `a`.
  induction hrun generalizing m finished with
  | nil =>
      have hrelease := release_running hrunning hlist
      have hhead := select_release_of_step hlast
      have ha : a ∉ m := (List.nodup_cons.mp hnodup).1
      cases finished with
      | true =>
          rw [hrelease] at hhead
          exact absurd (List.mem_of_head? hhead) ha
      | false =>
          obtain rfl := eq_nil_of_head_release (hrelease ▸ List.prefix_rfl) hhead ha
          exact ⟨[], rfl, hnodup⟩
  | @cons f _ _ _ actions hstep hrest ih =>
      rw [List.mem_cons, not_or] at hother
      have hadd' : ∀ q', .add q' a ∉ actions := fun q' hmem => hadd q' (List.mem_cons_of_mem _ hmem)
      cases hstep with
      | @add q' c hfresh =>
          by_cases hq : q = q'
          · subst hq
            have hlist' : (f.add q c).lists q = a :: (m ++ [c]) := by
              rw [add]
              dsimp only
              rw [Function.update_self, hlist]
              rfl
            have hnodup' : (a :: (m ++ [c])).Nodup := by
              have hc := hfresh q
              rw [hlist] at hc
              have hfront : ([c] ++ (a :: m)).Nodup := List.nodup_cons.mpr ⟨hc, hnodup⟩
              exact List.nodup_append_comm.mp hfront
            obtain ⟨new, hnew, hnodup⟩ := ih hlast hrunning hlist' hnodup' hother.2 hadd'
            rw [List.append_assoc] at hnew hnodup
            exact ⟨[c] ++ new, hnew, hnodup⟩
          · have hlist' : (f.add q' c).lists q = a :: m := by
              rw [← hlist]
              exact Function.update_of_ne hq ..
            exact ih hlast hrunning hlist' hnodup hother.2 hadd'
      | @finish q' _ hrunning' =>
          rw [hrunning, Option.some.injEq, Prod.mk.injEq] at hrunning'
          exact ih hlast (show _ = some (q, true) by rw [hrunning'.1]) hlist hnodup hother.2 hadd'
      | next =>
          have ha : a ∉ m := (List.nodup_cons.mp hnodup).1
          have hselect : select order f.release ≠ some (q, a) := by
            intro hselect
            exact hother.1 (by rw [hselect])
          refine ⟨[], ?_, by rwa [List.append_nil]⟩
          rw [List.append_nil]
          exact selections_after_turn hrest hlast hrunning hlist ha hselect hother.2 (hadd' q)

end Turns

end Fifo

end VisualOS.Framework
