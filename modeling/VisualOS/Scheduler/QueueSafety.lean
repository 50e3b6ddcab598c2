import VisualOS.Scheduler.Selection

/-!
# What keeps the queues safe

The lock of a queue against the search of another CPU, and the direct use of
`scheduler_free_task`.
-/

namespace VisualOS.Kernel

open Framework

section Queues

variable {s t : Scheduler} {rings : Rings} {current p : NodePtr} {q : SchedulerQueueNumber}

/-! ## Locked queues -/

/-- The call returns, and neither returns nor touches a node of the queue. -/
def SkipsQueue (s : Scheduler) (rings : Rings) (current : NodePtr) (q : SchedulerQueueNumber) :
    Prop :=
  ∃ next ticks t, schedulerNextTask current s = some (next, ticks, t) ∧
    (next = .idle ∨ ∃ q' ≠ q, next ∈ rings q') ∧ next ∉ rings q ∧
    ∀ p ∈ rings q, t.context p = s.context p

/-- The call skips a queue exactly when the node it selects is in another one. -/
theorem skipsQueue_iff (h : Callable s rings current) (hq : current ∉ rings q) :
    SkipsQueue s rings current q ↔ ∀ x ∈ rings q, s.selected rings current ≠ some x := by
  obtain ⟨ticks, t, ht, hcontext, -⟩ := h.nextTask
  have hreleased : ∀ p ∈ rings q, s.releasedContext current p = s.context p :=
    fun p hp => Scheduler.releasedContext_of_ne fun heq => hq (heq ▸ hp)
  constructor
  · rintro ⟨next, ticks', t', ht', -, hnext, -⟩ x hx hselected
    rw [ht, hselected, Option.getD_some] at ht'
    obtain ⟨rfl, -⟩ := Prod.mk.inj (Option.some.inj ht')
    exact hnext hx
  · intro hother
    refine ⟨_, ticks, t, ht, ?_⟩
    cases hselected : s.selected rings current with
    | none =>
        rw [Scheduler.selectedContext_none hselected] at hcontext
        rw [Option.getD_none, hcontext]
        exact ⟨.inl rfl, fun hidle => (h.task q _ hidle).2 rfl, hreleased⟩
    | some x =>
        obtain ⟨q', before, hx⟩ := selected_eq_some_iff.mp hselected
        have hnotMem : x ∉ rings q := fun hmem => hother x hmem hselected
        have hne : q' ≠ q := fun heq => hnotMem (heq ▸ hx.mem)
        rw [Scheduler.selectedContext_some hselected] at hcontext
        rw [Option.getD_some, hcontext]
        refine ⟨.inr ⟨q', hne, hx.mem⟩, hnotMem, ?_⟩
        intro p hp
        have hpx : p ≠ x := fun heq => hnotMem (heq ▸ hp)
        rw [Function.update_of_ne hpx, hreleased p hp]

private theorem Callable.exists_foremost (h : Callable s rings current) (hp : p ∈ rings q)
    (heligible : s.eligible current p = true) :
    ∃ x q' before, s.selected rings current = some x ∧ Foremost s rings current q' before x ∧
      q'.toNat ≤ q.toNat := by
  have hmem := h.mem_released hp heligible
  cases hselected : s.selected rings current with
  | none =>
      rw [selected_eq_none_iff.mp hselected q p hmem] at heligible
      cases heligible
  | some x =>
      obtain ⟨q', before, hx⟩ := selected_eq_some_iff.mp hselected
      refine ⟨x, q', before, rfl, hx, ?_⟩
      by_contra hlt
      rw [hx.lower q (Nat.lt_of_not_le hlt) p hmem] at heligible
      cases heligible

/-- The lock of a queue makes no difference to whether the search takes a task of it. -/
theorem locked_queue_skipped_iff (h : Callable s rings current) (hq : current ∉ rings q) :
    SkipsQueue s rings current q ↔
      (∃ q', q'.toNat < q.toNat ∧ ∃ p ∈ rings q', s.eligible current p = true) ∨
        ∀ p ∈ rings q, s.ready p = false := by
  have hready : ∀ p ∈ rings q, s.eligible current p = s.ready p :=
    fun p hp => Scheduler.eligible_of_ne fun heq => hq (heq ▸ hp)
  rw [skipsQueue_iff h hq]
  constructor
  · intro hother
    by_contra hcondition
    push Not at hcondition
    obtain ⟨hlower, p, hp, hpready⟩ := hcondition
    rw [Ne, Bool.not_eq_false, ← hready p hp] at hpready
    obtain ⟨x, q', before, hselected, hx, hle⟩ := h.exists_foremost hp hpready
    rcases Nat.lt_or_eq_of_le hle with hlt | heq
    · exact hlower q' hlt x hx.mem hx.eligible
    · exact hother x (toNat_injective heq ▸ hx.mem) hselected
  · rintro (⟨q', hlt, p, hp, heligible⟩ | hnone) x hx hselected
    · obtain ⟨y, q'', before, hselected', hy, hle⟩ := h.exists_foremost hp heligible
      rw [hselected, Option.some.injEq] at hselected'
      subst y
      have := congrArg SchedulerQueueNumber.toNat (h.separate hx hy.mem)
      omega
    · obtain ⟨q', before, hforemost⟩ := selected_eq_some_iff.mp hselected
      have heligible := hforemost.eligible
      rw [hready x hx, hnone x hx] at heligible
      cases heligible

private theorem twoTasks_lockQueue_callable :
    Callable (twoTasks.lockQueue .regular) twoTasksRings .null :=
  Ringed.callable ⟨twoTasks_ringed.toLinked.setQueue_flags .regular _, twoTasks_ringed.task⟩
    (.inl rfl)

theorem locked_queue_skipped_iff_two :
    ((twoTasks.lockQueue .regular).queues .regular).flags.getLsbD schedulerFlagLocked = true ∧
      ¬SkipsQueue (twoTasks.lockQueue .regular) twoTasksRings .null .regular := by
  refine ⟨rfl, ?_⟩
  rw [locked_queue_skipped_iff twoTasks_lockQueue_callable (by decide)]
  rintro (⟨q', hlt, p, hp, -⟩ | hnone)
  · cases q'
    · exact absurd hp (by decide +revert)
    · exact absurd hlt (by decide)
    · exact absurd hlt (by decide)
  · exact absurd (hnone (.task 1) (by decide)) (by decide)

/-- The search goes through the locked queue and takes its first task. -/
theorem locked_queue_searched :
    ((twoTasks.lockQueue .regular).queues .regular).flags.getLsbD schedulerFlagLocked = true ∧
      ∃ ticks t, schedulerNextTask .null (twoTasks.lockQueue .regular) =
        some (.task 1, ticks, t) ∧ .task 1 ∈ twoTasksRings .regular :=
  ⟨rfl, _, _, rfl, by decide⟩

/-! ## Freeing a queued task -/

/-- The queue holds the other nodes in their order and is entered at one of them, and the other
queues are as they were. -/
structure RingKept (s : Scheduler) (rings : Rings) (q : SchedulerQueueNumber) (p : NodePtr)
    (t : Scheduler) : Prop where
  ring : IsRing t.next t.previous ((rings q).erase p)
  num : (t.queues q).num + 1 = (s.queues q).num
  first_null : (t.queues q).first = .null ↔ (t.queues q).num = 0
  first_mem : (t.queues q).num ≠ 0 → (t.queues q).first ∈ (rings q).erase p
  queues : ∀ q' ≠ q, t.queues q' = s.queues q'
  nodes : ∀ q' ≠ q, ∀ p' ∈ rings q', t.nodes p' = s.nodes p'

private theorem Scheduler.nodes_eq (hcontext : t.context p = s.context p)
    (hnext : t.next p = s.next p)
    (hprevious : t.previous p = s.previous p) : t.nodes p = s.nodes p := by
  rw [context, context] at hcontext
  rw [next, next] at hnext
  rw [previous, previous] at hprevious
  cases hs : s.nodes p with
  | none =>
      cases ht : t.nodes p with
      | none => rfl
      | some node => simp [hs, ht] at hcontext
  | some node =>
      cases ht : t.nodes p with
      | none => simp [hs, ht] at hcontext
      | some node' =>
          simp only [hs, ht, Option.map_some, Option.getD_some, Option.some.injEq,
            SchedulerNode.context, TaskContext.mk.injEq] at hcontext hnext hprevious
          cases node
          cases node'
          simp_all

section Unlink

variable {a b : List NodePtr}

/-- `first` is never moved, so it has to be at a node that stays. -/
theorem Ringed.first_stays_iff (h : Ringed s rings) (hl : rings q = a ++ p :: b) :
    (b ++ a ≠ [] → (s.queues q).first ∈ a ++ b) ↔
      ((s.queues q).first = p → (s.queues q).num ≤ 1) := by
  have hnum : (s.queues q).num = (b ++ a).length + 1 := by
    rw [h.num, hl]
    simp
    omega
  have hnodup : p ∉ a ++ b := by
    have := (h.ring q).nodup
    rw [hl, List.nodup_middle, List.nodup_cons] at this
    exact this.1
  constructor
  · intro hfirst heq
    by_contra hlarge
    have hrest : b ++ a ≠ [] := by
      intro hempty
      rw [hempty, List.length_nil] at hnum
      omega
    exact hnodup (heq ▸ hfirst hrest)
  · intro hcondition hrest
    cases a with
    | nil =>
        have hone := hcondition (by rw [h.first, hl]; rfl)
        have := List.length_pos_of_ne_nil hrest
        omega
    | cons x a =>
        rw [h.first, hl]
        exact List.mem_cons_self

private theorem Ringed.ringKept_iff (h : Ringed s rings) (hl : rings q = a ++ p :: b) (ha : p ∉ a)
    (ht : Unlinked s q (a ++ p :: b) (b ++ a) t)
    (hcontext : t.context = Function.update s.context p none) :
    RingKept s rings q p t ↔ (b ++ a ≠ [] → (s.queues q).first ∈ a ++ b) := by
  have herase : (rings q).erase p = a ++ b := by
    rw [hl, List.erase_append_right _ ha, List.erase_cons_head]
  have hnum : (t.queues q).num = (b ++ a).length := by rw [ht.queue]
  have hzero : (t.queues q).num = 0 ↔ b ++ a = [] := by rw [hnum, List.length_eq_zero_iff]
  have hfirst : (t.queues q).first = if b ++ a = [] then .null else (s.queues q).first := by
    rw [ht.queue]
  constructor
  · intro hkept hrest
    have hmem := hkept.first_mem (hzero.not.mpr hrest)
    rwa [hfirst, if_neg hrest, herase] at hmem
  · intro hstays
    apply RingKept.mk
    · rw [herase]
      exact ht.ring.rotate
    · rw [hnum, h.num, hl]
      simp
      omega
    · rw [hzero, hfirst]
      split_ifs with hrest
      · simp [hrest]
      · have hmem : (s.queues q).first ∈ rings q := List.mem_of_mem_erase (herase ▸ hstays hrest)
        simp [hrest, (h.task q _ hmem).1]
    · intro hrest
      rw [Ne, hzero] at hrest
      rw [hfirst, if_neg hrest, herase]
      exact hstays hrest
    · exact ht.queues
    · intro q' hne p' hp'
      have hoff : p' ∉ a ++ p :: b := fun hmem => hne (h.separate hp' (hl ▸ hmem))
      apply Scheduler.nodes_eq _ (ht.next p' hoff) (ht.previous p' hoff)
      rw [hcontext, Function.update_of_ne]
      rintro rfl
      simp at hoff

end Unlink

theorem free_task_keeps_ring_iff (h : Ringed s rings) (hp : p ∈ rings q) :
    ∃ t, schedulerFreeTask p s = some t ∧
      (RingKept s rings q p t ↔ ((s.queues q).first = p → (s.queues q).num ≤ 1)) := by
  obtain ⟨a, b, hl, ha⟩ := List.eq_append_cons_of_mem hp
  obtain ⟨t, ht, hunlinked, hcontext⟩ :=
    schedulerFreeTask_spec (hl ▸ h.queue q) (h.task q p hp)
  refine ⟨t, ht, ?_⟩
  rw [h.ringKept_iff hl ha hunlinked hcontext]
  exact h.first_stays_iff hl

theorem free_task_keeps_ring_iff_two :
    ∃ t, schedulerFreeTask (.task 2) twoTasks = some t ∧
      (RingKept twoTasks twoTasksRings .regular (.task 2) t ↔
        ((twoTasks.queues .regular).first = .task 2 → (twoTasks.queues .regular).num ≤ 1)) :=
  free_task_keeps_ring_iff twoTasks_ringed (by decide)

/-- Freeing the task that `first` points to leaves `first` at the freed node. -/
theorem free_task_leaves_first :
    Ringed twoTasks twoTasksRings ∧ ∃ t, schedulerFreeTask (.task 1) twoTasks = some t ∧
      (t.queues .regular).num = 1 ∧ (t.queues .regular).first = .task 1 ∧
      t.nodes (.task 1) = none ∧ ¬RingKept twoTasks twoTasksRings .regular (.task 1) t := by
  refine ⟨twoTasks_ringed, _, rfl, rfl, rfl, rfl, ?_⟩
  intro hkept
  exact absurd (hkept.first_mem (by decide)) (by decide)

end Queues

end VisualOS.Kernel
