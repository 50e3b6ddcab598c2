import VisualOS.Scheduler.Interrupts

/-!
# Scheduling on many CPUs

What holds in every state that any number of CPUs can reach together: the queues are sound
rings of the tasks there are, and a task runs on one CPU at a time with its own registers.
-/

namespace VisualOS.Kernel

open Framework

/-- Following `next` from `first` visits `num` distinct nodes of the queue and comes back, and
`previous` is the inverse of `next` there. -/
structure QueueRing (s : Scheduler) (q : SchedulerQueueNumber) : Prop where
  live : ∀ i < (s.queues q).num, ∃ address node,
    s.next^[i] (s.queues q).first = .task address ∧
      s.nodes (.task address) = some node ∧ node.queueNum = q
  distinct : ∀ i < (s.queues q).num, ∀ j < (s.queues q).num,
    s.next^[i] (s.queues q).first = s.next^[j] (s.queues q).first → i = j
  closed : s.next^[(s.queues q).num] (s.queues q).first = (s.queues q).first
  inverse : ∀ i < (s.queues q).num,
    s.previous (s.next (s.next^[i] (s.queues q).first)) = s.next^[i] (s.queues q).first ∧
      s.next (s.previous (s.next^[i] (s.queues q).first)) = s.next^[i] (s.queues q).first

/-- Every queue is empty or a ring, and every task there is belongs to exactly one. -/
structure RingSound (s : Scheduler) : Prop where
  queue : ∀ q, (s.queues q).num = 0 ∧ (s.queues q).first = .null ∨
    (s.queues q).num ≠ 0 ∧ QueueRing s q
  member : ∀ address node, s.nodes (.task address) = some node →
    ∃! q, ∃ i < (s.queues q).num, s.next^[i] (s.queues q).first = .task address

section Rings

variable {s : Scheduler} {rings : Rings} {q : SchedulerQueueNumber}

private theorem Linked.mem_iff_iterate (h : Linked s rings) {p : NodePtr} :
    p ∈ rings q ↔ ∃ i < (s.queues q).num, s.next^[i] (s.queues q).first = p := by
  rw [List.mem_iff_getElem?]
  constructor
  · rintro ⟨i, hi⟩
    have hlt : i < (s.queues q).num := by
      rw [h.num]
      exact (List.getElem?_eq_some_iff.mp hi).1
    rw [h.iterate_next hlt, Option.some.injEq] at hi
    exact ⟨i, hlt, hi⟩
  · rintro ⟨i, hi, rfl⟩
    exact ⟨i, h.iterate_next hi⟩

private theorem Consistent.queueRing (h : Consistent s rings) (hnum : (s.queues q).num ≠ 0) :
    QueueRing s q := by
  have hlength := h.num q
  have hmem : ∀ i < (s.queues q).num, s.next^[i] (s.queues q).first ∈ rings q :=
    fun i hi => h.mem_iff_iterate.mpr ⟨i, hi, rfl⟩
  refine ⟨?_, ?_, ?_, ?_⟩
  · intro i hi
    obtain ⟨node, hnode, hq⟩ := h.allocated (hmem i hi)
    have htask := h.task q _ (hmem i hi)
    cases hp : s.next^[i] (s.queues q).first with
    | null => exact absurd hp htask.1
    | idle => exact absurd hp htask.2
    | task address => exact ⟨address, node, rfl, hp ▸ hnode, hq⟩
  · intro i hi j hj heq
    refine (List.getElem?_inj (hlength ▸ hi) (h.ring q).nodup).mp ?_
    rw [h.iterate_next hi, h.iterate_next hj, heq]
  · cases hl : rings q with
    | nil => simp [hlength, hl] at hnum
    | cons x l =>
        have hring : IsRing s.next s.previous (x :: l) := hl ▸ h.ring q
        have hfirst : (s.queues q).first = x := by rw [h.first, hl]; rfl
        have hround := hring.iterate_next (x :: l).length
        rw [Nat.mod_self, List.getElem?_cons_zero, Option.some.injEq] at hround
        rw [hfirst, hlength, hl]
        exact hround.symm
  · intro i hi
    exact ⟨(h.ring q).previous_next (hmem i hi), (h.ring q).next_previous (hmem i hi)⟩

private theorem Consistent.ringSound (h : Consistent s rings) : RingSound s := by
  refine ⟨?_, ?_⟩
  · intro q
    by_cases hnum : (s.queues q).num = 0
    · refine .inl ⟨hnum, ?_⟩
      rw [h.num, List.length_eq_zero_iff] at hnum
      rw [h.first, hnum]
      rfl
    · exact .inr ⟨hnum, h.queueRing hnum⟩
  · intro address node hnode
    have hmem := h.covered _ _ (Scheduler.context_of_nodes hnode) (by simp)
    refine ⟨_, h.mem_iff_iterate.mp hmem, ?_⟩
    intro q hq
    exact h.separate (h.mem_iff_iterate.mpr hq) hmem

end Rings

def smallTask : SchedulerTaskInitialState := ⟨fun _ => 0, 0x1000, 0x2000, 3⟩

section Runs

variable {C : Type} [DecidableEq C] {schedulerIdle : BitVec 64}
  {registers : C → SchedulerContextFrame} {actions : List (SmpAction C)}

private theorem smpRun_invariant {s : Smp C}
    (hrun : Run SmpStep (smpInit schedulerIdle registers) actions s) :
    ∃ rings frames, SmpInvariant s rings frames := by
  have hstep : ∀ (s : Smp C) a t, (∃ rings frames, SmpInvariant s rings frames) → SmpStep s a t →
      ∃ rings frames, SmpInvariant t rings frames := by
    rintro s a t ⟨rings, frames, h⟩ hstep
    obtain ⟨rings', h'⟩ := h.step hstep
    exact ⟨rings', _, h'⟩
  apply hrun.invariant hstep
  exact ⟨_, fun _ => (sIdleNode schedulerIdle).contextFrame, smpInit_invariant ..⟩

/-- Whatever tasks are added, preempted and finished on any number of CPUs, the queues stay
rings, and no interrupt faults or waits forever. -/
theorem scheduler_rings_sound {s : Smp C}
    (hrun : Run SmpStep (smpInit schedulerIdle registers) actions s) :
    RingSound s.scheduler ∧ ∀ cpu, ∃ t, timerHandler cpu s = some t := by
  obtain ⟨rings, frames, h⟩ := smpRun_invariant hrun
  refine ⟨h.consistent.ringSound, ?_⟩
  intro cpu
  obtain ⟨t, -, ht, -⟩ := h.timer cpu
  exact ⟨t, ht⟩

/-- Two tasks are added, taken by two CPUs, and one of them finishes. -/
def smallActions : List (SmpAction Bool) :=
  [.addTask 1 smallTask .regular, .addTask 2 smallTask .regular, .timer false, .timer true,
    .finish false, .timer false]

private theorem exists_smallRun :
    ∃ s : Smp Bool, Run SmpStep (smpInit 0x100 fun _ => initialFrame smallTask) smallActions s :=
  ⟨_, .cons (.addTask rfl rfl) (.cons (.addTask rfl rfl) (.cons (.timer rfl) (.cons (.timer rfl)
    (.cons (.finish rfl rfl) (.cons (.timer rfl) (.nil _))))))⟩

theorem scheduler_rings_sound_two : ∃ s : Smp Bool,
    Run SmpStep (smpInit 0x100 fun _ => initialFrame smallTask) smallActions s ∧
      RingSound s.scheduler := by
  obtain ⟨s, hrun⟩ := exists_smallRun
  exact ⟨s, hrun, (scheduler_rings_sound hrun).1⟩

/-- A machine together with what each task is to continue with. -/
structure TracedSmp (C : Type) where
  smp : Smp C
  frames : NodePtr → SchedulerContextFrame

def TracedStep (s : TracedSmp C) (a : SmpAction C) (t : TracedSmp C) : Prop :=
  SmpStep s.smp a t.smp ∧ t.frames = nextFrames s.smp s.frames a

private theorem exists_tracedRun {s t : Smp C} (hrun : Run SmpStep s actions t)
    (frames : NodePtr → SchedulerContextFrame) :
    ∃ frames', Run TracedStep ⟨s, frames⟩ actions ⟨t, frames'⟩ := by
  induction hrun generalizing frames with
  | nil => exact ⟨frames, .nil _⟩
  | @cons s _ _ a _ hstep _ ih =>
      obtain ⟨frames', hrest⟩ := ih (nextFrames s frames a)
      exact ⟨frames', .cons ⟨hstep, rfl⟩ hrest⟩

variable {frames : NodePtr → SchedulerContextFrame}

private theorem tracedRun_invariant {s : TracedSmp C}
    (hrun : Run TracedStep ⟨smpInit schedulerIdle registers, frames⟩ actions s) :
    ∃ rings, SmpInvariant s.smp rings s.frames := by
  have hstep : ∀ (s : TracedSmp C) a t, (∃ rings, SmpInvariant s.smp rings s.frames) →
      TracedStep s a t →
      ∃ rings, SmpInvariant t.smp rings t.frames := by
    rintro s a t ⟨rings, h⟩ ⟨hstep, hframes⟩
    rw [hframes]
    exact h.step hstep
  apply hrun.invariant hstep
  exact ⟨_, smpInit_invariant schedulerIdle registers frames⟩

theorem task_runs_alone {s : TracedSmp C}
    (hrun : Run TracedStep ⟨smpInit schedulerIdle registers, frames⟩ actions s) :
    (∀ cpu cpu' address, s.smp.current cpu = .task address →
      s.smp.current cpu' = .task address → cpu = cpu') ∧
    (∀ address node, s.smp.scheduler.nodes (.task address) = some node →
      (node.flags.getLsbD schedulerFlagLocked = true ↔
        ∃ cpu, s.smp.current cpu = .task address)) ∧
    (∀ cpu, s.smp.current cpu ≠ .null →
      ∃ node, s.smp.scheduler.nodes (s.smp.current cpu) = some node) ∧
    ∀ cpu t address, TracedStep s (.timer cpu) t → t.smp.current cpu = .task address →
      t.smp.registers cpu = t.frames (.task address) := by
  obtain ⟨rings, h⟩ := tracedRun_invariant hrun
  refine ⟨?_, ?_, ?_, ?_⟩
  · intro cpu cpu' address hcpu hcpu'
    refine h.distinct cpu cpu' (hcpu.trans hcpu'.symm) ?_ ?_ <;> simp [hcpu]
  · intro address node hnode
    exact h.locked _ node.context (Scheduler.context_of_nodes hnode) (by simp)
  · intro cpu hnull
    exact h.exists_currentNode hnull
  · rintro cpu t address ⟨hstep, hframes⟩ hcurrent
    obtain ⟨t', -, ht', -, hregisters⟩ := h.timer cpu
    cases hstep with
    | timer ht =>
        rw [ht, Option.some.injEq] at ht'
        subst ht'
        rw [hframes]
        exact hregisters address hcurrent

theorem task_runs_alone_two : ∃ s : TracedSmp Bool,
    Run TracedStep ⟨smpInit 0x100 fun _ => initialFrame smallTask, fun _ => initialFrame smallTask⟩
      smallActions s ∧
    ∀ cpu cpu' address, s.smp.current cpu = .task address →
      s.smp.current cpu' = .task address → cpu = cpu' := by
  obtain ⟨s, hrun⟩ := exists_smallRun
  obtain ⟨frames, htraced⟩ := exists_tracedRun hrun fun _ => initialFrame smallTask
  exact ⟨_, htraced, (task_runs_alone htraced).1⟩

end Runs

end VisualOS.Kernel
