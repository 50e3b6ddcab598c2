import VisualOS.Framework.Fifo
import VisualOS.Scheduler.Calls

/-!
# Scheduling on one CPU

With one CPU the rings with their moving `first` pointers are first-in first-out lists under
strict priority.
-/

namespace VisualOS.Kernel

open Framework

private theorem mem_schedulerQueues (q : SchedulerQueueNumber) : q ∈ schedulerQueues := by
  cases q <;> decide

/-- The scheduler and the node that the CPU last received. -/
structure SingleCpu where
  scheduler : Scheduler
  current : NodePtr

namespace SingleCpu

/-- The queue of the running task, and whether the task has finished. -/
def running (s : SingleCpu) : Option (SchedulerQueueNumber × Bool) :=
  if s.current = .idle then none
  else (s.scheduler.context s.current).map fun c => (c.queueNum, c.finished)

def selected (s : SingleCpu) : Option (SchedulerQueueNumber × NodePtr) :=
  s.running.map fun running => (running.1, s.current)

/-- The lists that the pointers represent. -/
def fifo (s : SingleCpu) : Fifo SchedulerQueueNumber NodePtr := ⟨s.scheduler.lists, s.running⟩

def initial (schedulerIdle : BitVec 64) : SingleCpu := ⟨initialScheduler schedulerIdle, .null⟩

/-- Calls on one CPU.  The label of a call of `scheduler_next_task` is the task it returns. -/
inductive Step : SingleCpu → FifoAction SchedulerQueueNumber NodePtr → SingleCpu → Prop
  | addTask {s : SingleCpu} {scheduler : Scheduler} {address : Nat}
      {queueNum : SchedulerQueueNumber} (state : SchedulerTaskInitialState) :
      s.scheduler.nodes (.task address) = none →
      schedulerAddTask (.task address) state queueNum s.scheduler = some scheduler →
      Step s (.add queueNum (.task address)) ⟨scheduler, s.current⟩
  | finish {s : SingleCpu} {scheduler : Scheduler} {address : Nat} :
      s.current = .task address →
      s.scheduler.modifyNode (.task address) (fun node =>
        { node with flags := node.flags ||| BitVec.twoPow 64 schedulerFlagFinished }) =
        some scheduler →
      Step s .finish ⟨scheduler, s.current⟩
  | nextTask {s : SingleCpu} {scheduler : Scheduler} {next : NodePtr} {ticks : Option Nat} :
      schedulerNextTask s.current s.scheduler = some (next, ticks, scheduler) →
      Step s (.next (selected ⟨scheduler, next⟩)) ⟨scheduler, next⟩

private theorem Step.next_inv {s t : SingleCpu} {selected : Option (SchedulerQueueNumber × NodePtr)}
    (h : Step s (.next selected) t) :
    selected = t.selected ∧
      ∃ ticks, schedulerNextTask s.current s.scheduler = some (t.current, ticks, t.scheduler) := by
  cases h with
  | nextTask hnext => exact ⟨rfl, _, hnext⟩

private theorem Step.next {s : SingleCpu} {scheduler : Scheduler} {p : NodePtr} {ticks : Option Nat}
    {selected : Option (SchedulerQueueNumber × NodePtr)}
    (hnext : schedulerNextTask s.current s.scheduler = some (p, ticks, scheduler))
    (hselected : SingleCpu.selected ⟨scheduler, p⟩ = selected) :
    Step s (.next selected) ⟨scheduler, p⟩ :=
  hselected ▸ .nextTask hnext

private theorem running_of_selected {s : SingleCpu} {q : SchedulerQueueNumber} {p : NodePtr}
    (h : s.selected = some (q, p)) : s.current = p ∧ ∃ finished, s.running = some (q, finished) := by
  rw [selected, Option.map_eq_some_iff] at h
  obtain ⟨⟨q', finished⟩, hrunning, heq⟩ := h
  rw [Prod.mk.injEq] at heq
  obtain ⟨rfl, rfl⟩ := heq
  exact ⟨rfl, finished, hrunning⟩

end SingleCpu

/-- The pointers represent the lists, and no task but the running one is locked or finished. -/
structure Represents (s : SingleCpu) (f : Fifo SchedulerQueueNumber NodePtr) : Prop where
  consistent : Consistent s.scheduler f.lists
  running : s.running = f.running
  head : ∀ q finished, f.running = some (q, finished) → (f.lists q).head? = some s.current
  resting : f.running = none → s.current = .null ∨ s.current = .idle
  ready : ∀ p c, s.scheduler.context p = some c → p ≠ .idle → p ≠ s.current →
    c.locked = false ∧ c.finished = false

namespace Represents

variable {s t : SingleCpu} {f : Fifo SchedulerQueueNumber NodePtr}

private theorem eq_fifo (h : Represents s f) : f = s.fifo := by
  rw [SingleCpu.fifo, h.running, h.consistent.lists_eq]

private theorem initial (schedulerIdle : BitVec 64) :
    Represents (.initial schedulerIdle) Fifo.empty := by
  refine ⟨initialScheduler_consistent schedulerIdle, rfl, ?_, fun _ => .inl rfl, ?_⟩
  · intro q finished hrunning
    exact absurd hrunning (by simp [Fifo.empty])
  · exact fun p c hc hp => absurd (initialScheduler_context hc) hp

private theorem addTask {scheduler : Scheduler} {address : Nat} {state : SchedulerTaskInitialState}
    {queueNum : SchedulerQueueNumber} (h : Represents s f)
    (hfresh : s.scheduler.nodes (.task address) = none)
    (hadd : schedulerAddTask (.task address) state queueNum s.scheduler = some scheduler) :
    (∀ q, .task address ∉ f.lists q) ∧
      Represents ⟨scheduler, s.current⟩ (f.add queueNum (.task address)) := by
  obtain ⟨hnew, hconsistent, hcontext⟩ := h.consistent.addTask hfresh hadd
  have hcurrent : s.current ≠ .task address := by
    intro heq
    cases hrunning : f.running with
    | none =>
        have hresting := h.resting hrunning
        rw [heq] at hresting
        exact absurd hresting (by simp)
    | some running =>
        have hhead := h.head _ _ hrunning
        exact hnew running.1 (heq ▸ List.mem_of_head? hhead)
  refine ⟨hnew, hconsistent, ?_, ?_, h.resting, ?_⟩
  · rw [SingleCpu.running, hcontext]
    dsimp only
    rw [Function.update_of_ne hcurrent]
    exact h.running
  · intro q finished hrunning
    have hhead := h.head q finished hrunning
    rw [Fifo.add]
    dsimp only
    by_cases hq : q = queueNum
    · subst hq
      rw [Function.update_self, List.head?_append, hhead]
      rfl
    · rwa [Function.update_of_ne hq]
  · intro p c hc hp hne
    dsimp only at hc hne
    rw [hcontext] at hc
    rcases Scheduler.update_context_cases hc with ⟨rfl, rfl⟩ | ⟨-, hc⟩
    · exact ⟨BitVec.getLsbD_zero, BitVec.getLsbD_zero⟩
    · exact h.ready p c hc hp hne

private theorem finish {scheduler : Scheduler} {address : Nat} (h : Represents s f)
    (hcurrent : s.current = .task address)
    (hfinish : s.scheduler.modifyNode (.task address) (fun node =>
      { node with flags := node.flags ||| BitVec.twoPow 64 schedulerFlagFinished }) =
      some scheduler) :
    ∃ q finished, f.running = some (q, finished) ∧
      Represents ⟨scheduler, s.current⟩ { f with running := some (q, true) } := by
  obtain ⟨c₀, hc₀, hconsistent, hcontext⟩ := h.consistent.finish hfinish
  have hrunning := h.running
  rw [SingleCpu.running, hcurrent, if_neg (by simp), hc₀] at hrunning
  refine ⟨_, _, hrunning.symm, hconsistent, ?_, ?_, ?_, ?_⟩
  · rw [SingleCpu.running]
    dsimp only
    rw [hcurrent, if_neg (by simp), hcontext, Function.update_self]
    exact congrArg (fun b => some (c₀.queueNum, b)) c₀.finish_finished
  · intro q finished hq
    rw [Option.some.injEq, Prod.mk.injEq] at hq
    obtain ⟨rfl, -⟩ := hq
    exact h.head _ _ hrunning.symm
  · intro hnone
    exact absurd hnone (by simp)
  · intro p c hc hp hne
    dsimp only at hc
    rw [hcurrent] at hne
    rw [hcontext, Function.update_of_ne hne] at hc
    exact h.ready p c hc hp (hcurrent ▸ hne)

private theorem front_of_current {q : SchedulerQueueNumber} {p : NodePtr} {a b : List NodePtr}
    {c : TaskContext} (h : Represents s f) (hcurrent : s.current = p)
    (hl : f.lists q = a ++ p :: b) (hc : s.scheduler.context p = some c) :
    a = [] ∧ f.running = some (q, c.finished) := by
  have hmem : p ∈ f.lists q := by simp [hl]
  obtain ⟨c', hc', hq⟩ := h.consistent.owner q p hmem
  rw [hc, Option.some.injEq] at hc'
  subst c'
  have hrunning := h.running
  rw [SingleCpu.running, hcurrent, if_neg (h.consistent.task q p hmem).2, hc, Option.map_some,
    hq] at hrunning
  refine ⟨?_, hrunning.symm⟩
  have hhead := h.head q _ hrunning.symm
  have hnodup := (h.consistent.ring q).nodup
  rw [hcurrent, hl] at hhead
  rw [hl] at hnodup
  cases a with
  | nil => rfl
  | cons x a =>
      obtain rfl : x = p := Option.some.inj hhead
      exact absurd (List.nodup_cons.mp hnodup).1 (by simp)

private theorem release {scheduler : Scheduler} {rings : Rings} (h : Represents s f)
    (hreleased : TaskReleased s.scheduler f.lists scheduler s.current rings) :
    rings = f.release ∧ ∀ p c, scheduler.context p = some c → p ≠ .idle →
      c.locked = false ∧ c.finished = false := by
  have hready : ∀ p c, scheduler.context p = some c → p ≠ .idle →
      c.locked = false ∧ c.finished = false := by
    intro p c hc hp
    by_cases hne : p = s.current
    · subst hne
      obtain ⟨c', -, hfinished, rfl⟩ :=
        hreleased.context_self h.consistent.context_null hp hc
      rw [TaskContext.unlock_locked, TaskContext.unlock_finished]
      exact ⟨rfl, hfinished⟩
    · rw [hreleased.context_ne hne] at hc
      exact h.ready p c hc hp hne
  refine ⟨?_, hready⟩
  generalize hcurrent : s.current = p₀ at hreleased
  cases hreleased with
  | none hnone _ =>
      have hresting := h.running
      rw [SingleCpu.running, hcurrent] at hresting
      rcases hnone with rfl | rfl
      · rw [h.consistent.context_null] at hresting
        rw [Fifo.release, ← hresting]
        rfl
      · rw [if_pos rfl] at hresting
        rw [Fifo.release, ← hresting]
  | finished hl hc hfinished _ =>
      obtain ⟨rfl, hrun⟩ := h.front_of_current hcurrent hl hc
      rw [hfinished] at hrun
      rw [Fifo.release, hrun, List.append_nil]
      dsimp only
      rw [hl]
      rfl
  | unlocked hl hc hfinished _ =>
      obtain ⟨rfl, hrun⟩ := h.front_of_current hcurrent hl hc
      rw [hfinished] at hrun
      rw [Fifo.release, hrun, List.append_nil]
      dsimp only
      rw [hl]
      simp

private theorem dispatch {scheduler : Scheduler} {rings : Rings}
    (hconsistent : Consistent scheduler rings)
    (hready : ∀ p c, scheduler.context p = some c → p ≠ .idle →
      c.locked = false ∧ c.finished = false) :
    (schedulerQueues.flatMap rings).find? scheduler.ready =
      (Fifo.select schedulerQueues rings).map Prod.snd := by
  have hall : ∀ p ∈ schedulerQueues.flatMap rings, scheduler.ready p = true := by
    intro p hp
    obtain ⟨q, -, hp⟩ := List.mem_flatMap.mp hp
    obtain ⟨c, hc, -⟩ := hconsistent.owner q p hp
    exact (Scheduler.ready_iff hc).mpr (hready p c hc (hconsistent.task q p hp).2)
  rw [Fifo.select_map_snd]
  cases hl : schedulerQueues.flatMap rings with
  | nil => rfl
  | cons p l =>
      rw [hl] at hall
      exact List.find?_cons_of_pos (hall p List.mem_cons_self)

/-- `scheduler_next_task` ends the turn and starts the next one. -/
theorem nextTask (h : Represents s f) :
    ∃ next ticks scheduler, schedulerNextTask s.current s.scheduler = some (next, ticks, scheduler) ∧
      Represents ⟨scheduler, next⟩ (f.next schedulerQueues) ∧
      SingleCpu.selected ⟨scheduler, next⟩ = Fifo.select schedulerQueues f.release ∧
      next = ((Fifo.select schedulerQueues f.release).map Prod.snd).getD .idle := by
  have hcurrent : ∃ q, s.current = .null ∨ s.current = .idle ∨ s.current ∈ f.lists q := by
    cases hrunning : f.running with
    | none =>
        rcases h.resting hrunning with hcur | hcur
        · exact ⟨.priority, .inl hcur⟩
        · exact ⟨.priority, .inr (.inl hcur)⟩
    | some running => exact ⟨running.1, .inr (.inr (List.mem_of_head? (h.head _ _ hrunning)))⟩
  obtain ⟨q, hcurrent⟩ := hcurrent
  obtain ⟨ticks, t, rings, hconsistent, hreleased, hnext⟩ :=
    schedulerNextTask_spec h.consistent hcurrent
  obtain ⟨rfl, hready⟩ := h.release hreleased
  rw [dispatch hconsistent hready] at hnext
  refine ⟨_, ticks, _, hnext, ?_⟩
  cases hselect : Fifo.select schedulerQueues f.release with
  | none =>
      refine ⟨⟨hconsistent, ?_, ?_, fun _ => .inr rfl, fun p c hc hp _ => hready p c hc hp⟩, rfl,
        rfl⟩
      · rw [Fifo.next, hselect]
        rfl
      · intro q finished hrunning
        rw [Fifo.next, hselect] at hrunning
        exact absurd hrunning (by simp)
  | some selected =>
      obtain ⟨q, p⟩ := selected
      have hhead := Fifo.select_eq_some hselect
      have hp : p ∈ f.release q := List.mem_of_head? hhead
      obtain ⟨c, hc, hq⟩ := hconsistent.owner q p hp
      have hcontext := Scheduler.lockFound_context hc
      have hrunning : SingleCpu.running ⟨t.lockFound (some p), p⟩ = some (q, false) := by
        rw [SingleCpu.running]
        dsimp only
        rw [if_neg (hconsistent.task q p hp).2, hcontext, Function.update_self, Option.map_some,
          TaskContext.lock_queueNum, TaskContext.lock_finished, hq,
          (hready p c hc (hconsistent.task q p hp).2).2]
      have hnextRunning : (f.next schedulerQueues).running = some (q, false) := by
        rw [Fifo.next, hselect]
        rfl
      refine ⟨⟨hconsistent.lockFound hp, hrunning.trans hnextRunning.symm, ?_, ?_, ?_⟩, ?_, rfl⟩
      · intro q' finished hq'
        rw [hnextRunning, Option.some.injEq, Prod.mk.injEq] at hq'
        obtain ⟨rfl, -⟩ := hq'
        exact hhead
      · intro hnone
        rw [hnextRunning] at hnone
        exact absurd hnone (by simp)
      · intro p' c' hc' hp' hne
        dsimp only [Option.map_some, Option.getD_some] at hc' hne
        rw [hcontext, Function.update_of_ne hne] at hc'
        exact hready p' c' hc' hp'
      · exact congrArg (Option.map fun running => (running.1, p)) hrunning

private theorem nextTask_current {ticks : Option Nat} (h : Represents s f)
    (hnext : schedulerNextTask s.current s.scheduler = some (t.current, ticks, t.scheduler)) :
    t.current = (t.selected.map Prod.snd).getD .idle ∧
      (t.current = .idle ↔ ∀ q, t.scheduler.lists q = []) := by
  obtain ⟨next, ticks', scheduler, hnext', hrepresents, hselected, hcurrent⟩ := h.nextTask
  rw [hnext, Option.some.injEq, Prod.mk.injEq, Prod.mk.injEq] at hnext'
  obtain ⟨rfl, -, rfl⟩ := hnext'
  rw [show t.selected = Fifo.select schedulerQueues f.release from hselected]
  refine ⟨hcurrent, ?_⟩
  have hlists : t.scheduler.lists = f.release := hrepresents.consistent.lists_eq
  rw [hcurrent, hlists]
  cases hselect : Fifo.select schedulerQueues f.release with
  | none =>
      have hempty := Fifo.select_eq_none.mp hselect
      exact ⟨fun _ q => hempty q (mem_schedulerQueues q), fun _ => rfl⟩
  | some selected =>
      have hhead := Fifo.select_eq_some hselect
      have htask := hrepresents.consistent.task selected.1 selected.2 (List.mem_of_head? hhead)
      refine ⟨fun hidle => absurd hidle htask.2, ?_⟩
      intro hempty
      rw [hempty] at hhead
      exact absurd hhead (by simp)

private theorem step {action : FifoAction SchedulerQueueNumber NodePtr} (h : Represents s f)
    (hstep : SingleCpu.Step s action t) :
    ∃ g, Fifo.Step schedulerQueues f action g ∧ Represents t g := by
  cases hstep with
  | addTask state hfresh hadd =>
      obtain ⟨hnew, hrepresents⟩ := h.addTask hfresh hadd
      exact ⟨_, .add hnew, hrepresents⟩
  | finish hcurrent hfinish =>
      obtain ⟨q, finished, hrunning, hrepresents⟩ := h.finish hcurrent hfinish
      exact ⟨_, .finish hrunning, hrepresents⟩
  | nextTask hnext =>
      obtain ⟨next, ticks, scheduler, hnext', hrepresents, hselected, -⟩ := h.nextTask
      rw [hnext, Option.some.injEq, Prod.mk.injEq, Prod.mk.injEq] at hnext'
      obtain ⟨rfl, -, rfl⟩ := hnext'
      rw [hselected]
      exact ⟨_, .next f, hrepresents⟩

private theorem run {actions : List (FifoAction SchedulerQueueNumber NodePtr)} (h : Represents s f)
    (hrun : Run SingleCpu.Step s actions t) :
    ∃ g, Run (Fifo.Step schedulerQueues) f actions g ∧ Represents t g :=
  hrun.simulation (fun _ _ _ _ h hstep => h.step hstep) h

/-- Between two turns of a task every other task of its queue has one turn. -/
theorem selections_count {q : SchedulerQueueNumber} {a b : NodePtr} {finished : Bool}
    {actions : List (FifoAction SchedulerQueueNumber NodePtr)} {u v : SingleCpu}
    (h : Represents s f) (hrunning : f.running = some (q, finished)) (ha : s.current = a)
    (hrun : Run SingleCpu.Step s actions u) (hlast : SingleCpu.Step u (.next (some (q, a))) v)
    (hother : .next (some (q, a)) ∉ actions) (hadd : ∀ q', .add q' a ∉ actions)
    (hb : b ∈ f.lists q) (hne : b ≠ a) : (Fifo.selections q actions).count b = 1 := by
  obtain ⟨g, hfifo, hg⟩ := h.run hrun
  obtain ⟨g', hfifoLast, -⟩ := hg.step hlast
  have hhead := h.head q finished hrunning
  have hnodup := (h.consistent.ring q).nodup
  rw [ha] at hhead
  cases hl : f.lists q with
  | nil => simp [hl] at hb
  | cons x m =>
      rw [hl] at hhead hb hnodup
      obtain rfl : x = a := Option.some.inj hhead
      obtain ⟨new, hselections, hnodup⟩ :=
        Fifo.selections_between hfifo hfifoLast hrunning hl hnodup hother hadd
      rw [hselections]
      refine List.count_eq_one_of_mem (List.nodup_cons.mp hnodup).2 ?_
      exact List.mem_append_left _ ((List.mem_cons.mp hb).resolve_left hne)

end Represents

/-- The scheduler on one CPU refines first-in first-out lists with strict priority: its runs are
runs of the lists, the running task is the head of its list, and the idle node is returned when
all lists are empty.  A task that is selected twice, without its node having been given to a new
task in between, leaves every other task of its queue one turn. -/
theorem single_cpu_refines_fifo {schedulerIdle : BitVec 64}
    {actions : List (FifoAction SchedulerQueueNumber NodePtr)} {s : SingleCpu}
    (hrun : Run SingleCpu.Step (.initial schedulerIdle) actions s) :
    Run (Fifo.Step schedulerQueues) Fifo.empty actions s.fifo ∧
    (∀ q finished, s.running = some (q, finished) →
      (s.scheduler.lists q).head? = some s.current) ∧
    (∃ selected t, SingleCpu.Step s (.next selected) t) ∧
    (∀ selected t, SingleCpu.Step s (.next selected) t →
      t.current = (selected.map Prod.snd).getD .idle ∧
      (t.current = .idle ↔ ∀ q, t.scheduler.lists q = [])) ∧
    ∀ q a t turns u v, SingleCpu.Step s (.next (some (q, a))) t → Run SingleCpu.Step t turns u →
      SingleCpu.Step u (.next (some (q, a))) v → .next (some (q, a)) ∉ turns →
      (∀ q', .add q' a ∉ turns) → ∀ b ∈ t.scheduler.lists q, b ≠ a →
        (Fifo.selections q turns).count b = 1 := by
  obtain ⟨f, hfifo, h⟩ := (Represents.initial schedulerIdle).run hrun
  have hlists := h.consistent.lists_eq
  refine ⟨h.eq_fifo ▸ hfifo, ?_, ?_, ?_, ?_⟩
  · intro q finished hrunning
    rw [hlists]
    exact h.head q finished (h.running ▸ hrunning)
  · obtain ⟨next, ticks, scheduler, hnext, -⟩ := h.nextTask
    exact ⟨_, _, .nextTask hnext⟩
  · intro selected t hstep
    obtain ⟨rfl, ticks, hnext⟩ := hstep.next_inv
    exact h.nextTask_current hnext
  · intro q a t turns u v hfirst hturns hlast hother hadd b hb hne
    obtain ⟨g, -, hg⟩ := h.step hfirst
    obtain ⟨ha, finished, hrunning⟩ := SingleCpu.running_of_selected hfirst.next_inv.1.symm
    rw [hg.consistent.lists_eq] at hb
    exact hg.selections_count (hg.running ▸ hrunning) ha hturns hlast hother hadd hb hne

/-- Two tasks are added. -/
def twoAdded : List (FifoAction SchedulerQueueNumber NodePtr) :=
  [.add .regular (.task 1), .add .regular (.task 2)]

/-- They take turns: between two selections of the first one the second is selected once. -/
theorem single_cpu_refines_fifo_two : ∃ s t u v, Run SingleCpu.Step (.initial 0x100) twoAdded s ∧
    SingleCpu.Step s (.next (some (.regular, .task 1))) t ∧
    Run SingleCpu.Step t [.next (some (.regular, .task 2))] u ∧
    SingleCpu.Step u (.next (some (.regular, .task 1))) v ∧
    Run (Fifo.Step schedulerQueues) Fifo.empty (twoAdded ++ [.next (some (.regular, .task 1)),
      .next (some (.regular, .task 2)), .next (some (.regular, .task 1))]) v.fifo ∧
    (Fifo.selections SchedulerQueueNumber.regular
      [.next (some (.regular, NodePtr.task 2))]).count (.task 2) = 1 := by
  have hruns : ∃ s t u v, Run SingleCpu.Step (.initial 0x100) twoAdded s ∧
      SingleCpu.Step s (.next (some (.regular, .task 1))) t ∧
      Run SingleCpu.Step t [.next (some (.regular, .task 2))] u ∧
      SingleCpu.Step u (.next (some (.regular, .task 1))) v ∧
      .task 2 ∈ t.scheduler.lists .regular :=
    ⟨_, _, _, _, .cons (.addTask ⟨fun _ => 0, 0x1000, 0x2000, 3⟩ rfl rfl)
        (.cons (.addTask ⟨fun _ => 0, 0x1000, 0x2000, 3⟩ rfl rfl) (.nil _)),
      .next (by rfl) (by rfl), .cons (.next (by rfl) (by rfl)) (.nil _), .next (by rfl) (by rfl),
      by decide⟩
  obtain ⟨s, t, u, v, hs, ht, hu, hv, hmem⟩ := hruns
  have hrun := ((hs.append (.cons ht hu)).append (.cons hv (.nil v)))
  refine ⟨s, t, u, v, hs, ht, hu, hv, (single_cpu_refines_fifo hrun).1, ?_⟩
  exact (single_cpu_refines_fifo hs).2.2.2.2 .regular (.task 1) t _ u v ht hu hv (by decide)
    (by simp) (.task 2) hmem (by decide)

end VisualOS.Kernel
