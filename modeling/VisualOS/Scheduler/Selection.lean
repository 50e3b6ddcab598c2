import VisualOS.Scheduler.Multiprocessor

/-!
# Which task is selected

What `scheduler_next_task` returns, said in terms of the state in which it is called: the rotated
lists, and which tasks can be taken once the calling CPU's own task is released.  From this follow
the selection rule, which entry of `s_ticks_table` the timer is programmed with, and what the
lock of a queue is worth.
-/

namespace VisualOS.Kernel

open Framework

/-- A released task goes to the back of its list, or leaves it when it has finished. -/
def releasedRing (finished : Bool) (p : NodePtr) (l : List NodePtr) : List NodePtr :=
  if p ∈ l then
    if finished then (l.rotate (l.idxOf p + 1)).dropLast else l.rotate (l.idxOf p + 1)
  else l

private theorem releasedRing_append {finished : Bool} {p : NodePtr} {a b : List NodePtr}
    (ha : p ∉ a) :
    releasedRing finished p (a ++ p :: b) = if finished then b ++ a else b ++ a ++ [p] := by
  have hindex : (a ++ p :: b).idxOf p + 1 = (a ++ [p]).length := by
    rw [List.idxOf_append_of_notMem ha, List.idxOf_cons_self]
    simp
  have hrotate : (a ++ p :: b).rotate (a ++ [p]).length = b ++ a ++ [p] := by
    rw [show a ++ p :: b = a ++ [p] ++ b by simp, List.rotate_append_length_eq, List.append_assoc]
  rw [releasedRing, if_pos (by simp), hindex, hrotate, List.dropLast_concat]

private theorem mem_of_mem_releasedRing {finished : Bool} {p x : NodePtr} {l : List NodePtr}
    (hx : x ∈ releasedRing finished p l) : x ∈ l := by
  rw [releasedRing] at hx
  split at hx
  · split at hx
    · exact List.mem_rotate.mp (List.mem_of_mem_dropLast hx)
    · exact List.mem_rotate.mp hx
  · exact hx

namespace Scheduler

def finished (s : Scheduler) (p : NodePtr) : Bool := (s.context p).any TaskContext.finished

def releasedRings (s : Scheduler) (rings : Rings) (current : NodePtr) : Rings := fun q =>
  releasedRing (s.finished current) current (rings q)

/-- The nodes once `current` is unlocked, or freed if it has finished. -/
def releasedContext (s : Scheduler) (current : NodePtr) : NodePtr → Option TaskContext :=
  if current = .null ∨ current = .idle then s.context
  else
    Function.update s.context current
      (if s.finished current then none else (s.context current).map TaskContext.unlock)

/-- The task is neither locked nor finished once `current` is released. -/
def eligible (s : Scheduler) (current p : NodePtr) : Bool :=
  match s.releasedContext current p with
  | some c => !c.locked && !c.finished
  | none => false

/-- The first task that can be taken, in the order of the queues and of the lists. -/
def selected (s : Scheduler) (rings : Rings) (current : NodePtr) : Option NodePtr :=
  (schedulerQueues.flatMap (s.releasedRings rings current)).find? (s.eligible current)

/-- `current_queue_num`, which stays at -1 without a task. -/
def currentQueueNum (s : Scheduler) (current : NodePtr) : Nat :=
  if current = .null ∨ current = .idle then 2 ^ 64 - 1
  else ((s.context current).map fun c => c.queueNum.toNat).getD (2 ^ 64 - 1)

/-- The nodes with the selected task locked. -/
def selectedContext (s : Scheduler) (rings : Rings) (current : NodePtr) :
    NodePtr → Option TaskContext :=
  match s.selected rings current with
  | some x => Function.update (s.releasedContext current) x
      ((s.releasedContext current x).map TaskContext.lock)
  | none => s.releasedContext current

variable {s t : Scheduler} {rings : Rings} {current p x : NodePtr} {q : SchedulerQueueNumber}

theorem selectedContext_some (hx : s.selected rings current = some x) :
    s.selectedContext rings current = Function.update (s.releasedContext current) x
      ((s.releasedContext current x).map TaskContext.lock) := by
  simp only [selectedContext, hx]

theorem selectedContext_none (hnone : s.selected rings current = none) :
    s.selectedContext rings current = s.releasedContext current := by
  simp only [selectedContext, hnone]

theorem releasedContext_of_ne (hne : p ≠ current) : s.releasedContext current p = s.context p := by
  rw [releasedContext]
  split
  · rfl
  · rw [Function.update_of_ne hne]

theorem eligible_of_ne (hne : p ≠ current) : s.eligible current p = s.ready p := by
  have hreleased := s.releasedContext_of_ne hne
  cases hcontext : s.context p with
  | none => simp [eligible, ready, hreleased, hcontext]
  | some c => simp [eligible, ready, hreleased, hcontext]

private theorem ready_eq_eligible (hcontext : t.context = s.releasedContext current) :
    t.ready = s.eligible current := by
  funext p
  cases hp : s.releasedContext current p with
  | none => simp [ready, eligible, hcontext, hp]
  | some c => simp [ready, eligible, hcontext, hp]

private theorem releasedRings_of_notMem (hq : current ∉ rings q) :
    s.releasedRings rings current q = rings q := if_neg hq

private theorem mem_releasedRings (hp : p ∈ rings q)
    (hkept : p = current → s.finished current = false) : p ∈ s.releasedRings rings current q := by
  by_cases hmem : current ∈ rings q
  · obtain ⟨a, b, hl, ha⟩ := List.eq_append_cons_of_mem hmem
    rw [releasedRings, hl, releasedRing_append ha]
    simp only [hl, List.mem_append, List.mem_cons] at hp
    by_cases heq : p = current
    · simp [hkept heq, heq]
    · split <;> simp <;> tauto
  · rwa [releasedRings_of_notMem hmem]

private theorem walk_congr (hqueue : t.queues q = s.queues q)
    (hnext : ∀ p ∈ s.walk q, t.next p = s.next p) : t.walk q = s.walk q := by
  rw [walk, walk, hqueue]
  by_cases hfirst : (s.queues q).first = .null
  · rw [if_pos hfirst, if_pos hfirst]
  rw [walk, if_neg hfirst] at hnext
  have hiterate : ∀ i, i < (s.queues q).num →
      t.next^[i] (s.queues q).first = s.next^[i] (s.queues q).first := by
    intro i
    induction i with
    | zero => exact fun _ => rfl
    | succ i ih =>
        intro hi
        have hmem : s.next^[i] (s.queues q).first ∈ s.lists q :=
          List.mem_map.mpr ⟨i, List.mem_range.mpr (Nat.lt_of_succ_lt hi), rfl⟩
        rw [Function.iterate_succ_apply', Function.iterate_succ_apply',
          ih (Nat.lt_of_succ_lt hi), hnext _ hmem]
  rw [if_neg hfirst, if_neg hfirst, lists, lists, hqueue]
  apply List.map_congr_left
  intro i hi
  exact hiterate i (List.mem_range.mp hi)

end Scheduler

/-- The queues are rings of tasks; their locks and those of the tasks are in any state. -/
structure Ringed (s : Scheduler) (rings : Rings) : Prop extends Linked s rings where
  task : ∀ q, ∀ p ∈ rings q, p ≠ .null ∧ p ≠ .idle

/-- The calling CPU runs nothing, or a task of a queue that is a ring and not locked.  Of the other
queues it is only asked that following `next` from `first` leads through tasks of the queue. -/
structure Callable (s : Scheduler) (rings : Rings) (current : NodePtr) : Prop where
  walk : s.walk = rings
  owner : ∀ q, ∀ p ∈ rings q, ∃ c, s.context p = some c ∧ c.queueNum = q
  task : ∀ q, ∀ p ∈ rings q, p ≠ .null ∧ p ≠ .idle
  current : current = .null ∨ current = .idle ∨ ∃ q, current ∈ rings q ∧
    LinkedQueue s q (rings q) ∧ (s.queues q).flags.getLsbD schedulerFlagLocked = false

section Selection

variable {s t : Scheduler} {rings : Rings} {current p x : NodePtr} {q q' : SchedulerQueueNumber}

theorem Ringed.callable (h : Ringed s rings)
    (hcurrent : current = .null ∨ current = .idle ∨ ∃ q, current ∈ rings q ∧
      (s.queues q).flags.getLsbD schedulerFlagLocked = false) : Callable s rings current := by
  refine ⟨h.walk_eq fun q p hp => (h.task q p hp).1, h.owner, h.task, ?_⟩
  rcases hcurrent with hcurrent | hcurrent | ⟨q, hq, hfree⟩
  · exact .inl hcurrent
  · exact .inr (.inl hcurrent)
  · exact .inr (.inr ⟨q, hq, h.queue q, hfree⟩)

namespace Callable

theorem separate (h : Callable s rings current) (hp : p ∈ rings q) (hp' : p ∈ rings q') :
    q = q' := by
  obtain ⟨c, hc, rfl⟩ := h.owner q p hp
  obtain ⟨c', hc', rfl⟩ := h.owner q' p hp'
  rw [hc, Option.some.injEq] at hc'
  rw [hc']

private theorem notMem (h : Callable s rings current) (hnone : current = .null ∨ current = .idle) :
    current ∉ rings q := by
  intro hmem
  exact hnone.elim (h.task q current hmem).1 (h.task q current hmem).2

private theorem finished_eq_false (h : Callable s rings current) (hp : current ∈ rings q)
    (heligible : s.eligible current current = true) : s.finished current = false := by
  have hnone : ¬(current = .null ∨ current = .idle) := fun hnone => h.notMem hnone hp
  by_contra hfinished
  rw [Bool.not_eq_false] at hfinished
  simp [Scheduler.eligible, Scheduler.releasedContext, hnone, hfinished] at heligible

theorem mem_released (h : Callable s rings current) (hp : p ∈ rings q)
    (heligible : s.eligible current p = true) : p ∈ s.releasedRings rings current q := by
  apply Scheduler.mem_releasedRings hp
  rintro rfl
  exact h.finished_eq_false hp heligible

private theorem release (h : Callable s rings current) :
    ∃ t, schedulerRelease current s = some (s.currentQueueNum current, t) ∧
      t.context = s.releasedContext current ∧ t.walk = s.releasedRings rings current ∧
      (∀ q, ∀ p ∈ s.releasedRings rings current q, ∃ c, t.context p = some c) ∧
      ∀ q, LinkedQueue s q (rings q) → LinkedQueue t q (s.releasedRings rings current q) := by
  by_cases hnone : current = .null ∨ current = .idle
  · have hrings : s.releasedRings rings current = rings :=
      funext fun q => Scheduler.releasedRings_of_notMem (h.notMem hnone)
    rw [hrings]
    refine ⟨s, ?_, ?_, h.walk, ?_, fun _ hq => hq⟩
    · rw [schedulerRelease, if_pos hnone, Scheduler.currentQueueNum, if_pos hnone]
    · rw [Scheduler.releasedContext, if_pos hnone]
    · intro q p hp
      obtain ⟨c, hc, -⟩ := h.owner q p hp
      exact ⟨c, hc⟩
  have hmem : ∃ q, current ∈ rings q ∧ LinkedQueue s q (rings q) ∧
      (s.queues q).flags.getLsbD schedulerFlagLocked = false := by
    rcases h.current with hcurrent | hcurrent | hcurrent
    · exact absurd (.inl hcurrent) hnone
    · exact absurd (.inr hcurrent) hnone
    · exact hcurrent
  obtain ⟨q, hmem, hlinked, hfree⟩ := hmem
  obtain ⟨node, hnode, hq⟩ := hlinked.allocated hmem
  obtain ⟨a, b, hl, ha⟩ := List.eq_append_cons_of_mem hmem
  have hcontext := Scheduler.context_of_nodes hnode
  have hfinished : s.finished current = node.context.finished := by
    rw [Scheduler.finished, hcontext, Option.any_some]
  obtain ⟨t, ht, hlinked', hconfined, -, hcontext'⟩ :=
    schedulerRelease_queue (hl ▸ hlinked) hfree (h.task q current hmem) hnode
  rw [← hl] at hconfined
  have hreleased : LinkedQueue t q (s.releasedRings rings current q) := by
    rw [Scheduler.releasedRings, hl, releasedRing_append ha, hfinished]
    exact hlinked'
  have hreleasedContext : t.context = s.releasedContext current := by
    rw [hcontext', Scheduler.releasedContext, if_neg hnone, hfinished, hcontext, Option.map_some]
  -- The other queues keep their list, and their nodes are not touched.
  have hother : ∀ q' ≠ q, current ∉ rings q' := fun q' hne hmem' => hne (h.separate hmem' hmem)
  have hoff : ∀ q' ≠ q, ∀ p ∈ rings q', p ∉ rings q :=
    fun q' hne p hp hp' => hne (h.separate hp hp')
  have hsame : ∀ q' ≠ q, ∀ p ∈ rings q', t.context p = s.context p := by
    intro q' hne p hp
    rw [hreleasedContext, Scheduler.releasedContext_of_ne]
    rintro rfl
    exact hother q' hne hp
  refine ⟨t, ?_, hreleasedContext, ?_, ?_, ?_⟩
  · rw [ht, Scheduler.currentQueueNum, if_neg hnone, hcontext, Option.map_some, Option.getD_some,
      ← hq]
    rfl
  · funext q'
    rcases eq_or_ne q' q with rfl | hne
    · exact hreleased.walk_eq fun p hp => (h.task q' p (mem_of_mem_releasedRing hp)).1
    · rw [Scheduler.releasedRings_of_notMem (hother q' hne), ← h.walk]
      apply Scheduler.walk_congr (hconfined.queues q' hne)
      intro p hp
      rw [h.walk] at hp
      exact hconfined.next p (hoff q' hne p hp)
  · intro q' p hp
    rcases eq_or_ne q' q with rfl | hne
    · obtain ⟨c, hc, -⟩ := hreleased.owner p hp
      exact ⟨c, hc⟩
    · rw [Scheduler.releasedRings_of_notMem (hother q' hne)] at hp
      obtain ⟨c, hc, -⟩ := h.owner q' p hp
      exact ⟨c, (hsame q' hne p hp).trans hc⟩
  · intro q' hq'
    rcases eq_or_ne q' q with rfl | hne
    · exact hreleased
    · rw [Scheduler.releasedRings_of_notMem (hother q' hne)]
      apply hq'.congr (hconfined.queues q' hne) (hsame q' hne)
      · exact fun p hp => hconfined.next p (hoff q' hne p hp)
      · exact fun p hp => hconfined.previous p (hoff q' hne p hp)

theorem nextTask (h : Callable s rings current) :
    ∃ ticks t, schedulerNextTask current s =
        some ((s.selected rings current).getD .idle, ticks, t) ∧
      t.context = s.selectedContext rings current ∧
      (∀ q, LinkedQueue s q (rings q) → LinkedQueue t q (s.releasedRings rings current q)) ∧
      (s.selected rings current = none → ticks = none) ∧
      ∀ x, s.selected rings current = some x → ∃ q, x ∈ s.releasedRings rings current q ∧
        ticks = ticksIndex (s.currentQueueNum current)
          ((s.releasedRings rings current q).idxOf x) := by
  obtain ⟨r, hr, hcontext, hwalk, halloc, hlinked⟩ := h.release
  have hnodes : ∀ q ∈ schedulerQueues, ∀ p ∈ r.walk q, ∃ c, r.context p = some c :=
    fun q _ => hwalk ▸ halloc q
  obtain ⟨ticks, hscan, hticks⟩ := schedulerScan_spec (s.currentQueueNum current) hnodes
  rw [Scheduler.ready_eq_eligible hcontext, hwalk] at hscan hticks
  rw [schedulerNextTask, hr]
  change ∃ ticks t, (schedulerScan (s.currentQueueNum current) schedulerQueues r).bind _ = _ ∧ _
  rw [hscan]
  cases hfind : s.selected rings current with
  | none =>
      have hnone := hfind
      rw [Scheduler.selected] at hnone
      rw [hnone]
      refine ⟨none, r, rfl, ?_, hlinked, fun _ => rfl, by simp⟩
      rw [hcontext, Scheduler.selectedContext_none hfind]
  | some x =>
      have hfound := hfind
      rw [Scheduler.selected] at hfound
      rw [hfound]
      obtain ⟨q, -, hx, hindex⟩ := hticks x hfound
      obtain ⟨c, hc⟩ := halloc q x hx
      obtain ⟨node, hnode, rfl⟩ := Scheduler.exists_node hc
      have hlocked := Scheduler.lockFound_some hnode
      refine ⟨ticks, r.lockFound (some x), rfl, ?_, ?_, by simp, ?_⟩
      · rw [Scheduler.lockFound_context hc, Scheduler.selectedContext_some hfind, ← hcontext, hc]
        rfl
      · intro q' hq'
        rw [hlocked]
        exact (hlinked q' hq').setNode hnode rfl rfl rfl
      · intro y hy
        obtain rfl := Option.some.inj hy
        exact ⟨q, hx, hindex⟩

end Callable

/-! ## The selection rule -/

/-- `x` stands behind `before` in the list of queue `q` and can be taken; nothing before it in the
list and nothing in the queues with a lower number can. -/
structure Foremost (s : Scheduler) (rings : Rings) (current : NodePtr) (q : SchedulerQueueNumber)
    (before : List NodePtr) (x : NodePtr) : Prop where
  place : ∃ after, s.releasedRings rings current q = before ++ x :: after
  eligible : s.eligible current x = true
  before : ∀ p ∈ before, s.eligible current p = false
  lower : ∀ q', q'.toNat < q.toNat → ∀ p ∈ s.releasedRings rings current q',
    s.eligible current p = false

theorem Foremost.mem {before : List NodePtr} (h : Foremost s rings current q before x) :
    x ∈ rings q := by
  obtain ⟨after, hplace⟩ := h.place
  have hmem : x ∈ s.releasedRings rings current q := by simp [hplace]
  exact mem_of_mem_releasedRing hmem

private theorem Foremost.idxOf_eq {before : List NodePtr}
    (h : Foremost s rings current q before x) :
    (s.releasedRings rings current q).idxOf x = before.length := by
  obtain ⟨after, hplace⟩ := h.place
  rw [hplace, List.idxOf_append_of_notMem, List.idxOf_cons_self, Nat.add_zero]
  intro hbefore
  have heligible := h.eligible
  rw [h.before x hbefore] at heligible
  cases heligible

private theorem mem_schedulerQueues_iff {a b : List SchedulerQueueNumber}
    (hsplit : schedulerQueues = a ++ q :: b) : q' ∈ a ↔ q'.toNat < q.toNat := by
  have hsorted : schedulerQueues.Pairwise fun q q' => q.toNat < q'.toNat := by decide
  have hmem : q' ∈ schedulerQueues := by cases q' <;> decide
  rw [hsplit, List.pairwise_append, List.pairwise_cons] at hsorted
  rw [hsplit, List.mem_append, List.mem_cons] at hmem
  constructor
  · intro ha
    exact hsorted.2.2 q' ha q List.mem_cons_self
  · intro hlt
    rcases hmem with ha | rfl | hb
    · exact ha
    · exact absurd hlt (lt_irrefl _)
    · exact absurd hlt (hsorted.2.1.1 q' hb).asymm

theorem selected_eq_none_iff : s.selected rings current = none ↔
    ∀ q, ∀ p ∈ s.releasedRings rings current q, s.eligible current p = false := by
  rw [Scheduler.selected, List.find?_eq_none]
  constructor
  · intro h q p hp
    have hq : q ∈ schedulerQueues := by cases q <;> decide
    simpa using h p (List.mem_flatMap.mpr ⟨q, hq, hp⟩)
  · intro h p hp
    obtain ⟨q, -, hq⟩ := List.mem_flatMap.mp hp
    simp [h q p hq]

theorem selected_eq_some_iff : s.selected rings current = some x ↔
    ∃ q before, Foremost s rings current q before x := by
  rw [Scheduler.selected, List.find?_flatMap, List.findSome?_eq_some_iff]
  constructor
  · rintro ⟨a, q, b, hsplit, hfind, hlower⟩
    obtain ⟨heligible, before, after, hplace, hbefore⟩ := List.find?_eq_some_iff_append.mp hfind
    refine ⟨q, before, ⟨after, hplace⟩, heligible, fun p hp => by simpa using hbefore p hp, ?_⟩
    intro q' hlt p hp
    have hnone := hlower q' ((mem_schedulerQueues_iff hsplit).mpr hlt)
    simpa using List.find?_eq_none.mp hnone p hp
  · rintro ⟨q, before, ⟨after, hplace⟩, heligible, hbefore, hlower⟩
    have hq : q ∈ schedulerQueues := by cases q <;> decide
    obtain ⟨a, b, hsplit⟩ := List.append_of_mem hq
    refine ⟨a, q, b, hsplit, ?_, ?_⟩
    · refine List.find?_eq_some_iff_append.mpr ⟨heligible, before, after, hplace, ?_⟩
      exact fun p hp => by simp [hbefore p hp]
    · intro q' hq'
      refine List.find?_eq_none.mpr ?_
      intro p hp
      simp [hlower q' ((mem_schedulerQueues_iff hsplit).mp hq') p hp]

theorem next_task_selects_foremost (h : Ringed s rings)
    (hfree : ∀ q, (s.queues q).flags.getLsbD schedulerFlagLocked = false)
    (hcurrent : current = .null ∨ current = .idle ∨ ∃ q, current ∈ rings q) :
    ∃ next ticks t, schedulerNextTask current s = some (next, ticks, t) ∧
      Ringed t (s.releasedRings rings current) ∧
      (next = .idle ↔
        ∀ q, ∀ p ∈ s.releasedRings rings current q, s.eligible current p = false) ∧
      (next = .idle → t.context = s.releasedContext current) ∧
      (next ≠ .idle → (∃ q before, Foremost s rings current q before next) ∧
        t.context = Function.update (s.releasedContext current) next
          ((s.releasedContext current next).map TaskContext.lock)) := by
  have hcallable : Callable s rings current := by
    apply h.callable
    rcases hcurrent with hcurrent | hcurrent | ⟨q, hq⟩
    · exact .inl hcurrent
    · exact .inr (.inl hcurrent)
    · exact .inr (.inr ⟨q, hq, hfree q⟩)
  obtain ⟨ticks, t, ht, hcontext, hlinked, -⟩ := hcallable.nextTask
  have hringed : Ringed t (s.releasedRings rings current) :=
    ⟨Linked.of_queues fun q => hlinked q (h.queue q),
      fun q p hp => h.task q p (mem_of_mem_releasedRing hp)⟩
  refine ⟨_, ticks, t, ht, hringed, ?_⟩
  cases hselected : s.selected rings current with
  | none =>
      rw [Scheduler.selectedContext_none hselected] at hcontext
      refine ⟨iff_of_true rfl (selected_eq_none_iff.mp hselected), fun _ => hcontext, ?_⟩
      exact fun hne => absurd rfl hne
  | some x =>
      obtain ⟨q, before, hforemost⟩ := selected_eq_some_iff.mp hselected
      have hne : x ≠ .idle := (h.task q x hforemost.mem).2
      rw [Scheduler.selectedContext_some hselected] at hcontext
      refine ⟨iff_of_false hne ?_, fun hidle => absurd hidle hne,
        fun _ => ⟨⟨q, before, hforemost⟩, hcontext⟩⟩
      intro hnone
      rw [← selected_eq_none_iff, hselected] at hnone
      exact absurd hnone (by simp)

/-- Two tasks in the regular queue. -/
def twoTasks : Scheduler :=
  ((schedulerAddTask (.task 1) smallTask .regular (initialScheduler 0x100)).bind
    (schedulerAddTask (.task 2) smallTask .regular)).getD (initialScheduler 0x100)

def twoTasksRings : Rings
  | .regular => [.task 1, .task 2]
  | _ => []

private theorem twoTasks_consistent : Consistent twoTasks twoTasksRings := by
  obtain ⟨s₁, hs₁, h₁, -⟩ := schedulerAddTask_spec (p := .task 1)
    (initialScheduler_consistent 0x100) rfl (by simp) smallTask .regular
  obtain ⟨s₂, hs₂, h₂, -⟩ := schedulerAddTask_spec (p := .task 2) h₁
    (by obtain rfl := Option.some.inj hs₁; rfl) (by simp) smallTask .regular
  have hstate : twoTasks = s₂ := by
    rw [twoTasks, hs₁, Option.bind_some, hs₂, Option.getD_some]
  rw [hstate]
  convert h₂ using 1
  funext q
  cases q <;> rfl

theorem twoTasks_ringed : Ringed twoTasks twoTasksRings :=
  ⟨twoTasks_consistent.toLinked, twoTasks_consistent.task⟩

/-- The first of them runs. -/
def firstRuns : Scheduler := twoTasks.lockFound (some (.task 1))

private theorem firstRuns_consistent : Consistent firstRuns twoTasksRings :=
  twoTasks_consistent.lockFound (by decide : .task 1 ∈ twoTasksRings .regular)

private theorem firstRuns_ringed : Ringed firstRuns twoTasksRings :=
  ⟨firstRuns_consistent.toLinked, firstRuns_consistent.task⟩

/-- The task that ran is unlocked and goes to the end of its queue, and the other one is taken. -/
theorem next_task_selects_foremost_two :
    ∃ t, schedulerNextTask (.task 1) firstRuns = some (.task 2, some 0, t) ∧
      Ringed t (Function.update twoTasksRings .regular [.task 2, .task 1]) ∧
      ∃ q before, Foremost firstRuns twoTasksRings (.task 1) q before (.task 2) := by
  have hcurrent : .task 1 ∈ twoTasksRings .regular := by decide
  obtain ⟨next, ticks, t, ht, hringed, -, -, hforemost⟩ := next_task_selects_foremost
    firstRuns_ringed firstRuns_consistent.unlocked (.inr (.inr ⟨_, hcurrent⟩))
  have hanswer : (schedulerNextTask (.task 1) firstRuns).map (fun answer => (answer.1, answer.2.1)) =
      some (.task 2, some 0) := rfl
  rw [ht, Option.map_some, Option.some.injEq, Prod.mk.injEq] at hanswer
  obtain ⟨rfl, rfl⟩ := hanswer
  have hrings : firstRuns.releasedRings twoTasksRings (.task 1) =
      Function.update twoTasksRings .regular [.task 2, .task 1] := by
    funext q
    cases q <;> rfl
  exact ⟨t, ht, hrings ▸ hringed, (hforemost (by decide)).1⟩

/-! ## The time slice -/

/-- `s_ticks_table`. -/
def sTicksTable : List Nat := [0x100000, 0x200000, 0x400000]

/-- A task of another queue than that of `current` gets the time of its queue, and the table is
never read beyond its end. -/
def SliceFollows (rings : Rings) (current next : NodePtr) (ticks : Option Nat) : Prop :=
  (∀ q, next ∈ rings q → current ∉ rings q →
    (ticks.bind fun j => sTicksTable[j]?) = sTicksTable[q.toNat]?) ∧
  ∀ j ∈ ticks, j < sTicksTable.length

/-- The position of a task in its list, at which the table is read, happens to be the number of its
queue; in the queue of `current` it only has to be an index of the table. -/
def SlicePosition (s : Scheduler) (rings : Rings) (current : NodePtr) : Prop :=
  ∀ q before x, Foremost s rings current q before x →
    if current ∈ rings q then before.length < sTicksTable.length else before.length = q.toNat

private theorem sTicksTable_eq_iff {j : Nat} :
    sTicksTable[j]? = sTicksTable[q.toNat]? ↔ j = q.toNat := by
  constructor
  · intro h
    match j with
    | 0 | 1 | 2 => cases q <;> first | rfl | exact absurd h (by decide)
    | j + 3 =>
        have hnone : sTicksTable[j + 3]? = none := rfl
        rw [hnone] at h
        cases q <;> exact absurd h (by decide)
  · rintro rfl
    rfl

private theorem toNat_lt_length : q.toNat < sTicksTable.length := by cases q <;> decide

theorem toNat_injective (h : q.toNat = q'.toNat) : q = q' := by
  cases q <;> cases q' <;> first | rfl | exact absurd h (by decide)

private theorem Callable.currentQueueNum_ne (h : Callable s rings current)
    (hq : current ∉ rings q) : s.currentQueueNum current ≠ q.toNat := by
  rw [Scheduler.currentQueueNum]
  split
  · cases q <;> decide
  · rename_i hnone
    rcases h.current with hcurrent | hcurrent | ⟨q', hq', -⟩
    · exact absurd (.inl hcurrent) hnone
    · exact absurd (.inr hcurrent) hnone
    · obtain ⟨c, hc, hqueue⟩ := h.owner q' current hq'
      rw [hc, Option.map_some, Option.getD_some, hqueue]
      intro heq
      exact hq (toNat_injective heq ▸ hq')

private theorem Callable.currentQueueNum_eq (h : Callable s rings current)
    (hq : current ∈ rings q) : s.currentQueueNum current = q.toNat := by
  have hnone : ¬(current = .null ∨ current = .idle) := fun hnone => h.notMem hnone hq
  obtain ⟨c, hc, hqueue⟩ := h.owner q current hq
  rw [Scheduler.currentQueueNum, if_neg hnone, hc, Option.map_some, Option.getD_some, hqueue]

private theorem Callable.sliceFollows_iff (h : Callable s rings current) {before : List NodePtr}
    (hx : Foremost s rings current q before x) :
    SliceFollows rings current x (ticksIndex (s.currentQueueNum current) before.length) ↔
      if current ∈ rings q then before.length < sTicksTable.length
      else before.length = q.toNat := by
  have hqueue : ∀ q', x ∈ rings q' → q' = q := fun q' hq' => h.separate hq' hx.mem
  by_cases hq : current ∈ rings q
  · rw [if_pos hq, ticksIndex, h.currentQueueNum_eq hq, SliceFollows]
    constructor
    · intro hslice
      by_cases heq : q.toNat = before.length
      · rw [← heq]
        exact toNat_lt_length
      · exact hslice.2 _ (by rw [if_pos heq]; rfl)
    · intro hlt
      refine ⟨fun q' hx' hq' => absurd (hqueue q' hx' ▸ hq) hq', ?_⟩
      intro j hj
      split at hj
      · obtain rfl := Option.some.inj hj
        exact hlt
      · simp at hj
  · rw [if_neg hq, SliceFollows]
    constructor
    · intro hslice
      have heq := hslice.1 q hx.mem hq
      rw [ticksIndex] at heq
      split at heq
      · exact sTicksTable_eq_iff.mp heq
      · cases q <;> exact absurd heq (by decide)
    · intro heq
      rw [ticksIndex, heq, if_pos (h.currentQueueNum_ne hq)]
      refine ⟨?_, ?_⟩
      · intro q' hx' _
        rw [hqueue q' hx', Option.bind_some]
      · intro j hj
        obtain rfl := Option.some.inj hj
        exact toNat_lt_length

theorem time_slice_follows_iff (h : Ringed s rings)
    (hcurrent : current = .null ∨ current = .idle ∨ ∃ q, current ∈ rings q ∧
      (s.queues q).flags.getLsbD schedulerFlagLocked = false) :
    ∃ next ticks t, schedulerNextTask current s = some (next, ticks, t) ∧
      (SliceFollows rings current next ticks ↔ SlicePosition s rings current) := by
  have hcallable := h.callable hcurrent
  obtain ⟨ticks, t, ht, -, -, hnone, hsome⟩ := hcallable.nextTask
  refine ⟨_, ticks, t, ht, ?_⟩
  cases hselected : s.selected rings current with
  | none =>
      rw [hnone hselected, Option.getD_none]
      apply iff_of_true
      · exact ⟨fun q hidle => absurd rfl (h.task q _ hidle).2, by simp⟩
      · intro q before x hx
        rw [selected_eq_some_iff.mpr ⟨q, before, hx⟩] at hselected
        exact absurd hselected (by simp)
  | some x =>
      obtain ⟨q, before, hforemost⟩ := selected_eq_some_iff.mp hselected
      obtain ⟨q', hx, hticks⟩ := hsome x hselected
      obtain rfl := h.separate hforemost.mem (mem_of_mem_releasedRing hx)
      rw [Option.getD_some, hticks, hforemost.idxOf_eq, hcallable.sliceFollows_iff hforemost]
      constructor
      · intro hposition q' before' y hy
        -- Any other description of the first task is about this one, at this place.
        have heq := selected_eq_some_iff.mpr ⟨q', before', hy⟩
        rw [hselected, Option.some.injEq] at heq
        subst y
        obtain rfl := h.separate hforemost.mem hy.mem
        rwa [← hy.idxOf_eq, hforemost.idxOf_eq]
      · intro hposition
        exact hposition q before x hforemost

/-- The second task of the regular queue gets the time of that queue. -/
theorem time_slice_follows_iff_two :
    ∃ t, schedulerNextTask .null firstRuns = some (.task 2, some 1, t) ∧
      SliceFollows twoTasksRings .null (.task 2) (some 1) ∧
      SlicePosition firstRuns twoTasksRings .null := by
  obtain ⟨next, ticks, t, ht, hslice⟩ := time_slice_follows_iff firstRuns_ringed (.inl rfl)
  have hanswer : (schedulerNextTask .null firstRuns).map (fun answer => (answer.1, answer.2.1)) =
      some (.task 2, some 1) := rfl
  rw [ht, Option.map_some, Option.some.injEq, Prod.mk.injEq] at hanswer
  obtain ⟨rfl, rfl⟩ := hanswer
  have hfollows : SliceFollows twoTasksRings .null (.task 2) (some 1) := by
    refine ⟨?_, by decide⟩
    intro q hq _
    cases q
    · exact absurd hq (by decide)
    · rfl
    · exact absurd hq (by decide)
  exact ⟨t, ht, hfollows, hslice.mp hfollows⟩

/-- The first task of the regular queue gets the time of the priority queue. -/
theorem time_slice_of_other_queue :
    Ringed twoTasks twoTasksRings ∧ ∃ t, schedulerNextTask .null twoTasks =
      some (.task 1, some 0, t) ∧ ¬SliceFollows twoTasksRings .null (.task 1) (some 0) := by
  refine ⟨twoTasks_ringed, _, rfl, ?_⟩
  intro hslice
  exact absurd (hslice.1 .regular (by decide) (by decide)) (by decide)

end Selection

end VisualOS.Kernel
