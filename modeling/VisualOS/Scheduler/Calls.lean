import VisualOS.Scheduler.Rings

/-!
# The scheduler's calls

What `scheduler_add_task` and `scheduler_next_task` do to the three lists, each call running
to its end.
-/

namespace VisualOS.Kernel

open Framework

/-- The state between calls: no queue is locked, and the nodes in the lists are all the tasks
there are. -/
structure Consistent (s : Scheduler) (rings : Rings) : Prop extends Linked s rings where
  unlocked : ∀ q, (s.queues q).flags.getLsbD schedulerFlagLocked = false
  task : ∀ q, ∀ p ∈ rings q, p ≠ .null ∧ p ≠ .idle
  covered : ∀ p c, s.context p = some c → p ≠ .idle → p ∈ rings c.queueNum
  idle : ∃ c, s.context .idle = some c

theorem initialScheduler_context {schedulerIdle : BitVec 64} {p : NodePtr} {c : TaskContext}
    (hc : (initialScheduler schedulerIdle).context p = some c) : p = .idle := by
  by_contra hp
  simp [initialScheduler, schedulerInit, Scheduler.context, hp] at hc

theorem initialScheduler_consistent (schedulerIdle : BitVec 64) :
    Consistent (initialScheduler schedulerIdle) (fun _ => []) := by
  refine ⟨⟨fun _ => IsRing.nil _ _, fun _ => rfl, fun _ => rfl, by simp⟩,
    fun _ => BitVec.getLsbD_zero, by simp, ?_, ⟨_, rfl⟩⟩
  exact fun p c hc hp => absurd (initialScheduler_context hc) hp

section Calls

variable {s t : Scheduler} {rings : Rings} {p : NodePtr} {q : SchedulerQueueNumber}

/-- The state with the lock of a queue taken. -/
def Scheduler.lockQueue (s : Scheduler) (q : SchedulerQueueNumber) : Scheduler :=
  s.setQueue q { s.queues q with
    flags := (s.queues q).flags ||| BitVec.twoPow 64 schedulerFlagLocked }

theorem schedulerQueueSpinlock_free (h : (s.queues q).flags.getLsbD schedulerFlagLocked = false) :
    schedulerQueueSpinlock q s = some (s.lockQueue q) := by
  rw [schedulerQueueSpinlock, atomicSpinlock_free h]
  rfl

private theorem schedulerQueueUnlock_flags {q' : SchedulerQueueNumber}
    (hfree : (s.queues q).flags.getLsbD schedulerFlagLocked = false)
    (ht : (t.queues q').flags = ((s.lockQueue q).queues q').flags) :
    ((schedulerQueueUnlock q t).queues q').flags = (s.queues q').flags := by
  rw [Scheduler.lockQueue, Scheduler.setQueue_queues] at ht
  rw [schedulerQueueUnlock, Scheduler.setQueue_queues]
  rcases eq_or_ne q' q with rfl | hne
  · rw [Function.update_self] at ht ⊢
    rw [ht]
    exact atomicUnlock_taken hfree
  · rw [Function.update_of_ne hne] at ht ⊢
    exact ht

private theorem Consistent.update {l : List NodePtr} (h : Consistent s rings)
    (hlinked : Linked t (Function.update rings q l))
    (hflags : ∀ q', (t.queues q').flags = (s.queues q').flags)
    (htask : ∀ p ∈ l, p ≠ .null ∧ p ≠ .idle)
    (hcontext : ∀ p c, t.context p = some c → p ≠ .idle →
      if c.queueNum = q then p ∈ l else p ∈ rings c.queueNum)
    (hidle : t.context .idle = s.context .idle) :
    Consistent t (Function.update rings q l) := by
  refine ⟨hlinked, ?_, ?_, ?_, ?_⟩
  · intro q'
    rw [hflags]
    exact h.unlocked q'
  · intro q' p' hp'
    rcases eq_or_ne q' q with rfl | hne
    · rw [Function.update_self] at hp'
      exact htask p' hp'
    · rw [Function.update_of_ne hne] at hp'
      exact h.task q' p' hp'
  · intro p' c hc hp'
    have := hcontext p' c hc hp'
    rcases eq_or_ne c.queueNum q with hq | hq
    · rw [if_pos hq] at this
      rwa [hq, Function.update_self]
    · rw [if_neg hq] at this
      rwa [Function.update_of_ne hq]
  · obtain ⟨c, hc⟩ := h.idle
    exact ⟨c, hidle.trans hc⟩

theorem Consistent.context_null (h : Consistent s rings) : s.context .null = none := by
  cases hc : s.context .null with
  | none => rfl
  | some c => exact absurd rfl (h.task _ _ (h.covered _ c hc (by simp))).1

theorem Consistent.setNode {node node' : SchedulerNode} (h : Consistent s rings)
    (hnode : s.nodes p = some node) (hqueueNum : node'.queueNum = node.queueNum)
    (hnext : node'.next = node.next) (hprevious : node'.previous = node.previous) :
    Consistent (s.setNode p node') rings := by
  refine ⟨h.toLinked.setNode hnode hqueueNum hnext hprevious, h.unlocked, h.task, ?_, ?_⟩
  · intro p' c hc hp'
    rw [Scheduler.setNode_context] at hc
    rcases Scheduler.update_context_cases hc with ⟨rfl, rfl⟩ | ⟨-, hc⟩
    · have hcovered := h.covered p' _ (Scheduler.context_of_nodes hnode) hp'
      rw [show node'.context.queueNum = node.context.queueNum from hqueueNum]
      exact hcovered
    · exact h.covered p' c hc hp'
  · rw [Scheduler.setNode_context]
    rcases eq_or_ne p .idle with rfl | hne
    · exact ⟨node'.context, Function.update_self ..⟩
    · rw [Function.update_of_ne hne.symm]
      exact h.idle

theorem schedulerAddTask_spec (h : Consistent s rings) (hfresh : s.context p = none)
    (hp : p ≠ .null ∧ p ≠ .idle) (state : SchedulerTaskInitialState)
    (q : SchedulerQueueNumber) :
    ∃ t, schedulerAddTask p state q s = some t ∧
      Consistent t (Function.update rings q (rings q ++ [p])) ∧
      t.context = Function.update s.context p (some ⟨initialFrame state, 0, q⟩) := by
  have hnew : ∀ q', p ∉ rings q' := by
    intro q' hmem
    obtain ⟨c, hc, -⟩ := h.owner q' p hmem
    rw [hfresh] at hc
    exact absurd hc (by simp)
  let s₁ := s.setNode p ⟨initialFrame state, 0, q, .null, .null⟩
  have hlinked₁ : Linked s₁ rings := by
    refine h.toLinked.congr rfl ?_
    intro q' p' hp'
    have hne : p' ≠ p := fun heq => hnew q' (heq ▸ hp')
    simp [s₁, Scheduler.setNode, hne]
  have hfree₁ : (s₁.queues q).flags.getLsbD schedulerFlagLocked = false := h.unlocked q
  have hlinked₂ : Linked (s₁.lockQueue q) rings := hlinked₁.setQueue_flags q _
  obtain ⟨t, ht, hlinked, hcontext, hflags⟩ := schedulerEnqueueTask_spec hlinked₂
    (show (s₁.lockQueue q).nodes p = _ from s.setNode_nodes p _) hnew
  have hcontext' : t.context = Function.update s.context p (some ⟨initialFrame state, 0, q⟩) := by
    rw [hcontext]
    exact s.setNode_context p _
  refine ⟨schedulerQueueUnlock q t, ?_, ?_, hcontext'⟩
  · change (schedulerQueueSpinlock q s₁).bind _ = _
    rw [schedulerQueueSpinlock_free hfree₁]
    change (schedulerEnqueueTask p (s₁.lockQueue q)).bind _ = _
    rw [ht]
    rfl
  · refine h.update (hlinked.setQueue_flags q _)
      (fun q' => schedulerQueueUnlock_flags hfree₁ (hflags q'))
      ?_ ?_ ?_
    · intro p' hp'
      rcases List.mem_append.mp hp' with hp' | hp'
      · exact h.task q p' hp'
      · rw [List.mem_singleton.mp hp']
        exact hp
    · intro p' c hc hidle
      rw [show (schedulerQueueUnlock q t).context = t.context from rfl, hcontext'] at hc
      rcases Scheduler.update_context_cases hc with ⟨rfl, rfl⟩ | ⟨-, hc⟩
      · simp
      · have hmem := h.covered p' c hc hidle
        split
        · rename_i hq
          rw [hq] at hmem
          simp [hmem]
        · exact hmem
    · rw [show (schedulerQueueUnlock q t).context = t.context from rfl, hcontext',
        Function.update_of_ne hp.2.symm]

theorem Consistent.addTask {address : Nat} {state : SchedulerTaskInitialState}
    (h : Consistent s rings) (hfresh : s.nodes (.task address) = none)
    (hadd : schedulerAddTask (.task address) state q s = some t) :
    (∀ q', .task address ∉ rings q') ∧
      Consistent t (Function.update rings q (rings q ++ [.task address])) ∧
      t.context = Function.update s.context (.task address) (some ⟨initialFrame state, 0, q⟩) := by
  have hnone : s.context (.task address) = none := by
    rw [Scheduler.context, hfresh]
    rfl
  obtain ⟨t', ht', hconsistent, hcontext⟩ := schedulerAddTask_spec h hnone (by simp) state q
  rw [hadd, Option.some.injEq] at ht'
  subst t'
  refine ⟨?_, hconsistent, hcontext⟩
  intro q' hmem
  obtain ⟨c, hc, -⟩ := h.owner q' _ hmem
  rw [hnone] at hc
  exact absurd hc (by simp)

theorem Consistent.finish (h : Consistent s rings)
    (hfinish : s.modifyNode p (fun node =>
      { node with flags := node.flags ||| BitVec.twoPow 64 schedulerFlagFinished }) = some t) :
    ∃ c, s.context p = some c ∧ Consistent t rings ∧
      t.context = Function.update s.context p (some c.finish) := by
  rw [Scheduler.modifyNode] at hfinish
  cases hnode : s.nodes p with
  | none => simp [hnode] at hfinish
  | some node =>
      rw [hnode] at hfinish
      obtain rfl := Option.some.inj hfinish
      exact ⟨node.context, Scheduler.context_of_nodes hnode, h.setNode hnode rfl rfl rfl,
        Scheduler.setNode_context ..⟩

/-! ## Releasing the current task -/

/-- What `scheduler_next_task` does with the task that ran: a finished one is dropped from its
list, any other is unlocked and goes to the back. -/
inductive TaskReleased (s : Scheduler) (rings : Rings) (t : Scheduler) : NodePtr → Rings → Prop
  | none {p : NodePtr} : p = .null ∨ p = .idle → t = s → TaskReleased s rings t p rings
  | finished {p : NodePtr} {q : SchedulerQueueNumber} {a b : List NodePtr} {c : TaskContext} :
      rings q = a ++ p :: b → s.context p = some c → c.finished = true →
      t.context = Function.update s.context p none →
      TaskReleased s rings t p (Function.update rings q (b ++ a))
  | unlocked {p : NodePtr} {q : SchedulerQueueNumber} {a b : List NodePtr} {c : TaskContext} :
      rings q = a ++ p :: b → s.context p = some c → c.finished = false →
      t.context = Function.update s.context p (some c.unlock) →
      TaskReleased s rings t p (Function.update rings q (b ++ a ++ [p]))

theorem TaskReleased.context_ne {rings' : Rings} {p' : NodePtr}
    (h : TaskReleased s rings t p rings') (hne : p' ≠ p) : t.context p' = s.context p' := by
  cases h with
  | none _ ht => rw [ht]
  | finished _ _ _ hcontext => rw [hcontext, Function.update_of_ne hne]
  | unlocked _ _ _ hcontext => rw [hcontext, Function.update_of_ne hne]

theorem TaskReleased.context_self {rings' : Rings} {c : TaskContext}
    (h : TaskReleased s rings t p rings') (hnull : s.context .null = .none) (hidle : p ≠ .idle)
    (hc : t.context p = some c) :
    ∃ c', s.context p = some c' ∧ c'.finished = false ∧ c = c'.unlock := by
  cases h with
  | none hnone ht =>
      rw [ht, hnone.resolve_right hidle, hnull] at hc
      exact absurd hc (by simp)
  | finished _ _ _ hcontext => simp [hcontext] at hc
  | unlocked _ hc' hfinished hcontext =>
      rw [hcontext, Function.update_self, Option.some.injEq] at hc
      exact ⟨_, hc', hfinished, hc.symm⟩

private theorem schedulerCheckLock_eq {node : SchedulerNode} (hnode : s.nodes p = some node) :
    schedulerCheckLock p s = some (s.setNode p { node with flags := node.context.lock.flags }) := by
  rw [schedulerCheckLock, hnode]
  change (if node.context.locked = true then _ else _) = _
  by_cases hlocked : node.context.locked = true
  · have hself : s.setNode p node = s := by
      rw [Scheduler.setNode, Function.update_eq_self_iff.mpr hnode.symm]
    rw [if_pos hlocked, TaskContext.lock_of_locked hlocked]
    exact congrArg some hself.symm
  · rw [if_neg hlocked, schedulerNodeLock, hnode]
    rfl

private theorem schedulerRetire_spec {node : SchedulerNode} {l : List NodePtr}
    (h : LinkedQueue s q (l ++ [p])) (htask : p ≠ .null ∧ p ≠ .idle)
    (hnode : s.nodes p = some node) :
    ∃ t, schedulerRetire p s = some t ∧
      LinkedQueue t q (if node.context.finished then l else l ++ [p]) ∧
      Confined s q (l ++ [p]) t ∧ (t.queues q).flags = (s.queues q).flags ∧
      t.context = Function.update s.context p
        (if node.context.finished then none else some node.context.unlock) := by
  rw [schedulerRetire, hnode]
  change ∃ t, (if node.context.finished = true then _ else _) = _ ∧ _
  by_cases hfinished : node.context.finished = true
  · rw [if_pos hfinished, if_pos hfinished, if_pos hfinished]
    obtain ⟨t, ht, hunlinked, hcontext⟩ := schedulerFreeTask_spec h htask
    have hnew : ∀ p' ∈ l, p' ≠ p := by
      have := h.ring.nodup
      rw [List.nodup_append_comm, List.singleton_append, List.nodup_cons] at this
      exact fun p' hp' heq => this.1 (heq ▸ hp')
    refine ⟨t, ht, ⟨hunlinked.ring, ?_, ?_, ?_⟩, hunlinked.toConfined, ?_, hcontext⟩
    · rw [hunlinked.queue, List.nil_append]
      dsimp only
      rw [h.first]
      cases l <;> rfl
    · rw [hunlinked.queue, List.nil_append]
    · intro p' hp'
      rw [hcontext, Function.update_of_ne (hnew p' hp')]
      exact h.owner p' (List.mem_append_left _ hp')
    · rw [hunlinked.queue]
  · rw [if_neg hfinished, if_neg hfinished, if_neg hfinished]
    let node' : SchedulerNode := { node with flags := node.context.unlock.flags }
    refine ⟨s.setNode p node', ?_, h.setNode hnode rfl rfl rfl, ?_, rfl,
      s.setNode_context p node'⟩
    · rw [schedulerNodeUnlock, hnode]
      rfl
    · exact (Confined.refl s q _).setNode (by simp) node'

theorem schedulerRelease_queue {node : SchedulerNode} {a b : List NodePtr}
    (h : LinkedQueue s q (a ++ p :: b))
    (hfree : (s.queues q).flags.getLsbD schedulerFlagLocked = false)
    (htask : p ≠ .null ∧ p ≠ .idle) (hnode : s.nodes p = some node) :
    ∃ t, schedulerRelease p s = some (q.toNat, t) ∧
      LinkedQueue t q (if node.context.finished then b ++ a else b ++ a ++ [p]) ∧
      Confined s q (a ++ p :: b) t ∧ (t.queues q).flags = (s.queues q).flags ∧
      t.context = Function.update s.context p
        (if node.context.finished then none else some node.context.unlock) := by
  have hmem : p ∈ a ++ p :: b := by simp
  have hq : node.queueNum = q := by
    obtain ⟨node', hnode', hq⟩ := h.allocated hmem
    rw [hnode, Option.some.injEq] at hnode'
    rw [hnode', hq]
  -- The states after taking the task's and the queue's lock, and after the rotation.
  let node₁ : SchedulerNode := { node with flags := node.context.lock.flags }
  let s₁ := s.setNode p node₁
  have hlinked₁ : LinkedQueue s₁ q (a ++ p :: b) := h.setNode hnode rfl rfl rfl
  have hfree₁ : (s₁.queues q).flags.getLsbD schedulerFlagLocked = false := hfree
  let s₂ := s₁.lockQueue q
  have hlinked₂ : LinkedQueue s₂ q (a ++ p :: b) := hlinked₁.setQueue_flags q _
  have hnode₂ : s₂.nodes p = some node₁ := s.setNode_nodes p node₁
  let s₃ := s₂.setQueue q { s₂.queues q with first := node₁.next }
  have hlinked₃ : LinkedQueue s₃ q (b ++ a ++ [p]) := by
    have := hlinked₂.rotate
    rwa [Scheduler.next_of_nodes hnode₂] at this
  have hconfined₃ : Confined s q (a ++ p :: b) s₃ :=
    (((Confined.refl s q _).setNode hmem node₁).setQueue _).setQueue _
  have hflags₃ : (s₃.queues q).flags = (s₂.queues q).flags := by simp [s₃]
  obtain ⟨t, ht, hlinked, hconfined, hflags, hcontext⟩ :=
    schedulerRetire_spec hlinked₃ htask hnode₂
  rw [show node₁.context = node.context.lock from rfl, TaskContext.lock_finished] at hlinked hcontext
  rw [TaskContext.unlock_lock, show s₃.context = Function.update s.context p (some _) from
    s.setNode_context p node₁, Function.update_idem] at hcontext
  have hsame : ∀ p', p' ∉ a ++ p :: b → p' ∉ b ++ a ++ [p] := by
    intro p' hp'
    simp only [List.mem_append, List.mem_cons, List.not_mem_nil, or_false] at hp' ⊢
    tauto
  have hconfined' : Confined s₃ q (a ++ p :: b) t :=
    ⟨hconfined.queues, fun p' hp' => hconfined.next p' (hsame p' hp'),
      fun p' hp' => hconfined.previous p' (hsame p' hp')⟩
  refine ⟨schedulerQueueUnlock q t, ?_, hlinked.setQueue_flags q _,
    (hconfined₃.trans hconfined').setQueue _, ?_, hcontext⟩
  · rw [schedulerRelease, if_neg (by simp [htask]), schedulerCheckLock_eq hnode]
    change (s₁.nodes p).bind _ = _
    rw [show s₁.nodes p = some node₁ from hnode₂]
    change (schedulerQueueSpinlock node₁.queueNum s₁).bind _ = _
    rw [show node₁.queueNum = q from hq, schedulerQueueSpinlock_free hfree₁]
    change (s₂.loadNext p).bind _ = _
    rw [show s₂.loadNext p = some node₁.next by rw [Scheduler.loadNext, hnode₂]; rfl]
    change (schedulerRetire p s₃).bind _ = _
    rw [ht]
    rfl
  · exact schedulerQueueUnlock_flags hfree₁ (hflags.trans hflags₃)

private theorem schedulerRelease_linked {node : SchedulerNode} {a b : List NodePtr}
    (h : Consistent s rings) (htask : p ≠ .null ∧ p ≠ .idle) (hl : rings q = a ++ p :: b)
    (hnode : s.nodes p = some node) :
    ∃ t, schedulerRelease p s = some (q.toNat, t) ∧
      Linked t (Function.update rings q
        (if node.context.finished then b ++ a else b ++ a ++ [p])) ∧
      (∀ q', (t.queues q').flags = (s.queues q').flags) ∧
      t.context = Function.update s.context p
        (if node.context.finished then none else some node.context.unlock) := by
  obtain ⟨t, ht, hlinked, hconfined, hflags, hcontext⟩ :=
    schedulerRelease_queue (hl ▸ h.queue q) (h.unlocked q) htask hnode
  rw [← hl] at hconfined
  refine ⟨t, ht, h.toLinked.confined hconfined ?_ hlinked, ?_, hcontext⟩
  · intro p' hp'
    have hne : p' ≠ p := by
      rintro rfl
      simp [hl] at hp'
    rw [hcontext, Function.update_of_ne hne]
  · intro q'
    rcases eq_or_ne q' q with rfl | hne
    · exact hflags
    · rw [hconfined.queues q' hne]

private theorem schedulerRelease_spec (h : Consistent s rings)
    (hp : p = .null ∨ p = .idle ∨ p ∈ rings q) :
    ∃ n t rings', schedulerRelease p s = some (n, t) ∧ Consistent t rings' ∧
      TaskReleased s rings t p rings' := by
  by_cases hnone : p = .null ∨ p = .idle
  · exact ⟨2 ^ 64 - 1, s, rings, if_pos hnone, h, .none hnone rfl⟩
  have hmem : p ∈ rings q := by
    rcases hp with hp | hp | hp
    · exact absurd (.inl hp) hnone
    · exact absurd (.inr hp) hnone
    · exact hp
  obtain ⟨a, b, hl⟩ := List.append_of_mem hmem
  obtain ⟨node, hnode, hq⟩ := h.allocated hmem
  have hcontext := Scheduler.context_of_nodes hnode
  have htask := h.task q p hmem
  obtain ⟨t, ht, hlinked, hflags, hcontext'⟩ :=
    schedulerRelease_linked h htask hl hnode
  have hsub : ∀ p' ∈ b ++ a ++ [p], p' ∈ rings q := by
    intro p' hp'
    rw [hl]
    simp only [List.mem_append, List.mem_cons] at hp' ⊢
    tauto
  have hidle : t.context .idle = s.context .idle := by
    rw [hcontext', Function.update_of_ne htask.2.symm]
  -- Every other task stays in its list.
  have hother : ∀ p' c, s.context p' = some c → p' ≠ .idle → p' ≠ p →
      if c.queueNum = q then p' ∈ b ++ a else p' ∈ rings c.queueNum := by
    intro p' c hc hp' hne
    have hcovered := h.covered p' c hc hp'
    split
    · rename_i hcq
      rw [hcq, hl] at hcovered
      simp only [List.mem_append, List.mem_cons, hne, false_or] at hcovered ⊢
      exact hcovered.symm
    · exact hcovered
  by_cases hfinished : node.context.finished = true
  · rw [if_pos hfinished] at hlinked hcontext'
    refine ⟨q.toNat, t, _, ht, h.update hlinked hflags ?_ ?_ hidle,
      .finished hl hcontext hfinished hcontext'⟩
    · exact fun p' hp' => h.task q p' (hsub p' (List.mem_append_left _ hp'))
    · intro p' c hc hp'
      rw [hcontext'] at hc
      rcases eq_or_ne p' p with rfl | hne
      · simp at hc
      · rw [Function.update_of_ne hne] at hc
        exact hother p' c hc hp' hne
  · rw [if_neg hfinished] at hlinked hcontext'
    refine ⟨q.toNat, t, _, ht, h.update hlinked hflags ?_ ?_ hidle,
      .unlocked hl hcontext (by simpa using hfinished) hcontext'⟩
    · exact fun p' hp' => h.task q p' (hsub p' hp')
    · intro p' c hc hp'
      rw [hcontext'] at hc
      rcases Scheduler.update_context_cases hc with ⟨rfl, rfl⟩ | ⟨hne, hc⟩
      · rw [if_pos (show node.context.unlock.queueNum = q from hq)]
        simp
      · have := hother p' c hc hp' hne
        split
        · rename_i hcq
          rw [if_pos hcq] at this
          exact List.mem_append_left _ this
        · rename_i hcq
          rwa [if_neg hcq] at this

/-! ## Finding the next task -/

namespace Scheduler

/-- The node is neither locked nor finished. -/
def ready (s : Scheduler) (p : NodePtr) : Bool :=
  match s.context p with
  | some c => !c.locked && !c.finished
  | none => false

/-- The state in which the task found, if any, is locked. -/
def lockFound (s : Scheduler) : Option NodePtr → Scheduler
  | none => s
  | some p =>
      match s.nodes p with
      | some node => s.setNode p { node with flags := node.context.lock.flags }
      | none => s

theorem ready_iff {c : TaskContext} (hc : s.context p = some c) :
    s.ready p = true ↔ c.locked = false ∧ c.finished = false := by
  simp [ready, hc]

theorem lockFound_some {node : SchedulerNode} (h : s.nodes p = some node) :
    s.lockFound (some p) = s.setNode p { node with flags := node.context.lock.flags } := by
  simp [lockFound, h]

theorem lockFound_context {c : TaskContext} (hc : s.context p = some c) :
    (s.lockFound (some p)).context = Function.update s.context p (some c.lock) := by
  obtain ⟨node, hnode, rfl⟩ := exists_node hc
  rw [lockFound_some hnode]
  exact s.setNode_context p _

end Scheduler

theorem Consistent.lockFound (h : Consistent s rings) (hp : p ∈ rings q) :
    Consistent (s.lockFound (some p)) rings := by
  obtain ⟨node, hnode, -⟩ := h.allocated hp
  rw [Scheduler.lockFound_some hnode]
  exact h.setNode hnode rfl rfl rfl

/-- What is looked up in `s_ticks_table` for a task found at position `j` of its list. -/
def ticksIndex (currentQueueNum j : Nat) : Option Nat :=
  if currentQueueNum ≠ j then some j else none

/-- Scanning a stretch of a ring locks its first task that is ready. -/
theorem schedulerScanQueue_spec (n : Nat) {m : List NodePtr}
    (hchain : m.IsChain fun x y => s.next x = y) (halloc : ∀ p ∈ m, ∃ c, s.context p = some c)
    (j : Nat) (hp : ∀ x ∈ m.head?, p = x) :
    schedulerScanQueue n m.length j p s =
      some ((m.find? s.ready).map fun x => (x, ticksIndex n (j + m.idxOf x)),
        s.lockFound (m.find? s.ready)) := by
  induction m generalizing j p with
  | nil => rfl
  | cons x m ih =>
      obtain rfl := hp x rfl
      obtain ⟨c, hc⟩ := halloc p List.mem_cons_self
      obtain ⟨node, hnode, rfl⟩ := Scheduler.exists_node hc
      rw [List.length_cons, schedulerScanQueue, hnode]
      by_cases hready : s.ready p = true
      · have hpass := (Scheduler.ready_iff hc).mp hready
        rw [List.find?_cons_of_pos hready, Scheduler.lockFound_some hnode]
        change (if node.context.flags &&& passFlags = 0 then _ else _) = _
        rw [if_pos ((TaskContext.passFlags_eq_zero _).mpr hpass), schedulerNodeLock, hnode]
        change (if (!node.context.locked) = true then _ else _) = _
        rw [if_pos (by simp [hpass.1]), Option.map_some, List.idxOf_cons_self, Nat.add_zero]
        rfl
      · have hpass : ¬node.context.flags &&& passFlags = 0 := fun h =>
          hready ((Scheduler.ready_iff hc).mpr ((TaskContext.passFlags_eq_zero _).mp h))
        have hnext : ∀ y ∈ m.head?, node.next = y := by
          intro y hy
          cases m with
          | nil => simp at hy
          | cons z m =>
              rw [List.head?_cons, Option.mem_some_iff] at hy
              rw [← Scheduler.next_of_nodes hnode, ← hy]
              exact (List.isChain_cons_cons.mp hchain).1
        have hrest := ih hchain.tail (fun p hp => halloc p (List.mem_cons_of_mem _ hp)) (j + 1) hnext
        rw [List.find?_cons_of_neg hready]
        change (if node.context.flags &&& passFlags = 0 then _ else _) = _
        rw [if_neg hpass]
        refine hrest.trans ?_
        cases hfind : m.find? s.ready with
        | none => rfl
        | some y =>
            have hne : p ≠ y := by
              rintro rfl
              exact hready (List.find?_some hfind)
            rw [Option.map_some, Option.map_some, List.idxOf_cons_ne m hne, Nat.add_assoc,
              Nat.add_comm 1, Nat.succ_eq_add_one]

private theorem Scheduler.lists_isChain (s : Scheduler) (q : SchedulerQueueNumber) :
    (s.lists q).IsChain fun x y => s.next x = y := by
  rw [List.isChain_iff_getElem]
  intro i hi
  simp only [lists, List.getElem_map, List.getElem_range]
  exact (Function.iterate_succ_apply' s.next i _).symm

private theorem Scheduler.head_lists {x : NodePtr} (hx : x ∈ (s.lists q).head?) :
    (s.queues q).first = x := by
  rw [lists] at hx
  cases hnum : (s.queues q).num with
  | zero => simp [hnum] at hx
  | succ n => simpa [hnum, List.range_succ_eq_map] using hx

theorem LinkedQueue.walk_eq {l : List NodePtr} (h : LinkedQueue s q l)
    (hnull : ∀ p ∈ l, p ≠ .null) : s.walk q = l := by
  rw [Scheduler.walk, h.lists_eq, h.first]
  cases l with
  | nil => rfl
  | cons x l => rw [List.head?_cons, Option.getD_some, if_neg (hnull x List.mem_cons_self)]

theorem Linked.walk_eq (h : Linked s rings) (hnull : ∀ q, ∀ p ∈ rings q, p ≠ .null) :
    s.walk = rings := by
  funext q
  exact (h.queue q).walk_eq (hnull q)

/-- The outer loop locks the first ready task of all the lists one after the other. -/
theorem schedulerScan_spec (n : Nat) {qs : List SchedulerQueueNumber}
    (halloc : ∀ q ∈ qs, ∀ p ∈ s.walk q, ∃ c, s.context p = some c) :
    ∃ ticks, schedulerScan n qs s =
        some (((qs.flatMap s.walk).find? s.ready).map fun x => (x, ticks),
          s.lockFound ((qs.flatMap s.walk).find? s.ready)) ∧
      ∀ x, (qs.flatMap s.walk).find? s.ready = some x →
        ∃ q ∈ qs, x ∈ s.walk q ∧ ticks = ticksIndex n ((s.walk q).idxOf x) := by
  induction qs with
  | nil => exact ⟨none, rfl, by simp⟩
  | cons q qs ih =>
      obtain ⟨ticks, hrest, hticks⟩ := ih fun q' hq' => halloc q' (List.mem_cons_of_mem _ hq')
      have hlater : ∀ x, (qs.flatMap s.walk).find? s.ready = some x →
          ∃ q' ∈ q :: qs, x ∈ s.walk q' ∧ ticks = ticksIndex n ((s.walk q').idxOf x) := by
        intro x hx
        obtain ⟨q', hq', hmem⟩ := hticks x hx
        exact ⟨q', List.mem_cons_of_mem _ hq', hmem⟩
      rw [schedulerScan, List.flatMap_cons, List.find?_append]
      dsimp only
      by_cases hfirst : (s.queues q).first = .null
      · have hwalk : s.walk q = [] := if_pos hfirst
        rw [if_pos hfirst, hwalk, List.find?_nil, Option.none_or]
        exact ⟨ticks, hrest, hlater⟩
      · have hwalk : s.walk q = s.lists q := if_neg hfirst
        have halloc' := halloc q List.mem_cons_self
        rw [hwalk] at halloc'
        have hscan := schedulerScanQueue_spec n (s.lists_isChain q) halloc' 0
          (p := (s.queues q).first) (fun x hx => Scheduler.head_lists hx)
        rw [show (s.lists q).length = (s.queues q).num by simp [Scheduler.lists]] at hscan
        rw [if_neg hfirst, if_neg (by simp [schedulerFlagLocked]), hscan, hwalk]
        cases hfind : (s.lists q).find? s.ready with
        | none =>
            simp only [Option.none_or]
            exact ⟨ticks, hrest, hlater⟩
        | some y =>
            refine ⟨ticksIndex n ((s.lists q).idxOf y), ?_, ?_⟩
            · rw [← Nat.zero_add ((s.lists q).idxOf y)]
              rfl
            · intro z hz
              obtain rfl := Option.some.inj hz
              refine ⟨q, List.mem_cons_self, ?_, ?_⟩
              · rw [hwalk]
                exact List.mem_of_find?_eq_some hfind
              · rw [hwalk]

theorem schedulerNextTask_spec (h : Consistent s rings)
    (hp : p = .null ∨ p = .idle ∨ p ∈ rings q) :
    ∃ ticks t rings', Consistent t rings' ∧ TaskReleased s rings t p rings' ∧
      schedulerNextTask p s =
        some (((schedulerQueues.flatMap rings').find? t.ready).getD .idle, ticks,
          t.lockFound ((schedulerQueues.flatMap rings').find? t.ready)) := by
  obtain ⟨n, t, rings', ht, hconsistent, hreleased⟩ := schedulerRelease_spec h hp
  have hwalk := hconsistent.walk_eq fun q p hp => (hconsistent.task q p hp).1
  have halloc : ∀ q ∈ schedulerQueues, ∀ p ∈ t.walk q, ∃ c, t.context p = some c := by
    intro q _ p hp
    rw [hwalk] at hp
    obtain ⟨c, hc, -⟩ := hconsistent.owner q p hp
    exact ⟨c, hc⟩
  obtain ⟨ticks, hscan, -⟩ := schedulerScan_spec n halloc
  rw [hwalk] at hscan
  rw [schedulerNextTask, ht]
  change ∃ ticks t' rings', _ ∧ _ ∧ (schedulerScan n schedulerQueues t).bind _ = _
  rw [hscan]
  cases hfind : (schedulerQueues.flatMap rings').find? t.ready with
  | none => exact ⟨none, t, rings', hconsistent, hreleased, by rw [hfind]; rfl⟩
  | some y => exact ⟨ticks, t, rings', hconsistent, hreleased, by rw [hfind]; rfl⟩

end Calls

end VisualOS.Kernel
