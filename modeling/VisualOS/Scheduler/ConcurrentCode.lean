import VisualOS.Framework.SharedPrograms
import VisualOS.Scheduler.Scheduler

/-!
# The scheduler, one access at a time

`scheduler.c` again, as programs that touch shared memory once per step, so that the processors'
calls can be interleaved.  `lock bts` is one access and the plain `btr` of `atomic_unlock` is two.
A call that nobody else interrupts does what the call as a whole does.
-/

namespace VisualOS.Kernel

open Framework

/-- The memory of the scheduler, and for each processor in the loops of `scheduler_next_task` its
variable `node`. -/
structure SharedScheduler (C : Type) extends Scheduler where
  cursor : C → Option NodePtr

namespace SharedScheduler

section Code

variable {C β : Type}

def put (s : SharedScheduler C) (t : Scheduler) : SharedScheduler C := { s with toScheduler := t }

def loadNode (p : NodePtr) (field : SchedulerNode → β) : Prog (SharedScheduler C) β :=
  .act fun s => (s.nodes p).map fun node => (field node, s)

def storeNode (p : NodePtr) (f : SchedulerNode → SchedulerNode) : Prog (SharedScheduler C) Unit :=
  .act fun s => (s.toScheduler.modifyNode p f).map fun t => ((), s.put t)

def loadQueue (q : SchedulerQueueNumber) (field : SchedulerQueue → β) :
    Prog (SharedScheduler C) β :=
  .act fun s => some (field (s.queues q), s)

def storeQueue (q : SchedulerQueueNumber) (f : SchedulerQueue → SchedulerQueue) :
    Prog (SharedScheduler C) Unit :=
  .act fun s => some ((), s.put (s.toScheduler.setQueue q (f (s.queues q))))

def schedulerNodeLock (node : NodePtr) : Prog (SharedScheduler C) Bool :=
  .act fun s => (Kernel.schedulerNodeLock node s.toScheduler).map fun r => (r.1, s.put r.2)

def schedulerNodeUnlock (node : NodePtr) : Prog (SharedScheduler C) Unit := do
  let flags ← loadNode node (·.flags)
  storeNode node fun contents =>
    { contents with flags := (atomicUnlock flags schedulerFlagLocked).2 }

/-- While the bit is held the loop only reads. -/
def schedulerQueueSpinlock (q : SchedulerQueueNumber) : Prog (SharedScheduler C) Unit :=
  .await fun s => (Kernel.schedulerQueueSpinlock q s.toScheduler).map fun t => ((), s.put t)

def schedulerQueueUnlock (q : SchedulerQueueNumber) : Prog (SharedScheduler C) Unit := do
  let flags ← loadQueue q (·.flags)
  storeQueue q fun queue => { queue with flags := (atomicUnlock flags schedulerFlagLocked).2 }

/-- `_scheduler_enqueue_task` on an empty queue. -/
def linkOnly (node : NodePtr) (q : SchedulerQueueNumber) : Prog (SharedScheduler C) Unit := do
  storeNode node fun contents => { contents with previous := node }
  storeNode node fun contents => { contents with next := node }
  storeQueue q fun queue => { queue with first := node }

/-- `_scheduler_enqueue_task` on a queue with tasks. -/
def linkLast (node : NodePtr) (q : SchedulerQueueNumber) : Prog (SharedScheduler C) Unit := do
  let first ← loadQueue q (·.first)
  let previous ← loadNode first (·.previous)
  storeNode node fun contents => { contents with previous }
  storeNode node fun contents => { contents with next := first }
  let previous ← loadNode first (·.previous)
  storeNode previous fun contents => { contents with next := node }
  storeNode first fun contents => { contents with previous := node }

def schedulerEnqueueTask (node : NodePtr) : Prog (SharedScheduler C) Unit := do
  let q ← loadNode node (·.queueNum)
  let num ← loadQueue q (·.num)
  let _ ← if num = 0 then linkOnly node q else linkLast node q
  let num ← loadQueue q (·.num)
  storeQueue q fun queue => { queue with num := num + 1 }

/-- `_scheduler_dequeue_task` on a queue with other tasks. -/
def unlink (node : NodePtr) : Prog (SharedScheduler C) Unit := do
  let next ← loadNode node (·.next)
  let previous ← loadNode node (·.previous)
  storeNode next fun contents => { contents with previous }
  let previous ← loadNode node (·.previous)
  let next ← loadNode node (·.next)
  storeNode previous fun contents => { contents with next }

def schedulerDequeueTask (node : NodePtr) : Prog (SharedScheduler C) Unit := do
  let q ← loadNode node (·.queueNum)
  let num ← loadQueue q (·.num)
  let _ ← if num ≤ 1 then storeQueue q fun queue => { queue with first := .null } else unlink node
  let num ← loadQueue q (·.num)
  storeQueue q fun queue => { queue with num := num - 1 }

/-- `malloc` with the assignment to the new node, which nobody else can see yet. -/
def mallocNode (node : NodePtr) (contents : SchedulerNode) : Prog (SharedScheduler C) Unit :=
  .await fun s =>
    if s.nodes node = none then some ((), s.put (s.toScheduler.setNode node contents)) else none

def freeNode (node : NodePtr) : Prog (SharedScheduler C) Unit :=
  .act fun s => some ((), s.put (s.toScheduler.free node))

def schedulerAddTask (node : NodePtr) (state : SchedulerTaskInitialState)
    (queueNum : SchedulerQueueNumber) : Prog (SharedScheduler C) Unit := do
  mallocNode node ⟨initialFrame state, 0, queueNum, .null, .null⟩
  schedulerQueueSpinlock queueNum
  schedulerEnqueueTask node
  schedulerQueueUnlock queueNum

def schedulerFreeTask (node : NodePtr) : Prog (SharedScheduler C) Unit :=
  if node = .null ∨ node = .idle then pure ()
  else do
    schedulerDequeueTask node
    freeNode node

def schedulerCheckLock (current : NodePtr) : Prog (SharedScheduler C) Unit := do
  let flags ← loadNode current (·.flags)
  if flags.getLsbD schedulerFlagLocked then pure ()
  else do
    let _ ← schedulerNodeLock current
    pure ()

def schedulerRetire (current : NodePtr) : Prog (SharedScheduler C) Unit := do
  let flags ← loadNode current (·.flags)
  if flags.getLsbD schedulerFlagFinished then schedulerFreeTask current
  else schedulerNodeUnlock current

def schedulerRelease (current : NodePtr) : Prog (SharedScheduler C) Nat :=
  if current = .null ∨ current = .idle then pure (2 ^ 64 - 1)
  else do
    schedulerCheckLock current
    let q ← loadNode current (·.queueNum)
    schedulerQueueSpinlock q
    let next ← loadNode current (·.next)
    storeQueue q fun queue => { queue with first := next }
    schedulerRetire current
    schedulerQueueUnlock q
    return q.toNat

/-- The `or` with which `syscall_entry` marks the running task on `sys_exit`. -/
def finishTask (current : NodePtr) : Prog (SharedScheduler C) Unit := do
  let flags ← loadNode current (·.flags)
  storeNode current fun contents =>
    { contents with flags := flags ||| BitVec.twoPow 64 schedulerFlagFinished }

variable [DecidableEq C]

def point (s : SharedScheduler C) (c : C) (node : Option NodePtr) : SharedScheduler C :=
  { s with cursor := Function.update s.cursor c node }

def setCursor (c : C) (node : Option NodePtr) : Prog (SharedScheduler C) Unit :=
  .act fun s => some ((), s.point c node)

/-- `node = queue->first`. -/
def loadFirst (c : C) (q : SchedulerQueueNumber) : Prog (SharedScheduler C) NodePtr :=
  .act fun s =>
    let first := (s.queues q).first
    some (first, s.point c (if first = .null then none else some first))

/-- `node = node->next`. -/
def loadNext (c : C) (node : NodePtr) : Prog (SharedScheduler C) NodePtr :=
  .act fun s => (s.nodes node).map fun contents =>
    (contents.next, s.point c (some contents.next))

/-- The inner loop of `scheduler_next_task`, which looks at `queue->num` in each round. -/
def schedulerScanQueue (c : C) (currentQueueNum : Nat) (q : SchedulerQueueNumber) :
    Nat → Nat → NodePtr → Prog (SharedScheduler C) (Option (NodePtr × Option Nat))
  | 0, _, _ => .await fun _ => none
  | rounds + 1, j, node => do
      let num ← loadQueue q (·.num)
      if j < num then
        let flags ← loadNode node (·.flags)
        let locked ← if flags &&& passFlags = 0 then schedulerNodeLock node else pure false
        if locked then
          setCursor c none
          return some (node, if currentQueueNum ≠ j then some j else none)
        else
          let next ← loadNext c node
          schedulerScanQueue c currentQueueNum q rounds (j + 1) next
      else
        setCursor c none
        return none

def schedulerScan (c : C) (currentQueueNum rounds : Nat) : List SchedulerQueueNumber →
    Prog (SharedScheduler C) (Option (NodePtr × Option Nat))
  | [] => pure none
  | q :: rest => do
      let node ← loadFirst c q
      if node = .null then schedulerScan c currentQueueNum rounds rest
      else
        let flags ← loadQueue q (·.flags)
        if flags &&& BitVec.ofNat 64 schedulerFlagLocked ≠ 0 then
          setCursor c none
          schedulerScan c currentQueueNum rounds rest
        else
          let found ← schedulerScanQueue c currentQueueNum q rounds 0 node
          match found with
          | some next => pure (some next)
          | none => schedulerScan c currentQueueNum rounds rest

/-- The node to run next, and the index for `s_ticks_table` if the timer is programmed.  The loops
are followed for a number of rounds. -/
def schedulerNextTask (c : C) (rounds : Nat) (current : NodePtr) :
    Prog (SharedScheduler C) (NodePtr × Option Nat) := do
  let currentQueueNum ← schedulerRelease current
  let found ← schedulerScan c currentQueueNum rounds schedulerQueues
  match found with
  | some next => pure next
  | none => pure (.idle, none)

end Code

/-! ## Calls that nobody interrupts -/

section Alone

variable {C β : Type}

@[simp] theorem put_toScheduler (s : SharedScheduler C) (t : Scheduler) :
    (s.put t).toScheduler = t := rfl

@[simp] theorem put_put (s : SharedScheduler C) (t u : Scheduler) :
    (s.put t).put u = s.put u := rfl

@[simp] theorem put_self (s : SharedScheduler C) : s.put s.toScheduler = s := rfl

@[simp] theorem run_loadNode (p : NodePtr) (field : SchedulerNode → β) (s : SharedScheduler C) :
    (loadNode p field).run s = (s.nodes p).map fun node => (field node, s) :=
  Prog.run_act _ s

@[simp] theorem run_storeNode (p : NodePtr) (f : SchedulerNode → SchedulerNode)
    (s : SharedScheduler C) :
    (storeNode p f).run s = (s.toScheduler.modifyNode p f).map fun t => ((), s.put t) :=
  Prog.run_act _ s

@[simp] theorem run_loadQueue (q : SchedulerQueueNumber) (field : SchedulerQueue → β)
    (s : SharedScheduler C) : (loadQueue q field).run s = some (field (s.queues q), s) :=
  Prog.run_act _ s

@[simp] theorem run_storeQueue (q : SchedulerQueueNumber) (f : SchedulerQueue → SchedulerQueue)
    (s : SharedScheduler C) :
    (storeQueue q f).run s = some ((), s.put (s.toScheduler.setQueue q (f (s.queues q)))) :=
  Prog.run_act _ s

@[simp] theorem run_schedulerNodeLock (node : NodePtr) (s : SharedScheduler C) :
    (schedulerNodeLock node).run s =
      (Kernel.schedulerNodeLock node s.toScheduler).map fun r => (r.1, s.put r.2) :=
  Prog.run_act _ s

@[simp] theorem run_schedulerNodeUnlock (node : NodePtr) (s : SharedScheduler C) :
    (schedulerNodeUnlock node).run s =
      (Kernel.schedulerNodeUnlock node s.toScheduler).map fun r => ((), s.put r.2) := by
  cases hnode : s.nodes node <;>
    simp [schedulerNodeUnlock, Kernel.schedulerNodeUnlock, Scheduler.modifyNode, hnode]

@[simp] theorem run_schedulerQueueSpinlock (q : SchedulerQueueNumber) (s : SharedScheduler C) :
    (schedulerQueueSpinlock q).run s =
      (Kernel.schedulerQueueSpinlock q s.toScheduler).map fun t => ((), s.put t) :=
  Prog.run_await _ s

@[simp] theorem run_schedulerQueueUnlock (q : SchedulerQueueNumber) (s : SharedScheduler C) :
    (schedulerQueueUnlock q).run s =
      some ((), s.put (Kernel.schedulerQueueUnlock q s.toScheduler)) := by
  simp [schedulerQueueUnlock, Kernel.schedulerQueueUnlock]

@[simp] theorem run_schedulerEnqueueTask (node : NodePtr) (s : SharedScheduler C) :
    (schedulerEnqueueTask node).run s =
      (Kernel.schedulerEnqueueTask node s.toScheduler).map fun t => ((), s.put t) := by
  rw [schedulerEnqueueTask, Kernel.schedulerEnqueueTask]
  cases hnode : s.nodes node with
  | none => simp [hnode]
  | some contents =>
      by_cases hnum : (s.queues contents.queueNum).num = 0
      · simp [hnode, hnum, linkOnly, Scheduler.storePrevious, Scheduler.storeNext, Option.map_bind,
          Option.bind_map, Option.bind_assoc, Function.comp_def]
      · simp [hnode, hnum, linkLast, Scheduler.storePrevious, Scheduler.storeNext,
          Scheduler.loadPrevious, Option.map_bind, Option.bind_map, Option.bind_assoc,
          Function.comp_def]

@[simp] theorem run_schedulerDequeueTask (node : NodePtr) (s : SharedScheduler C) :
    (schedulerDequeueTask node).run s =
      (Kernel.schedulerDequeueTask node s.toScheduler).map fun t => ((), s.put t) := by
  rw [schedulerDequeueTask, Kernel.schedulerDequeueTask]
  cases hnode : s.nodes node with
  | none => simp [hnode]
  | some contents =>
      by_cases hnum : (s.queues contents.queueNum).num ≤ 1
      · simp [hnode, hnum]
      · simp [hnode, hnum, unlink, Scheduler.storePrevious, Scheduler.storeNext,
          Scheduler.loadPrevious, Scheduler.loadNext, Option.map_bind, Option.bind_map,
          Option.bind_assoc, Function.comp_def]

@[simp] theorem run_schedulerFreeTask (node : NodePtr) (s : SharedScheduler C) :
    (schedulerFreeTask node).run s =
      (Kernel.schedulerFreeTask node s.toScheduler).map fun t => ((), s.put t) := by
  by_cases hnode : node = .null ∨ node = .idle
  · simp [schedulerFreeTask, Kernel.schedulerFreeTask, hnode]
  · simp [schedulerFreeTask, Kernel.schedulerFreeTask, hnode, freeNode, Option.map_bind,
      Option.bind_map, Function.comp_def]

@[simp] theorem run_schedulerCheckLock (current : NodePtr) (s : SharedScheduler C) :
    (schedulerCheckLock current).run s =
      (Kernel.schedulerCheckLock current s.toScheduler).map fun t => ((), s.put t) := by
  rw [schedulerCheckLock, Kernel.schedulerCheckLock]
  cases hnode : s.nodes current with
  | none => simp [hnode]
  | some contents =>
      by_cases hlocked : contents.flags.getLsbD schedulerFlagLocked = true
      · simp [hnode, hlocked]
      · simp [hnode, hlocked, Option.map_bind, Option.bind_map]

@[simp] theorem run_schedulerRetire (current : NodePtr) (s : SharedScheduler C) :
    (schedulerRetire current).run s =
      (Kernel.schedulerRetire current s.toScheduler).map fun t => ((), s.put t) := by
  rw [schedulerRetire, Kernel.schedulerRetire]
  cases hnode : s.nodes current with
  | none => simp [hnode]
  | some contents =>
      by_cases hfinished : contents.flags.getLsbD schedulerFlagFinished = true
      · simp [hnode, hfinished]
      · simp [hnode, hfinished, Option.map_eq_bind, Option.bind_assoc]

@[simp] theorem run_schedulerRelease (current : NodePtr) (s : SharedScheduler C) :
    (schedulerRelease current).run s =
      (Kernel.schedulerRelease current s.toScheduler).map fun r => (r.1, s.put r.2) := by
  by_cases hcurrent : current = .null ∨ current = .idle
  · simp [schedulerRelease, Kernel.schedulerRelease, hcurrent]
  · simp [schedulerRelease, Kernel.schedulerRelease, hcurrent, Scheduler.loadNext, Option.map_bind,
      Option.bind_map, Function.comp_def]

/-- Alone, `scheduler_add_task` is the call as a whole. -/
theorem run_schedulerAddTask {node : NodePtr} {s : SharedScheduler C} (hfresh : s.nodes node = none)
    (state : SchedulerTaskInitialState) (queueNum : SchedulerQueueNumber) :
    (schedulerAddTask node state queueNum).run s =
      (Kernel.schedulerAddTask node state queueNum s.toScheduler).map fun t => ((), s.put t) := by
  simp [schedulerAddTask, Kernel.schedulerAddTask, mallocNode, hfresh, Option.map_bind,
    Option.bind_map, Function.comp_def]

variable [DecidableEq C]

@[simp] theorem point_toScheduler (s : SharedScheduler C) (c : C) (node : Option NodePtr) :
    (s.point c node).toScheduler = s.toScheduler := rfl

@[simp] theorem point_put_point (s : SharedScheduler C) (c : C) (t : Scheduler)
    (node node' : Option NodePtr) :
    ((s.point c node).put t).point c node' = (s.put t).point c node' := by
  simp [point, put]

private theorem point_cursor {s : SharedScheduler C} {c : C} (h : s.cursor c = none) :
    s.point c none = s := by
  simp [point, ← h]

@[simp] theorem run_setCursor (c : C) (node : Option NodePtr) (s : SharedScheduler C) :
    (setCursor c node).run s = some ((), s.point c node) :=
  Prog.run_act _ s

@[simp] theorem run_loadFirst (c : C) (q : SchedulerQueueNumber) (s : SharedScheduler C) :
    (loadFirst c q).run s = some ((s.queues q).first,
      s.point c (if (s.queues q).first = .null then none else some (s.queues q).first)) :=
  Prog.run_act _ s

private theorem schedulerNodeLock_queues {node : NodePtr} {s t : Scheduler} {locked : Bool}
    (h : Kernel.schedulerNodeLock node s = some (locked, t)) : t.queues = s.queues := by
  simp only [Kernel.schedulerNodeLock, Option.bind_eq_bind, Option.bind_eq_some_iff,
    Option.pure_def, Option.some.injEq, Prod.mk.injEq] at h
  obtain ⟨contents, -, -, rfl⟩ := h
  rfl

private theorem run_schedulerScanQueue (c : C) (n : Nat) (q : SchedulerQueueNumber) {rounds j : Nat}
    {node : NodePtr} {s : SharedScheduler C} (hj : j ≤ (s.queues q).num)
    (hrounds : (s.queues q).num < rounds + j) :
    (schedulerScanQueue c n q rounds j node).run s =
      (Kernel.schedulerScanQueue n ((s.queues q).num - j) j node s.toScheduler).map fun r =>
        (r.1, (s.put r.2).point c none) := by
  induction rounds generalizing j node s with
  | zero => omega
  | succ rounds ih =>
      rw [schedulerScanQueue]
      rcases Nat.lt_or_ge j (s.queues q).num with hlt | hge
      · obtain ⟨m, hm⟩ : ∃ m, (s.queues q).num - j = m + 1 := ⟨(s.queues q).num - j - 1, by omega⟩
        -- Going on to the next node, which the lock does not change.
        have hadvance : ∀ t : Scheduler, t.queues = s.queues →
            (loadNext c node >>= schedulerScanQueue c n q rounds (j + 1)).run (s.put t) =
              (t.nodes node).bind fun contents =>
                (Kernel.schedulerScanQueue n m (j + 1) contents.next t).map fun r =>
                  (r.1, (s.put r.2).point c none) := by
          intro t ht
          rw [Prog.run_bind, loadNext, Prog.run_act, Option.bind_map]
          congr 1
          funext contents
          have hnum : (t.queues q).num - (j + 1) = m := by
            rw [ht]
            omega
          rw [Function.comp_apply, ih (by simp only [point_toScheduler, put_toScheduler, ht]; omega)
            (by simp only [point_toScheduler, put_toScheduler, ht]; omega)]
          simp only [point_toScheduler, put_toScheduler, hnum, point_put_point, put_put]
        rw [hm, Kernel.schedulerScanQueue]
        simp only [Prog.run_bind, run_loadQueue, Option.bind_some, hlt, if_true, run_loadNode]
        cases hnode : s.nodes node with
        | none => rfl
        | some contents =>
            simp only [Option.map_some, Option.bind_some, Option.bind_eq_bind]
            by_cases hpass : contents.flags &&& passFlags = 0
            · simp only [hpass, if_true, Prog.run_bind, run_schedulerNodeLock]
              cases hlock : Kernel.schedulerNodeLock node s.toScheduler with
              | none => rfl
              | some r =>
                  obtain ⟨locked, t⟩ := r
                  cases locked with
                  | true => simp
                  | false =>
                      have := hadvance t (schedulerNodeLock_queues hlock)
                      rw [Prog.run_bind] at this
                      simp [this, Option.map_bind]
            · have := hadvance s.toScheduler rfl
              rw [Prog.run_bind, put_self, hnode] at this
              rw [if_neg hpass, if_neg hpass]
              simp [this]
      · rw [Nat.sub_eq_zero_of_le hge, Kernel.schedulerScanQueue]
        simp [Nat.not_lt.mpr hge]

private theorem schedulerScanQueue_queues {n rounds j : Nat} {node : NodePtr} {s t : Scheduler}
    {found : Option (NodePtr × Option Nat)}
    (h : Kernel.schedulerScanQueue n rounds j node s = some (found, t)) : t.queues = s.queues := by
  induction rounds generalizing j node s with
  | zero =>
      rw [Kernel.schedulerScanQueue, Option.some.injEq, Prod.mk.injEq] at h
      rw [h.2]
  | succ rounds ih =>
      simp only [Kernel.schedulerScanQueue, Option.bind_eq_bind, Option.bind_eq_some_iff] at h
      obtain ⟨contents, -, h⟩ := h
      split at h
      · simp only [Option.bind_eq_some_iff, Prod.exists] at h
        obtain ⟨locked, u, hlock, h⟩ := h
        rw [← schedulerNodeLock_queues hlock]
        split at h
        · rw [Option.pure_def, Option.some.injEq, Prod.mk.injEq] at h
          rw [h.2]
        · rw [Option.bind_eq_some_iff] at h
          obtain ⟨contents', -, h⟩ := h
          exact ih h
      · exact ih h

private theorem run_schedulerScan (c : C) (n : Nat) (qs : List SchedulerQueueNumber) {rounds : Nat}
    {s : SharedScheduler C} (hcursor : s.cursor c = none)
    (hrounds : ∀ q, (s.queues q).num < rounds) :
    (schedulerScan c n rounds qs).run s =
      (Kernel.schedulerScan n qs s.toScheduler).map fun r => (r.1, s.put r.2) := by
  induction qs generalizing s with
  | nil => simp [schedulerScan, Kernel.schedulerScan]
  | cons q rest ih =>
      rw [schedulerScan, Kernel.schedulerScan, Prog.run_bind, run_loadFirst, Option.bind_some]
      by_cases hfirst : (s.queues q).first = .null
      · simp [hfirst, point_cursor hcursor, ih hcursor hrounds]
      · have hskip : ¬((s.queues q).flags &&& BitVec.ofNat 64 schedulerFlagLocked ≠ 0) :=
          not_not.mpr BitVec.and_zero
        have hpoint : ∀ t, (s.put t).point c none = s.put t := fun t => point_cursor hcursor
        simp only [hfirst, if_false, Prog.run_bind, run_loadQueue, Option.bind_some,
          point_toScheduler, hskip,
          run_schedulerScanQueue c n q (s := s.point c _) (Nat.zero_le _) (hrounds q),
          Nat.sub_zero, point_put_point, hpoint]
        cases hscan : Kernel.schedulerScanQueue n (s.queues q).num 0 (s.queues q).first
            s.toScheduler with
        | none => rfl
        | some r =>
            obtain ⟨found, t⟩ := r
            cases found with
            | some next => rfl
            | none =>
                have hqueues := schedulerScanQueue_queues hscan
                have hrest := ih (s := s.put t) hcursor (by
                  intro q'
                  rw [put_toScheduler, hqueues]
                  exact hrounds q')
                simpa using hrest

/-- Alone and with enough rounds, `scheduler_next_task` is the call as a whole. -/
theorem run_schedulerNextTask (c : C) {s : SharedScheduler C} (hcursor : s.cursor c = none)
    (current : NodePtr) : ∃ enough, ∀ rounds, enough ≤ rounds →
      (schedulerNextTask c rounds current).run s =
        (Kernel.schedulerNextTask current s.toScheduler).map fun r =>
          ((r.1, r.2.1), s.put r.2.2) := by
  cases hrelease : Kernel.schedulerRelease current s.toScheduler with
  | none =>
      refine ⟨0, ?_⟩
      intro rounds _
      simp [schedulerNextTask, Kernel.schedulerNextTask, hrelease]
  | some r =>
      obtain ⟨n, t⟩ := r
      refine ⟨(t.queues .priority).num + (t.queues .regular).num + (t.queues .batch).num + 1, ?_⟩
      intro rounds hrounds
      have hnum : ∀ q, (t.queues q).num < rounds := by
        intro q
        cases q <;> omega
      rw [schedulerNextTask, Kernel.schedulerNextTask, Prog.run_bind, run_schedulerRelease,
        hrelease]
      simp only [Option.map_some, Option.bind_some, Option.bind_eq_bind, Prog.run_bind,
        run_schedulerScan c n schedulerQueues (s := s.put t) hcursor hnum]
      cases hscan : Kernel.schedulerScan n schedulerQueues t with
      | none => simp [hscan]
      | some r =>
          obtain ⟨found, u⟩ := r
          cases found <;> simp [hscan]

end Alone

end SharedScheduler

end VisualOS.Kernel
