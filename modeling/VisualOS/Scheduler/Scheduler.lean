import VisualOS.X86.Atomic

/-!
# The scheduler

`scheduler.c` over a heap of task nodes.  A pointer that no node is allocated at cannot be
followed, and a queue lock that is held is never released while a call runs; both make a call
`none`.
-/

namespace VisualOS.Kernel

inductive SchedulerQueueNumber
  | priority
  | regular
  | batch
  deriving DecidableEq, Repr

def SchedulerQueueNumber.toNat : SchedulerQueueNumber → Nat
  | priority => 0
  | regular => 1
  | batch => 2

/-- The queues in the order in which `scheduler_next_task` goes through them. -/
def schedulerQueues : List SchedulerQueueNumber := [.priority, .regular, .batch]

/-- Pointers to `struct SchedulerNode`: `NULL`, `&s_idle_node`, or what `malloc` returned. -/
inductive NodePtr
  | null
  | idle
  | task (address : Nat)
  deriving DecidableEq, Repr

/-- The 20 words of `struct SchedulerContextFrame` that are copied on an interrupt. -/
structure SchedulerContextFrame where
  general : Fin 15 → BitVec 64
  rip : BitVec 64
  cs : BitVec 64
  rflags : BitVec 64
  rsp : BitVec 64
  ss : BitVec 64

structure SchedulerNode where
  contextFrame : SchedulerContextFrame
  flags : BitVec 64
  queueNum : SchedulerQueueNumber
  previous : NodePtr
  next : NodePtr

structure SchedulerQueue where
  first : NodePtr
  num : Nat
  flags : BitVec 64

structure SchedulerTaskInitialState where
  general : Fin 15 → BitVec 64
  entry : BitVec 64
  stack : BitVec 64
  rpl : BitVec 8

structure Scheduler where
  nodes : NodePtr → Option SchedulerNode
  queues : SchedulerQueueNumber → SchedulerQueue

/-- `SCHEDULER_CONTEXT_FLAG_LOCKED`, also `SCHEDULER_QUEUE_FLAG_LOCKED`. -/
def schedulerFlagLocked : Nat := 0

/-- `SCHEDULER_CONTEXT_FLAG_FINISHED`. -/
def schedulerFlagFinished : Nat := 1

def passFlags : BitVec 64 := 0b11

namespace Scheduler

def setNode (s : Scheduler) (p : NodePtr) (node : SchedulerNode) : Scheduler :=
  { s with nodes := Function.update s.nodes p (some node) }

/-- A store through `p`. -/
def modifyNode (p : NodePtr) (f : SchedulerNode → SchedulerNode) (s : Scheduler) :
    Option Scheduler := do
  let node ← s.nodes p
  return s.setNode p (f node)

def loadNext (p : NodePtr) (s : Scheduler) : Option NodePtr := (s.nodes p).map (·.next)

def loadPrevious (p : NodePtr) (s : Scheduler) : Option NodePtr := (s.nodes p).map (·.previous)

def storeNext (p next : NodePtr) (s : Scheduler) : Option Scheduler :=
  s.modifyNode p fun node => { node with next }

def storePrevious (p previous : NodePtr) (s : Scheduler) : Option Scheduler :=
  s.modifyNode p fun node => { node with previous }

def setQueue (s : Scheduler) (q : SchedulerQueueNumber) (queue : SchedulerQueue) : Scheduler :=
  { s with queues := Function.update s.queues q queue }

def free (s : Scheduler) (p : NodePtr) : Scheduler :=
  { s with nodes := Function.update s.nodes p none }

end Scheduler

def schedulerNodeLock (node : NodePtr) (s : Scheduler) : Option (Bool × Scheduler) := do
  let contents ← s.nodes node
  let (locked, flags) := atomicLock contents.flags schedulerFlagLocked
  return (locked, s.setNode node { contents with flags })

def schedulerNodeUnlock (node : NodePtr) (s : Scheduler) : Option (Bool × Scheduler) := do
  let contents ← s.nodes node
  let (unlocked, flags) := atomicUnlock contents.flags schedulerFlagLocked
  return (unlocked, s.setNode node { contents with flags })

def schedulerQueueSpinlock (q : SchedulerQueueNumber) (s : Scheduler) : Option Scheduler := do
  let flags ← atomicSpinlock (s.queues q).flags schedulerFlagLocked
  return s.setQueue q { s.queues q with flags }

def schedulerQueueUnlock (q : SchedulerQueueNumber) (s : Scheduler) : Scheduler :=
  s.setQueue q { s.queues q with flags := (atomicUnlock (s.queues q).flags schedulerFlagLocked).2 }

def schedulerEnqueueTask (node : NodePtr) (s : Scheduler) : Option Scheduler := do
  let contents ← s.nodes node
  let q := contents.queueNum
  let s ←
    if (s.queues q).num = 0 then do
      let s ← s.storePrevious node node
      let s ← s.storeNext node node
      pure (s.setQueue q { s.queues q with first := node })
    else do
      let first := (s.queues q).first
      let previous ← s.loadPrevious first
      let s ← s.storePrevious node previous
      let s ← s.storeNext node first
      let previous ← s.loadPrevious first
      let s ← s.storeNext previous node
      s.storePrevious first node
  return s.setQueue q { s.queues q with num := (s.queues q).num + 1 }

def schedulerDequeueTask (node : NodePtr) (s : Scheduler) : Option Scheduler := do
  let contents ← s.nodes node
  let q := contents.queueNum
  let s ←
    if (s.queues q).num ≤ 1 then pure (s.setQueue q { s.queues q with first := .null })
    else do
      let next ← s.loadNext node
      let previous ← s.loadPrevious node
      let s ← s.storePrevious next previous
      let previous ← s.loadPrevious node
      let next ← s.loadNext node
      s.storeNext previous next
  return s.setQueue q { s.queues q with num := (s.queues q).num - 1 }

def schedulerInit (s : Scheduler) : Scheduler :=
  { s with queues := fun _ => ⟨.null, 0, 0⟩ }

/-- `s_idle_node`. -/
def sIdleNode (schedulerIdle : BitVec 64) : SchedulerNode where
  contextFrame := ⟨fun _ => 0, schedulerIdle, 0x08, 0x0202, 0, 0x10⟩
  flags := 0
  queueNum := .priority
  previous := .idle
  next := .idle

/-- The state that `scheduler_init` leaves, before any task is added. -/
def initialScheduler (schedulerIdle : BitVec 64) : Scheduler :=
  schedulerInit
    { nodes := fun p => if p = .idle then some (sIdleNode schedulerIdle) else none
      queues := fun _ => ⟨.null, 0, 0⟩ }

/-- The frame that `scheduler_add_task` gives a new node. -/
def initialFrame (state : SchedulerTaskInitialState) : SchedulerContextFrame where
  general := state.general
  rip := state.entry
  cs := (if state.rpl = 3 then 0x28 else 0x08) ||| state.rpl.zeroExtend 64
  rflags := 0x0202
  rsp := state.stack
  ss := (if state.rpl = 3 then 0x20 else 0x10) ||| state.rpl.zeroExtend 64

/-- `node` is what `malloc` returns. -/
def schedulerAddTask (node : NodePtr) (state : SchedulerTaskInitialState)
    (queueNum : SchedulerQueueNumber) (s : Scheduler) : Option Scheduler := do
  let s := s.setNode node ⟨initialFrame state, 0, queueNum, .null, .null⟩
  let s ← schedulerQueueSpinlock queueNum s
  let s ← schedulerEnqueueTask node s
  return schedulerQueueUnlock queueNum s

def schedulerFreeTask (node : NodePtr) (s : Scheduler) : Option Scheduler :=
  if node = .null ∨ node = .idle then some s
  else do
    let s ← schedulerDequeueTask node s
    return s.free node

/-- `scheduler_next_task` finds the lock of `current` taken, or warns and takes it. -/
def schedulerCheckLock (current : NodePtr) (s : Scheduler) : Option Scheduler := do
  let contents ← s.nodes current
  if contents.flags.getLsbD schedulerFlagLocked then return s
  else do
    let (_, s) ← schedulerNodeLock current s
    return s

/-- `scheduler_next_task` frees `current` if it has finished and unlocks it otherwise. -/
def schedulerRetire (current : NodePtr) (s : Scheduler) : Option Scheduler := do
  let contents ← s.nodes current
  if contents.flags.getLsbD schedulerFlagFinished then schedulerFreeTask current s
  else do
    let (_, s) ← schedulerNodeUnlock current s
    return s

/-- The first part of `scheduler_next_task`, which rotates the queue of `current` and releases
it.  It also leaves `current_queue_num`. -/
def schedulerRelease (current : NodePtr) (s : Scheduler) : Option (Nat × Scheduler) :=
  if current = .null ∨ current = .idle then some (2 ^ 64 - 1, s)
  else do
    let s ← schedulerCheckLock current s
    let contents ← s.nodes current
    let q := contents.queueNum
    let s ← schedulerQueueSpinlock q s
    let next ← s.loadNext current
    let s := s.setQueue q { s.queues q with first := next }
    let s ← schedulerRetire current s
    return (q.toNat, schedulerQueueUnlock q s)

/-- The inner loop of `scheduler_next_task` from its `j`-th round on.  With the node that it
locked it returns the index at which the timer's ticks are looked up, if they are. -/
def schedulerScanQueue (currentQueueNum : Nat) :
    Nat → Nat → NodePtr → Scheduler → Option (Option (NodePtr × Option Nat) × Scheduler)
  | 0, _, _, s => some (none, s)
  | rounds + 1, j, node, s => do
      let contents ← s.nodes node
      if contents.flags &&& passFlags = 0 then do
        let (locked, s) ← schedulerNodeLock node s
        if locked then
          return (some (node, if currentQueueNum ≠ j then some j else none), s)
        else do
          let contents ← s.nodes node
          schedulerScanQueue currentQueueNum rounds (j + 1) contents.next s
      else schedulerScanQueue currentQueueNum rounds (j + 1) contents.next s

/-- The outer loop of `scheduler_next_task`.  The mask it tests a queue's flags with is the
number of the lock bit, 0. -/
def schedulerScan (currentQueueNum : Nat) : List SchedulerQueueNumber → Scheduler →
    Option (Option (NodePtr × Option Nat) × Scheduler)
  | [], s => some (none, s)
  | i :: rest, s =>
      let queue := s.queues i
      if queue.first = .null then schedulerScan currentQueueNum rest s
      else if queue.flags &&& BitVec.ofNat 64 schedulerFlagLocked ≠ 0 then
        schedulerScan currentQueueNum rest s
      else do
        let (found, s) ← schedulerScanQueue currentQueueNum queue.num 0 queue.first s
        match found with
        | some next => return (some next, s)
        | none => schedulerScan currentQueueNum rest s

/-- The node to run next, and the index for `s_ticks_table` if the timer is programmed. -/
def schedulerNextTask (current : NodePtr) (s : Scheduler) :
    Option (NodePtr × Option Nat × Scheduler) := do
  let (currentQueueNum, s) ← schedulerRelease current s
  let (found, s) ← schedulerScan currentQueueNum schedulerQueues s
  match found with
  | some (next, ticks) => return (next, ticks, s)
  | none => return (.idle, none, s)

end VisualOS.Kernel
