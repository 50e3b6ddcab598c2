import VisualOS.Scheduler.ConcurrentSteps

/-!
# The calls of the scheduler among others

What each call of `scheduler.c` needs and leaves behind while other processors make theirs: a task
is linked in and out under the lock of its queue, and the search goes without one.
-/

namespace VisualOS.Kernel

open Framework

namespace SchedulerWorld

variable {C : Type} {c : C} {k : Knowledge} {p : NodePtr} {q : SchedulerQueueNumber}

/-! ## Linking in -/

section Enqueue

variable (hpending : k.pending = some p) (hheld : k.held = some q) (hqueueNum : k.node.queueNum = q)
  (hlocked : k.node.context.locked = false)

include hpending hheld hqueueNum hlocked

private theorem does_linkOnly :
    Does c k (SharedScheduler.linkOnly p q) () { k with
      pending := none
      node := { k.node with previous := p }
      members := k.members ++ [p]
      next := Function.update k.next p p
      previous := Function.update k.previous p p
      queue := { k.queue with first := p } } := by
  refine Does.andThen (does_storePending hpending) ?_
  refine Does.andThen (does_adopt hpending hheld hqueueNum hlocked (.inl rfl)) ?_
  exact does_storeQueue (f := fun queue => { queue with first := p }) hheld (.inr (by simp)) rfl

private theorem does_linkLast (hfresh : p ∉ k.members)
    (hlinks : QueueLinks k.next k.previous k.queue k.members) (hmembers : k.members ≠ []) :
    Does c k (SharedScheduler.linkLast p q) () { k with
      pending := none
      node := { k.node with previous := k.previous k.queue.first }
      members := k.members ++ [p]
      next := Function.update (Function.update k.next p k.queue.first)
        (k.previous k.queue.first) p
      previous := Function.update (Function.update k.previous p (k.previous k.queue.first))
        k.queue.first p } := by
  have hfirst : k.queue.first ∈ k.members := by
    rw [hlinks.first, List.head?_eq_some_head hmembers]
    exact List.head_mem hmembers
  have hlast := hlinks.ring.previous_mem hfirst
  have hne : k.queue.first ≠ p := fun h => hfresh (h ▸ hfirst)
  have hprevious : Function.update k.previous p (k.previous k.queue.first) k.queue.first =
      k.previous k.queue.first := Function.update_of_ne hne ..
  refine Does.andThen (does_loadQueue (·.first) hheld) ?_
  refine Does.andThen (does_loadLinks (fun _ previous => previous) hheld hfirst) ?_
  refine Does.andThen (does_storePending hpending) ?_
  refine Does.andThen (does_adopt hpending hheld hqueueNum hlocked (.inr hfirst)) ?_
  refine Does.andThen (does_loadLinks (fun _ previous => previous) hheld
    (List.mem_append_left _ hfirst)) ?_
  dsimp only
  rw [hprevious]
  refine Does.andThen (does_storeNext hheld (List.mem_append_left _ hlast) (by simp)) ?_
  refine does_storePrevious hheld (List.mem_append_left _ hfirst) ?_
  dsimp only
  rcases eq_or_ne k.queue.first (k.previous k.queue.first) with heq | hne'
  · rw [← heq, Function.update_self]
    simp
  · rw [Function.update_of_ne hne', Function.update_of_ne hne]
    exact List.mem_append_left _ (hlinks.ring.next_mem hfirst)

private theorem exists_does_enqueueTask (hfresh : p ∉ k.members)
    (hlinks : QueueLinks k.next k.previous k.queue k.members) :
    ∃ node queue next previous, QueueLinks next previous queue (k.members ++ [p]) ∧
      Does c k (SharedScheduler.schedulerEnqueueTask p) () { k with
        pending := none
        node := node
        members := k.members ++ [p]
        next := next
        previous := previous
        queue := queue } := by
  by_cases hnum : k.queue.num = 0
  · have hmembers : k.members = [] := by
      rw [hlinks.num] at hnum
      exact List.length_eq_zero_iff.mp hnum
    refine ⟨{ k.node with previous := p }, { k.queue with first := p, num := k.queue.num + 1 },
      Function.update k.next p p, Function.update k.previous p p, ?_, ?_⟩
    · rw [hmembers]
      refine ⟨IsRing.singleton (Function.update_self ..) (Function.update_self ..), rfl, ?_⟩
      rw [hnum]
      rfl
    · refine Does.andThen (does_loadPending (·.queueNum) hpending) ?_
      rw [hqueueNum]
      refine Does.andThen (does_loadQueue (·.num) hheld) ?_
      rw [if_pos hnum]
      refine Does.andThen (does_linkOnly hpending hheld hqueueNum hlocked) ?_
      refine Does.andThen (does_loadQueue (·.num) hheld) ?_
      exact does_storeQueue (f := fun queue => { queue with num := k.queue.num + 1 }) hheld
        (.inr (by simp)) rfl
  · have hmembers : k.members ≠ [] := by
      rw [hlinks.num] at hnum
      exact fun h => hnum (List.length_eq_zero_iff.mpr h)
    have hhead : k.members.head? = some k.queue.first := by
      rw [hlinks.first, List.head?_eq_some_head hmembers]
      rfl
    refine ⟨{ k.node with previous := k.previous k.queue.first },
      { k.queue with num := k.queue.num + 1 }, _, _,
      ⟨hlinks.ring.insert hhead hfresh, ?_, ?_⟩, ?_⟩
    · rw [List.head?_append, hhead]
      rfl
    · rw [List.length_append, hlinks.num]
      rfl
    · refine Does.andThen (does_loadPending (·.queueNum) hpending) ?_
      rw [hqueueNum]
      refine Does.andThen (does_loadQueue (·.num) hheld) ?_
      rw [if_neg hnum]
      refine Does.andThen (does_linkLast hpending hheld hqueueNum hlocked hfresh hlinks hmembers) ?_
      refine Does.andThen (does_loadQueue (·.num) hheld) ?_
      refine does_storeQueue (f := fun queue => { queue with num := k.queue.num + 1 }) hheld
        (.inr ?_) rfl
      exact List.mem_append_left _ (List.mem_of_head? hhead)

end Enqueue

/-! ## Linking out -/

section Dequeue

variable {l : List NodePtr} (hrunning : k.running = some p) (hmembers : k.members = l ++ [p])
  (hlinks : QueueLinks k.next k.previous k.queue k.members)

include hmembers hlinks

private theorem does_unlink (hheld : k.held = some q) (hl : l ≠ []) :
    Does c k (SharedScheduler.unlink p) () { k with
      next := Function.update k.next (k.previous p) (k.next p)
      previous := Function.update k.previous (k.next p) (k.previous p) } := by
  have hp : p ∈ k.members := by simp [hmembers]
  have hnext := hlinks.ring.next_mem hp
  have hprevious := hlinks.ring.previous_mem hp
  have hne : p ≠ k.next p := by
    intro heq
    have hring := hlinks.ring
    rw [hmembers] at hring
    obtain ⟨x, l', rfl⟩ := List.exists_cons_of_ne_nil hl
    rw [hring.next_last rfl] at heq
    have hnodup := hring.nodup
    rw [heq] at hnodup
    simp at hnodup
  have hself : Function.update k.previous (k.next p) (k.previous p) p = k.previous p :=
    Function.update_of_ne hne ..
  refine Does.andThen (does_loadLinks (fun next _ => next) hheld hp) ?_
  refine Does.andThen (does_loadLinks (fun _ previous => previous) hheld hp) ?_
  refine Does.andThen (does_storePrevious hheld hnext (hlinks.ring.next_mem hnext)) ?_
  refine Does.andThen (does_loadLinks (fun _ previous => previous) hheld hp) ?_
  refine Does.andThen (does_loadLinks (fun next _ => next) hheld hp) ?_
  dsimp only
  rw [hself]
  exact does_storeNext hheld hprevious hnext

include hrunning

private theorem exists_does_dequeueTask (hheld : k.held = some k.context.queueNum) :
    ∃ queue next previous, QueueLinks next previous queue l ∧
      Does c k (SharedScheduler.schedulerDequeueTask p) () { k with
        next := next
        previous := previous
        queue := queue } := by
  have hnum := hlinks.num
  rw [hmembers, List.length_append, List.length_singleton] at hnum
  by_cases hone : k.queue.num ≤ 1
  · obtain rfl : l = [] := List.length_eq_zero_iff.mp (by omega)
    refine ⟨{ k.queue with first := .null, num := k.queue.num - 1 }, k.next, k.previous,
      ⟨.nil _ _, rfl, ?_⟩, ?_⟩
    · simp [hnum]
    · refine Does.andThen (does_loadRunning (·.queueNum) hrunning) ?_
      refine Does.andThen (does_loadQueue (·.num) hheld) ?_
      rw [if_pos hone]
      refine Does.andThen (does_storeQueue (f := fun queue => { queue with first := .null }) hheld
        (.inl rfl) rfl) ?_
      refine Does.andThen (does_loadQueue (·.num) hheld) ?_
      exact does_storeQueue (f := fun queue => { queue with num := k.queue.num - 1 }) hheld
        (.inl rfl) rfl
  · have hl : l ≠ [] := by
      rintro rfl
      simp at hnum
      omega
    have hring := hlinks.ring
    rw [hmembers] at hring
    have hfirst := hlinks.first
    rw [hmembers, List.head?_append_of_ne_nil _ hl] at hfirst
    refine ⟨{ k.queue with num := k.queue.num - 1 }, _, _, ⟨hring.remove hl, hfirst, ?_⟩, ?_⟩
    · simp [hnum]
    · refine Does.andThen (does_loadRunning (·.queueNum) hrunning) ?_
      refine Does.andThen (does_loadQueue (·.num) hheld) ?_
      rw [if_neg hone]
      refine Does.andThen (does_unlink hmembers hlinks hheld hl) ?_
      refine Does.andThen (does_loadQueue (·.num) hheld) ?_
      refine does_storeQueue (f := fun queue => { queue with num := k.queue.num - 1 }) hheld
        (.inr ?_) rfl
      dsimp only
      rw [hmembers, hfirst, List.head?_eq_some_head hl]
      exact List.mem_append_left _ (List.head_mem hl)

end Dequeue

/-! ## The calls -/

/-- Between accesses that belong together: the task that runs, and a queue that is held and
linked. -/
def Ready (c : C) (running : Option NodePtr) (held : Option SchedulerQueueNumber)
    (w : SchedulerWorld C) : Prop :=
  ∃ k, Knows c k w ∧ k.running = running ∧ k.pending = none ∧ k.held = held ∧ k.cursor = none ∧
    (held ≠ none → QueueLinks k.next k.previous k.queue k.members)

theorem Ready.stable (c : C) (running : Option NodePtr) (held : Option SchedulerQueueNumber) :
    (protocol C).Stable c (Ready c running held) := by
  rintro w w' ⟨k, hk, hrest⟩ hother
  exact ⟨k, Knows.stable c k w w' hk hother, hrest⟩

private theorem Ready.task {w : SchedulerWorld C} {held : Option SchedulerQueueNumber}
    (h : Ready c (some p) held w) (hw : w.Sound) : p ≠ .null ∧ p ≠ .idle := by
  obtain ⟨k, hk, hrunning, -⟩ := h
  have hq : w.Queued k.context.queueNum p := ⟨_, hk.place hw hrunning⟩
  exact ⟨hw.ne_null hq, hw.ne_idle hq⟩

private theorem ready_schedulerQueueUnlock {running : Option NodePtr} :
    (protocol C).Triple c (Ready c running (some q)) (SharedScheduler.schedulerQueueUnlock q)
      fun _ => Ready c running none := by
  rintro w hw ⟨k, hk, hrunning, hpending, hheld, hcursor, hlinks⟩
  refine Protocol.Triple.post (does_schedulerQueueUnlock hheld (hlinks (by simp))) ?_ w hw hk
  rintro _ w' ⟨-, hk'⟩
  exact ⟨_, hk', hrunning, hpending, rfl, hcursor, by simp⟩

theorem ready_schedulerAddTask {running : Option NodePtr} {address : Nat}
    {state : SchedulerTaskInitialState} :
    (protocol C).Triple c (Ready c running none)
      (SharedScheduler.schedulerAddTask (.task address) state q)
      fun _ => Ready c running none := by
  rintro w hw ⟨k, hk, hrunning, hpending, hheld, hcursor, -⟩
  refine Does.andThen (does_mallocNode hpending) ?_ w hw hk
  refine Protocol.Triple.bind (triple_schedulerQueueSpinlock hheld) ?_
  rintro - w hw ⟨queue, l, next, previous, hlinks, hk⟩
  have hfresh : NodePtr.task address ∉ l := by
    intro hmem
    have hq := hk.queued rfl hmem
    rw [Queued, (hk.pending _).mpr rfl] at hq
    exact Place.not_pending_in hq
  obtain ⟨node, queue', next', previous', hlinks', hdoes⟩ :=
    exists_does_enqueueTask (c := c) (k := Knowledge.enter { k with
      pending := some (.task address)
      node := ⟨initialFrame state, 0, q, .null, .null⟩ } q queue l next previous) rfl rfl rfl
      BitVec.getLsbD_zero hfresh hlinks
  refine Does.andThen hdoes ?_ w hw hk
  refine ready_schedulerQueueUnlock.pre ?_
  intro w _ hk
  exact ⟨_, hk, hrunning, rfl, rfl, hcursor, fun _ => hlinks'⟩

theorem ready_finishTask :
    (protocol C).Triple c (Ready c (some p) none) (SharedScheduler.finishTask p)
      fun _ => Ready c (some p) none := by
  rintro w hw ⟨k, hk, hrunning, hpending, hheld, hcursor, -⟩
  refine Protocol.Triple.post (does_finishTask hrunning) ?_ w hw hk
  rintro _ w' ⟨-, hk'⟩
  exact ⟨_, hk', hrunning, hpending, hheld, hcursor, by simp⟩

private theorem ready_schedulerRetire {l : List NodePtr} (hrunning : k.running = some p)
    (hpending : k.pending = none) (hheld : k.held = some k.context.queueNum)
    (hcursor : k.cursor = none) (hmembers : k.members = l ++ [p])
    (hlinks : QueueLinks k.next k.previous k.queue k.members) :
    (protocol C).Triple c (Knows c k) (SharedScheduler.schedulerRetire p)
      fun _ => Ready c none (some k.context.queueNum) := by
  refine Does.andThen (does_loadRunning (·.flags) hrunning) ?_
  by_cases hfinished : k.context.flags.getLsbD schedulerFlagFinished = true
  · rw [if_pos hfinished]
    intro w hw hk
    have hready : Ready c (some p) (some k.context.queueNum) w :=
      ⟨k, hk, hrunning, hpending, hheld, hcursor, fun _ => hlinks⟩
    have htask := hready.task hw
    obtain ⟨queue, next, previous, hlinks', hdoes⟩ :=
      exists_does_dequeueTask (c := c) hrunning hmembers hlinks hheld
    have hp : p ∉ l := by
      have hnodup := hlinks.ring.nodup
      rw [hmembers, List.nodup_append_comm, List.singleton_append, List.nodup_cons] at hnodup
      exact hnodup.1
    rw [SharedScheduler.schedulerFreeTask, if_neg (by simp [htask])]
    refine Does.andThen hdoes ?_ w hw hk
    have hfirst : queue.first = .null ∨ queue.first ∈ l := by
      rw [hlinks'.first]
      cases l with
      | nil => exact .inl rfl
      | cons x l => exact .inr List.mem_cons_self
    refine Protocol.Triple.post (does_free (l := l) hrunning hheld ?_ hp
      (fun r hr => hlinks'.ring.next_mem hr) hfirst) ?_
    · intro r
      simp [hmembers]
    · rintro _ w' ⟨-, hk'⟩
      exact ⟨_, hk', rfl, hpending, hheld, hcursor, fun _ => hlinks'⟩
  · rw [if_neg hfinished]
    refine Protocol.Triple.post (does_schedulerNodeUnlock hrunning) ?_
    rintro _ w ⟨-, hk⟩
    exact ⟨_, hk, rfl, hpending, hheld, hcursor, fun _ => hlinks⟩

private theorem Knows.perm {w : SchedulerWorld C} (h : Knows c k w) {l : List NodePtr}
    (hl : ∀ r, r ∈ l ↔ r ∈ k.members) : Knows c { k with members := l } w :=
  ⟨h.running, h.pending, h.held, h.cursor, h.context, h.node, h.queue,
    fun q hq r => (hl r).trans (h.members q hq r), fun q hq r hr => h.links q hq r ((hl r).mp hr)⟩

private theorem ready_schedulerRelease {r : NodePtr × Option Nat}
    {running : Option NodePtr}
    (hr : running = if r.1 = .null ∨ r.1 = .idle then none else some r.1) :
    (protocol C).Triple c (Ready c running none) (SharedScheduler.schedulerRelease r.1)
      fun _ => Ready c none none := by
  obtain ⟨p, ticks⟩ := r
  dsimp only at hr ⊢
  rw [SharedScheduler.schedulerRelease]
  split at hr
  case isTrue hnone =>
    rw [if_pos hnone, hr]
    exact .pure fun w _ h => h
  case isFalse htask =>
    rw [if_neg htask, hr]
    rintro w hw ⟨k, hk, hrunning, hpending, hheld, hcursor, -⟩
    have hlocked : k.context.flags.getLsbD schedulerFlagLocked = true := hk.locked hw hrunning
    have hcheck : Does c k (SharedScheduler.schedulerCheckLock p) () k := by
      refine Does.andThen (does_loadRunning (·.flags) hrunning) ?_
      rw [if_pos hlocked]
      exact .pure fun w _ h => ⟨rfl, h⟩
    refine Does.andThen hcheck ?_ w hw hk
    refine Does.andThen (does_loadRunning (·.queueNum) hrunning) ?_
    refine Protocol.Triple.bind (triple_schedulerQueueSpinlock hheld) ?_
    rintro - w hw ⟨queue, l, next, previous, hlinks, hk⟩
    have hp : p ∈ l := (hk.members _ rfl p).mpr ⟨_, hk.place hw hrunning⟩
    obtain ⟨a, b, rfl⟩ := List.append_of_mem hp
    refine Does.andThen (does_loadLinks (fun next _ => next) rfl hp) ?_ w hw hk
    refine Does.andThen (does_storeQueue (f := fun queue => { queue with first := next p }) rfl
      (.inr (hlinks.ring.next_mem hp)) rfl) ?_
    refine Protocol.Triple.bind (B := fun _ => Ready c none (some k.context.queueNum)) ?_ ?_
    · intro w hw hk
      refine ready_schedulerRetire (k := k.enter k.context.queueNum { queue with first := next p }
        (b ++ a ++ [p]) next previous) hrunning hpending rfl hcursor rfl hlinks.rotate w hw
        (hk.perm ?_)
      intro r
      simp only [List.mem_append, List.mem_cons, List.not_mem_nil, Knowledge.enter]
      tauto
    · intro _
      refine Protocol.Triple.bind ready_schedulerQueueUnlock ?_
      intro _
      exact .pure fun w _ h => h

/-! ## The search -/

section Search

variable [DecidableEq C]

/-- What the search comes back with: a task that it has locked, or nothing. -/
def Found (c : C) : Option (NodePtr × Option Nat) → SchedulerWorld C → Prop
  | some r => Ready c (some r.1) none
  | none => Ready c none none

private theorem found_schedulerScanQueue (n rounds j : Nat) (hrunning : k.running = none)
    (hpending : k.pending = none) (hheld : k.held = none) (hcursor : k.cursor = some p) :
    (protocol C).Triple c (Knows c k) (SharedScheduler.schedulerScanQueue c n q rounds j p)
      (Found c) := by
  induction rounds generalizing j p k with
  | zero =>
      apply triple_await
      intro w b t _ _ hf
      exact absurd hf (by simp)
  | succ rounds ih =>
      refine Protocol.Triple.bind (triple_loadQueue _) fun num => ?_
      split
      · refine Protocol.Triple.bind (triple_loadNode _ hcursor) fun flags => ?_
        have hgo : ∀ locked : Bool, (protocol C).Triple c (fun w =>
            if locked then ∃ context, Knows c { k with running := some p, context } w
            else Knows c k w)
            (if locked then do
              SharedScheduler.setCursor c none
              pure (some (p, if n ≠ j then some j else none))
            else do
              let next ← SharedScheduler.loadNext c p
              SharedScheduler.schedulerScanQueue c n q rounds (j + 1) next) (Found c) := by
          intro locked
          cases locked with
          | true =>
              rintro w hw ⟨context, hk⟩
              refine Does.andThen does_setCursor_none ?_ w hw hk
              exact .pure fun w _ h => ⟨_, h, rfl, hpending, hheld, rfl, by simp⟩
          | false =>
              refine Protocol.Triple.bind (triple_loadNext hcursor) fun next => ?_
              exact ih (j + 1) hrunning hpending hheld rfl
        dsimp only
        split
        · exact Protocol.Triple.bind (triple_schedulerNodeLock hrunning hcursor) hgo
        · refine Protocol.Triple.bind (.pure ?_) hgo
          intro w _ hk
          exact hk
      · refine Does.andThen does_setCursor_none ?_
        exact .pure fun w _ h => ⟨_, h, hrunning, hpending, hheld, rfl, by simp⟩

private theorem found_schedulerScan (n rounds : Nat) (qs : List SchedulerQueueNumber) :
    (protocol C).Triple c (Ready c none none) (SharedScheduler.schedulerScan c n rounds qs)
      (Found c) := by
  induction qs with
  | nil => exact .pure fun w _ h => h
  | cons q rest ih =>
      rintro w hw ⟨k, hk, hrunning, hpending, hheld, -, -⟩
      refine Protocol.Triple.bind triple_loadFirst (fun first => ?_) w hw hk
      split
      case isTrue =>
        refine ih.pre ?_
        intro w _ hk
        exact ⟨_, hk, hrunning, hpending, hheld, rfl, by simp⟩
      case isFalse =>
        refine Protocol.Triple.bind (triple_loadQueue _) fun flags => ?_
        split
        · refine Does.andThen does_setCursor_none ?_
          refine ih.pre ?_
          intro w _ hk
          exact ⟨_, hk, hrunning, hpending, hheld, rfl, by simp⟩
        · refine Protocol.Triple.bind (found_schedulerScanQueue n rounds 0 hrunning hpending hheld
            rfl) fun found => ?_
          cases found with
          | some next => exact .pure fun w _ h => h
          | none => exact ih

/-- Between two calls: the answer of the last one that chose a task is what runs. -/
def Rests (c : C) (r : NodePtr × Option Nat) : SchedulerWorld C → Prop :=
  Ready c (if r.1 = .null ∨ r.1 = .idle then none else some r.1) none

theorem rests_schedulerNextTask (rounds : Nat) (r : NodePtr × Option Nat) :
    (protocol C).Triple c (Rests c r) (SharedScheduler.schedulerNextTask c rounds r.1)
      (Rests c) := by
  refine Protocol.Triple.bind (ready_schedulerRelease rfl) fun n => ?_
  refine Protocol.Triple.bind (found_schedulerScan n rounds schedulerQueues) fun found => ?_
  cases found with
  | some next =>
      refine .pure fun w hw h => ?_
      have htask := Ready.task h hw
      rw [Rests, if_neg (by simp [htask])]
      exact h
  | none => exact .pure fun w _ h => h

end Search

end SchedulerWorld

end VisualOS.Kernel
