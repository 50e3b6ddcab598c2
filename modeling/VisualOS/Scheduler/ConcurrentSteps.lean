import VisualOS.Scheduler.ConcurrentWorld

/-!
# What a processor knows

Of what it has taken a processor knows the contents, whatever the others do meanwhile.  Each
access of the scheduler's code is described by how it changes this knowledge.
-/

namespace VisualOS.Kernel

open Framework

/-- The contents of what a processor has taken; where it has taken nothing they mean nothing. -/
structure Knowledge where
  running : Option NodePtr
  pending : Option NodePtr
  held : Option SchedulerQueueNumber
  cursor : Option NodePtr
  context : TaskContext
  node : SchedulerNode
  queue : SchedulerQueue
  members : List NodePtr
  next : NodePtr → NodePtr
  previous : NodePtr → NodePtr

/-- With a queue taken. -/
def Knowledge.enter (k : Knowledge) (q : SchedulerQueueNumber) (queue : SchedulerQueue)
    (members : List NodePtr) (next previous : NodePtr → NodePtr) : Knowledge :=
  { k with held := some q, queue, members, next, previous }

/-- No search stands at a node that is freed. -/
def SharedScheduler.Reclaims {C : Type} (s t : SharedScheduler C) : Prop :=
  ∀ p, s.nodes p ≠ none → t.nodes p = none → ∀ c, s.cursor c ≠ some p

theorem SharedScheduler.Reclaims.of_nodes {C : Type} {s t : SharedScheduler C}
    (h : t.nodes = s.nodes) : s.Reclaims t := by
  intro p hs ht
  rw [h] at ht
  exact absurd ht hs

theorem SharedScheduler.Reclaims.setNode {C : Type} {s : SharedScheduler C} {p : NodePtr}
    {node : SchedulerNode} : s.Reclaims (s.put (s.setNode p node)) := by
  intro r hs hr
  rcases eq_or_ne r p with rfl | hne
  · rw [put_toScheduler, Scheduler.setNode_nodes] at hr
    exact absurd hr (by simp)
  · exact absurd ((Function.update_of_ne hne _ _).symm.trans hr) hs

namespace SchedulerWorld

variable {C : Type} {w w' : SchedulerWorld C} {c : C} {k k' : Knowledge} {p : NodePtr}
  {q : SchedulerQueueNumber}

structure Knows (c : C) (k : Knowledge) (w : SchedulerWorld C) : Prop where
  running : ∀ p, (∃ q, w.place p = .queued q (some c)) ↔ k.running = some p
  pending : ∀ p, w.place p = .pending c ↔ k.pending = some p
  held : ∀ q, w.holder q = some c ↔ k.held = some q
  cursor : w.cursor c = k.cursor
  context : ∀ p, k.running = some p → w.context p = some k.context
  node : ∀ p, k.pending = some p → w.nodes p = some k.node
  queue : ∀ q, k.held = some q → w.queues q = k.queue
  members : ∀ q, k.held = some q → ∀ p, p ∈ k.members ↔ w.Queued q p
  links : ∀ q, k.held = some q → ∀ p ∈ k.members, w.next p = k.next p ∧ w.previous p = k.previous p

private theorem Knows.keeps (h : Knows c k w) (hkeeps : Keeps c w w') : Knows c k w' := by
  refine ⟨?_, ?_, ?_, ?_, ?_, ?_, ?_, ?_, ?_⟩
  · intro p
    rw [← h.running]
    constructor
    · rintro ⟨q, hq⟩
      rw [(hkeeps.place p (.inr (by rw [hq]; rfl))).1] at hq
      exact ⟨q, hq⟩
    · rintro ⟨q, hq⟩
      rw [← (hkeeps.place p (.inl (by rw [hq]; rfl))).1] at hq
      exact ⟨q, hq⟩
  · intro p
    rw [← h.pending]
    constructor
    · intro hp
      rwa [(hkeeps.place p (.inr (by rw [hp]; rfl))).1] at hp
    · intro hp
      rwa [← (hkeeps.place p (.inl (by rw [hp]; rfl))).1] at hp
  · intro q
    rw [hkeeps.holder, h.held]
  · rw [hkeeps.cursor, h.cursor]
  · intro p hp
    obtain ⟨q, hq⟩ := (h.running p).mpr hp
    rw [(hkeeps.place p (.inl (by rw [hq]; rfl))).2, h.context p hp]
  · intro p hp
    rw [hkeeps.pending p ((h.pending p).mpr hp), h.node p hp]
  · intro q hq
    rw [hkeeps.queue q ((h.held q).mpr hq), h.queue q hq]
  · intro q hq p
    rw [hkeeps.members q ((h.held q).mpr hq), h.members q hq]
  · intro q hq p hp
    have hlinks := hkeeps.links q ((h.held q).mpr hq) p ((h.members q hq p).mp hp)
    rw [hlinks.1, hlinks.2]
    exact h.links q hq p hp

theorem Knows.queued (h : Knows c k w) (hheld : k.held = some q) (hp : p ∈ k.members) :
    w.Queued q p :=
  (h.members q hheld p).mp hp

private theorem Knows.holder (h : Knows c k w) (hheld : k.held = some q) : w.holder q = some c :=
  (h.held q).mpr hheld

theorem Knows.place (h : Knows c k w) (hw : w.Sound) (hrunning : k.running = some p) :
    w.place p = .queued k.context.queueNum (some c) := by
  obtain ⟨q, hq⟩ := (h.running p).mpr hrunning
  obtain ⟨node, -, -, hnode, rfl, -⟩ := hw.exists_node ⟨_, hq⟩
  have hcontext := h.context p hrunning
  rw [Scheduler.context_of_nodes hnode, Option.some.injEq] at hcontext
  rw [hq, ← hcontext]
  rfl

theorem Knows.locked (h : Knows c k w) (hw : w.Sound) (hrunning : k.running = some p) :
    k.context.locked = true := by
  obtain ⟨node, owner, hplace, hnode, -, hlocked, -⟩ := hw.exists_node ⟨_, h.place hw hrunning⟩
  have hcontext := h.context p hrunning
  rw [Scheduler.context_of_nodes hnode, Option.some.injEq] at hcontext
  rw [h.place hw hrunning, Place.queued.injEq] at hplace
  rw [← hcontext, hlocked, ← hplace.2, Option.isSome_some]

private theorem Knows.setNode (h : Knows c k w) {node : SchedulerNode} {x : Place C}
    (hrunning : (∃ q, x = .queued q (some c)) ↔ k'.running = some p)
    (hrunning' : ∀ r ≠ p, k'.running = some r ↔ k.running = some r)
    (hcontext : k'.running = some p → node.context = k'.context)
    (hcontext' : ∀ r ≠ p, k.running = some r → k'.context = k.context)
    (hpending : x = .pending c ↔ k'.pending = some p)
    (hpending' : ∀ r ≠ p, k'.pending = some r ↔ k.pending = some r)
    (hnode : k'.pending = some p → node = k'.node)
    (hnode' : ∀ r ≠ p, k.pending = some r → k'.node = k.node)
    (hheld : k'.held = k.held) (hcursor : k'.cursor = k.cursor) (hqueue : k'.queue = k.queue)
    (hmembers : ∀ q, k.held = some q → (p ∈ k'.members ↔ x.In q))
    (hmembers' : ∀ r ≠ p, r ∈ k'.members ↔ r ∈ k.members)
    (hlinks : ∀ q, k.held = some q → p ∈ k'.members →
      node.next = k'.next p ∧ node.previous = k'.previous p)
    (hlinks' : ∀ r ≠ p, k'.next r = k.next r ∧ k'.previous r = k.previous r) :
    Knows c k' (w.move (w.setNode p node) p x) := by
  have hnodes : ∀ r ≠ p, (w.setNode p node).nodes r = w.nodes r :=
    fun r hne => Function.update_of_ne hne _ _
  refine ⟨?_, ?_, ?_, ?_, ?_, ?_, ?_, ?_, ?_⟩
  · intro r
    rcases eq_or_ne r p with rfl | hne
    · rw [move_place_self, hrunning]
    · rw [move_place_of_ne _ hne, h.running, hrunning' r hne]
  · intro r
    rcases eq_or_ne r p with rfl | hne
    · rw [move_place_self, hpending]
    · rw [move_place_of_ne _ hne, h.pending, hpending' r hne]
  · intro q
    rw [hheld]
    exact h.held q
  · rw [hcursor]
    exact h.cursor
  · intro r hr
    rw [move_toScheduler, Scheduler.setNode_context]
    rcases eq_or_ne r p with rfl | hne
    · rw [Function.update_self, hcontext hr]
    · rw [hrunning' r hne] at hr
      rw [Function.update_of_ne hne, hcontext' r hne hr, h.context r hr]
  · intro r hr
    rw [move_toScheduler]
    rcases eq_or_ne r p with rfl | hne
    · rw [Scheduler.setNode_nodes, hnode hr]
    · rw [hpending' r hne] at hr
      rw [hnodes r hne, hnode' r hne hr, h.node r hr]
  · intro q hq
    rw [hqueue]
    exact h.queue q (hheld ▸ hq)
  · intro q hq r
    rw [hheld] at hq
    rcases eq_or_ne r p with rfl | hne
    · rw [move_queued_self, hmembers q hq]
    · rw [move_queued_of_ne _ hne, hmembers' r hne, h.members q hq]
  · intro q hq r hr
    rw [hheld] at hq
    rw [move_toScheduler, Scheduler.setNode_next, Scheduler.setNode_previous]
    rcases eq_or_ne r p with rfl | hne
    · rw [Function.update_self, Function.update_self]
      exact hlinks q hq hr
    · rw [hmembers' r hne] at hr
      rw [Function.update_of_ne hne, Function.update_of_ne hne, (hlinks' r hne).1,
        (hlinks' r hne).2]
      exact h.links q hq r hr

private theorem Sound.setFlags (h : w.Sound) {node : SchedulerNode} {owner owner' : Option C}
    {flags : BitVec 64} (hplace : w.place p = .queued q owner) (hnode : w.nodes p = some node)
    (howner : ∀ c' ≠ c, owner ≠ some c') (howner' : ∀ c' ≠ c, owner' ≠ some c')
    (hlocked : flags.getLsbD schedulerFlagLocked = owner'.isSome) :
    Access c w (w.move (w.setNode p { node with flags }) p (.queued q owner')) := by
  have hq : w.Queued q p := ⟨_, hplace⟩
  obtain ⟨node', -, -, hnode', hqueueNum, -, hnext⟩ := h.exists_node hq
  obtain rfl : node = node' := Option.some.inj (hnode.symm.trans hnode')
  refine h.setNode (h.ne_idle hq) (h.ne_null hq) (by simp) ?_ ?_ ?_ ?_
  · exact fun q' hq' => Place.queued_in.mpr (hq.unique hq')
  · exact .queued hqueueNum hlocked (.inl hnext)
  · intro c' hc'
    rw [hplace]
    exact .inl ⟨howner c' hc', howner' c' hc'⟩
  · intro q' hq'
    obtain rfl := Place.queued_in.mp hq'
    exact .inr ⟨hq, (Scheduler.next_of_nodes hnode).symm,
      (Scheduler.previous_of_nodes hnode).symm⟩

private theorem Knows.setFlags (h : Knows c k w) {node : SchedulerNode} {owner owner' : Option C}
    {flags : BitVec 64} {running : Option NodePtr} (hplace : w.place p = .queued q owner)
    (hnode : w.nodes p = some node) (hrunning : owner' = some c ↔ running = some p)
    (hother : ∀ r ≠ p, running ≠ some r) (hother' : ∀ r ≠ p, k.running ≠ some r) :
    Knows c { k with running, context := { node.context with flags } }
      (w.move (w.setNode p { node with flags }) p (.queued q owner')) := by
  apply h.setNode
  · simp [hrunning]
  · exact fun r hne => ⟨fun h => absurd h (hother r hne), fun h => absurd h (hother' r hne)⟩
  · exact fun _ => rfl
  · exact fun r hne h => absurd h (hother' r hne)
  · rw [← h.pending, hplace]
    simp
  · exact fun _ _ => Iff.rfl
  · intro hpending
    rw [← h.pending, hplace] at hpending
    exact absurd hpending (by simp)
  · exact fun _ _ _ => rfl
  · rfl
  · rfl
  · rfl
  · intro q' hq'
    rw [h.members q' hq', Queued, hplace, Place.queued_in, Place.queued_in]
  · exact fun _ _ => Iff.rfl
  · intro q' hq' hmem
    obtain ⟨hlink, hlink'⟩ := h.links q' hq' p hmem
    rw [Scheduler.next_of_nodes hnode] at hlink
    rw [Scheduler.previous_of_nodes hnode] at hlink'
    exact ⟨hlink, hlink'⟩
  · exact fun _ _ => ⟨rfl, rfl⟩

private theorem Knows.of_pending (h : Knows c k w) (hw : w.Sound) (hp : k.pending = some p) :
    w.place p = .pending c ∧ p ≠ .idle ∧ p ≠ .null ∧ (∀ q, ¬w.Queued q p) ∧
      k.running ≠ some p := by
  have hplace := (h.pending p).mpr hp
  refine ⟨hplace, ?_, ?_, ?_, ?_⟩
  · intro hidle
    rw [(hw.idle p).mpr hidle] at hplace
    exact absurd hplace (by simp)
  · rintro rfl
    rw [hw.null] at hplace
    exact absurd hplace (by simp)
  · intro q hq
    rw [Queued, hplace] at hq
    exact Place.not_pending_in hq
  · intro hrunning
    rw [← h.running p, hplace] at hrunning
    exact absurd hrunning (by simp)

/-! ## The accesses -/

/-- The accesses of one processor among others, none of which frees a node that a search stands
at. -/
def protocol (C : Type) : Protocol C (SharedScheduler C) (SchedulerWorld C) where
  shared w := w.toSharedScheduler
  inv := Sound
  guar := Access
  allowed := SharedScheduler.Reclaims

theorem Knows.stable (c : C) (k : Knowledge) : (protocol C).Stable c (Knows c k) := by
  rintro w w' h ⟨-, -, c', hne, haccess⟩
  exact h.keeps (haccess.keeps c hne.symm)

theorem triple_await {β : Type} {f : SharedScheduler C → Option (β × SharedScheduler C)}
    {Q : β → SchedulerWorld C → Prop}
    (h : ∀ w b t, w.Sound → Knows c k w → f w.toSharedScheduler = some (b, t) →
      ∃ u, u.toSharedScheduler = t ∧ Access c w u ∧ Q b u) :
    (protocol C).Triple c (Knows c k) (.await f) Q := by
  refine Protocol.Triple.await (Knows.stable c k) ?_
  intro w hw hk b t hf _
  obtain ⟨u, hu, haccess, hQ⟩ := h w b t hw hk hf
  exact ⟨u, hu, haccess, haccess.sound, hQ⟩

private theorem triple_act {β : Type} {f : SharedScheduler C → Option (β × SharedScheduler C)}
    {Q : β → SchedulerWorld C → Prop}
    (h : ∀ w, w.Sound → Knows c k w → ∃ b u, f w.toSharedScheduler = some (b, u.toSharedScheduler) ∧
      Access c w u ∧ Q b u) :
    (protocol C).Triple c (Knows c k) (.act f) Q := by
  refine Protocol.Triple.act (Knows.stable c k) ?_
  intro w hw hk
  obtain ⟨b, u, hf, haccess, hQ⟩ := h w hw hk
  exact ⟨b, _, hf, fun _ => ⟨u, rfl, haccess, haccess.sound, hQ⟩⟩

/-- From one knowledge the program gives an answer and leads to another. -/
def Does {β : Type} (c : C) (k : Knowledge) (prog : Prog (SharedScheduler C) β) (b : β)
    (k' : Knowledge) : Prop :=
  (protocol C).Triple c (Knows c k) prog fun b' w => b' = b ∧ Knows c k' w

section Does

variable {β : Type} {b : β} {f : SharedScheduler C → Option (β × SharedScheduler C)}

theorem Does.andThen {α : Type} {prog : Prog (SharedScheduler C) β}
    {rest : β → Prog (SharedScheduler C) α} {Q : α → SchedulerWorld C → Prop}
    (h : Does c k prog b k') (hrest : (protocol C).Triple c (Knows c k') (rest b) Q) :
    (protocol C).Triple c (Knows c k) (prog >>= rest) Q :=
  Protocol.Triple.andThen h hrest

private theorem Does.act
    (h : ∀ w, w.Sound → Knows c k w → ∃ t, f w.toSharedScheduler = some (b, t) ∧
      (SharedScheduler.Reclaims w.toSharedScheduler t →
        ∃ u, u.toSharedScheduler = t ∧ Access c w u ∧ Knows c k' u)) :
    Does c k (.act f) b k' := by
  refine Protocol.Triple.act (Knows.stable c k) ?_
  intro w hw hk
  obtain ⟨t, hf, hstep⟩ := h w hw hk
  refine ⟨b, t, hf, ?_⟩
  intro hallowed
  obtain ⟨u, hu, haccess, hk'⟩ := hstep hallowed
  exact ⟨u, hu, haccess, haccess.sound, rfl, hk'⟩

private theorem Does.load (h : ∀ w, w.Sound → Knows c k w →
    f w.toSharedScheduler = some (b, w.toSharedScheduler)) : Does c k (.act f) b k := by
  refine .act fun w hw hk => ⟨_, h w hw hk, ?_⟩
  intro _
  exact ⟨w, rfl, .refl c hw, hk⟩

theorem does_loadRunning (g : TaskContext → β) (hp : k.running = some p) :
    Does c k (SharedScheduler.loadNode p fun node => g node.context) (g k.context) k := by
  apply Does.load
  intro w _ hk
  obtain ⟨node, hnode, hcontext⟩ := Scheduler.exists_node (hk.context p hp)
  simp only [hnode, Option.map_some, hcontext]

theorem does_loadPending (g : SchedulerNode → β) (hp : k.pending = some p) :
    Does c k (SharedScheduler.loadNode p g) (g k.node) k := by
  apply Does.load
  intro w _ hk
  rw [hk.node p hp, Option.map_some]

theorem does_loadLinks (g : NodePtr → NodePtr → β) (hheld : k.held = some q) (hp : p ∈ k.members) :
    Does c k (SharedScheduler.loadNode p fun node => g node.next node.previous)
      (g (k.next p) (k.previous p)) k := by
  apply Does.load
  intro w hw hk
  obtain ⟨node, -, -, hnode, -⟩ := hw.exists_node (hk.queued hheld hp)
  obtain ⟨hnext, hprevious⟩ := hk.links q hheld p hp
  rw [Scheduler.next_of_nodes hnode] at hnext
  rw [Scheduler.previous_of_nodes hnode] at hprevious
  simp only [hnode, Option.map_some, hnext, hprevious]

theorem does_loadQueue (g : SchedulerQueue → β) (hheld : k.held = some q) :
    Does c k (SharedScheduler.loadQueue q g) (g k.queue) k := by
  apply Does.load
  intro w _ hk
  rw [hk.queue q hheld]

theorem does_storeQueue {f : SchedulerQueue → SchedulerQueue} (hheld : k.held = some q)
    (hfirst : (f k.queue).first = .null ∨ (f k.queue).first ∈ k.members)
    (hflags : (f k.queue).flags = k.queue.flags) :
    Does c k (SharedScheduler.storeQueue q f) () { k with queue := f k.queue } := by
  apply Does.act
  intro w hw hk
  refine ⟨_, rfl, fun _ => ⟨w.hold _ q (some c), rfl, ?_, ?_⟩⟩
  · refine hw.setQueue (.inr (hk.holder hheld)) (.inr rfl) ?_ ?_ ?_
    · rw [hk.queue q hheld]
      exact hfirst.imp_right (hk.queued hheld)
    · rw [hk.queue q hheld, hflags, ← hk.queue q hheld, hw.locked, hk.holder hheld]
    · exact fun hnone => absurd hnone (Option.some_ne_none c)
  · have hqueue : ∀ q', k.held = some q' → (w.hold (w.setQueue q (f (w.queues q))) q
        (some c)).queues q' = f k.queue := by
      intro q' hq'
      obtain rfl : q = q' := Option.some.inj (hheld.symm.trans hq')
      rw [← hk.queue q hheld]
      exact Function.update_self ..
    have hholder : (w.hold (w.setQueue q (f (w.queues q))) q (some c)).holder = w.holder :=
      (Function.update_eq_self_iff).mpr (hk.holder hheld).symm
    refine ⟨hk.running, hk.pending, ?_, hk.cursor, hk.context, hk.node, hqueue, hk.members,
      hk.links⟩
    intro q'
    rw [hholder, hk.held]

private theorem Does.storeNode {f : SchedulerNode → SchedulerNode}
    (h : ∀ w, w.Sound → Knows c k w → ∃ node x, w.nodes p = some node ∧
      Access c w (w.move (w.setNode p (f node)) p x) ∧
        Knows c k' (w.move (w.setNode p (f node)) p x)) :
    Does c k (SharedScheduler.storeNode p f) () k' := by
  apply Does.act
  intro w hw hk
  obtain ⟨node, x, hnode, haccess, hk'⟩ := h w hw hk
  refine ⟨w.toSharedScheduler.put (w.setNode p (f node)), ?_, fun _ => ⟨_, rfl, haccess, hk'⟩⟩
  rw [Scheduler.modifyNode_eq f hnode, Option.map_some]

private theorem does_storeLinks {f : SchedulerNode → SchedulerNode} {next previous : NodePtr}
    (hheld : k.held = some q) (hp : p ∈ k.members)
    (hcontext : ∀ node, (f node).context = node.context)
    (hnext : ∀ node, node.next = k.next p → (f node).next = next)
    (hprevious : ∀ node, node.previous = k.previous p → (f node).previous = previous)
    (hmem : next ∈ k.members) :
    Does c k (SharedScheduler.storeNode p f) () { k with
      next := Function.update k.next p next
      previous := Function.update k.previous p previous } := by
  apply Does.storeNode
  intro w hw hk
  have hq := hk.queued hheld hp
  obtain ⟨node, owner, hplace, hnode, hqueueNum, hlocked, -⟩ := hw.exists_node hq
  obtain ⟨hlink, hlink'⟩ := hk.links q hheld p hp
  rw [Scheduler.next_of_nodes hnode] at hlink
  rw [Scheduler.previous_of_nodes hnode] at hlink'
  have hnodeContext := Scheduler.context_of_nodes hnode
  refine ⟨node, .queued q owner, hnode, ?_, ?_⟩
  · refine hw.setNode (hw.ne_idle hq) (hw.ne_null hq) (by simp) ?_ ?_ ?_ ?_
    · exact fun q' hq' => Place.queued_in.mpr (hq.unique hq')
    · refine .queued ?_ ?_ (.inl ?_)
      · exact (congrArg TaskContext.queueNum (hcontext node)).trans hqueueNum
      · rw [hcontext, hlocked]
      · rw [hnext node hlink]
        exact hk.queued hheld hmem
    · intro c' _
      refine .inr ⟨hplace.symm, ?_, by simp⟩
      rw [hnodeContext, hcontext]
    · intro q' hq'
      rw [← Place.queued_in.mp hq']
      exact .inl (hk.holder hheld)
  · apply hk.setNode
    · rw [← hk.running, hplace]
    · exact fun _ _ => Iff.rfl
    · intro hrunning
      have := hk.context p hrunning
      rw [hnodeContext, Option.some.injEq] at this
      rw [hcontext, this]
    · exact fun _ _ _ => rfl
    · rw [← hk.pending, hplace]
    · exact fun _ _ => Iff.rfl
    · intro hpending
      rw [← hk.pending, hplace] at hpending
      exact absurd hpending (by simp)
    · exact fun _ _ _ => rfl
    · rfl
    · rfl
    · rfl
    · intro q' hq'
      rw [Place.queued_in]
      exact ⟨fun _ => Option.some.inj (hheld.symm.trans hq'), fun _ => hp⟩
    · exact fun _ _ => Iff.rfl
    · intro _ _ _
      simp only [Function.update_self]
      exact ⟨hnext node hlink, hprevious node hlink'⟩
    · intro r hne
      simp only [Function.update_of_ne hne, and_self]

theorem does_storeNext {next : NodePtr} (hheld : k.held = some q) (hp : p ∈ k.members)
    (hmem : next ∈ k.members) :
    Does c k (SharedScheduler.storeNode p fun contents => { contents with next }) ()
      { k with next := Function.update k.next p next } := by
  have := does_storeLinks (c := c) (k := k) (p := p)
    (f := fun contents => { contents with next }) hheld hp (fun _ => rfl) (fun _ _ => rfl)
    (fun _ h => h) hmem
  rwa [Function.update_eq_self] at this

theorem does_storePrevious {previous : NodePtr} (hheld : k.held = some q) (hp : p ∈ k.members)
    (hmem : k.next p ∈ k.members) :
    Does c k (SharedScheduler.storeNode p fun contents => { contents with previous }) ()
      { k with previous := Function.update k.previous p previous } := by
  have := does_storeLinks (c := c) (k := k) (p := p)
    (f := fun contents => { contents with previous }) hheld hp (fun _ => rfl) (fun _ h => h)
    (fun _ _ => rfl) hmem
  rwa [Function.update_eq_self] at this

theorem does_storePending {f : SchedulerNode → SchedulerNode} (hp : k.pending = some p) :
    Does c k (SharedScheduler.storeNode p f) () { k with node := f k.node } := by
  apply Does.storeNode
  intro w hw hk
  obtain ⟨hplace, hidle, hnull, hout, hrunning⟩ := hk.of_pending hw hp
  refine ⟨k.node, .pending c, hk.node p hp, ?_, ?_⟩
  · refine hw.setNode hidle hnull (by simp) (fun q hq => absurd hq (hout q)) (.pending c _) ?_ ?_
    · intro c' hc'
      rw [hplace]
      exact .inl ⟨by simpa [Place.owner] using hc'.symm, by simpa [Place.owner] using hc'.symm⟩
    · exact fun q hq => absurd hq Place.not_pending_in
  · apply hk.setNode
    · simp [hrunning]
    · exact fun _ _ => Iff.rfl
    · exact fun h => absurd h hrunning
    · exact fun _ _ _ => rfl
    · simp [hp]
    · exact fun _ _ => Iff.rfl
    · exact fun _ => rfl
    · intro r hne hr
      rw [hp, Option.some.injEq] at hr
      exact absurd hr.symm hne
    · rfl
    · rfl
    · rfl
    · intro q hq
      rw [hk.members q hq]
      exact ⟨fun h => absurd h (hout q), fun h => absurd h Place.not_pending_in⟩
    · exact fun _ _ => Iff.rfl
    · intro q hq hmem
      exact absurd ((hk.members q hq p).mp hmem) (hout q)
    · exact fun _ _ => ⟨rfl, rfl⟩

/-- The store after which the node is in its queue. -/
theorem does_adopt {next : NodePtr} (hp : k.pending = some p) (hheld : k.held = some q)
    (hqueueNum : k.node.queueNum = q) (hlocked : k.node.context.locked = false)
    (hnext : next = p ∨ next ∈ k.members) :
    Does c k (SharedScheduler.storeNode p fun contents => { contents with next }) () { k with
      pending := none
      members := k.members ++ [p]
      next := Function.update k.next p next
      previous := Function.update k.previous p k.node.previous } := by
  apply Does.storeNode
  intro w hw hk
  obtain ⟨hplace, hidle, hnull, hout, hrunning⟩ := hk.of_pending hw hp
  refine ⟨k.node, .queued q none, hk.node p hp, ?_, ?_⟩
  · refine hw.setNode hidle hnull (by simp) (fun q hq => absurd hq (hout q)) ?_ ?_ ?_
    · refine .queued hqueueNum hlocked ?_
      rcases hnext with rfl | hnext
      · exact .inr ⟨rfl, Place.queued_in.mpr rfl⟩
      · exact .inl (hk.queued hheld hnext)
    · intro c' hc'
      rw [hplace]
      exact .inl ⟨by simpa [Place.owner] using hc'.symm, by simp [Place.owner]⟩
    · intro q' hq'
      rw [← Place.queued_in.mp hq']
      exact .inl (hk.holder hheld)
  · apply hk.setNode
    · simp [hrunning]
    · exact fun _ _ => Iff.rfl
    · exact fun h => absurd h hrunning
    · exact fun _ _ _ => rfl
    · simp
    · intro r hne
      simp [hp, hne.symm]
    · simp
    · exact fun _ _ _ => rfl
    · rfl
    · rfl
    · rfl
    · intro q' hq'
      rw [Place.queued_in]
      exact ⟨fun _ => Option.some.inj (hheld.symm.trans hq'), fun _ => by simp⟩
    · intro r hne
      simp [hne]
    · intro _ _ _
      simp only [Function.update_self, and_self]
    · intro r hne
      simp only [Function.update_of_ne hne, and_self]

private theorem does_storeFlags {flags : BitVec 64} {running : Option NodePtr}
    (hp : k.running = some p)
    (hrunning : running = if flags.getLsbD schedulerFlagLocked then some p else none) :
    Does c k (SharedScheduler.storeNode p fun contents => { contents with flags }) ()
      { k with running, context := { k.context with flags } } := by
  apply Does.storeNode
  intro w hw hk
  have hplace := hk.place hw hp
  obtain ⟨node, -, -, hnode, -⟩ := hw.exists_node ⟨_, hplace⟩
  have hcontext := hk.context p hp
  rw [Scheduler.context_of_nodes hnode, Option.some.injEq] at hcontext
  generalize hlocked : flags.getLsbD schedulerFlagLocked = locked at hrunning
  have hother : ∀ r ≠ p, k.running ≠ some r := by
    intro r hne hr
    rw [hp, Option.some.injEq] at hr
    exact hne hr.symm
  refine ⟨node, .queued k.context.queueNum (if locked then some c else none), hnode, ?_, ?_⟩
  · refine hw.setFlags hplace hnode (fun c' hc' => by simpa using hc'.symm) ?_ ?_
    · intro c' hc'
      cases locked <;> simp [hc'.symm]
    · rw [hlocked]
      cases locked <;> rfl
  · rw [show ({ k.context with flags } : TaskContext) = { node.context with flags } by
      rw [hcontext]]
    refine hk.setFlags hplace hnode ?_ ?_ hother
    · cases locked <;> simp [hrunning]
    · intro r hne
      cases locked <;> simp [hrunning, hne.symm]

/-- Nothing in the rest of the queue leads to the task any more, and no search stands at it. -/
theorem does_free {l : List NodePtr} (hp : k.running = some p)
    (hheld : k.held = some k.context.queueNum) (hmem : ∀ r, r ∈ k.members ↔ r ∈ l ∨ r = p)
    (hl : p ∉ l) (hnext : ∀ r ∈ l, k.next r ∈ l)
    (hfirst : k.queue.first = .null ∨ k.queue.first ∈ l) :
    Does c k (SharedScheduler.freeNode p) () { k with running := none, members := l } := by
  apply Does.act
  intro w hw hk
  have hplace := hk.place hw hp
  have hq : w.Queued k.context.queueNum p := ⟨_, hplace⟩
  have hmem' : ∀ r, r ≠ p → (r ∈ l ↔ r ∈ k.members) := by
    intro r hne
    rw [hmem, or_iff_left hne]
  refine ⟨_, rfl, fun hreclaims => ⟨w.move (w.free p) p .absent, rfl, ?_, ?_⟩⟩
  · refine hw.free hplace (hk.holder hheld) ?_ ?_ ?_
    · intro r hr hne hrp
      have hrl := (hmem' r hne).mpr ((hk.members _ hheld r).mpr hr)
      have hlink := hnext r hrl
      rw [← (hk.links _ hheld r ((hmem r).mpr (.inl hrl))).1, hrp] at hlink
      exact hl hlink
    · rw [hk.queue _ hheld]
      intro hfp
      rw [hfp] at hfirst
      exact hfirst.elim (hw.ne_null hq) hl
    · obtain ⟨node, -, -, hnode, -⟩ := hw.exists_node hq
      exact hreclaims p (by simp [hnode]) (Function.update_self ..)
  · have hnodes : ∀ r ≠ p, (w.free p).nodes r = w.nodes r :=
      fun r hne => Function.update_of_ne hne _ _
    have hpending : k.pending ≠ some p := by
      intro hp'
      rw [← hk.pending p, hplace] at hp'
      exact absurd hp' (by simp)
    refine ⟨?_, ?_, hk.held, hk.cursor, ?_, ?_, hk.queue, ?_, ?_⟩
    · intro r
      rcases eq_or_ne r p with rfl | hne
      · simp
      · rw [move_place_of_ne _ hne, hk.running, hp]
        simp [hne.symm]
    · intro r
      rcases eq_or_ne r p with rfl | hne
      · simp [hpending]
      · rw [move_place_of_ne _ hne, hk.pending]
    · exact fun r hr => absurd hr (by simp)
    · intro r hr
      have hne : r ≠ p := by
        rintro rfl
        exact hpending hr
      rw [move_toScheduler, hnodes r hne, hk.node r hr]
    · intro q' hq' r
      rcases eq_or_ne r p with rfl | hne
      · rw [move_queued_self]
        exact ⟨fun h => absurd h hl, fun h => absurd h Place.not_absent_in⟩
      · rw [move_queued_of_ne _ hne, hmem' r hne, hk.members q' hq']
    · intro q' hq' r hr
      have hne : r ≠ p := by
        rintro rfl
        exact hl hr
      rw [move_toScheduler, Scheduler.next, Scheduler.previous, hnodes r hne]
      exact hk.links q' hq' r ((hmem r).mpr (.inl hr))

theorem does_mallocNode {address : Nat} {contents : SchedulerNode} (hp : k.pending = none) :
    Does c k (SharedScheduler.mallocNode (.task address) contents) ()
      { k with pending := some (.task address), node := contents } := by
  apply triple_await
  intro w b t hw hk hf
  split at hf
  case isFalse => exact absurd hf (by simp)
  case isTrue hfresh =>
    rw [Option.some.injEq, Prod.mk.injEq] at hf
    have hplace : w.place (.task address) = .absent := by
      have hnode := hw.node (.task address)
      rw [show w.nodes (.task address) = none from hfresh] at hnode
      generalize w.place (.task address) = x at hnode
      cases hnode
      rfl
    have hout : ∀ q, ¬w.Queued q (.task address) := by
      intro q hq
      rw [Queued, hplace] at hq
      exact Place.not_absent_in hq
    have haccess : Access c w (w.move (w.setNode (.task address) contents) (.task address)
        (.pending c)) := by
      refine hw.setNode (by simp) (by simp) (by simp) (fun q hq => absurd hq (hout q))
        (.pending c _) ?_ ?_
      · intro c' hc'
        rw [hplace]
        exact .inl ⟨by simp [Place.owner], by simpa [Place.owner] using hc'.symm⟩
      · exact fun q hq => absurd hq Place.not_pending_in
    have hrunning : k.running ≠ some (.task address) := by
      intro hp'
      rw [← hk.running, hplace] at hp'
      exact absurd hp' (by simp)
    refine ⟨w.move (w.setNode (.task address) contents) (.task address) (.pending c), hf.2,
      haccess, rfl, ?_⟩
    apply hk.setNode
    · simp [hrunning]
    · exact fun _ _ => Iff.rfl
    · exact fun h => absurd h hrunning
    · exact fun _ _ _ => rfl
    · simp
    · intro r hne
      simp [hp, hne.symm]
    · exact fun _ => rfl
    · intro r _ hr
      rw [hp] at hr
      exact absurd hr (by simp)
    · rfl
    · rfl
    · rfl
    · intro q hq
      rw [hk.members q hq]
      exact ⟨fun h => absurd h (hout q), fun h => absurd h Place.not_pending_in⟩
    · exact fun _ _ => Iff.rfl
    · intro q hq hmem
      exact absurd ((hk.members q hq _).mp hmem) (hout q)
    · exact fun _ _ => ⟨rfl, rfl⟩

end Does

/-- Whoever takes the lock of a queue finds it linked. -/
theorem triple_schedulerQueueSpinlock (hheld : k.held = none) :
    (protocol C).Triple c (Knows c k) (SharedScheduler.schedulerQueueSpinlock q) fun _ w =>
      ∃ queue l next previous, QueueLinks next previous queue l ∧
        Knows c (k.enter q queue l next previous) w := by
  apply triple_await
  intro w b t hw hk hf
  obtain ⟨s, hs, ht⟩ := Option.map_eq_some_iff.mp hf
  have hfree : (w.queues q).flags.getLsbD schedulerFlagLocked = false := by
    by_contra hset
    rw [Bool.not_eq_false] at hset
    rw [schedulerQueueSpinlock, atomicSpinlock, if_pos hset] at hs
    exact absurd hs (by simp)
  rw [schedulerQueueSpinlock_free hfree, Option.some.injEq] at hs
  have hholder : w.holder q = none := by
    rw [← Option.not_isSome_iff_eq_none, ← hw.locked, hfree]
    exact Bool.false_ne_true
  obtain ⟨l, hmem, hl⟩ := hw.linked q hholder
  have haccess : Access c w (w.hold (w.lockQueue q) q (some c)) := by
    refine hw.setQueue (.inl hholder) (.inr rfl) (hw.first q) ?_ ?_
    · simp [schedulerFlagLocked]
    · exact fun hnone => absurd hnone (Option.some_ne_none c)
  rw [Prod.mk.injEq] at ht
  refine ⟨w.hold (w.lockQueue q) q (some c), hs ▸ ht.2, haccess, ?_⟩
  refine ⟨(w.lockQueue q).queues q, l, w.next, w.previous, ⟨hl.ring, ?_, ?_⟩, ?_⟩
  · rw [Scheduler.lockQueue, Scheduler.setQueue_queues, Function.update_self]
    exact hl.first
  · rw [Scheduler.lockQueue, Scheduler.setQueue_queues, Function.update_self]
    exact hl.num
  · refine ⟨hk.running, hk.pending, ?_, hk.cursor, hk.context, hk.node, ?_, ?_, ?_⟩
    · intro q'
      rcases eq_or_ne q' q with rfl | hne
      · exact ⟨fun _ => rfl, fun _ => Function.update_self ..⟩
      · rw [show (w.hold (w.lockQueue q) q (some c)).holder q' = w.holder q' from
          Function.update_of_ne hne .., hk.held, hheld]
        simp [Knowledge.enter, hne.symm]
    · intro q' hq'
      rw [← Option.some.inj hq']
      rfl
    · intro q' hq' r
      rw [← Option.some.inj hq']
      exact hmem r
    · exact fun _ _ _ _ => ⟨rfl, rfl⟩

theorem does_schedulerQueueUnlock (hheld : k.held = some q)
    (hlinks : QueueLinks k.next k.previous k.queue k.members) :
    Does c k (SharedScheduler.schedulerQueueUnlock q) () { k with held := none } := by
  refine Does.andThen (does_loadQueue (·.flags) hheld) ?_
  apply Does.act
  intro w hw hk
  have hqueue := hk.queue q hheld
  refine ⟨_, rfl, fun _ => ⟨w.hold _ q none, rfl, ?_, ?_⟩⟩
  · refine hw.setQueue (.inr (hk.holder hheld)) (.inl rfl) (hw.first q) ?_ ?_
    · simp [atomicUnlock, schedulerFlagLocked]
    · intro _
      refine ⟨k.members, hk.members q hheld, ?_, ?_, ?_⟩
      · exact hlinks.ring.congr (fun r hr => (hk.links q hheld r hr).1)
          fun r hr => (hk.links q hheld r hr).2
      · rw [hqueue]
        exact hlinks.first
      · rw [hqueue]
        exact hlinks.num
  · refine ⟨hk.running, hk.pending, ?_, hk.cursor, hk.context, hk.node, ?_, ?_, ?_⟩
    · intro q'
      rcases eq_or_ne q' q with rfl | hne
      · rw [show (w.hold _ q' none).holder q' = none from Function.update_self ..]
        simp
      · rw [show (w.hold _ q none).holder q' = w.holder q' from Function.update_of_ne hne ..,
          hk.held, hheld]
        simp [hne.symm]
    · exact fun _ h => absurd h (by simp)
    · exact fun _ h => absurd h (by simp)
    · exact fun _ h => absurd h (by simp)

theorem does_schedulerNodeUnlock (hp : k.running = some p) :
    Does c k (SharedScheduler.schedulerNodeUnlock p) () { k with
      running := none
      context := k.context.unlock } := by
  refine Does.andThen (does_loadRunning (·.flags) hp) ?_
  apply does_storeFlags hp
  simp [atomicUnlock, schedulerFlagLocked]

theorem does_finishTask (hp : k.running = some p) :
    Does c k (SharedScheduler.finishTask p) () { k with context := k.context.finish } := by
  intro w hw hk
  have hlocked := hk.locked hw hp
  refine ((does_loadRunning (·.flags) hp).andThen ?_ : Does c k _ _ _) w hw hk
  refine does_storeFlags hp ?_
  rw [← TaskContext.finish_locked] at hlocked
  rw [show (k.context.flags ||| BitVec.twoPow 64 schedulerFlagFinished).getLsbD
    schedulerFlagLocked = true from hlocked, if_pos rfl, hp]

/-! ## The search, which takes no queue -/

theorem triple_loadQueue {β : Type} (g : SchedulerQueue → β) :
    (protocol C).Triple c (Knows c k) (SharedScheduler.loadQueue q g) fun _ => Knows c k := by
  apply triple_act
  intro w hw hk
  exact ⟨_, w, rfl, .refl c hw, hk⟩

theorem triple_loadNode {β : Type} (g : SchedulerNode → β) (hcursor : k.cursor = some p) :
    (protocol C).Triple c (Knows c k) (SharedScheduler.loadNode p g) fun _ => Knows c k := by
  apply triple_act
  intro w hw hk
  obtain ⟨q, hq⟩ := hw.cursor c p (hk.cursor.trans hcursor)
  obtain ⟨node, -, -, hnode, -⟩ := hw.exists_node hq
  refine ⟨g node, w, ?_, .refl c hw, hk⟩
  rw [hnode, Option.map_some]

/-- The search takes the task that it stands at, unless another has. -/
theorem triple_schedulerNodeLock (hrunning : k.running = none) (hcursor : k.cursor = some p) :
    (protocol C).Triple c (Knows c k) (SharedScheduler.schedulerNodeLock p) fun locked w =>
      if locked then ∃ context, Knows c { k with running := some p, context } w
      else Knows c k w := by
  apply triple_act
  intro w hw hk
  obtain ⟨q, hq⟩ := hw.cursor c p (hk.cursor.trans hcursor)
  obtain ⟨node, owner, hplace, hnode, -, hlocked, -⟩ := hw.exists_node hq
  have hlock : Kernel.schedulerNodeLock p w.toScheduler = some (!node.context.locked,
      w.setNode p { node with flags := (atomicLock node.flags schedulerFlagLocked).2 }) := by
    rw [Kernel.schedulerNodeLock, hnode]
    rfl
  simp only [hlock, Option.map_some]
  cases owner with
  | some c' =>
      -- The bit stays set, and the node is as it was.
      have hsame : w.setNode p { node with flags := (atomicLock node.flags
          schedulerFlagLocked).2 } = w.toScheduler := by
        have hword : (atomicLock node.flags schedulerFlagLocked).2 = node.flags :=
          congrArg Prod.snd (atomicLock_held hlocked)
        rw [hword, Scheduler.setNode, ← hnode, Function.update_eq_self]
      refine ⟨_, w, by rw [hsame]; rfl, .refl c hw, ?_⟩
      rw [hlocked]
      exact hk
  | none =>
      refine ⟨_, w.move _ p (.queued q (some c)), rfl, ?_, ?_⟩
      · refine hw.setFlags hplace hnode (by simp) (fun c' hc' => by simpa using hc'.symm) ?_
        exact node.context.lock_locked
      · rw [hlocked]
        refine ⟨node.context.lock, hk.setFlags hplace hnode (by simp) ?_ (by simp [hrunning])⟩
        intro r hne
        simpa using hne.symm

section Cursor

variable [DecidableEq C]

private theorem Knows.pointAt (h : Knows c k w) (node : Option NodePtr) :
    Knows c { k with cursor := node } (w.pointAt c node) :=
  ⟨h.running, h.pending, h.held, pointAt_cursor_self, h.context, h.node, h.queue, h.members,
    h.links⟩

theorem does_setCursor_none :
    Does c k (SharedScheduler.setCursor c none) () { k with cursor := none } := by
  apply Does.act
  intro w hw hk
  exact ⟨_, rfl, fun _ => ⟨w.pointAt c none, rfl, hw.pointAt (by simp), hk.pointAt none⟩⟩

theorem triple_loadFirst :
    (protocol C).Triple c (Knows c k) (SharedScheduler.loadFirst c q) fun first w =>
      Knows c { k with cursor := if first = .null then none else some first } w := by
  apply triple_act
  intro w hw hk
  refine ⟨_, w.pointAt c _, rfl, hw.pointAt ?_, hk.pointAt _⟩
  intro p hp
  split at hp
  case isTrue => exact absurd hp (by simp)
  case isFalse hne =>
    obtain rfl := Option.some.inj hp
    exact ⟨q, (hw.first q).resolve_left hne⟩

theorem triple_loadNext (hcursor : k.cursor = some p) :
    (protocol C).Triple c (Knows c k) (SharedScheduler.loadNext c p) fun next w =>
      Knows c { k with cursor := some next } w := by
  apply triple_act
  intro w hw hk
  obtain ⟨q, hq⟩ := hw.cursor c p (hk.cursor.trans hcursor)
  obtain ⟨node, -, -, hnode, -, -, hnext⟩ := hw.exists_node hq
  refine ⟨node.next, w.pointAt c (some node.next), ?_, hw.pointAt ?_, hk.pointAt _⟩
  · rw [hnode, Option.map_some]
    rfl
  · intro r hr
    rw [← Option.some.inj hr]
    exact ⟨q, hnext⟩

end Cursor

end SchedulerWorld

end VisualOS.Kernel
