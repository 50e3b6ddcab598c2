import VisualOS.Framework.Transition

/-!
# Starting the application processors

`local_apic_start_smp` on the bootstrap processor (BSP) starts one application processor (AP)
after the other.  Each runs the trampoline in one shared page, and the two sides synchronise
through `ap_status` and `bsp_status` in it.
-/

namespace VisualOS.Kernel

open Framework

/-- `struct LocalAPICApplicationProcessorCommunication`, which is `trampoline_data`. -/
structure ApCommunication where
  apStatus : BitVec 8
  bspStatus : BitVec 8
  pagetableL4 : BitVec 32
  stackPtr : BitVec 64
  stackSize : BitVec 32
  apContext : BitVec 64
  cpuInitAp : BitVec 64
  schedulerEntry : BitVec 64
  deriving DecidableEq

/-- The data as it is copied with the trampoline. -/
def trampolineData : ApCommunication := ⟨0, 0, 0, 0, 0, 0, 0, 0⟩

/-- What an AP does next: `code` to `jump` are in the trampoline, at the next access to its
data, except that `inInit` is in `cpu_init_ap`, which returns there. -/
inductive ApPc
  | halted
  | waiting
  | code
  | spin
  | reset
  | protectedMode
  | longMode
  | loadContext
  | loadStack
  | call
  | inInit
  | finish
  | jump
  | scheduler
  deriving DecidableEq, Repr

/-- An AP with what it has loaded; `called` and `entered` are the targets of its call and of its
last jump. -/
structure Ap where
  pc : ApPc
  cr3 : BitVec 32
  rsp : BitVec 64
  rdi : BitVec 64
  rsi : BitVec 64
  called : BitVec 64
  entered : BitVec 64
  deriving DecidableEq

def haltedAp : Ap := ⟨.halted, 0, 0, 0, 0, 0, 0⟩

/-- One step of the trampoline. -/
def apStep (page : ApCommunication) (ap : Ap) : ApCommunication × Ap :=
  match ap.pc with
  | .halted | .waiting | .scheduler => (page, ap)
  | .code => ({ page with apStatus := 1 }, { ap with pc := .spin })
  | .spin => if page.bspStatus = 0 then (page, ap) else (page, { ap with pc := .reset })
  | .reset => ({ page with apStatus := 0 }, { ap with pc := .protectedMode })
  | .protectedMode => (page, { ap with pc := .longMode, cr3 := page.pagetableL4 })
  | .longMode => (page, { ap with pc := .loadContext, rsp := page.stackPtr })
  | .loadContext => (page, { ap with pc := .loadStack, rdi := page.apContext })
  | .loadStack => (page, { ap with pc := .call, rsi := page.stackPtr })
  | .call => (page, { ap with pc := .inInit, called := page.cpuInitAp })
  | .inInit => (page, { ap with pc := .finish })
  | .finish => ({ page with apStatus := 2 }, { ap with pc := .jump })
  | .jump => (page, { ap with pc := .scheduler, entered := page.schedulerEntry })

/-- What the BSP does next in the body of its loop. -/
inductive BspPc
  | copy
  | init
  | startup (second : Bool)
  | waitAwake
  | stackPtr
  | stackSize
  | apContext
  | cpuInitAp
  | schedulerEntry
  | pagetableL4
  | bspStatus
  | waitResponse
  deriving DecidableEq, Repr

/-- What the BSP tells the APs; `A` are their numbers. -/
structure ApSettings (A : Type) where
  stackPtr : A → BitVec 64
  stackSize : BitVec 32
  apContext : A → BitVec 64
  cpuInitAp : BitVec 64
  schedulerEntry : BitVec 64
  pagetableL4 : BitVec 32

/-- `remaining` are the APs that the loop has not finished with; the BSP is at the first. -/
structure SmpStart (A : Type) where
  page : ApCommunication
  bsp : BspPc
  remaining : List A
  aps : A → Ap

section Model

variable {A : Type} [DecidableEq A]

/-- A startup interrupt, which is ignored except after INIT. -/
def startupIpi (ap : Ap) : Ap := if ap.pc = .waiting then { ap with pc := .code } else ap

/-- One step of `local_apic_start_smp`.  A poll that does not end its loop changes nothing. -/
def bspStep (settings : ApSettings A) (s : SmpStart A) : SmpStart A :=
  match s.remaining with
  | [] => s
  | a :: rest =>
      match s.bsp with
      | .copy => { s with bsp := .init, page := trampolineData }
      | .init =>
          { s with
            bsp := .startup false
            aps := Function.update s.aps a { haltedAp with pc := .waiting } }
      | .startup second =>
          { s with
            bsp := if second then .waitAwake else .startup true
            aps := Function.update s.aps a (startupIpi (s.aps a)) }
      | .waitAwake => if s.page.apStatus = 0 then s else { s with bsp := .stackPtr }
      | .stackPtr =>
          { s with bsp := .stackSize, page := { s.page with stackPtr := settings.stackPtr a } }
      | .stackSize =>
          { s with bsp := .apContext, page := { s.page with stackSize := settings.stackSize } }
      | .apContext =>
          { s with bsp := .cpuInitAp, page := { s.page with apContext := settings.apContext a } }
      | .cpuInitAp =>
          { s with bsp := .schedulerEntry, page := { s.page with cpuInitAp := settings.cpuInitAp } }
      | .schedulerEntry =>
          { s with
            bsp := .pagetableL4
            page := { s.page with schedulerEntry := settings.schedulerEntry } }
      | .pagetableL4 =>
          { s with bsp := .bspStatus, page := { s.page with pagetableL4 := settings.pagetableL4 } }
      | .bspStatus => { s with bsp := .waitResponse, page := { s.page with bspStatus := 1 } }
      | .waitResponse =>
          if s.page.apStatus = 0 then s else { s with bsp := .copy, remaining := rest }

/-- Whose step it is. -/
inductive StartAction (A : Type)
  | bsp
  | ap (a : A)

def startStep (settings : ApSettings A) (s : SmpStart A) : StartAction A → SmpStart A
  | .bsp => bspStep settings s
  | .ap a =>
      let (page, ap) := apStep s.page (s.aps a)
      { s with page, aps := Function.update s.aps a ap }

/-- Before `local_apic_start_smp`, which passes over the BSP itself. -/
def smpStart (bsp : A) (processors : List A) (page : ApCommunication) : SmpStart A where
  page
  bsp := .copy
  remaining := processors.filter (· ≠ bsp)
  aps _ := haltedAp

/-- Between its start and its last jump an AP is in the page, or returns to it. -/
def OnPage (ap : Ap) : Prop := ap.pc ≠ .halted ∧ ap.pc ≠ .scheduler

/-- `ap_status` does not still hold the AP's first answer, and if it holds the second then the AP
has left the page. -/
def Settled (ap : Ap) : Prop := ap.pc ≠ .spin ∧ ap.pc ≠ .reset ∧ ap.pc ≠ .jump

instance (ap : Ap) : Decidable (OnPage ap) := inferInstanceAs (Decidable (_ ∧ _))

instance (ap : Ap) : Decidable (Settled ap) := inferInstanceAs (Decidable (_ ∧ _))

/-- The last wait reads `ap_status` only while the AP it waits for is settled. -/
def PollSettled (s : SmpStart A) : StartAction A → Prop
  | .bsp => s.bsp = .waitResponse → ∀ a ∈ s.remaining.head?, Settled (s.aps a)
  | .ap _ => True

instance (s : SmpStart A) : DecidablePred (PollSettled s)
  | .bsp => inferInstanceAs (Decidable (_ → _))
  | .ap _ => inferInstanceAs (Decidable True)

/-- The step does not leave the last wait before the AP has answered for the second time, and
does not copy the trampoline over one that is in use. -/
def HandshakeSafe (settings : ApSettings A) (s : SmpStart A) : StartAction A → Prop
  | .bsp =>
      (s.bsp = .waitResponse → (bspStep settings s).bsp ≠ .waitResponse →
        ∀ a ∈ s.remaining.head?, (s.aps a).pc = .jump ∨ (s.aps a).pc = .scheduler) ∧
      (s.bsp = .copy → s.remaining ≠ [] → ∀ a, ¬ OnPage (s.aps a))
  | .ap _ => True

instance [Fintype A] (settings : ApSettings A) (s : SmpStart A) :
    DecidablePred (HandshakeSafe settings s)
  | .bsp => inferInstanceAs (Decidable (_ ∧ _))
  | .ap _ => inferInstanceAs (Decidable True)

end Model

section Progress

variable {A : Type} (settings : ApSettings A)

/-- The answer that an AP's last write has left. -/
def apStatus : ApPc → BitVec 8
  | .spin | .reset => 1
  | .jump | .scheduler => 2
  | _ => 0

/-- An AP that has come to `pc` with the data for `a`. -/
def apAt (a : A) (pc : ApPc) : Ap where
  pc
  cr3 := if ApPc.protectedMode.ctorIdx < pc.ctorIdx then settings.pagetableL4 else 0
  rsp := if ApPc.longMode.ctorIdx < pc.ctorIdx then settings.stackPtr a else 0
  rdi := if ApPc.loadContext.ctorIdx < pc.ctorIdx then settings.apContext a else 0
  rsi := if ApPc.loadStack.ctorIdx < pc.ctorIdx then settings.stackPtr a else 0
  called := if ApPc.call.ctorIdx < pc.ctorIdx then settings.cpuInitAp else 0
  entered := if ApPc.jump.ctorIdx < pc.ctorIdx then settings.schedulerEntry else 0

/-- The page when the BSP has come to `bsp` for `a`, which is at `pc`. -/
def pageAt (a : A) (bsp : BspPc) (pc : ApPc) : ApCommunication where
  apStatus := if bsp = .init then 0 else apStatus pc
  bspStatus := if BspPc.bspStatus.ctorIdx < bsp.ctorIdx then 1 else 0
  pagetableL4 := if BspPc.pagetableL4.ctorIdx < bsp.ctorIdx then settings.pagetableL4 else 0
  stackPtr := if BspPc.stackPtr.ctorIdx < bsp.ctorIdx then settings.stackPtr a else 0
  stackSize := if BspPc.stackSize.ctorIdx < bsp.ctorIdx then settings.stackSize else 0
  apContext := if BspPc.apContext.ctorIdx < bsp.ctorIdx then settings.apContext a else 0
  cpuInitAp := if BspPc.cpuInitAp.ctorIdx < bsp.ctorIdx then settings.cpuInitAp else 0
  schedulerEntry :=
    if BspPc.schedulerEntry.ctorIdx < bsp.ctorIdx then settings.schedulerEntry else 0

/-- Where the AP that the BSP is starting can be. -/
def Meets : BspPc → ApPc → Prop
  | .copy, pc | .init, pc => pc = .halted ∨ pc = .scheduler
  | .startup false, pc => pc = .waiting
  | .startup true, pc | .waitAwake, pc => pc = .code ∨ pc = .spin
  | .waitResponse, pc => pc ≠ .halted ∧ pc ≠ .waiting ∧ pc ≠ .code
  | _, pc => pc = .spin

/-- The first AP of `remaining` is at a place that fits the BSP's, and all others have not been
started or have left the page. -/
structure StartInvariant (s : SmpStart A) : Prop where
  others : ∀ b, b ∉ s.remaining.head? →
    s.aps b = apAt settings b .halted ∨ s.aps b = apAt settings b .scheduler
  current : ∀ a ∈ s.remaining.head?, ∃ pc, Meets s.bsp pc ∧ s.aps a = apAt settings a pc ∧
    (s.bsp ≠ .copy → s.page = pageAt settings a s.bsp pc)

private theorem apStep_idle {page : ApCommunication} {a : A} {pc : ApPc}
    (hpc : pc = .halted ∨ pc = .scheduler) :
    apStep page (apAt settings a pc) = (page, apAt settings a pc) := by
  rcases hpc with rfl | rfl <;> rfl

private theorem apStep_meets (a : A) {bsp : BspPc} {pc : ApPc} (hbsp : bsp ≠ .copy)
    (hpc : Meets bsp pc) : ∃ pc', Meets bsp pc' ∧
      apStep (pageAt settings a bsp pc) (apAt settings a pc) =
        (pageAt settings a bsp pc', apAt settings a pc') := by
  cases bsp with
  | copy => exact absurd rfl hbsp
  | init => exact ⟨pc, hpc, apStep_idle settings hpc⟩
  | startup second =>
      cases second with
      | false =>
          cases (hpc : pc = .waiting)
          exact ⟨_, rfl, rfl⟩
      | true =>
          refine ⟨.spin, Or.inr rfl, ?_⟩
          rcases hpc with rfl | rfl <;> rfl
  | waitAwake =>
      refine ⟨.spin, Or.inr rfl, ?_⟩
      rcases hpc with rfl | rfl <;> rfl
  | waitResponse =>
      obtain ⟨h₁, h₂, h₃⟩ := hpc
      cases pc with
      | halted | waiting | code => contradiction
      | spin => exact ⟨.reset, by simp [Meets], rfl⟩
      | reset => exact ⟨.protectedMode, by simp [Meets], rfl⟩
      | protectedMode => exact ⟨.longMode, by simp [Meets], rfl⟩
      | longMode => exact ⟨.loadContext, by simp [Meets], rfl⟩
      | loadContext => exact ⟨.loadStack, by simp [Meets], rfl⟩
      | loadStack => exact ⟨.call, by simp [Meets], rfl⟩
      | call => exact ⟨.inInit, by simp [Meets], rfl⟩
      | inInit => exact ⟨.finish, by simp [Meets], rfl⟩
      | finish => exact ⟨.jump, by simp [Meets], rfl⟩
      | jump => exact ⟨.scheduler, by simp [Meets], rfl⟩
      | scheduler => exact ⟨.scheduler, by simp [Meets], rfl⟩
  | _ =>
      cases (hpc : pc = .spin)
      exact ⟨_, rfl, rfl⟩

private theorem apStatus_of_settled {ap : Ap} (hsettled : Settled ap) (hleft : ap.pc ≠ .scheduler) :
    apStatus ap.pc = 0 := by
  obtain ⟨h₁, h₂, h₃⟩ := hsettled
  cases hpc : ap.pc with
  | spin | reset | jump | scheduler => contradiction
  | _ => rfl

private theorem onPage_of_not_settled {ap : Ap} (h : ¬ Settled ap) : OnPage ap := by
  constructor
  · intro hpc
    exact h (by simp [Settled, hpc])
  · intro hpc
    exact h (by simp [Settled, hpc])

private theorem apStatus_of_not_settled {ap : Ap} (h : ¬ Settled ap) : apStatus ap.pc ≠ 0 := by
  cases hpc : ap.pc with
  | spin | reset | jump | scheduler => decide
  | _ => exact absurd (by simp [Settled, hpc]) h

variable {settings} [DecidableEq A] {s : SmpStart A}

private theorem StartInvariant.move (h : StartInvariant settings s) {a : A} {page : ApCommunication}
    {bsp : BspPc} {pc : ApPc} (ha : a ∈ s.remaining.head?) (hpc : Meets bsp pc)
    (hpage : page = pageAt settings a bsp pc) :
    StartInvariant settings
      ⟨page, bsp, s.remaining, Function.update s.aps a (apAt settings a pc)⟩ where
  others b hb := by
    have hne : b ≠ a := by
      intro hab
      exact hb (hab ▸ ha)
    dsimp only
    rw [Function.update_of_ne hne]
    exact h.others b hb
  current b hb := by
    cases Option.mem_unique hb ha
    exact ⟨pc, hpc, Function.update_self .., fun _ => hpage⟩

private theorem StartInvariant.leave {page page' : ApCommunication} {bsp : BspPc} {a : A}
    {rest : List A} {aps : A → Ap} (h : StartInvariant settings ⟨page, bsp, a :: rest, aps⟩)
    (ha : aps a = apAt settings a .scheduler) :
    StartInvariant settings ⟨page', .copy, rest, aps⟩ := by
  have hothers (b : A) : aps b = apAt settings b .halted ∨ aps b = apAt settings b .scheduler := by
    by_cases hb : b = a
    · rw [hb]
      exact Or.inr ha
    · apply h.others b
      intro hmem
      exact hb (Option.some_inj.mp hmem).symm
  refine ⟨fun b _ => hothers b, fun b _ => ?_⟩
  rcases hothers b with hb | hb
  · exact ⟨.halted, Or.inl rfl, hb, fun hcopy => absurd rfl hcopy⟩
  · exact ⟨.scheduler, Or.inr rfl, hb, fun hcopy => absurd rfl hcopy⟩

private theorem StartInvariant.ap_step (h : StartInvariant settings s) (a : A) :
    StartInvariant settings (startStep settings s (.ap a)) := by
  have hidle {pc : ApPc} (ha : s.aps a = apAt settings a pc) (hpc : pc = .halted ∨ pc = .scheduler) :
      startStep settings s (.ap a) = s := by
    simp only [startStep, ha, apStep_idle settings hpc]
    rw [← ha, Function.update_eq_self]
  by_cases hcurrent : a ∈ s.remaining.head?
  · obtain ⟨pc, hpc, ha, hpage⟩ := h.current a hcurrent
    by_cases hbsp : s.bsp = .copy
    · rw [hbsp] at hpc
      rwa [hidle ha hpc]
    · obtain ⟨pc', hpc', hstep⟩ := apStep_meets settings a hbsp hpc
      simp only [startStep, ha, hpage hbsp, hstep]
      exact h.move hcurrent hpc' rfl
  · rcases h.others a hcurrent with ha | ha
    · rwa [hidle ha (Or.inl rfl)]
    · rwa [hidle ha (Or.inr rfl)]

private theorem StartInvariant.poll (h : StartInvariant settings s) (hbsp : s.bsp = .waitResponse)
    {a : A} {rest : List A} (hremaining : s.remaining = a :: rest) :
    bspStep settings s =
      if apStatus (s.aps a).pc = 0 then s else { s with bsp := .copy, remaining := rest } := by
  obtain ⟨pc, _, ha, hpage⟩ := h.current a (by rw [hremaining]; rfl)
  have hstatus : s.page.apStatus = apStatus (s.aps a).pc := by
    rw [hpage (by simp [hbsp]), ha, hbsp]
    rfl
  simp only [bspStep, hremaining, hbsp, hstatus]

private theorem StartInvariant.bsp_step (h : StartInvariant settings s) (hok : PollSettled s .bsp) :
    StartInvariant settings (bspStep settings s) := by
  obtain ⟨page, bsp, remaining, aps⟩ := s
  cases remaining with
  | nil => exact h
  | cons a rest =>
      obtain ⟨pc, hpc, ha, hpage⟩ := h.current a rfl
      -- Most stages write to the page and leave the AP where it is.
      have hstay {page' : ApCommunication} {bsp' : BspPc} (hpc' : Meets bsp' pc)
          (hpage' : page' = pageAt settings a bsp' pc) :
          StartInvariant settings ⟨page', bsp', a :: rest, aps⟩ := by
        have hmove := h.move rfl hpc' hpage'
        rwa [← ha, Function.update_eq_self] at hmove
      dsimp only at hpc ha hpage
      cases bsp with
      | copy =>
          have hinit : Meets .init pc := hpc
          apply hstay hinit
          rcases hinit with rfl | rfl <;> rfl
      | init =>
          simp only [bspStep, hpage (by simp)]
          have hwaiting : Meets (.startup false) .waiting := rfl
          exact h.move rfl hwaiting rfl
      | startup second =>
          simp only [bspStep, hpage (by simp), ha]
          cases second with
          | false =>
              cases (hpc : pc = .waiting)
              have hcode : Meets (.startup true) .code := Or.inl rfl
              exact h.move rfl hcode rfl
          | true =>
              -- The second interrupt finds the AP running.
              have hrunning : startupIpi (apAt settings a pc) = apAt settings a pc := by
                rcases hpc with rfl | rfl <;> rfl
              have hawake : Meets .waitAwake pc := hpc
              rw [hrunning, ← ha, Function.update_eq_self]
              apply hstay hawake
              rcases hawake with rfl | rfl <;> rfl
      | waitAwake =>
          rcases hpc with rfl | rfl
          · simpa [bspStep, hpage, pageAt, apStatus] using h
          · simp only [bspStep, hpage (by simp)]
            exact hstay rfl rfl
      | waitResponse =>
          have hsettled : Settled (aps a) := hok rfl a rfl
          rw [h.poll rfl rfl]
          by_cases hleft : (aps a).pc = .scheduler
          · have hscheduler : pc = .scheduler := by rwa [ha] at hleft
            rw [if_neg (by rw [hleft]; decide)]
            exact h.leave (hscheduler ▸ ha)
          · rw [if_pos (apStatus_of_settled hsettled hleft)]
            exact h
      | bspStatus =>
          cases (hpc : pc = .spin)
          simp only [bspStep, hpage (by simp)]
          exact hstay (by simp [Meets]) rfl
      | _ =>
          cases (hpc : pc = .spin)
          simp only [bspStep, hpage (by simp)]
          exact hstay rfl rfl

private theorem smpStart_invariant (bsp : A) (processors : List A) (page : ApCommunication) :
    StartInvariant settings (smpStart bsp processors page) where
  others _ _ := Or.inl rfl
  current _ _ := ⟨.halted, Or.inl rfl, rfl, fun hcopy => absurd rfl hcopy⟩

private theorem StartInvariant.step (h : StartInvariant settings s) {action : StartAction A}
    (hok : PollSettled s action) : StartInvariant settings (startStep settings s action) := by
  cases action with
  | bsp => exact h.bsp_step hok
  | ap a => exact h.ap_step a

private theorem StartInvariant.not_onPage (h : StartInvariant settings s) (hbsp : s.bsp = .copy)
    (a : A) : ¬ OnPage (s.aps a) := by
  have hidle : s.aps a = apAt settings a .halted ∨ s.aps a = apAt settings a .scheduler := by
    by_cases ha : a ∈ s.remaining.head?
    · obtain ⟨pc, hpc, hap, _⟩ := h.current a ha
      rw [hbsp] at hpc
      rcases hpc with rfl | rfl
      · exact Or.inl hap
      · exact Or.inr hap
    · exact h.others a ha
  rintro ⟨h₁, h₂⟩
  rcases hidle with hap | hap
  · exact h₁ (by rw [hap]; rfl)
  · exact h₂ (by rw [hap]; rfl)

/-- A settled poll leaves the wait only when the AP has left the page. -/
theorem StartInvariant.safe (h : StartInvariant settings s) {action : StartAction A}
    (hok : PollSettled s action) : HandshakeSafe settings s action := by
  cases action with
  | ap a => trivial
  | bsp =>
      refine ⟨?_, fun hcopy _ => h.not_onPage hcopy⟩
      intro hbsp hleaves a ha
      by_contra hpc
      obtain ⟨rest, hremaining⟩ := List.head?_eq_some_iff.mp ha
      have hleft : (s.aps a).pc ≠ .scheduler := fun heq => hpc (Or.inr heq)
      rw [h.poll hbsp hremaining, if_pos (apStatus_of_settled (hok hbsp a ha) hleft)] at hleaves
      exact hleaves hbsp

/-- After any other poll the BSP goes on, and its next step copies over the page. -/
theorem StartInvariant.not_safe (h : StartInvariant settings s) {action : StartAction A}
    (hok : ¬ PollSettled s action) (hremaining : 1 < s.remaining.length) :
    ¬ HandshakeSafe settings (startStep settings s action) .bsp := by
  cases action with
  | ap a => exact absurd trivial hok
  | bsp =>
      simp only [PollSettled, Classical.not_imp, not_forall] at hok
      obtain ⟨hbsp, a, ha, hsettled⟩ := hok
      obtain ⟨rest, hrest⟩ := List.head?_eq_some_iff.mp ha
      have hstep : startStep settings s .bsp = { s with bsp := .copy, remaining := rest } := by
        simp only [startStep]
        rw [h.poll hbsp hrest, if_neg (apStatus_of_not_settled hsettled)]
      have hnonempty : rest ≠ [] := by
        rintro rfl
        simp [hrest] at hremaining
      rw [hstep]
      intro hsafe
      exact hsafe.2 rfl hnonempty a (onPage_of_not_settled hsettled)

end Progress

section Runs

variable {A : Type} [DecidableEq A] {settings : ApSettings A} {bsp : A} {processors : List A}
  {page : ApCommunication} {actions : List (StartAction A)} {s : SmpStart A}

def StartStep (settings : ApSettings A) (s : SmpStart A) (action : StartAction A)
    (t : SmpStart A) : Prop :=
  t = startStep settings s action

private theorem guardedRun_invariant
    (hrun : Run (Guarded (StartStep settings) PollSettled) (smpStart bsp processors page) actions s) :
    StartInvariant settings s := by
  apply hrun.invariant _ (smpStart_invariant bsp processors page)
  intro s action t h hstep
  obtain ⟨hok, rfl⟩ := hstep
  exact h.step hok

/-- Along settled polls the handshake is safe in any interleaving with any number of APs, and one
poll that is not settled lets the BSP copy over the page in use. -/
theorem start_smp_handshake_safe
    (hrun : Run (Guarded (StartStep settings) PollSettled) (smpStart bsp processors page) actions s)
    (action : StartAction A) :
    (PollSettled s action → HandshakeSafe settings s action) ∧
      (¬ PollSettled s action → 1 < s.remaining.length →
        ¬ HandshakeSafe settings (startStep settings s action) .bsp) := by
  have h := guardedRun_invariant hrun
  exact ⟨h.safe, h.not_safe⟩

/-- Each AP that has come to the scheduler has been given its own stack and context. -/
theorem guardedRun_scheduler
    (hrun : Run (Guarded (StartStep settings) PollSettled) (smpStart bsp processors page) actions s)
    {a : A} (ha : (s.aps a).pc = .scheduler) : s.aps a = apAt settings a .scheduler := by
  have h := guardedRun_invariant hrun
  by_cases hcurrent : a ∈ s.remaining.head?
  · obtain ⟨pc, _, hap, _⟩ := h.current a hcurrent
    have hpc : pc = .scheduler := by rwa [hap] at ha
    rwa [hpc] at hap
  · rcases h.others a hcurrent with hap | hap
    · rw [hap] at ha
      cases ha
    · exact hap

end Runs

section Small

def smallSettings : ApSettings (Fin 3) where
  stackPtr a := 0x10000 + a.val * 0x1000
  stackSize := 0x1000
  apContext a := 0x20000 + a.val * 0x100
  cpuInitAp := 0x30000
  schedulerEntry := 0x40000
  pagetableL4 := 0x50000

def smallStart : SmpStart (Fin 3) := smpStart 0 [0, 1, 2] trampolineData

/-- The BSP comes to the last wait for the AP, which has only said that it is awake. -/
def wakeActions (a : Fin 3) : List (StartAction (Fin 3)) :=
  List.replicate 4 .bsp ++ .ap a :: List.replicate 8 .bsp

theorem start_smp_handshake_safe_two :
    ∃ s, Run (Guarded (StartStep smallSettings) PollSettled) smallStart
        (wakeActions 1 ++ List.replicate 10 (.ap 1) ++ [.bsp]) s ∧
      s.remaining = [2] ∧ HandshakeSafe smallSettings s .bsp := by
  have hok : Along (startStep smallSettings) PollSettled smallStart
      (wakeActions 1 ++ List.replicate 10 (.ap 1) ++ [.bsp]) := by
    decide +kernel
  exact ⟨_, hok.run, by rfl, (start_smp_handshake_safe hok.run .bsp).1 (by decide +kernel)⟩

/-- The poll takes the AP's first answer for the second; or it takes the second before the AP has
read `scheduler_entry`, which is then 0. -/
theorem start_smp_handshake_races :
    (∃ s, Run (StartStep smallSettings) smallStart (wakeActions 1) s ∧
      (s.aps 1).pc = .spin ∧ s.page.apStatus = 1 ∧ ¬ HandshakeSafe smallSettings s .bsp ∧
      ¬ HandshakeSafe smallSettings (bspStep smallSettings s) .bsp) ∧
    ∃ s, Run (StartStep smallSettings) smallStart
        (wakeActions 1 ++ List.replicate 9 (.ap 1) ++ [.bsp]) s ∧
      (s.aps 1).pc = .jump ∧ ¬ HandshakeSafe smallSettings s .bsp ∧
      (([.bsp, .ap 1].foldl (startStep smallSettings) s).aps 1).entered = 0 := by
  refine ⟨⟨_, Run.foldl (startStep smallSettings) _ _, ?_⟩,
    ⟨_, Run.foldl (startStep smallSettings) _ _, ?_⟩⟩
  · decide +kernel
  · decide +kernel

end Small

end VisualOS.Kernel
