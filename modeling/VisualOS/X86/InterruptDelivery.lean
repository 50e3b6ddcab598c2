import VisualOS.Scheduler.Scheduler
import VisualOS.X86.Descriptors
import VisualOS.X86.SyscallPreemption

/-!
# Delivery of interrupts

The tables that `cpu_init` builds for a processor, as the processor uses them: which vectors reach
their entry point in `isr.asm`, on which stack, and which segments the selectors of the kernel
stand for.
-/

namespace VisualOS.Kernel

open Framework

/-- The stacks in a `CPUContext`. -/
structure CpuStacks where
  kernel : BitVec 64
  isr : BitVec 64
  irq : BitVec 64
  timer : BitVec 64

/-- The descriptor table as `cpu_init` leaves it. -/
def cpuGdt (context : CpuStacks) (gdtBlock : BitVec 64) (b : GdtBlock) : GdtBlock :=
  let b := gdtInit gdtBlock b
  let b := gdtSetTssRing 0 context.kernel b
  let b := gdtSetTssIst idtIstIsr.toNat context.isr b
  let b := gdtSetTssIst idtIstIrq.toNat context.irq b
  gdtSetTssIst idtIstTimer.toNat context.timer b

/-- `GDT_OFFSET_TSS`. -/
def gdtOffsetTss : Nat := 0x30

/-- `gdt_load` and `idt_load`. -/
def cpuLoadTables (memory : Nat → BitVec 8) (gdtBlock idtBlock : BitVec 64) :
    Option DescriptorTables := do
  let gdtr := loadTable memory gdtBlock.toNat
  let tr ← loadTask memory gdtr gdtOffsetTss
  return { gdtr, idtr := loadTable memory idtBlock.toNat, tr }

/-- The stack that a gate selects. -/
def CpuStacks.ofIst (context : CpuStacks) (ist : BitVec 8) : BitVec 64 :=
  if ist = idtIstIsr then context.isr
  else if ist = idtIstIrq then context.irq
  else context.timer

/-! ## Fields as they are read -/

section Fields

variable {memory : Nat → BitVec 8} {address : Nat}

private theorem LaidOut.readBits {w n : Nat} {x : BitVec w}
    (h : LaidOut memory address (leBytes n x.toNat))
    (hw : 2 ^ w ≤ 256 ^ n) : readLe memory n address = x.toNat := by
  rw [LaidOut.read h, Nat.mod_eq_of_lt (x.isLt.trans_le hw)]

structure GdtEntry.At (e : GdtEntry) (memory : Nat → BitVec 8) (address : Nat) : Prop where
  limitLow : readLe memory 2 address = e.limitLow.toNat
  baseLow : readLe memory 2 (address + 2) = e.baseLow.toNat
  baseMid : readLe memory 1 (address + 4) = e.baseMid.toNat
  access : readLe memory 1 (address + 5) = e.access.toNat
  flags : readLe memory 1 (address + 6) = e.flags.toNat
  baseHigh : readLe memory 1 (address + 7) = e.baseHigh.toNat

private theorem GdtEntry.at_of_stored {e : GdtEntry} (h : LaidOut memory address e.bytes) :
    e.At memory address := by
  simp only [bytes, laidOut_append, List.length_append, leBytes_length] at h
  obtain ⟨⟨⟨⟨⟨h₁, h₂⟩, h₃⟩, h₄⟩, h₅⟩, h₆⟩ := h
  constructor
  · exact LaidOut.readBits h₁ (by norm_num)
  · exact LaidOut.readBits h₂ (by norm_num)
  · exact LaidOut.readBits h₃ (by norm_num)
  · exact LaidOut.readBits h₄ (by norm_num)
  · exact LaidOut.readBits h₅ (by norm_num)
  · exact LaidOut.readBits h₆ (by norm_num)

structure IdtEntry.At (e : IdtEntry) (memory : Nat → BitVec 8) (address : Nat) : Prop where
  offsetLow : readLe memory 2 address = e.offsetLow.toNat
  selector : readLe memory 2 (address + 2) = e.selector.toNat
  ist : readLe memory 1 (address + 4) = e.ist.toNat
  typeAttr : readLe memory 1 (address + 5) = e.typeAttr.toNat
  offsetMid : readLe memory 2 (address + 6) = e.offsetMid.toNat
  offsetHigh : readLe memory 4 (address + 8) = e.offsetHigh.toNat

private theorem IdtEntry.at_of_stored {e : IdtEntry} (h : LaidOut memory address e.bytes) :
    e.At memory address := by
  simp only [bytes, laidOut_append, List.length_append, leBytes_length] at h
  obtain ⟨⟨⟨⟨⟨⟨h₁, h₂⟩, h₃⟩, h₄⟩, h₅⟩, h₆⟩, -⟩ := h
  constructor
  · exact LaidOut.readBits h₁ (by norm_num)
  · exact LaidOut.readBits h₂ (by norm_num)
  · exact LaidOut.readBits h₃ (by norm_num)
  · exact LaidOut.readBits h₄ (by norm_num)
  · exact LaidOut.readBits h₅ (by norm_num)
  · exact LaidOut.readBits h₆ (by norm_num)

private theorem wordBytes_length (n : Nat) (words : Nat → BitVec 32) :
    (wordBytes n words).length = 4 * n := by
  simp [wordBytes, Function.comp_def, Nat.mul_comm]

private theorem GdtBlock.bytes_length (b : GdtBlock) : b.bytes.length = sizeofGdtBlock := by
  simp [GdtBlock.bytes, GdtEntry.bytes, TssEntry.bytes, wordBytes_length, gdtNum, sizeofGdtBlock,
    sizeofGdtEntry, sizeofTssEntry, Function.comp_def]

private theorem LaidOut.readWord {n i : Nat} {words : Nat → BitVec 32}
    (h : LaidOut memory address (wordBytes n words)) (hi : i < n) :
    readLe memory 4 (address + 4 * i) = (words i).toNat := by
  have hrecord := LaidOut.getElem 4 h (by simp) (by simpa using hi)
  simp only [List.getElem_map, List.getElem_range] at hrecord
  exact LaidOut.readBits hrecord (by norm_num)

end Fields

/-! ## Addresses in pieces -/

section Pieces

variable (x : BitVec 64)

private theorem toNat_masked {k w : Nat} (mask : BitVec 64)
    (hmask : ∀ i < w, mask.getLsbD (k + i) = true) :
    (((x &&& mask) >>> k).setWidth w).toNat = x.toNat / 2 ^ k % 2 ^ w := by
  have hpiece : ((x &&& mask) >>> k).setWidth w = x.extractLsb' k w := by
    apply BitVec.eq_of_getLsbD_eq
    intro i hi
    rw [BitVec.getLsbD_setWidth, BitVec.getLsbD_ushiftRight, BitVec.getLsbD_and, hmask i hi,
      BitVec.getLsbD_extractLsb', Bool.and_true]
  rw [hpiece, BitVec.extractLsb'_toNat, Nat.shiftRight_eq_div_pow]

private theorem toNat_shifted {k w : Nat} (mask : BitVec 64)
    (hmask : ∀ i < w, mask.getLsbD i = true) :
    (((x >>> k) &&& mask).setWidth w).toNat = x.toNat / 2 ^ k % 2 ^ w := by
  have h := toNat_masked (x >>> k) (k := 0) (w := w) mask (by simpa using hmask)
  rwa [BitVec.ushiftRight_zero, pow_zero, Nat.div_one, BitVec.toNat_ushiftRight,
    Nat.shiftRight_eq_div_pow] at h

private theorem isrGate_offset (gate : IdtGateType) (ist : BitVec 8) :
    (isrGate x gate ist).offsetLow.toNat + 2 ^ 16 * (isrGate x gate ist).offsetMid.toNat +
      2 ^ 32 * (isrGate x gate ist).offsetHigh.toNat = x.toNat := by
  have hlow := toNat_masked x (k := 0) (w := 16) 0x000000000000ffff (by decide)
  have hmid := toNat_masked x (k := 16) (w := 16) 0x00000000ffff0000 (by decide)
  have hhigh := toNat_masked x (k := 32) (w := 32) 0xffffffff00000000 (by decide)
  rw [BitVec.ushiftRight_zero] at hlow
  rw [isrGate, hlow, hmid, hhigh]
  have := x.isLt
  omega

private theorem tssDescriptor_base :
    (tssDescriptor x).baseLow.toNat + 2 ^ 16 * (tssDescriptor x).baseMid.toNat +
      2 ^ 24 * (tssDescriptor x).baseMid2.toNat + 2 ^ 32 * (tssDescriptor x).baseHigh.toNat =
        x.toNat := by
  have hlow := toNat_shifted x (k := 0) (w := 16) 0xffff (by decide)
  have hmid := toNat_shifted x (k := 16) (w := 8) 0xff (by decide)
  have hmid2 := toNat_shifted x (k := 24) (w := 8) 0xff (by decide)
  have hhigh := toNat_shifted x (k := 32) (w := 32) 0xffffffff (by decide)
  rw [BitVec.ushiftRight_zero] at hlow
  rw [tssDescriptor, hlow, hmid, hmid2, hhigh]
  have := x.isLt
  omega

private theorem setStack_halves (words : Nat → BitVec 32) (index : Nat) :
    (setStack words index x index).toNat + 2 ^ 32 * (setStack words index x (index + 1)).toNat =
      x.toNat := by
  rw [setStack, Function.update_self, Function.update_of_ne (by omega), Function.update_self,
    BitVec.toNat_setWidth, BitVec.toNat_setWidth, BitVec.toNat_ushiftRight,
    Nat.shiftRight_eq_div_pow]
  have := x.isLt
  omega

end Pieces

/-! ## The tables in memory -/

/-- The blocks of a processor are in memory as `cpu_init` leaves them, neither of them around the
end of the address space. -/
structure TablesAt (context : CpuStacks) (isr : Nat → BitVec 64) (gdtBlock idtBlock : BitVec 64)
    (memory : Nat → BitVec 8) : Prop where
  gdt : ∃ b, LaidOut memory gdtBlock.toNat (cpuGdt context gdtBlock b).bytes
  gdtFits : gdtBlock.toNat + 178 ≤ 2 ^ 64
  idt : ∃ b, LaidOut memory idtBlock.toNat (idtInit isr idtBlock b).bytes
  idtFits : idtBlock.toNat + 4106 ≤ 2 ^ 64

namespace TablesAt

variable {context : CpuStacks} {isr : Nat → BitVec 64} {gdtBlock idtBlock : BitVec 64}
  {memory : Nat → BitVec 8}

theorem gdt_parts (h : TablesAt context isr gdtBlock idtBlock memory) :
    loadTable memory gdtBlock.toNat = ⟨gdtBlock.toNat + 10, 63⟩ ∧
      ∃ b, (∀ i < 8, ((cpuGdt context gdtBlock b).gdt i).At memory (gdtBlock.toNat + 10 + 8 * i)) ∧
        LaidOut memory (gdtBlock.toNat + 74) (cpuGdt context gdtBlock b).tss.bytes := by
  obtain ⟨b, hb⟩ := h.gdt
  have hlength : (((List.range gdtNum).map fun i =>
      ((cpuGdt context gdtBlock b).gdt i).bytes).flatten).length = 64 := by
    simp [gdtNum, GdtEntry.bytes, List.range, List.range.loop]
  simp only [GdtBlock.bytes, laidOut_append, List.length_append, leBytes_length, hlength] at hb
  obtain ⟨⟨⟨hsize, hoffset⟩, hentries⟩, htss⟩ := hb
  refine ⟨?_, b, ?_, htss⟩
  · rw [loadTable, LaidOut.readBits hsize (by norm_num), LaidOut.readBits hoffset (by norm_num)]
    have hfits := h.gdtFits
    have haddress : (gdtAddress gdtBlock).toNat = gdtBlock.toNat + 10 := by
      rw [gdtAddress]
      bv_omega
    exact congrArg₂ TableRegister.mk haddress rfl
  · intro i hi
    have hrecord := LaidOut.getElem 8 hentries (by simp [GdtEntry.bytes]) (by simpa [gdtNum] using hi)
    simp only [List.getElem_map, List.getElem_range] at hrecord
    exact GdtEntry.at_of_stored hrecord

theorem idt_parts (h : TablesAt context isr gdtBlock idtBlock memory) :
    loadTable memory idtBlock.toNat = ⟨idtBlock.toNat + 10, 4095⟩ ∧
      ∃ b, ∀ i < 256, ((idtInit isr idtBlock b).idt i).At memory (idtBlock.toNat + 10 + 16 * i) := by
  obtain ⟨b, hb⟩ := h.idt
  simp only [IdtBlock.bytes, laidOut_append, List.length_append, leBytes_length] at hb
  obtain ⟨⟨hlimit, hbase⟩, hentries⟩ := hb
  refine ⟨?_, b, ?_⟩
  · rw [loadTable, LaidOut.readBits hlimit (by norm_num), LaidOut.readBits hbase (by norm_num)]
    have hfits := h.idtFits
    have haddress : (idtAddress idtBlock).toNat = idtBlock.toNat + 10 := by
      rw [idtAddress]
      bv_omega
    exact congrArg₂ TableRegister.mk haddress rfl
  · intro i hi
    have hrecord := LaidOut.getElem 16 hentries (by simp [IdtEntry.bytes]) (by simpa [idtSize] using hi)
    simp only [List.getElem_map, List.getElem_range] at hrecord
    exact IdtEntry.at_of_stored hrecord

theorem cpuGdt_attributes (context : CpuStacks) (gdtBlock : BitVec 64) (b : GdtBlock) {i : Nat}
    (hi : i < 8) :
    ((cpuGdt context gdtBlock b).gdt i).access =
        [0, 0x98, 0x92, 0, 0xf2, 0xf8, 0x89, 0].getD i 0 ∧
      ((cpuGdt context gdtBlock b).gdt i).flags =
        [0, 0xa0, 0xa0, 0, 0xa0, 0xa0, 0x10, 0].getD i 0 := by
  interval_cases i
  · exact ⟨rfl, rfl⟩
  · exact ⟨rfl, rfl⟩
  · exact ⟨rfl, rfl⟩
  · exact ⟨rfl, rfl⟩
  · exact ⟨rfl, rfl⟩
  · exact ⟨rfl, rfl⟩
  · exact ⟨rfl, rfl⟩
  · exact ⟨BitVec.extractLsb'_zero .., BitVec.extractLsb'_zero ..⟩

/-- The segment that a selector stands for. -/
def cpuSegment (selector : Nat) : Option Segment :=
  if selector / 4 % 2 = 1 then none
  else if selector / 8 = 1 then some ⟨true, false, true, 0⟩
  else if selector / 8 = 2 then some ⟨false, true, true, 0⟩
  else if selector / 8 = 4 then some ⟨false, true, true, 3⟩
  else if selector / 8 = 5 then some ⟨true, false, true, 3⟩
  else none

theorem loadSegment_eq (h : TablesAt context isr gdtBlock idtBlock memory) (selector : Nat) :
    loadSegment memory ⟨gdtBlock.toNat + 10, 63⟩ selector = cpuSegment selector := by
  obtain ⟨-, b, hentry, -⟩ := h.gdt_parts
  rw [loadSegment, cpuSegment]
  by_cases htable : selector / 4 % 2 = 1
  · rw [if_pos (.inl htable), if_pos htable]
  rw [if_neg htable]
  simp only [htable, false_or]
  rcases Nat.lt_or_ge (selector / 8) 8 with hindex | hindex
  · have hat := hentry (selector / 8) hindex
    rw [show 8 * (selector / 8) = selector / 8 * 8 from Nat.mul_comm ..] at hat
    obtain ⟨haccess, hflags⟩ := cpuGdt_attributes context gdtBlock b hindex
    rw [hat.access, hat.flags, haccess, hflags]
    generalize selector / 8 = index at hindex
    interval_cases index <;> rfl
  · rw [if_pos (.inr (by omega)), if_neg (by omega), if_neg (by omega), if_neg (by omega),
      if_neg (by omega)]

theorem loadTask_eq (h : TablesAt context isr gdtBlock idtBlock memory) :
    loadTask memory ⟨gdtBlock.toNat + 10, 63⟩ gdtOffsetTss = some ⟨gdtBlock.toNat + 74, 104⟩ := by
  obtain ⟨-, b, hentry, -⟩ := h.gdt_parts
  have hfirst : (tssDescriptor (tssAddress gdtBlock)).first.At memory (gdtBlock.toNat + 10 + 48) :=
    hentry 6 (by decide)
  have hsecond : (tssDescriptor (tssAddress gdtBlock)).second.At memory
      (gdtBlock.toNat + 10 + 48 + 8) := hentry 7 (by decide)
  -- The upper half of the base is in the second entry, in two parts of 16 bits.
  have hupper : readLe memory 4 (gdtBlock.toNat + 10 + 48 + 8) =
      (tssDescriptor (tssAddress gdtBlock)).baseHigh.toNat := by
    rw [readLe_add memory 2 2, hsecond.limitLow, hsecond.baseLow, TssDescriptor.second,
      BitVec.extractLsb'_toNat, BitVec.extractLsb'_toNat]
    have := (tssDescriptor (tssAddress gdtBlock)).baseHigh.isLt
    simp only [Nat.shiftRight_eq_div_pow]
    omega
  have hbase := tssDescriptor_base (tssAddress gdtBlock)
  have haddress : (tssAddress gdtBlock).toNat = gdtBlock.toNat + 74 := by
    have := h.gdtFits
    rw [tssAddress]
    bv_omega
  rw [haddress] at hbase
  have haccess : readLe memory 1 (gdtBlock.toNat + 10 + 48 + 5) = 0b10001001 := hfirst.access
  have hflags : readLe memory 1 (gdtBlock.toNat + 10 + 48 + 6) = 0b00010000 := hfirst.flags
  have hlimit : readLe memory 2 (gdtBlock.toNat + 10 + 48) = 104 := hfirst.limitLow
  simp only [loadTask, gdtOffsetTss, Nat.reduceDiv, Nat.reduceMul, haccess, hflags, hlimit,
    hfirst.baseLow, hfirst.baseMid, hfirst.baseHigh, hupper]
  exact congrArg some (congrArg₂ TableRegister.mk hbase rfl)

theorem readStack_eq (h : TablesAt context isr gdtBlock idtBlock memory) {ist : BitVec 8}
    (hist : ist = idtIstIsr ∨ ist = idtIstIrq ∨ ist = idtIstTimer) :
    readLe memory 8 (gdtBlock.toNat + 74 + (28 + 8 * ist.toNat)) = (context.ofIst ist).toNat := by
  obtain ⟨-, b, -, htss⟩ := h.gdt_parts
  simp only [TssEntry.bytes, laidOut_append, List.length_append, leBytes_length,
    wordBytes_length] at htss
  obtain ⟨⟨⟨⟨-, hwords⟩, -⟩, -⟩, -⟩ := htss
  have hread : ∀ n < 7, readLe memory 8 (gdtBlock.toNat + 74 + (28 + 8 * (n + 1))) =
      ((cpuGdt context gdtBlock b).tss.ist (2 * n)).toNat +
        2 ^ 32 * ((cpuGdt context gdtBlock b).tss.ist (2 * n + 1)).toNat := by
    intro n hn
    have hlow := LaidOut.readWord hwords (show 2 * n < 14 by omega)
    have hhigh := LaidOut.readWord hwords (show 2 * n + 1 < 14 by omega)
    rw [← hlow, ← hhigh, show gdtBlock.toNat + 74 + (28 + 8 * (n + 1)) =
      gdtBlock.toNat + 74 + (4 + 4 * 6 + 4 * 2) + 4 * (2 * n) by omega, readLe_add memory 4 4]
    rfl
  rcases hist with rfl | rfl | rfl
  · exact (hread 0 (by decide)).trans (setStack_halves context.isr (fun _ => 0) 0)
  · exact (hread 1 (by decide)).trans (setStack_halves context.irq (fun _ => 0) 2)
  · exact (hread 2 (by decide)).trans (setStack_halves context.timer (fun _ => 0) 4)

end TablesAt

/-! ## The gates -/

/-- What `idt_init` passes to `idt_set_isr` for a vector. -/
def idtGate (vector : Nat) : Option (Nat × IdtGateType × BitVec 8) :=
  idtGates.find? fun g => g.1 = vector

theorem idtGate_cases {vector : Nat} {g : Nat × IdtGateType × BitVec 8}
    (h : idtGate vector = some g) :
    g.1 = vector ∧ vector < 256 ∧ (g.2.1 = .interrupt ∨ g.2.1 = .trap) ∧
      (g.2.2 = idtIstIsr ∨ g.2.2 = idtIstIrq ∨ g.2.2 = idtIstTimer) := by
  have hall : ∀ g ∈ idtGates, g.1 < 256 ∧ (g.2.1 = .interrupt ∨ g.2.1 = .trap) ∧
      (g.2.2 = idtIstIsr ∨ g.2.2 = idtIstIrq ∨ g.2.2 = idtIstTimer) := by decide
  have hvector : g.1 = vector := by simpa using List.find?_some h
  have hg := hall g (List.mem_of_find?_eq_some h)
  exact ⟨hvector, hvector ▸ hg.1, hg.2⟩

theorem foldl_idtSetIsr (isr : Nat → BitVec 64) {gates : List (Nat × IdtGateType × BitVec 8)}
    (hnodup : (gates.map (·.1)).Nodup) (b : IdtBlock) (vector : Nat) :
    (gates.foldl (fun b g => idtSetIsr g.1 (isr g.1) g.2.1 g.2.2 b) b).idt vector =
      match gates.find? fun g => g.1 = vector with
      | some g => isrGate (isr vector) g.2.1 g.2.2
      | none => b.idt vector := by
  induction gates generalizing b with
  | nil => rfl
  | cons g gates ih =>
      rw [List.map_cons, List.nodup_cons] at hnodup
      rw [List.foldl_cons, ih hnodup.2]
      by_cases hg : g.1 = vector
      · have hnone : gates.find? (fun g => g.1 = vector) = none := by
          rw [List.find?_eq_none]
          intro g' hg' heq
          rw [decide_eq_true_eq] at heq
          exact hnodup.1 (List.mem_map.mpr ⟨g', hg', heq.trans hg.symm⟩)
        rw [hnone, List.find?_cons_of_pos (by simpa using hg)]
        dsimp only
        rw [idtSetIsr, hg]
        exact Function.update_self ..
      · rw [List.find?_cons_of_neg (by simpa using hg)]
        cases gates.find? (fun g => g.1 = vector) with
        | some g' => rfl
        | none => exact Function.update_of_ne (Ne.symm hg) ..

theorem idtInit_entry (isr : Nat → BitVec 64) (idtBlock : BitVec 64) (b : IdtBlock) (vector : Nat) :
    (idtInit isr idtBlock b).idt vector =
      match idtGate vector with
      | some g => isrGate (isr vector) g.2.1 g.2.2
      | none => ⟨0, 0, 0, 0, 0, 0, 0⟩ :=
  foldl_idtSetIsr isr (by decide) _ vector

/-- How the processor enters the handler of a gate. -/
def entered (context : CpuStacks) (isr : Nat → BitVec 64) (g : Nat × IdtGateType × BitVec 8) :
    Delivery where
  rip := (isr g.1).toNat
  cs := 0x08
  rsp := (context.ofIst g.2.2).toNat
  clearsInterrupts := g.2.1 = .interrupt

section Delivery

variable {context : CpuStacks} {isr : Nat → BitVec 64} {gdtBlock idtBlock : BitVec 64}
  {memory : Nat → BitVec 8}

theorem TablesAt.deliver_eq (h : TablesAt context isr gdtBlock idtBlock memory) (software : Bool)
    (cpl rsp vector : Nat) :
    deliver memory ⟨⟨gdtBlock.toNat + 10, 63⟩, ⟨idtBlock.toNat + 10, 4095⟩,
        ⟨gdtBlock.toNat + 74, 104⟩⟩ software cpl rsp vector =
      if software = true ∧ 0 < cpl then none else (idtGate vector).map (entered context isr) := by
  obtain ⟨-, b, hgate⟩ := h.idt_parts
  rcases Nat.lt_or_ge vector 256 with hvector | hvector
  · have hat := hgate vector hvector
    rw [idtInit_entry] at hat
    rw [deliver]
    cases hg : idtGate vector with
    | none =>
        rw [hg] at hat
        have hattributes : readLe memory 1 (idtBlock.toNat + 10 + 16 * vector + 5) = 0 :=
          hat.typeAttr
        rw [if_neg (by dsimp only; omega), if_pos (.inl (by rw [hattributes]))]
        simp
    | some g =>
        rw [hg] at hat
        dsimp only at hat
        obtain ⟨hnum, -, hkind, hist⟩ := idtGate_cases hg
        have hattributes : readLe memory 1 (idtBlock.toNat + 10 + 16 * vector + 5) =
            if g.2.1 = .interrupt then 0b10001110 else 0b10001111 := by
          rw [hat.typeAttr]
          rcases hkind with hkind | hkind <;> rw [isrGate, hkind] <;> rfl
        have hstack : readLe memory 1 (idtBlock.toNat + 10 + 16 * vector + 4) % 8 = g.2.2.toNat ∧
            g.2.2.toNat ≠ 0 ∧ g.2.2.toNat ≤ 3 := by
          rw [hat.ist]
          change (g.2.2 &&& 0x7).toNat % 8 = g.2.2.toNat ∧ _
          rcases hist with hist | hist | hist <;> rw [hist] <;> decide
        have hselector : readLe memory 2 (idtBlock.toNat + 10 + 16 * vector + 2) = 8 := hat.selector
        have hrip : readLe memory 2 (idtBlock.toNat + 10 + 16 * vector) +
            2 ^ 16 * readLe memory 2 (idtBlock.toNat + 10 + 16 * vector + 6) +
            2 ^ 32 * readLe memory 4 (idtBlock.toNat + 10 + 16 * vector + 8) =
              (isr vector).toNat := by
          rw [hat.offsetLow, hat.offsetMid, hat.offsetHigh]
          exact isrGate_offset ..
        have hcode : loadSegment memory ⟨gdtBlock.toNat + 10, 63⟩ 8 = some ⟨true, false, true, 0⟩ :=
          h.loadSegment_eq 8
        rw [if_neg (by dsimp only; omega)]
        simp only [hselector, hcode, hrip, hstack.1, hattributes]
        have hrsp := h.readStack_eq hist
        have hfits : ¬104 < 28 + 8 * g.2.2.toNat + 7 := by omega
        rcases hkind with hkind | hkind
        · simp [hkind, hstack.2.1, hfits, hrsp, entered, hnum]
        · simp [hkind, hstack.2.1, hfits, hrsp, entered, hnum]
  · have hnone : idtGate vector = none := by
      cases hg : idtGate vector with
      | none => rfl
      | some g => exact absurd (idtGate_cases hg).2.1 (by omega)
    rw [deliver, hnone, if_pos (by dsimp only; omega)]
    simp

theorem TablesAt.load (h : TablesAt context isr gdtBlock idtBlock memory) :
    cpuLoadTables memory gdtBlock idtBlock = some ⟨⟨gdtBlock.toNat + 10, 63⟩,
      ⟨idtBlock.toNat + 10, 4095⟩, ⟨gdtBlock.toNat + 74, 104⟩⟩ := by
  rw [cpuLoadTables, h.gdt_parts.1, h.idt_parts.1, h.loadTask_eq]
  rfl

/-- Whatever the addresses of blocks, stacks and entry points: the tables can be loaded, and then
the vectors of `idt_init` and no others lead to their entry point, in the kernel's code segment and
on the stack of their kind.  User code reaches none of them with `int`. -/
theorem interrupts_delivered (h : TablesAt context isr gdtBlock idtBlock memory) :
    ∃ t, cpuLoadTables memory gdtBlock idtBlock = some t ∧
      ∀ software cpl rsp vector, deliver memory t software cpl rsp vector =
        if software = true ∧ 0 < cpl then none else (idtGate vector).map (entered context isr) :=
  ⟨_, h.load, h.deliver_eq⟩

end Delivery

def smallStacks : CpuStacks := ⟨0x5000, 0x6000, 0x7000, 0x8000⟩

def smallIsr (num : Nat) : BitVec 64 := 0xffffffff80200000 + BitVec.ofNat 64 num

def smallGdt : GdtBlock := cpuGdt smallStacks 0x1000 ⟨0, 0, fun _ => .zero, .zero⟩

def smallIdt : IdtBlock := idtInit smallIsr 0x2000 ⟨0, 0, fun _ => ⟨0, 0, 0, 0, 0, 0, 0⟩⟩

/-- Both blocks with nothing around them. -/
def smallBlocks (address : Nat) : BitVec 8 :=
  if address < 0x2000 then smallGdt.bytes.getD (address - 0x1000) 0
  else smallIdt.bytes.getD (address - 0x2000) 0

theorem smallBlocks_tablesAt : TablesAt smallStacks smallIsr 0x1000 0x2000 smallBlocks := by
  have hgdt : (0x1000 : BitVec 64).toNat = 0x1000 := rfl
  have hidt : (0x2000 : BitVec 64).toNat = 0x2000 := rfl
  have hlength : smallGdt.bytes.length = 178 := smallGdt.bytes_length
  have hfirst : LaidOut smallBlocks (0x1000 : BitVec 64).toNat smallGdt.bytes := by
    rw [laidOut_iff, hgdt]
    intro i hi
    rw [smallBlocks, if_pos (by omega), Nat.add_sub_cancel_left,
      List.getD_eq_getElem?_getD, List.getElem?_eq_getElem hi, Option.getD_some]
  have hsecond : LaidOut smallBlocks (0x2000 : BitVec 64).toNat smallIdt.bytes := by
    rw [laidOut_iff, hidt]
    intro i hi
    rw [smallBlocks, if_neg (by omega), Nat.add_sub_cancel_left,
      List.getD_eq_getElem?_getD, List.getElem?_eq_getElem hi, Option.getD_some]
  exact ⟨⟨_, hfirst⟩, by decide, ⟨_, hsecond⟩, by decide⟩

/-- The timer's vector arrives on the timer's stack. -/
theorem interrupts_delivered_timer :
    ∃ t, cpuLoadTables smallBlocks 0x1000 0x2000 = some t ∧
      deliver smallBlocks t false 3 0 48 = some ⟨0xffffffff80200030, 0x08, 0x8000, true⟩ ∧
      deliver smallBlocks t true 3 0 48 = none := by
  obtain ⟨t, ht, hdeliver⟩ := interrupts_delivered smallBlocks_tablesAt
  refine ⟨t, ht, ?_, ?_⟩
  · rw [hdeliver]
    rfl
  · rw [hdeliver]
    rfl

/-! ## Segments of tasks -/

/-- What `iretq` at level 0 asks of the selectors it pops.  The level it returns to is the one that
the code selector requests; a null stack segment is accepted below level 3 only. -/
def iretqAccepts (memory : Nat → BitVec 8) (gdtr : TableRegister) (cs ss : Nat) : Bool :=
  match loadSegment memory gdtr cs with
  | none => false
  | some code =>
      code.executable && code.longMode && code.dpl == cs % 4 && ss % 4 == cs % 4 &&
        match loadSegment memory gdtr ss with
        | none => ss / 4 == 0 && cs % 4 != 3
        | some stack => stack.writable && !stack.executable && stack.dpl == cs % 4

/-- The selectors that `sysret` loads. -/
def sysretCs (star : BitVec 64) : Nat := (star.toNat / 2 ^ 48 + 16) ||| 3

def sysretSs (star : BitVec 64) : Nat := (star.toNat / 2 ^ 48 + 8) ||| 3

/-- The selectors that `syscall` loads. -/
def syscallCs (star : BitVec 64) : Nat := star.toNat / 2 ^ 32 % 2 ^ 16 / 4 * 4

def syscallSs (star : BitVec 64) : Nat := star.toNat / 2 ^ 32 % 2 ^ 16 + 8

theorem syscallEnable_selectors (syscallEntry : BitVec 64) (m : SyscallMsrs) :
    syscallCs (syscallEnable syscallEntry m).star = 0x08 ∧
      syscallSs (syscallEnable syscallEntry m).star = 0x10 ∧
      sysretCs (syscallEnable syscallEntry m).star = 0x2b ∧
      sysretSs (syscallEnable syscallEntry m).star = 0x23 := by
  have hstar : (syscallEnable syscallEntry m).star.toNat =
      0x00180008 * 2 ^ 32 + (m.star.setWidth 32).toNat := by
    rw [syscallEnable, BitVec.toNat_append, ← Nat.shiftLeft_add_eq_or_of_lt (m.star.setWidth 32).isLt,
      Nat.shiftLeft_eq]
    rfl
  have hlt := (m.star.setWidth 32).isLt
  have hhigh : (syscallEnable syscallEntry m).star.toNat / 2 ^ 48 = 0x18 := by omega
  have hlow : (syscallEnable syscallEntry m).star.toNat / 2 ^ 32 % 2 ^ 16 = 0x08 := by omega
  rw [syscallCs, syscallSs, sysretCs, sysretSs, hhigh, hlow]
  decide

/-- The frame of a new task can be entered exactly if it asks for level 0 or 3.  A task at level 3
comes back from a system call with the segments it was started with, and the kernel runs it on its
own code and stack segments. -/
theorem task_segments {context : CpuStacks} {isr : Nat → BitVec 64} {gdtBlock idtBlock : BitVec 64}
    {memory : Nat → BitVec 8} (h : TablesAt context isr gdtBlock idtBlock memory)
    (state : SchedulerTaskInitialState) (syscallEntry : BitVec 64) (m : SyscallMsrs) :
    ∃ t, cpuLoadTables memory gdtBlock idtBlock = some t ∧
      (iretqAccepts memory t.gdtr ((initialFrame state).cs.toNat % 2 ^ 16)
        ((initialFrame state).ss.toNat % 2 ^ 16) = true ↔ state.rpl = 0 ∨ state.rpl = 3) ∧
      (state.rpl = 3 →
        sysretCs (syscallEnable syscallEntry m).star = (initialFrame state).cs.toNat % 2 ^ 16 ∧
        sysretSs (syscallEnable syscallEntry m).star = (initialFrame state).ss.toNat % 2 ^ 16) ∧
      loadSegment memory t.gdtr (syscallCs (syscallEnable syscallEntry m).star) =
        some { executable := true, writable := false, longMode := true, dpl := 0 } ∧
      loadSegment memory t.gdtr (syscallSs (syscallEnable syscallEntry m).star) =
        some { executable := false, writable := true, longMode := true, dpl := 0 } := by
  refine ⟨_, h.load, ?_, ?_, ?_, ?_⟩
  · simp only [iretqAccepts, h.loadSegment_eq, initialFrame]
    generalize state.rpl = rpl
    revert rpl
    decide
  · intro hrpl
    obtain ⟨-, -, hcs, hss⟩ := syscallEnable_selectors syscallEntry m
    rw [hcs, hss, initialFrame, hrpl]
    exact ⟨rfl, rfl⟩
  · rw [h.loadSegment_eq, (syscallEnable_selectors syscallEntry m).1]
    rfl
  · rw [h.loadSegment_eq, (syscallEnable_selectors syscallEntry m).2.1]
    rfl

/-- A task that asks for level 1 gets a frame that `iretq` refuses. -/
theorem task_segments_level_one :
    ∃ t, cpuLoadTables smallBlocks 0x1000 0x2000 = some t ∧
      iretqAccepts smallBlocks t.gdtr 0x09 0x11 = false := by
  obtain ⟨t, ht, hiff, -⟩ := task_segments smallBlocks_tablesAt ⟨fun _ => 0, 0, 0, 1⟩ 0 ⟨0, 0, 0, 0⟩
  refine ⟨t, ht, Bool.eq_false_iff.mpr fun haccepts => ?_⟩
  exact absurd (hiff.mp haccepts) (by decide)

end VisualOS.Kernel
