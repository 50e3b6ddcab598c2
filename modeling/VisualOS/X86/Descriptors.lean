import VisualOS.Framework.ByteLayout

/-!
# Descriptor tables

`gdt.c` and `idt.c` with the blocks in which they keep the tables, byte by byte as the processor
reads them, and what the processor does with the tables when an interrupt arrives.
-/

namespace VisualOS.Kernel

open Framework

/-! ## The global descriptor table -/

structure GdtEntry where
  limitLow : BitVec 16
  baseLow : BitVec 16
  baseMid : BitVec 8
  access : BitVec 8
  flags : BitVec 8
  baseHigh : BitVec 8
  deriving DecidableEq, Repr

def GdtEntry.zero : GdtEntry := ⟨0, 0, 0, 0, 0, 0⟩

def GdtEntry.bytes (e : GdtEntry) : List (BitVec 8) :=
  leBytes 2 e.limitLow.toNat ++ leBytes 2 e.baseLow.toNat ++ leBytes 1 e.baseMid.toNat ++
    leBytes 1 e.access.toNat ++ leBytes 1 e.flags.toNat ++ leBytes 1 e.baseHigh.toNat

structure TssDescriptor where
  limitLow : BitVec 16
  baseLow : BitVec 16
  baseMid : BitVec 8
  access : BitVec 8
  flags : BitVec 8
  baseMid2 : BitVec 8
  baseHigh : BitVec 32
  reserved : BitVec 32

/-- The first 8 bytes of the descriptor, as an entry of the table it is stored in. -/
def TssDescriptor.first (d : TssDescriptor) : GdtEntry where
  limitLow := d.limitLow
  baseLow := d.baseLow
  baseMid := d.baseMid
  access := d.access
  flags := d.flags
  baseHigh := d.baseMid2

/-- The 8 bytes behind them. -/
def TssDescriptor.second (d : TssDescriptor) : GdtEntry where
  limitLow := d.baseHigh.extractLsb' 0 16
  baseLow := d.baseHigh.extractLsb' 16 16
  baseMid := d.reserved.extractLsb' 0 8
  access := d.reserved.extractLsb' 8 8
  flags := d.reserved.extractLsb' 16 8
  baseHigh := d.reserved.extractLsb' 24 8

/-- Of the arrays the first 6, 2, 14 and 2 words. -/
structure TssEntry where
  reserved0 : BitVec 32
  rsp : Nat → BitVec 32
  reserved1 : Nat → BitVec 32
  ist : Nat → BitVec 32
  reserved2 : Nat → BitVec 32
  reserved3 : BitVec 16
  ioMapBase : BitVec 16

def TssEntry.zero : TssEntry := ⟨0, fun _ => 0, fun _ => 0, fun _ => 0, fun _ => 0, 0, 0⟩

/-- An array of words. -/
def wordBytes (n : Nat) (words : Nat → BitVec 32) : List (BitVec 8) :=
  ((List.range n).map fun i => leBytes 4 (words i).toNat).flatten

def TssEntry.bytes (t : TssEntry) : List (BitVec 8) :=
  leBytes 4 t.reserved0.toNat ++ wordBytes 6 t.rsp ++ wordBytes 2 t.reserved1 ++
    wordBytes 14 t.ist ++ wordBytes 2 t.reserved2 ++ leBytes 2 t.reserved3.toNat ++
    leBytes 2 t.ioMapBase.toNat

/-- `GDT_NUM`. -/
def gdtNum : Nat := 8

def sizeofGdtEntry : Nat := 8

def sizeofTssEntry : Nat := 104

/-- `size` and `offset` are the fields of `gdt_descriptor`. -/
structure GdtBlock where
  size : BitVec 16
  offset : BitVec 64
  gdt : Nat → GdtEntry
  tss : TssEntry

def GdtBlock.bytes (b : GdtBlock) : List (BitVec 8) :=
  leBytes 2 b.size.toNat ++ leBytes 8 b.offset.toNat ++
    ((List.range gdtNum).map fun i => (b.gdt i).bytes).flatten ++ b.tss.bytes

/-- `sizeof(struct GDTBlock)`, all of whose members are packed. -/
def sizeofGdtBlock : Nat := 10 + gdtNum * sizeofGdtEntry + sizeofTssEntry

/-- `gdt_block->gdt` and `gdt_block->tss`, as addresses. -/
def gdtAddress (gdtBlock : BitVec 64) : BitVec 64 := gdtBlock + 10

def tssAddress (gdtBlock : BitVec 64) : BitVec 64 := gdtBlock + 74

def gdtAccessWritable : BitVec 8 := 0b00000010
def gdtAccessType : BitVec 8 := 0b00010000
def gdtAccessPresent : BitVec 8 := 0b10000000
def gdtAccessExecutable : BitVec 8 := 0b00001000
def gdtAccessDpl : BitVec 8 := 0b01100000

def gdtFlagLongMode : BitVec 8 := 0b00100000
def gdtFlagPageGranularity : BitVec 8 := 0b10000000

def gdtSetEntry (gdtIndex : Nat) (access flags : BitVec 8) (b : GdtBlock) : GdtBlock :=
  let entry :=
    { b.gdt gdtIndex with
      limitLow := 0xffff
      access := gdtAccessType ||| gdtAccessPresent ||| access
      flags := gdtFlagLongMode ||| gdtFlagPageGranularity ||| flags }
  { b with gdt := Function.update b.gdt gdtIndex entry }

/-- The descriptor of the task state segment at an address. -/
def tssDescriptor (tss : BitVec 64) : TssDescriptor where
  limitLow := BitVec.ofNat 16 sizeofTssEntry
  baseLow := (tss &&& 0xffff).setWidth 16
  baseMid := ((tss >>> 16) &&& 0xff).setWidth 8
  baseMid2 := ((tss >>> 24) &&& 0xff).setWidth 8
  baseHigh := ((tss >>> 32) &&& 0xffffffff).setWidth 32
  access := 0b10000000 ||| 0b00001001
  flags := 0b00010000
  reserved := 0

def gdtSetTss (gdtBlock : BitVec 64) (gdtIndex : Nat) (b : GdtBlock) : GdtBlock :=
  let descriptor := tssDescriptor (tssAddress gdtBlock)
  { b with
    tss := { TssEntry.zero with ioMapBase := 0xffff }
    gdt := Function.update (Function.update b.gdt gdtIndex descriptor.first) (gdtIndex + 1)
      descriptor.second }

def gdtInit (gdtBlock : BitVec 64) (b : GdtBlock) : GdtBlock :=
  let gdtTotalSize := BitVec.ofNat 16 (gdtNum * sizeofGdtEntry)
  let b := { b with tss := TssEntry.zero, gdt := fun _ => GdtEntry.zero }
  let b := gdtSetEntry 1 gdtAccessExecutable 0 b
  let b := gdtSetEntry 2 gdtAccessWritable 0 b
  let b := gdtSetEntry 4 (gdtAccessDpl ||| gdtAccessWritable) 0 b
  let b := gdtSetEntry 5 (gdtAccessDpl ||| gdtAccessExecutable) 0 b
  let b := gdtSetTss gdtBlock 6 b
  { b with size := gdtTotalSize - 1, offset := gdtAddress gdtBlock }

/-- The two halves of a stack pointer at `index` and `index + 1`. -/
def setStack (words : Nat → BitVec 32) (index : Nat) (stack : BitVec 64) : Nat → BitVec 32 :=
  Function.update (Function.update words index (stack.setWidth 32)) (index + 1)
    ((stack >>> 32).setWidth 32)

def gdtSetTssIst (istNum : Nat) (stack : BitVec 64) (b : GdtBlock) : GdtBlock :=
  { b with tss := { b.tss with ist := setStack b.tss.ist ((istNum - 1) * 2) stack } }

def gdtSetTssRing (ringNum : Nat) (stack : BitVec 64) (b : GdtBlock) : GdtBlock :=
  { b with tss := { b.tss with rsp := setStack b.tss.rsp (ringNum * 2) stack } }

/-! ## The interrupt descriptor table -/

inductive IdtGateType
  | interrupt
  | trap
  | task
  deriving DecidableEq, Repr

def IdtGateType.toBits : IdtGateType → BitVec 8
  | interrupt => 0b1110
  | trap => 0b1111
  | task => 0b0101

structure IdtEntry where
  offsetLow : BitVec 16
  selector : BitVec 16
  ist : BitVec 8
  typeAttr : BitVec 8
  offsetMid : BitVec 16
  offsetHigh : BitVec 32
  zero : BitVec 32
  deriving DecidableEq, Repr

def IdtEntry.bytes (e : IdtEntry) : List (BitVec 8) :=
  leBytes 2 e.offsetLow.toNat ++ leBytes 2 e.selector.toNat ++ leBytes 1 e.ist.toNat ++
    leBytes 1 e.typeAttr.toNat ++ leBytes 2 e.offsetMid.toNat ++ leBytes 4 e.offsetHigh.toNat ++
    leBytes 4 e.zero.toNat

/-- `IDT_SIZE`. -/
def idtSize : Nat := 256

def sizeofIdtEntry : Nat := 16

/-- `limit` and `base` are the fields of `idt_descriptor`. -/
structure IdtBlock where
  limit : BitVec 16
  base : BitVec 64
  idt : Nat → IdtEntry

def IdtBlock.bytes (b : IdtBlock) : List (BitVec 8) :=
  leBytes 2 b.limit.toNat ++ leBytes 8 b.base.toNat ++
    ((List.range idtSize).map fun i => (b.idt i).bytes).flatten

/-- `idt_block->idt`, as an address. -/
def idtAddress (idtBlock : BitVec 64) : BitVec 64 := idtBlock + 10

def idtTypePresent : BitVec 8 := 0b1
def idtTypePrivilege : BitVec 8 := 0b00

def idtIstIsr : BitVec 8 := 1
def idtIstIrq : BitVec 8 := 2
def idtIstTimer : BitVec 8 := 3

/-- The entry that `idt_set_isr` stores. -/
def isrGate (isrPtr : BitVec 64) (gate : IdtGateType) (ist : BitVec 8) : IdtEntry where
  zero := 0
  offsetLow := (isrPtr &&& 0x000000000000ffff).setWidth 16
  offsetMid := ((isrPtr &&& 0x00000000ffff0000) >>> 16).setWidth 16
  offsetHigh := ((isrPtr &&& 0xffffffff00000000) >>> 32).setWidth 32
  ist := ist &&& 0x7
  selector := BitVec.ofNat 16 (1 * sizeofGdtEntry)
  typeAttr := idtTypePresent <<< 7 ||| idtTypePrivilege <<< 5 ||| gate.toBits

def idtSetIsr (index : Nat) (isrPtr : BitVec 64) (gate : IdtGateType) (ist : BitVec 8)
    (b : IdtBlock) : IdtBlock :=
  { b with idt := Function.update b.idt index (isrGate isrPtr gate ist) }

/-- The vectors of `IDT_SET_ISR`, `IDT_SET_IRQ` and `IDT_SET_LVT` with what the macros pass on. -/
def idtGates : List (Nat × IdtGateType × BitVec 8) :=
  ([8, 10, 11, 13, 14].map fun num => (num, .trap, idtIstIsr)) ++
    ([32, 33, 35, 36, 37, 38, 39, 40, 41, 42, 43, 44, 45, 46, 47].map fun num =>
      (num, .interrupt, idtIstIrq)) ++
    [(48, .interrupt, idtIstTimer)]

/-- `isr` gives the addresses of the entry points of `isr.asm`. -/
def idtInit (isr : Nat → BitVec 64) (idtBlock : BitVec 64) (b : IdtBlock) : IdtBlock :=
  let idtTotalSize := BitVec.ofNat 64 (idtSize * sizeofIdtEntry)
  let b := { b with idt := fun _ => ⟨0, 0, 0, 0, 0, 0, 0⟩ }
  let b := { b with limit := (idtTotalSize - 1).setWidth 16, base := idtAddress idtBlock }
  idtGates.foldl (fun b g => idtSetIsr g.1 (isr g.1) g.2.1 g.2.2 b) b

/-! ## The processor -/

structure TableRegister where
  base : Nat
  limit : Nat
  deriving DecidableEq, Repr

/-- `lgdt` and `lidt`. -/
def loadTable (memory : Nat → BitVec 8) (descriptor : Nat) : TableRegister where
  base := readLe memory 8 (descriptor + 2)
  limit := readLe memory 2 descriptor

/-- `ltr`: an available 64-bit task state segment, whose base is spread over its descriptor. -/
def loadTask (memory : Nat → BitVec 8) (gdtr : TableRegister) (selector : Nat) :
    Option TableRegister :=
  let descriptor := gdtr.base + selector / 8 * 8
  let access := readLe memory 1 (descriptor + 5)
  let flags := readLe memory 1 (descriptor + 6)
  let limit := readLe memory 2 descriptor + 2 ^ 16 * (flags % 16)
  if gdtr.limit < selector / 8 * 8 + 15 then none
  else if access ≠ 0b10001001 then none
  else
    some
      { base := readLe memory 2 (descriptor + 2) + 2 ^ 16 * readLe memory 1 (descriptor + 4) +
          2 ^ 24 * readLe memory 1 (descriptor + 7) + 2 ^ 32 * readLe memory 4 (descriptor + 8)
        limit := if flags / 128 = 1 then 4096 * limit + 4095 else limit }

structure DescriptorTables where
  gdtr : TableRegister
  idtr : TableRegister
  tr : TableRegister

/-- A segment as it is found under a selector. -/
structure Segment where
  executable : Bool
  writable : Bool
  longMode : Bool
  dpl : Nat
  deriving DecidableEq, Repr

/-- A code or data segment of the global table that is present. -/
def loadSegment (memory : Nat → BitVec 8) (gdtr : TableRegister) (selector : Nat) :
    Option Segment :=
  let descriptor := gdtr.base + selector / 8 * 8
  let access := readLe memory 1 (descriptor + 5)
  let flags := readLe memory 1 (descriptor + 6)
  if selector / 4 % 2 = 1 ∨ selector / 8 = 0 ∨ gdtr.limit < selector / 8 * 8 + 7 then none
  else if access / 128 = 0 ∨ access / 16 % 2 = 0 then none
  else
    some
      { executable := access / 8 % 2 = 1
        writable := access / 2 % 2 = 1
        longMode := flags / 32 % 4 = 1
        dpl := access / 32 % 4 }

/-- How a handler is entered.  `rsp` is where the interrupted state is pushed from. -/
structure Delivery where
  rip : Nat
  cs : Nat
  rsp : Nat
  clearsInterrupts : Bool
  deriving DecidableEq, Repr

/-- An interrupt at privilege level `cpl` with the stack pointer `rsp`; `software` for `int n`. -/
def deliver (memory : Nat → BitVec 8) (t : DescriptorTables) (software : Bool) (cpl rsp vector : Nat) :
    Option Delivery :=
  let gate := t.idtr.base + 16 * vector
  let attributes := readLe memory 1 (gate + 5)
  let selector := readLe memory 2 (gate + 2)
  let ist := readLe memory 1 (gate + 4) % 8
  if t.idtr.limit < 16 * vector + 15 then none
  else if attributes / 128 = 0 ∨ attributes / 16 % 2 = 1 then none
  else if attributes % 16 ≠ 14 ∧ attributes % 16 ≠ 15 then none
  else if software ∧ attributes / 32 % 4 < cpl then none
  else do
    let code ← loadSegment memory t.gdtr selector
    if code.executable = false ∨ code.longMode = false ∨ cpl < code.dpl then none
    else
      -- The stack is one of the interrupt stacks, the one of the new level, or it is kept.
      let slot := if ist ≠ 0 then 28 + 8 * ist else 4 + 8 * code.dpl
      let switches := ist ≠ 0 ∨ code.dpl < cpl
      if switches ∧ t.tr.limit < slot + 7 then none
      else
        some
          { rip := readLe memory 2 gate + 2 ^ 16 * readLe memory 2 (gate + 6) +
              2 ^ 32 * readLe memory 4 (gate + 8)
            cs := selector / 8 * 8 + code.dpl
            rsp := if switches then readLe memory 8 (t.tr.base + slot) else rsp
            clearsInterrupts := attributes % 16 = 14 }

end VisualOS.Kernel
