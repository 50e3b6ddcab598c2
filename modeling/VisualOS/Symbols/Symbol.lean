import VisualOS.Memory.Pageframe

/-!
# The symbols of the kernel

`symbol.c` over the structures of `elf.h`.  `size_t` and pointers are 64-bit words.  An array that
the code indexes is the memory around its first element, so that an index outside of the array
reads and writes what is there, and every index is kept.
-/

namespace VisualOS.Kernel

/-! ## `elf.h` -/

/-- `ELF_SECTION_HEADER_TYPE_SYMTAB`. -/
def elfSectionHeaderTypeSymtab : BitVec 32 := 2

/-- `ELF_SECTION_HEADER_TYPE_STRTAB`. -/
def elfSectionHeaderTypeStrtab : BitVec 32 := 3

/-- The fields of `ELF64Header` that are read. -/
structure Elf64Header where
  eShoff : BitVec 64
  eEhsize : BitVec 16
  eShentsize : BitVec 16
  eShnum : BitVec 16
  eShstrndx : BitVec 16

/-- The fields of `ELF64SectionHeader` that are read, and `sh_link`, which is not. -/
structure Elf64SectionHeader where
  shName : BitVec 32
  shType : BitVec 32
  shOffset : BitVec 64
  shSize : BitVec 64
  shLink : BitVec 32
  shEntsize : BitVec 64
  deriving DecidableEq

structure Elf64Symbol where
  stName : BitVec 32
  stShndx : BitVec 16
  stValue : BitVec 64
  deriving DecidableEq

/-- `kernel_header` and `kernel_offset` of the bootloader's information, and the memory read as
the structures that pointers of `symbol.c` point to. -/
structure KernelFile where
  kernelHeader : BitVec 64
  kernelOffset : BitVec 64
  header : Elf64Header
  sectionAt : BitVec 64 → Elf64SectionHeader
  symbolAt : BitVec 64 → Elf64Symbol

namespace KernelFile

/-- `section_headers`. -/
def sectionHeaders (file : KernelFile) : BitVec 64 := file.kernelHeader + file.header.eShoff

/-- `section_headers + i`; a section header has 64 bytes. -/
def sectionHeader (file : KernelFile) (i : Nat) : Elf64SectionHeader :=
  file.sectionAt (file.sectionHeaders + BitVec.ofNat 64 (64 * i))

/-- `symbol_entries + i`; a symbol has 24 bytes. -/
def symbol (file : KernelFile) (symbolEntries i : BitVec 64) : Elf64Symbol :=
  file.symbolAt (symbolEntries + 24 * i)

end KernelFile

/-! ## `symbol.h` -/

/-- `SYMBOL_FIND_FAIL`, as `size_t`. -/
def symbolFindFail : BitVec 64 := -1

structure SymbolMap where
  address : BitVec 64
  symbolIndex : BitVec 64
  deriving DecidableEq

/-- `s_symbol_table`. -/
structure SymbolTableInformation where
  sectionHeaders : BitVec 64 := 0
  sectionHeadersNum : BitVec 64 := 0
  symbolEntries : BitVec 64 := 0
  symbolEntriesNum : BitVec 64 := 0
  symbolStrings : BitVec 64 := 0
  symbolStringsSize : BitVec 64 := 0
  sectionStrings : BitVec 64 := 0
  sectionStringsSize : BitVec 64 := 0
  symbolMap : BitVec 64 := 0
  symbolMapNum : BitVec 64 := 0
  deriving DecidableEq

/-- The memory as elements of `symbol_map`.  An element has 16 bytes, so indices that differ by a
multiple of `2 ^ 60` are the same memory. -/
structure SymbolArray where
  cells : BitVec 60 → SymbolMap
  accessed : List (BitVec 64) := []

namespace SymbolArray

/-- `symbol_map[j]`. -/
def entry (s : SymbolArray) (j : BitVec 64) : SymbolMap := s.cells (j.setWidth 60)

def access (s : SymbolArray) (j : BitVec 64) : SymbolArray :=
  { s with accessed := j :: s.accessed }

/-- `symbol_map[j] = e`. -/
def store (s : SymbolArray) (j : BitVec 64) (e : SymbolMap) : SymbolArray :=
  { cells := Function.update s.cells (j.setWidth 60) e, accessed := j :: s.accessed }

/-- The first elements of the array. -/
def toList (s : SymbolArray) (num : Nat) : List SymbolMap :=
  (List.range num).map fun i => s.entry (BitVec.ofNat 64 i)

end SymbolArray

/-! ## `symbol_init` -/

structure SymbolState where
  table : SymbolTableInformation
  allocator : Pageframe

/-- `pageframe_reserve_size` for a pointer. -/
def SymbolState.reserveSize (s : SymbolState) (pointer size : BitVec 64) : Option SymbolState := do
  let allocator ← pageframeReserveSize pointer.toNat size.toNat s.allocator
  return { s with allocator }

/-- The body of the loop over the section headers.  A table without an entry size is a division by
zero. -/
def symbolSection (file : KernelFile) (s : SymbolState) (i : Nat) : Option SymbolState :=
  let sectionHeader := file.sectionHeader i
  let pointer := file.kernelHeader + sectionHeader.shOffset
  if sectionHeader.shType = elfSectionHeaderTypeSymtab then
    if sectionHeader.shEntsize = 0 then none
    else do
      let s ← s.reserveSize pointer sectionHeader.shSize
      return { s with table := { s.table with
        symbolEntries := pointer
        symbolEntriesNum := sectionHeader.shSize / sectionHeader.shEntsize } }
  else if sectionHeader.shType = elfSectionHeaderTypeStrtab then do
    let s ← s.reserveSize pointer sectionHeader.shSize
    if file.header.eShstrndx.toNat = i then
      return { s with table := { s.table with
        sectionStrings := pointer
        sectionStringsSize := sectionHeader.shSize } }
    else
      return { s with table := { s.table with
        symbolStrings := pointer
        symbolStringsSize := sectionHeader.shSize } }
  else some s

/-- The first part of `symbol_init`, up to the end of the loop over the section headers. -/
def symbolSections (file : KernelFile) (s : SymbolState) : Option SymbolState := do
  let sectionHeadersNum := file.header.eShnum.setWidth 64
  let s ← s.reserveSize file.kernelHeader (file.header.eEhsize.setWidth 64)
  let s ← s.reserveSize file.sectionHeaders
    (sectionHeadersNum * file.header.eShentsize.setWidth 64)
  let s := { s with table := { s.table with
    sectionHeaders := file.sectionHeaders
    sectionHeadersNum := sectionHeadersNum } }
  (List.range file.header.eShnum.toNat).foldlM (symbolSection file) s

/-- The loop that counts the symbols for the map. -/
def symbolMapNum (symbols : List Elf64Symbol) : BitVec 64 :=
  symbols.foldl (fun num symbol => if symbol.stValue = 0 then num else num + 1) 0

/-- The loop that makes room for a symbol.  Its condition `j >= 0` holds of every `size_t`, so
only the comparison ends it; `none` when it does not end within the given rounds. -/
def symbolShift (value : BitVec 64) : Nat → BitVec 64 → SymbolArray → Option (BitVec 64 × SymbolArray)
  | 0, _, _ => none
  | rounds + 1, j, s =>
      if value < (s.entry j).address then
        symbolShift value rounds (j - 1) ((s.access j).store (j + 1) (s.entry j))
      else some (j, s.access j)

/-- The body of the loop that orders the symbols, for one that is in the map. -/
def symbolInsert (rounds : Nat) (ai : BitVec 64) (e : SymbolMap) (s : SymbolArray) :
    Option SymbolArray := do
  let (j, s) ← if 1 ≤ ai then symbolShift e.address rounds (ai - 1) s else some (ai - 1, s)
  return s.store (j + 1) e

/-- The loop that orders the symbols, from `i` and `ai` on. -/
def symbolOrder (rounds : Nat) :
    List Elf64Symbol → BitVec 64 → BitVec 64 → SymbolArray → Option SymbolArray
  | [], _, _, s => some s
  | symbol :: rest, i, ai, s =>
      if symbol.stValue = 0 then symbolOrder rounds rest (i + 1) ai s
      else do
        let s ← symbolInsert rounds ai ⟨symbol.stValue, i⟩ s
        symbolOrder rounds rest (i + 1) (ai + 1) s

/-- `cells` is the memory around the block that the allocator answers with. -/
def symbolInit (rounds : Nat) (file : KernelFile) (cells : Nat → BitVec 60 → SymbolMap)
    (s : SymbolState) : Option (SymbolState × SymbolArray) := do
  let s ← symbolSections file s
  let symbols := (List.range s.table.symbolEntriesNum.toNat).map fun i =>
    file.symbol s.table.symbolEntries (BitVec.ofNat 64 i)
  let symbolMapSize := symbolMapNum symbols * 16
  let (symbolMap, allocator) ←
    pageframeRequestPages rounds (nearestPage symbolMapSize.toNat) s.allocator
  let array ← symbolOrder rounds symbols 0 0 { cells := cells symbolMap }
  return ({ table := { s.table with
              symbolMap := BitVec.ofNat 64 symbolMap
              symbolMapNum := symbolMapNum symbols }
            allocator }, array)

/-! ## `symbol_resolve` and `symbol_lookup` -/

/-- The loop of `symbol_resolve` and the returns behind it. -/
def symbolSearch (max address : BitVec 64) :
    Nat → BitVec 64 → BitVec 64 → SymbolArray → Option (BitVec 64 × SymbolArray)
  | 0, _, _, _ => none
  | rounds + 1, low, high, s =>
      if low ≤ high ∧ low ≤ max - 1 then
        let mid := (low + high) / 2
        let value := (s.entry mid).address
        let valueNext := (s.entry (mid + 1)).address
        let s := (s.access mid).access (mid + 1)
        if value ≤ address ∧ address < valueNext then some (mid, s)
        else if address < value then symbolSearch max address rounds low (mid - 1) s
        else symbolSearch max address rounds (mid + 1) high s
      else if max - 1 < low then some (max, s)
      else some (symbolFindFail, s)

def symbolResolve (rounds : Nat) (symbolMapNum address : BitVec 64) (s : SymbolArray) :
    Option (BitVec 64 × SymbolArray) :=
  symbolSearch (symbolMapNum - 1) address rounds 0 (symbolMapNum - 1) s

/-- `true` with the pointers that are written: to the name of the symbol and, unless the caller
passes `NULL` for it, to the name of its section. -/
def symbolLookup (rounds : Nat) (file : KernelFile) (table : SymbolTableInformation)
    (address : BitVec 64) (sectionStr : Bool) (s : SymbolArray) :
    Option (Option (BitVec 64 × Option (BitVec 64)) × SymbolArray) := do
  let (mapIndex, s) ← symbolResolve rounds table.symbolMapNum (address - file.kernelOffset) s
  if mapIndex = symbolFindFail then return (none, s)
  else
    let symbol := file.symbol table.symbolEntries (s.entry mapIndex).symbolIndex
    let s := s.access mapIndex
    if symbol.stName = 0 then return (none, s)
    else
      let sectionHeader :=
        file.sectionAt (table.sectionHeaders + 64 * symbol.stShndx.setWidth 64)
      let section? :=
        if sectionStr then some (table.sectionStrings + sectionHeader.shName.setWidth 64) else none
      return (some (table.symbolStrings + symbol.stName.setWidth 64, section?), s)

end VisualOS.Kernel
