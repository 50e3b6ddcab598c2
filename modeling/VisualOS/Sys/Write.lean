import Mathlib.Data.BitVec
import Mathlib.Tactic
import VisualOS.Shell.Text

/-!
# The write system calls

`sys_write.c` and `log_output_size`.  Standard output goes to the console, which reads colour codes
afresh in every buffer; standard error goes to the serial port byte by byte.
-/

namespace VisualOS.Kernel

open Framework

/-- The console, and the port and byte of every `outb`. -/
structure WriteState where
  text : Text
  serial : List (BitVec 16 × BitVec 8)
  deriving DecidableEq

structure Iovec where
  iovBase : Nat → BitVec 8
  iovLen : BitVec 64

/-- `SYS_FD_STDOUT`. -/
def sysFdStdout : BitVec 32 := 1

/-- `SYS_FD_STDERR`. -/
def sysFdStderr : BitVec 32 := 2

/-- `LOG_PORT`. -/
def logPort : BitVec 16 := 0x03f8

def outb (port : BitVec 16) (value : BitVec 8) (s : WriteState) : WriteState :=
  { s with serial := s.serial ++ [(port, value)] }

def logOutputSize (str : Nat → BitVec 8) (size : Nat) (s : WriteState) : WriteState :=
  (List.range size).foldl (fun s i => outb logPort (str i) s) s

section Calls

variable (info : TextInfo)

def sysWrite (fd : BitVec 32) (buf : Nat → BitVec 8) (count : BitVec 64) (s : WriteState) :
    BitVec 64 × WriteState :=
  if fd = sysFdStdout then (count, { s with text := textOutputSize info buf count.toNat s.text })
  else if fd = sysFdStderr then (count, logOutputSize buf count.toNat s)
  else (0#64, s)

def sysWritevLoop (fd : BitVec 32) (total : BitVec 64) (s : WriteState) :
    List Iovec → BitVec 64 × WriteState
  | [] => (total, s)
  | target :: vec =>
      let (written, s) := sysWrite info fd target.iovBase target.iovLen s
      sysWritevLoop fd (total + written) s vec

def sysWritev (fd : BitVec 32) (vec : List Iovec) (s : WriteState) : BitVec 64 × WriteState :=
  sysWritevLoop info fd 0#64 s vec

end Calls

/-! ## The buffers -/

namespace Iovec

def bytes (v : Iovec) : List (BitVec 8) := (List.range v.iovLen.toNat).map v.iovBase

/-- The byte after the buffer is zero. -/
def ZeroAfter (v : Iovec) : Prop := v.iovBase v.iovLen.toNat = 0

variable {v : Iovec}

@[simp] theorem length_bytes : v.bytes.length = v.iovLen.toNat := by simp [bytes]

private theorem ZeroAfter.stored (h : v.ZeroAfter) : Stored v.iovBase v.bytes := by
  apply Stored.mk
  · intro k hk
    simp [bytes]
  · rw [length_bytes]
    exact h

end Iovec

/-- The sum that `sys_writev` returns for a stream it writes to. -/
def iovTotal (vec : List Iovec) : BitVec 64 := (vec.map Iovec.iovLen).sum

private theorem iovTotal_eq (vec : List Iovec) :
    iovTotal vec = BitVec.ofNat 64 (vec.map Iovec.bytes).flatten.length := by
  rw [iovTotal]
  induction vec with
  | nil => rfl
  | cons v vec ih =>
      rw [List.map_cons, List.sum_cons, ih, List.map_cons, List.flatten_cons, List.length_append,
        Iovec.length_bytes, BitVec.ofNat_add, BitVec.ofNat_toNat, BitVec.setWidth_eq]

/-! ## What the calls write -/

section Streams

variable {info : TextInfo} {fd : BitVec 32} {v : Iovec} {vec : List Iovec} {s : WriteState}

/-- The console after the tokens of a text. -/
def Text.putTokens (info : TextInfo) (s : Text) (tokens : List (Token (BitVec 8) (BitVec 32))) :
    Text :=
  (tokens.map TextItem.ofToken).foldl (TextItem.put info) s

private theorem sysWrite_stdout (h : v.ZeroAfter) :
    sysWrite info sysFdStdout v.iovBase v.iovLen s =
      (v.iovLen, { s with text := s.text.putTokens info (colorBook.tokens v.bytes) }) := by
  rw [sysWrite, if_pos rfl, ← Iovec.length_bytes,
    (codesEnd_of_zero h.stored.zero).textOutputSize_eq h.stored.bytes]
  rfl

private theorem logOutputSize_eq (s : WriteState) :
    logOutputSize v.iovBase v.iovLen.toNat s =
      { s with serial := s.serial ++ v.bytes.map fun b => (logPort, b) } := by
  rw [logOutputSize, Iovec.bytes]
  generalize List.range v.iovLen.toNat = l
  induction l generalizing s with
  | nil => simp
  | cons i l ih =>
      rw [List.foldl_cons, ih]
      simp [outb]

private theorem sysWrite_stderr :
    sysWrite info sysFdStderr v.iovBase v.iovLen s =
      (v.iovLen, { s with serial := s.serial ++ v.bytes.map fun b => (logPort, b) }) := by
  rw [sysWrite, if_neg (by decide), if_pos rfl, logOutputSize_eq]

private theorem sysWrite_other {buf : Nat → BitVec 8} {count : BitVec 64} (hout : fd ≠ sysFdStdout)
    (herr : fd ≠ sysFdStderr) : sysWrite info fd buf count s = (0#64, s) := by
  rw [sysWrite, if_neg hout, if_neg herr]

private theorem sysWritevLoop_stdout (h : ∀ v ∈ vec, v.ZeroAfter) (total : BitVec 64)
    (s : WriteState) : sysWritevLoop info sysFdStdout total s vec =
      (total + iovTotal vec, { s with
        text := s.text.putTokens info ((vec.map Iovec.bytes).flatMap colorBook.tokens) }) := by
  induction vec generalizing total s with
  | nil => simp [sysWritevLoop, iovTotal, Text.putTokens]
  | cons v vec ih =>
      rw [List.forall_mem_cons] at h
      rw [sysWritevLoop, sysWrite_stdout h.1]
      dsimp only
      rw [ih h.2]
      simp [iovTotal, Text.putTokens, BitVec.add_assoc]

private theorem sysWritevLoop_stderr (total : BitVec 64) (s : WriteState) :
    sysWritevLoop info sysFdStderr total s vec =
      (total + iovTotal vec, { s with
        serial := s.serial ++ (vec.map Iovec.bytes).flatten.map fun b => (logPort, b) }) := by
  induction vec generalizing total s with
  | nil => simp [sysWritevLoop, iovTotal]
  | cons v vec ih =>
      rw [sysWritevLoop, sysWrite_stderr]
      dsimp only
      rw [ih]
      simp [iovTotal, BitVec.add_assoc]

private theorem sysWritevLoop_other (hout : fd ≠ sysFdStdout) (herr : fd ≠ sysFdStderr)
    (total : BitVec 64) (s : WriteState) : sysWritevLoop info fd total s vec = (total, s) := by
  induction vec generalizing total with
  | nil => rfl
  | cons v vec ih =>
      rw [sysWritevLoop, sysWrite_other hout herr]
      dsimp only
      rw [ih, BitVec.add_zero]

theorem length_chars_putTokens (s : Text) (tokens : List (Token (BitVec 8) (BitVec 32))) :
    (s.putTokens info tokens).chars.length = s.chars.length + tokens.countP Token.isPlain := by
  rw [Text.putTokens, length_chars_foldl, List.filterMap_map, List.length_filterMap_eq_countP]
  congr 1
  apply List.countP_congr
  intro token _
  cases token with
  | plain chr => rfl
  | code color => rfl

end Streams

/-- A vectored write is one write of the concatenation, except to the console when a colour code
lies across the end of a buffer. -/
theorem writev_eq_write_iff (info : TextInfo) (fd : BitVec 32) {vec : List Iovec} (whole : Iovec)
    (hvec : ∀ v ∈ vec, v.ZeroAfter) (hwhole : whole.ZeroAfter)
    (hbytes : whole.bytes = (vec.map Iovec.bytes).flatten) (s : WriteState) :
    sysWritev info fd vec s = sysWrite info fd whole.iovBase whole.iovLen s ↔
      fd ≠ sysFdStdout ∨ ¬colorBook.Split (vec.map Iovec.bytes) := by
  have hlen : iovTotal vec = whole.iovLen := by
    rw [iovTotal_eq, ← hbytes, Iovec.length_bytes, BitVec.ofNat_toNat, BitVec.setWidth_eq]
  rw [sysWritev]
  by_cases hout : fd = sysFdStdout
  · subst fd
    rw [sysWritevLoop_stdout hvec, sysWrite_stdout hwhole, hbytes, hlen, BitVec.zero_add]
    simp only [ne_eq, not_true_eq_false, false_or]
    constructor
    · intro heq hsplit
      have hchars := congrArg (fun r => r.2.text.chars.length) heq
      dsimp only at hchars
      rw [length_chars_putTokens, length_chars_putTokens, Codebook.countP_flatMap_tokens] at hchars
      have := Codebook.plainCount_flatten_lt hsplit
      rw [Codebook.plainCount] at this
      omega
    · intro hsplit
      rw [Codebook.tokens_flatten hsplit]
  · simp only [ne_eq, hout, not_false_eq_true, true_or, iff_true]
    by_cases herr : fd = sysFdStderr
    · subst fd
      rw [sysWritevLoop_stderr, sysWrite_stderr, hbytes, hlen, BitVec.zero_add]
    · rw [sysWritevLoop_other hout herr, sysWrite_other hout herr]

/-- A buffer with a zero after it. -/
def byteIovec (l : List (BitVec 8)) : Iovec := ⟨byteText l, BitVec.ofNat 64 l.length⟩

private theorem byteIovec_zeroAfter {l : List (BitVec 8)} (hl : l.length < 2 ^ 64) :
    (byteIovec l).ZeroAfter := by
  simp only [Iovec.ZeroAfter, byteIovec, byteText, BitVec.toNat_ofNat, Nat.mod_eq_of_lt hl]
  rw [List.getD_eq_getElem?_getD, List.getElem?_eq_none le_rfl, Option.getD_none]

/-- A screen of 640 columns and 480 rows with an empty console, and a font of blank glyphs. -/
def blankInfo : TextInfo := ⟨⟨640, 480, 2560⟩, ⟨16, fun _ => 0⟩⟩

def emptyConsole : WriteState := ⟨⟨⟨0, 0⟩, textColorWhite, [], []⟩, []⟩

/-- The code for red ends with the first piece. -/
theorem writev_eq_write_two :
    sysWritev blankInfo sysFdStdout [byteIovec (0x61 :: colorCode 0x31), byteIovec [0x62]]
        emptyConsole =
      sysWrite blankInfo sysFdStdout (byteIovec (0x61 :: colorCode 0x31 ++ [0x62])).iovBase 9
        emptyConsole := by
  have hlast : ∀ c ∈ colorBook.codes, c.1.getLast? ≠ some 0x62 := by decide
  have hsplit : ¬colorBook.Split [0x61 :: colorCode 0x31, [0x62]] := by
    rw [Codebook.split_cons, Codebook.split_cons]
    rintro (⟨a₁, a₂, b₁, b₂, -, hb, -, hne, c, hc, heq⟩ | hacross | hsplit)
    · rw [List.flatten_cons, List.flatten_nil, List.append_nil, List.singleton_eq_append_iff] at hb
      obtain ⟨hnil, -⟩ | ⟨rfl, -⟩ := hb
      · exact hne hnil
      · exact hlast c hc (by rw [heq, List.getLast?_concat])
    · exact Codebook.not_across_of_notMem (by decide) hacross
    · exact Codebook.not_split_nil hsplit
  have hvec : ∀ v ∈ [byteIovec (0x61 :: colorCode 0x31), byteIovec [0x62]], v.ZeroAfter := by
    rw [List.forall_mem_cons, List.forall_mem_singleton]
    exact ⟨byteIovec_zeroAfter (by decide), byteIovec_zeroAfter (by decide)⟩
  have hwhole : (byteIovec (0x61 :: colorCode 0x31 ++ [0x62])).ZeroAfter :=
    byteIovec_zeroAfter (by decide)
  exact (writev_eq_write_iff blankInfo sysFdStdout _ hvec hwhole rfl emptyConsole).mpr (.inr hsplit)

/-- The code for red, cut off after the escape, is written out instead of changing the colour. -/
theorem writev_splits_color :
    ∃ (vec : List Iovec) (whole : Iovec), (∀ v ∈ vec, v.ZeroAfter) ∧ whole.ZeroAfter ∧
      whole.bytes = (vec.map Iovec.bytes).flatten ∧
      sysWritev blankInfo sysFdStdout vec emptyConsole ≠
        sysWrite blankInfo sysFdStdout whole.iovBase whole.iovLen emptyConsole := by
  refine ⟨[byteIovec [0x1b], byteIovec [0x5b, 0x30, 0x3b, 0x33, 0x31, 0x6d, 0x61]],
    byteIovec (colorCode 0x31 ++ [0x61]), ?_, ?_, rfl, ?_⟩
  · rw [List.forall_mem_cons, List.forall_mem_singleton]
    exact ⟨byteIovec_zeroAfter (by decide), byteIovec_zeroAfter (by decide)⟩
  · exact byteIovec_zeroAfter (by decide)
  · decide +kernel

end VisualOS.Kernel
