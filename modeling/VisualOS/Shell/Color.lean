import Mathlib.Tactic
import VisualOS.Framework.Codebook

/-!
# Colour codes

`color.c`: the table of colour codes and the comparison of a text with it.  A `char*` is the bytes
from the pointer on, so the comparison can read past the end of the text it was given.
-/

namespace VisualOS.Kernel

open Framework

/-- `COLOR_ANSI_MAX_SIZE`. -/
def colorAnsiMaxSize : Nat := 8

/-- `COLOR_ANSI_MAGIC_CHAR_START`, the escape character. -/
def colorAnsiMagicCharStart : BitVec 8 := 0x1b

/-- `COLOR_ANSI_MAGIC_CHAR_END`, the letter m. -/
def colorAnsiMagicCharEnd : BitVec 8 := 0x6d

structure ColorInterface where
  ansi : List (BitVec 8)
  shell : BitVec 32
  deriving DecidableEq

/-- The bytes of a text, zero behind them. -/
def byteText (l : List (BitVec 8)) : Nat → BitVec 8 := fun k => l.getD k 0

/-- The array `ansi` holds the code and is filled up with zeros. -/
def ColorInterface.ansiArray (c : ColorInterface) : Nat → BitVec 8 := byteText c.ansi

/-- `COLOR_RESET`: escape, `[0m`. -/
def colorReset : List (BitVec 8) := [0x1b, 0x5b, 0x30, 0x6d]

/-- `COLOR_BLACK` to `COLOR_WHITE`: escape, `[0;3`, the digit of the colour, `m`. -/
def colorCode (digit : BitVec 8) : List (BitVec 8) := [0x1b, 0x5b, 0x30, 0x3b, 0x33, digit, 0x6d]

def textColorWhite : BitVec 32 := 0xffffffff
def textColorBlack : BitVec 32 := 0xff000000
def textColorRed : BitVec 32 := 0xffff0000
def textColorGreen : BitVec 32 := 0xff00ff00
def textColorBlue : BitVec 32 := 0xff0000ff
def textColorCyan : BitVec 32 := 0xff00ffff
def textColorYellow : BitVec 32 := 0xffffff00
def textColorMagenta : BitVec 32 := 0xffff00ff

def gColorDefault : ColorInterface := ⟨colorCode 0x37, textColorWhite⟩

def sColors : List ColorInterface :=
  [⟨colorReset, textColorWhite⟩,
    ⟨colorCode 0x30, textColorBlack⟩,
    ⟨colorCode 0x31, textColorRed⟩,
    ⟨colorCode 0x32, textColorGreen⟩,
    ⟨colorCode 0x33, textColorYellow⟩,
    ⟨colorCode 0x34, textColorBlue⟩,
    ⟨colorCode 0x35, textColorMagenta⟩,
    ⟨colorCode 0x36, textColorCyan⟩,
    ⟨colorCode 0x37, textColorWhite⟩]

/-- The rounds that are left and the index; `none` is `COLOR_MATCH_FAIL`. -/
def colorAnsiCompareLoop (str1 str2 : Nat → BitVec 8) : Nat → Nat → Option Nat
  | 0, _ => none
  | rounds + 1, i =>
      if str1 i ≠ str2 i then none
      else if str1 i = colorAnsiMagicCharEnd ∧ str2 i = colorAnsiMagicCharEnd then some (i + 1)
      else colorAnsiCompareLoop str1 str2 rounds (i + 1)

def colorAnsiCompare (str1 str2 : Nat → BitVec 8) : Option Nat :=
  colorAnsiCompareLoop str1 str2 colorAnsiMaxSize 0

def colorFromAnsiLoop (color : Nat → BitVec 8) :
    List ColorInterface → ColorInterface × Option Nat
  | [] => (gColorDefault, none)
  | c :: colors =>
      match colorAnsiCompare c.ansiArray color with
      | some compare => (c, some compare)
      | none => colorFromAnsiLoop color colors

/-- The colour, and what is stored through `index`. -/
def colorFromAnsi (color : Nat → BitVec 8) : ColorInterface × Option Nat :=
  if color 0 ≠ colorAnsiMagicCharStart then (gColorDefault, none)
  else colorFromAnsiLoop color sColors

/-! ## What the comparison finds -/

/-- The text at an offset. -/
def Occurs (str : Nat → BitVec 8) (i : Nat) (l : List (BitVec 8)) : Prop :=
  ∀ k (h : k < l.length), str (i + k) = l[k]

instance (str : Nat → BitVec 8) (i : Nat) (l : List (BitVec 8)) : Decidable (Occurs str i l) :=
  Nat.decidableBallLT l.length fun k h => str (i + k) = l[k]

section Occurs

variable {str : Nat → BitVec 8} {i : Nat} {a : BitVec 8} {l : List (BitVec 8)}

private theorem occurs_nil : Occurs str i [] := fun _ h => absurd h (Nat.not_lt_zero _)

theorem occurs_cons : Occurs str i (a :: l) ↔ str i = a ∧ Occurs str (i + 1) l := by
  constructor
  · intro h
    apply And.intro
    · exact h 0 (by simp)
    · intro k hk
      have := h (k + 1) (by simpa using hk)
      rwa [← Nat.add_assoc, Nat.add_right_comm] at this
  · rintro ⟨hhead, htail⟩ k hk
    cases k with
    | zero => exact hhead
    | succ k =>
        have := htail k (by simpa using hk)
        rwa [Nat.add_right_comm] at this

theorem occurs_shift : Occurs (fun k => str (i + k)) 0 l ↔ Occurs str i l := by
  simp [Occurs]

end Occurs

/-- A code ends with the first end character. -/
def IsAnsi (l : List (BitVec 8)) : Prop :=
  ∃ body, l = body ++ [colorAnsiMagicCharEnd] ∧ colorAnsiMagicCharEnd ∉ body ∧
    l.length ≤ colorAnsiMaxSize

theorem sColors_isAnsi : ∀ c ∈ sColors, IsAnsi c.ansi := by
  have h : ∀ c ∈ sColors, c.ansi = c.ansi.dropLast ++ [colorAnsiMagicCharEnd] ∧
      colorAnsiMagicCharEnd ∉ c.ansi.dropLast ∧ c.ansi.length ≤ colorAnsiMaxSize := by
    decide
  exact fun c hc => ⟨c.ansi.dropLast, h c hc⟩

private theorem colorAnsiCompareLoop_eq {str1 str2 : Nat → BitVec 8} {body : List (BitVec 8)}
    {rounds i : Nat} (hbody : colorAnsiMagicCharEnd ∉ body) (hrounds : body.length < rounds)
    (h : Occurs str1 i (body ++ [colorAnsiMagicCharEnd])) :
    colorAnsiCompareLoop str1 str2 rounds i =
      if Occurs str2 i (body ++ [colorAnsiMagicCharEnd]) then some (i + body.length + 1)
      else none := by
  induction body generalizing rounds i with
  | nil =>
      obtain ⟨rounds, rfl⟩ := Nat.exists_eq_add_of_lt hrounds
      simp only [List.nil_append, occurs_cons, occurs_nil, and_true] at h ⊢
      by_cases heq : str2 i = colorAnsiMagicCharEnd
      · simp [colorAnsiCompareLoop, h, heq]
      · simp [colorAnsiCompareLoop, h, heq, Ne.symm heq]
  | cons a body ih =>
      obtain ⟨rounds, rfl⟩ := Nat.exists_eq_add_of_lt hrounds
      rw [List.mem_cons, not_or] at hbody
      simp only [List.cons_append, occurs_cons] at h ⊢
      rw [colorAnsiCompareLoop, h.1]
      by_cases heq : str2 i = a
      · rw [if_neg (by simp [heq]), if_neg (fun hend => hbody.1 hend.1.symm),
          ih hbody.2 (by simp; omega) h.2]
        simp only [heq, true_and, List.length_cons]
        rw [Nat.add_right_comm i, ← Nat.add_assoc]
      · rw [if_pos (Ne.symm heq), if_neg (fun hall => heq hall.1)]

private theorem colorAnsiCompare_eq {c : ColorInterface} (hc : IsAnsi c.ansi)
    (str : Nat → BitVec 8) : colorAnsiCompare c.ansiArray str =
      if Occurs str 0 c.ansi then some c.ansi.length else none := by
  obtain ⟨body, hbody, hmem, hlen⟩ := hc
  have harray : Occurs c.ansiArray 0 (body ++ [colorAnsiMagicCharEnd]) := by
    intro k hk
    rw [Nat.zero_add, ColorInterface.ansiArray, hbody, byteText, List.getD_eq_getElem?_getD,
      List.getElem?_eq_getElem hk, Option.getD_some]
  have hrounds : body.length < colorAnsiMaxSize := by
    rw [hbody, List.length_append] at hlen
    simpa using hlen
  rw [colorAnsiCompare, colorAnsiCompareLoop_eq hmem hrounds harray, hbody, List.length_append]
  simp

private theorem colorFromAnsiLoop_eq {colors : List ColorInterface}
    (hcolors : ∀ c ∈ colors, IsAnsi c.ansi) (color : Nat → BitVec 8) :
    colorFromAnsiLoop color colors =
      match colors.find? fun c => decide (Occurs color 0 c.ansi) with
      | some c => (c, some c.ansi.length)
      | none => (gColorDefault, none) := by
  induction colors with
  | nil => rfl
  | cons c colors ih =>
      rw [List.forall_mem_cons] at hcolors
      rw [colorFromAnsiLoop, colorAnsiCompare_eq hcolors.1, List.find?_cons]
      by_cases hc : Occurs color 0 c.ansi
      · simp [hc]
      · simp [hc, ih hcolors.2]

/-! ## The codes as a codebook -/

def colorBook : Codebook (BitVec 8) (BitVec 32) where
  mark := colorAnsiMagicCharStart
  codes := sColors.map fun c => (c.ansi, c.shell)
  marked := by
    have h : ∀ c ∈ sColors.map fun c => (c.ansi, c.shell),
        c.1 = colorAnsiMagicCharStart :: c.1.tail ∧ colorAnsiMagicCharStart ∉ c.1.tail := by
      decide
    exact fun c hc => ⟨c.1.tail, h c hc⟩
  free := by decide

theorem mem_colorBook {c : ColorInterface} (hc : c ∈ sColors) :
    (c.ansi, c.shell) ∈ colorBook.codes := List.mem_map_of_mem hc

theorem tokens_color {c : ColorInterface} (hc : c ∈ sColors) (l : List (BitVec 8)) :
    colorBook.tokens (c.ansi ++ l) = .code c.shell :: colorBook.tokens l :=
  Codebook.tokens_code (mem_colorBook hc) l

theorem tokens_char {chr : BitVec 8} {l : List (BitVec 8)}
    (h : ∀ c ∈ sColors, ¬c.ansi <+: chr :: l) :
    colorBook.tokens (chr :: l) = .plain chr :: colorBook.tokens l := by
  apply Codebook.tokens_plain
  exact List.forall_mem_map.mpr h

/-- The outcome of `color_from_ansi`: the one code at the place, or none. -/
inductive AnsiResult (color : Nat → BitVec 8) : ColorInterface × Option Nat → Prop
  | found {c : ColorInterface} (hc : c ∈ sColors) (hoccurs : Occurs color 0 c.ansi) :
      AnsiResult color (c, some c.ansi.length)
  | failed (hnone : ∀ c ∈ sColors, ¬Occurs color 0 c.ansi) : AnsiResult color (gColorDefault, none)

theorem colorFromAnsi_result (color : Nat → BitVec 8) : AnsiResult color (colorFromAnsi color) := by
  rw [colorFromAnsi]
  split_ifs with hstart
  · apply AnsiResult.failed
    intro c hc hoccurs
    obtain ⟨l, hl, -⟩ := colorBook.marked _ (mem_colorBook hc)
    dsimp only at hl
    rw [hl, occurs_cons] at hoccurs
    exact hstart hoccurs.1
  · rw [colorFromAnsiLoop_eq sColors_isAnsi]
    cases hfind : sColors.find? fun c => decide (Occurs color 0 c.ansi) with
    | some c =>
        exact .found (List.mem_of_find?_eq_some hfind) (by simpa using List.find?_some hfind)
    | none => exact .failed (by simpa using List.find?_eq_none.mp hfind)

/-! ## A text and the zero after it -/

/-- The bytes of a text, followed by a zero. -/
structure Stored (str : Nat → BitVec 8) (text : List (BitVec 8)) : Prop where
  bytes : Occurs str 0 text
  zero : str text.length = 0

section Text

variable {str : Nat → BitVec 8} {text code : List (BitVec 8)} {i : Nat}

private theorem Occurs.occurs_iff (h : Occurs str 0 text) (hlen : i + code.length ≤ text.length) :
    Occurs str i code ↔ code <+: text.drop i := by
  rw [List.prefix_iff_getElem]
  constructor
  · intro hoccurs
    refine ⟨by rw [List.length_drop]; omega, fun k hk => ?_⟩
    rw [List.getElem_drop, ← hoccurs k hk, ← h (i + k) (by omega), Nat.zero_add]
  · rintro ⟨hle, heq⟩ k hk
    rw [heq k hk, List.getElem_drop, ← h (i + k) (by omega), Nat.zero_add]

private theorem add_length_le_of_drop (hi : i ≤ text.length) (h : code <+: text.drop i) :
    i + code.length ≤ text.length := by
  have := h.length_le
  rw [List.length_drop] at this
  omega

/-- The codes that begin in a text also end in it. -/
def CodesEnd (str : Nat → BitVec 8) (size : Nat) : Prop :=
  ∀ c ∈ sColors, ∀ i < size, Occurs str i c.ansi → i + c.ansi.length ≤ size

theorem CodesEnd.occurs_iff (hends : CodesEnd str text.length) (h : Occurs str 0 text)
    {c : ColorInterface} (hc : c ∈ sColors) (hi : i < text.length) :
    Occurs str i c.ansi ↔ c.ansi <+: text.drop i := by
  constructor
  · intro hoccurs
    exact (h.occurs_iff (hends c hc i hi hoccurs)).mp hoccurs
  · intro hle
    exact (h.occurs_iff (add_length_le_of_drop hi.le hle)).mpr hle

end Text

theorem sColors_length : ∀ c ∈ sColors, 4 ≤ c.ansi.length := by decide

private theorem sColors_zero : ∀ c ∈ sColors, 0 ∉ c.ansi := by decide

theorem codesEnd_of_zero {str : Nat → BitVec 8} {n : Nat} (hzero : str n = 0) : CodesEnd str n := by
  intro c hc i hi hoccurs
  by_contra hover
  have hinside := hoccurs (n - i) (by omega)
  rw [Nat.add_sub_cancel' hi.le, hzero] at hinside
  exact sColors_zero c hc (hinside ▸ List.getElem_mem _)

end VisualOS.Kernel
