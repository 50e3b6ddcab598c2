import Mathlib.Tactic
import VisualOS.Shell.Color

/-!
# The text console

`text.c` and `framebuffer_putpix32`.  The console keeps a cursor and a colour.  It wraps a line when
the cursor has reached the width of the screen; it looks neither at what is left of the width before
it draws nor ever at the height.
-/

namespace VisualOS.Kernel

open Framework

structure Framebuffer where
  width : BitVec 16
  height : BitVec 16
  pitch : BitVec 16

/-- The font module: the height of its glyphs and the bytes around `body`. -/
structure Font where
  charsize : BitVec 8
  body : Int → BitVec 8

/-- What the console reads of `bootloader_get_info()`. -/
structure TextInfo where
  framebuffer : Framebuffer
  font : Font

/-- A call of `framebuffer_putpix32`, with the index it writes to. -/
structure Pixel where
  x : BitVec 16
  y : BitVec 16
  index : Nat
  pix : BitVec 32
  deriving DecidableEq

structure Point where
  x : BitVec 32
  y : BitVec 32
  deriving DecidableEq

/-- `s_cursor` and `s_color_state`, with what was written so far: the characters that
`text_output_char_color` was given, and the pixels. -/
structure Text where
  cursor : Point
  colorState : BitVec 32
  chars : List (BitVec 8 × BitVec 32)
  pixels : List Pixel
  deriving DecidableEq

/-- `MODULE_PSF1_WIDTH`. -/
def modulePsf1Width : Nat := 8

/-- The newline character. -/
def newlineChar : BitVec 8 := 0x0a

/-- The index is an `int`, which it fits into whenever a row of the screen fits into the pitch. -/
def framebufferPixel (framebuffer : Framebuffer) (x y : BitVec 16) (pix : BitVec 32) : Pixel :=
  ⟨x, y, y.toNat * framebuffer.width.toNat + x.toNat, pix⟩

def framebufferPutpix32 (framebuffer : Framebuffer) (x y : BitVec 16) (pix : BitVec 32) (s : Text) :
    Text :=
  { s with pixels := s.pixels ++ [framebufferPixel framebuffer x y pix] }

section Console

variable (info : TextInfo)

/-- The bit of the glyph for a pixel. -/
def glyphBit (chr : BitVec 8) (dy dx : Nat) : Prop :=
  0 < info.font.body (chr.toInt * info.font.charsize.toNat + dy) &&& (0b10000000#8 >>> dx)

instance (chr : BitVec 8) (dy dx : Nat) : Decidable (glyphBit info chr dy dx) :=
  inferInstanceAs (Decidable (_ < _))

def textDrawRow (chr : BitVec 8) (color xoff yoff : BitVec 32) (dy : Nat) (s : Text) : Text :=
  (List.range modulePsf1Width).foldl (fun s dx =>
    if glyphBit info chr dy dx then
      framebufferPutpix32 info.framebuffer (BitVec.ofNat 16 (dx + xoff.toNat))
        (BitVec.ofNat 16 (dy + yoff.toNat)) color s
    else s) s

def textDrawChar (chr : BitVec 8) (color xoff yoff : BitVec 32) (s : Text) : Text :=
  (List.range info.font.charsize.toNat).foldl (fun s dy => textDrawRow info chr color xoff yoff dy s) s

/-- The label `newline`. -/
def textNewline (s : Text) : Text :=
  { s with cursor := ⟨0, s.cursor.y + info.font.charsize.setWidth 32⟩ }

def textOutputCharColor (chr : BitVec 8) (color : BitVec 32) (s : Text) : Text :=
  let s := { s with chars := s.chars ++ [(chr, color)] }
  if chr = newlineChar then textNewline info s
  else
    let s := textDrawChar info chr color s.cursor.x s.cursor.y s
    let s := { s with cursor.x := s.cursor.x + BitVec.ofNat 32 modulePsf1Width }
    if s.cursor.x.toNat < info.framebuffer.width.toNat then s else textNewline info s

def textOutputChar (chr : BitVec 8) (s : Text) : Text :=
  textOutputCharColor info chr s.colorState s

def textHandleAnsiColor (str : Nat → BitVec 8) (i : Nat) (s : Text) : Option Nat × Text :=
  match colorFromAnsi fun k => str (i + k) with
  | (color, some relativeIndex) => (some relativeIndex, { s with colorState := color.shell })
  | (_, none) => (none, s)

/-- `none` when the text does not end within the given rounds. -/
def textOutputLoop (str : Nat → BitVec 8) : Nat → Nat → Text → Option Text
  | 0, _, _ => none
  | rounds + 1, i, s =>
      if str i ≠ 0 then
        match textHandleAnsiColor str i s with
        | (some relativeIndex, s) => textOutputLoop str rounds (i + (relativeIndex - 1)) s
        | (none, s) => textOutputLoop str rounds (i + 1) (textOutputChar info (str i) s)
      else some s

def textOutput (rounds : Nat) (str : Nat → BitVec 8) (s : Text) : Option Text :=
  textOutputLoop info str rounds 0 s

/-- Every round raises the index, so that as many rounds as there are bytes are enough. -/
def textOutputSizeLoop (str : Nat → BitVec 8) (size : Nat) : Nat → Nat → Text → Text
  | 0, _, s => s
  | rounds + 1, i, s =>
      if i < size then
        match textHandleAnsiColor str i s with
        | (some relativeIndex, s) =>
            textOutputSizeLoop str size rounds (i + (relativeIndex - 1) + 1) s
        | (none, s) => textOutputSizeLoop str size rounds (i + 1) (textOutputChar info (str i) s)
      else s

def textOutputSize (str : Nat → BitVec 8) (size : Nat) (s : Text) : Text :=
  textOutputSizeLoop info str size size 0 s

end Console

/-! ## One character -/

/-- The cursor after a character. -/
def Point.advance (framebuffer : Framebuffer) (charsize chr : BitVec 8) (cursor : Point) : Point :=
  if chr ≠ newlineChar ∧ (cursor.x + 8#32).toNat < framebuffer.width.toNat then
    ⟨cursor.x + 8#32, cursor.y⟩
  else ⟨0, cursor.y + charsize.setWidth 32⟩

/-- The pixel of a glyph that is drawn at the cursor. -/
def glyphPixel (framebuffer : Framebuffer) (color : BitVec 32) (cursor : Point) (dy dx : Nat) :
    Pixel :=
  framebufferPixel framebuffer (BitVec.ofNat 16 (dx + cursor.x.toNat))
    (BitVec.ofNat 16 (dy + cursor.y.toNat)) color

def glyphRow (info : TextInfo) (chr : BitVec 8) (color : BitVec 32) (cursor : Point) (dy : Nat) :
    List Pixel :=
  (List.range modulePsf1Width).flatMap fun dx =>
    if glyphBit info chr dy dx then [glyphPixel info.framebuffer color cursor dy dx] else []

def glyphPixels (info : TextInfo) (chr : BitVec 8) (color : BitVec 32) (cursor : Point) :
    List Pixel :=
  if chr = newlineChar then []
  else (List.range info.font.charsize.toNat).flatMap (glyphRow info chr color cursor)

section Character

variable {info : TextInfo} {chr : BitVec 8} {color : BitVec 32} {s : Text}

private theorem foldl_pixels {β : Type*} {f : Text → β → Text} {g : β → List Pixel}
    (hf : ∀ s a, f s a = { s with pixels := s.pixels ++ g a }) (l : List β) (s : Text) :
    l.foldl f s = { s with pixels := s.pixels ++ l.flatMap g } := by
  induction l generalizing s with
  | nil => simp
  | cons a l ih => rw [List.foldl_cons, ih, hf, List.flatMap_cons, List.append_assoc]

private theorem textDrawRow_eq (cursor : Point) (dy : Nat) (s : Text) :
    textDrawRow info chr color cursor.x cursor.y dy s =
      { s with pixels := s.pixels ++ glyphRow info chr color cursor dy } := by
  apply foldl_pixels
  intro s dx
  by_cases hbit : glyphBit info chr dy dx
  · simp only [if_pos hbit]
    rfl
  · simp [if_neg hbit]

private theorem textDrawChar_eq (cursor : Point) (s : Text) :
    textDrawChar info chr color cursor.x cursor.y s =
      { s with pixels := s.pixels ++
          (List.range info.font.charsize.toNat).flatMap (glyphRow info chr color cursor) } :=
  foldl_pixels (fun s dy => textDrawRow_eq cursor dy s) _ s

theorem textOutputCharColor_eq (info : TextInfo) (chr : BitVec 8) (color : BitVec 32) (s : Text) :
    textOutputCharColor info chr color s =
      { s with
        cursor := s.cursor.advance info.framebuffer info.font.charsize chr
        chars := s.chars ++ [(chr, color)]
        pixels := s.pixels ++ glyphPixels info chr color s.cursor } := by
  rw [textOutputCharColor, Point.advance, glyphPixels]
  by_cases hchr : chr = newlineChar
  · simp [hchr, textNewline]
  · dsimp only
    rw [if_neg hchr, if_neg hchr, textDrawChar_eq]
    by_cases hx : (s.cursor.x + 8#32).toNat < info.framebuffer.width.toNat
    · rw [if_pos (And.intro hchr hx)]
      exact if_pos hx
    · rw [if_neg (not_and_of_not_right (chr ≠ newlineChar) hx)]
      exact if_neg hx

end Character

/-! ## The characters of a call -/

/-- What the loops do one after the other: a character in the current colour or in a given one, or
a change of the colour. -/
inductive TextItem
  | char (chr : BitVec 8)
  | charColor (chr : BitVec 8) (color : BitVec 32)
  | setColor (color : BitVec 32)
  deriving DecidableEq

namespace TextItem

def put (info : TextInfo) (s : Text) : TextItem → Text
  | char chr => textOutputChar info chr s
  | charColor chr color => textOutputCharColor info chr color s
  | setColor color => { s with colorState := color }

def chr? : TextItem → Option (BitVec 8)
  | char chr => some chr
  | charColor chr _ => some chr
  | setColor _ => none

end TextItem

theorem length_chars_foldl {info : TextInfo} (items : List TextItem) (s : Text) :
    (items.foldl (TextItem.put info) s).chars.length =
      s.chars.length + (items.filterMap TextItem.chr?).length := by
  induction items generalizing s with
  | nil => rfl
  | cons item items ih =>
      rw [List.foldl_cons, ih]
      cases item with
      | char chr =>
          simp [TextItem.put, TextItem.chr?, textOutputChar, textOutputCharColor_eq]
          omega
      | charColor chr color =>
          simp [TextItem.put, TextItem.chr?, textOutputCharColor_eq]
          omega
      | setColor color => rfl

section Loops

variable {info : TextInfo} {str : Nat → BitVec 8} {s : Text}

def outputItems (str : Nat → BitVec 8) : Nat → Nat → List TextItem
  | 0, _ => []
  | rounds + 1, i =>
      if str i ≠ 0 then
        match colorFromAnsi fun k => str (i + k) with
        | (color, some relativeIndex) =>
            .setColor color.shell :: outputItems str rounds (i + (relativeIndex - 1))
        | (_, none) => .char (str i) :: outputItems str rounds (i + 1)
      else []

def outputSizeItems (str : Nat → BitVec 8) (size : Nat) : Nat → Nat → List TextItem
  | 0, _ => []
  | rounds + 1, i =>
      if i < size then
        match colorFromAnsi fun k => str (i + k) with
        | (color, some relativeIndex) =>
            .setColor color.shell :: outputSizeItems str size rounds (i + (relativeIndex - 1) + 1)
        | (_, none) => .char (str i) :: outputSizeItems str size rounds (i + 1)
      else []

theorem textOutputSizeLoop_eq (size rounds i : Nat) (s : Text) :
    textOutputSizeLoop info str size rounds i s =
      (outputSizeItems str size rounds i).foldl (TextItem.put info) s := by
  induction rounds generalizing i s with
  | zero => rfl
  | succ rounds ih =>
      rw [textOutputSizeLoop, outputSizeItems, textHandleAnsiColor]
      split_ifs with hi
      · have hresult := colorFromAnsi_result fun k => str (i + k)
        generalize colorFromAnsi (fun k => str (i + k)) = result at hresult ⊢
        cases hresult with
        | @found c hc hoccurs => exact ih (i + (c.ansi.length - 1) + 1) { s with colorState := c.shell }
        | failed hnone => exact ih (i + 1) (textOutputChar info (str i) s)
      · rfl

/-- The loop ends at the zero: no code contains it, so no step goes over it. -/
theorem textOutputLoop_eq {rounds i n : Nat} (hi : i ≤ n) (hn : n < i + rounds) (hzero : str n = 0)
    (s : Text) :
    textOutputLoop info str rounds i s =
      some ((outputItems str rounds i).foldl (TextItem.put info) s) := by
  induction rounds generalizing i s with
  | zero => omega
  | succ rounds ih =>
      rw [textOutputLoop, outputItems, textHandleAnsiColor]
      split_ifs with hstr
      · have hne : i ≠ n := fun h => hstr (h ▸ hzero)
        have hresult := colorFromAnsi_result fun k => str (i + k)
        generalize colorFromAnsi (fun k => str (i + k)) = result at hresult ⊢
        cases hresult with
        | @found c hc hoccurs =>
            have hlen : 4 ≤ c.ansi.length := sColors_length c hc
            have hover := codesEnd_of_zero hzero c hc i (by omega) (occurs_shift.mp hoccurs)
            have hindex : i + (c.ansi.length - 1) ≤ n := by omega
            exact ih hindex (by omega) { s with colorState := c.shell }
        | failed hnone =>
            have hindex : i + 1 ≤ n := by omega
            exact ih hindex (by omega) (textOutputChar info (str i) s)
      · rfl

end Loops

/-- A call of the console. -/
inductive TextCall
  | outputSize (str : Nat → BitVec 8) (size : Nat)
  | output (str : Nat → BitVec 8) (rounds : Nat)
  | outputCharColor (chr : BitVec 8) (color : BitVec 32)

namespace TextCall

/-- A text that `text_output` is given ends within the rounds. -/
def Terminated : TextCall → Prop
  | output str rounds => ∃ n < rounds, str n = 0
  | _ => True

def exec (info : TextInfo) (s : Text) : TextCall → Option Text
  | outputSize str size => some (textOutputSize info str size s)
  | output str rounds => textOutput info rounds str s
  | outputCharColor chr color => some (textOutputCharColor info chr color s)

def items : TextCall → List TextItem
  | outputSize str size => outputSizeItems str size size 0
  | output str rounds => outputItems str rounds 0
  | outputCharColor chr color => [.charColor chr color]

/-- The characters that a call writes: its text without the colour codes. -/
def chars (call : TextCall) : List (BitVec 8) := call.items.filterMap TextItem.chr?

variable {info : TextInfo} {call : TextCall} {calls : List TextCall}

private theorem exec_eq (h : call.Terminated) (s : Text) :
    call.exec info s = some (call.items.foldl (TextItem.put info) s) := by
  cases call with
  | outputSize str size => exact congrArg some (textOutputSizeLoop_eq size size 0 s)
  | output str rounds =>
      obtain ⟨n, hn, hzero⟩ := h
      exact textOutputLoop_eq (Nat.zero_le n) (by omega) hzero s
  | outputCharColor chr color => rfl

theorem foldlM_exec_eq (h : ∀ call ∈ calls, call.Terminated) (s : Text) :
    calls.foldlM (exec info) s = some ((calls.flatMap items).foldl (TextItem.put info) s) := by
  induction calls generalizing s with
  | nil => rfl
  | cons call calls ih =>
      rw [List.forall_mem_cons] at h
      rw [List.foldlM_cons, exec_eq h.1, List.flatMap_cons, List.foldl_append]
      exact ih h.2 _

end TextCall

/-! ## The tokens of a text -/

def TextItem.ofToken : Token (BitVec 8) (BitVec 32) → TextItem
  | .plain chr => .char chr
  | .code color => .setColor color

/-- What the search for a code finds at a place of a text, and the tokens from there on. -/
inductive TokenAt (str : Nat → BitVec 8) (text : List (BitVec 8)) (i : Nat) :
    ColorInterface × Option Nat → Prop
  | code {c : ColorInterface} (hc : c ∈ sColors) (hlen : i + c.ansi.length ≤ text.length)
      (hdrop : text.drop i = c.ansi ++ text.drop (i + c.ansi.length)) :
      TokenAt str text i (c, some c.ansi.length)
  | plain (htokens : colorBook.tokens (text.drop i) =
        .plain (str i) :: colorBook.tokens (text.drop (i + 1))) :
      TokenAt str text i (gColorDefault, none)

section Tokens

variable {str : Nat → BitVec 8} {text : List (BitVec 8)} {i size rounds rounds' : Nat}

theorem CodesEnd.tokenAt (hends : CodesEnd str text.length) (h : Occurs str 0 text)
    (hi : i < text.length) : TokenAt str text i (colorFromAnsi fun k => str (i + k)) := by
  have hresult := colorFromAnsi_result fun k => str (i + k)
  generalize colorFromAnsi (fun k => str (i + k)) = result at hresult ⊢
  cases hresult with
  | @found c hc hoccurs =>
      have hoccurs := occurs_shift.mp hoccurs
      apply TokenAt.code hc (hends c hc i hi hoccurs)
      obtain ⟨rest, hrest⟩ := (hends.occurs_iff h hc hi).mp hoccurs
      rw [← List.drop_drop, ← hrest, List.drop_left]
  | failed hnone =>
      apply TokenAt.plain
      have hchr : str i = text[i] := by simpa using h i hi
      rw [List.drop_eq_getElem_cons hi, tokens_char, hchr]
      rw [← List.drop_eq_getElem_cons hi]
      intro c hc hle
      exact hnone c hc (occurs_shift.mpr ((hends.occurs_iff h hc hi).mpr hle))

theorem outputSizeItems_rounds (h : size ≤ i + rounds) (h' : size ≤ i + rounds') :
    outputSizeItems str size rounds i = outputSizeItems str size rounds' i := by
  induction rounds generalizing rounds' i with
  | zero =>
      cases rounds' with
      | zero => rfl
      | succ rounds' => rw [outputSizeItems, outputSizeItems, if_neg (by omega)]
  | succ rounds ih =>
      cases rounds' with
      | zero => rw [outputSizeItems, outputSizeItems, if_neg (by omega)]
      | succ rounds' =>
          rw [outputSizeItems, outputSizeItems]
          split_ifs
          · rcases colorFromAnsi fun k => str (i + k) with ⟨color, _ | relativeIndex⟩
            · exact congrArg _ (ih (by omega) (by omega))
            · exact congrArg _ (ih (by omega) (by omega))
          · rfl

/-- Up to the end of a text in which its codes end, the items are its tokens. -/
theorem CodesEnd.outputSizeItems_append (hends : CodesEnd str text.length) (h : Occurs str 0 text)
    (hsize : text.length ≤ size) (hi : i ≤ text.length) (hrounds : size ≤ i + rounds) :
    outputSizeItems str size rounds i =
      (colorBook.tokens (text.drop i)).map TextItem.ofToken ++
        outputSizeItems str size (size - text.length) text.length := by
  induction rounds generalizing i with
  | zero =>
      have hend : text.length = size := by omega
      rw [List.drop_eq_nil_of_le (by omega), hend, Nat.sub_self]
      rfl
  | succ rounds ih =>
      rcases hi.lt_or_eq with hlt | rfl
      · have htoken := hends.tokenAt h hlt
        rw [outputSizeItems, if_pos (by omega)]
        generalize colorFromAnsi (fun k => str (i + k)) = result at htoken ⊢
        cases htoken with
        | @code c hc hlen hdrop =>
            have hpos := sColors_length c hc
            have hnext : i + (c.ansi.length - 1) + 1 = i + c.ansi.length := by omega
            dsimp only
            rw [hnext, ih hlen (by omega), hdrop, tokens_color hc]
            rfl
        | plain htokens =>
            dsimp only
            rw [ih hlt (by omega), htokens]
            rfl
      · rw [List.drop_length]
        exact outputSizeItems_rounds hrounds (by omega)

theorem CodesEnd.textOutputSize_eq (hends : CodesEnd str text.length) (h : Occurs str 0 text)
    (info : TextInfo) (s : Text) :
    textOutputSize info str text.length s =
      ((colorBook.tokens text).map TextItem.ofToken).foldl (TextItem.put info) s := by
  rw [textOutputSize, textOutputSizeLoop_eq,
    hends.outputSizeItems_append h le_rfl (Nat.zero_le _) (Nat.zero_add _).ge, List.drop_zero,
    Nat.sub_self, outputSizeItems, List.append_nil]

end Tokens

end VisualOS.Kernel
