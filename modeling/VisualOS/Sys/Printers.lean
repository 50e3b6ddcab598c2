import VisualOS.Sys.Write

/-!
# The two printers and the end of a buffer

Behind a colour code `text_output` goes on with the last letter of the code, `text_output_size` with
what follows it.  Both look for codes in the memory from the current place on, whether it still
belongs to the text or not.
-/

namespace VisualOS.Kernel

open Framework

/-- The same characters in the same colours, with the same cursor and colour in the end. -/
structure SameOutput (a b : Text) : Prop where
  chars : a.chars = b.chars
  cursor : a.cursor = b.cursor
  colorState : a.colorState = b.colorState

/-! ## A text that ends with a zero -/

/-- What `text_output` does for a token. -/
def outputToken : Token (BitVec 8) (BitVec 32) → List TextItem
  | .plain chr => [.char chr]
  | .code color => [.setColor color, .char colorAnsiMagicCharEnd]

section Output

variable {info : TextInfo} {str : Nat → BitVec 8} {text : List (BitVec 8)} {i rounds : Nat}

private theorem tokens_ansi_end {c : ColorInterface} (hc : c ∈ sColors) (rest : List (BitVec 8)) :
    colorBook.tokens ((c.ansi ++ rest).drop (c.ansi.length - 1)) =
      .plain colorAnsiMagicCharEnd :: colorBook.tokens rest := by
  obtain ⟨body, hbody, -⟩ := sColors_isAnsi c hc
  rw [hbody, List.length_append, List.length_singleton, Nat.add_sub_cancel, List.append_assoc,
    List.drop_left]
  exact Codebook.tokens_of_ne_mark (by decide) rest

private theorem Stored.outputItems_eq (h : Stored str text) (hzero : 0 ∉ text)
    (hi : i ≤ text.length) (hrounds : text.length < i + rounds) :
    outputItems str rounds i = (colorBook.tokens (text.drop i)).flatMap outputToken := by
  have hends : CodesEnd str text.length := codesEnd_of_zero h.zero
  induction rounds generalizing i with
  | zero => omega
  | succ rounds ih =>
      rcases hi.lt_or_eq with hlt | rfl
      · have hne : str i ≠ 0 := by
          have hchr : str i = text[i] := by simpa using h.bytes i hlt
          intro hstr
          exact hzero (hstr ▸ hchr ▸ List.getElem_mem hlt)
        have htoken := hends.tokenAt h.bytes hlt
        rw [outputItems, if_pos hne]
        generalize colorFromAnsi (fun k => str (i + k)) = result at htoken ⊢
        cases htoken with
        | @code c hc hlen hdrop =>
            have hpos := sColors_length c hc
            have hlast : colorBook.tokens (text.drop (i + (c.ansi.length - 1))) =
                .plain colorAnsiMagicCharEnd :: colorBook.tokens (text.drop (i + c.ansi.length)) := by
              rw [← List.drop_drop, hdrop, tokens_ansi_end hc]
            dsimp only
            rw [ih (by omega) (by omega), hlast, hdrop, tokens_color hc]
            rfl
        | plain htokens =>
            dsimp only
            rw [ih hlt (by omega), htokens]
            rfl
      · rw [outputItems, if_neg (not_not.mpr h.zero), List.drop_length]
        rfl

private theorem Stored.textOutput_eq (h : Stored str text) (hzero : 0 ∉ text) (s : Text) :
    textOutput info (text.length + 1) str s =
      some (((colorBook.tokens text).flatMap outputToken).foldl (TextItem.put info) s) := by
  rw [textOutput, textOutputLoop_eq (Nat.zero_le _) (by omega) h.zero,
    h.outputItems_eq hzero (Nat.zero_le _) (by omega), List.drop_zero]

private theorem length_chars_output (tokens : List (Token (BitVec 8) (BitVec 32))) (s : Text) :
    ((tokens.flatMap outputToken).foldl (TextItem.put info) s).chars.length =
      s.chars.length + tokens.length := by
  rw [length_chars_foldl]
  congr 1
  induction tokens with
  | nil => rfl
  | cons token tokens ih =>
      rw [List.flatMap_cons, List.filterMap_append, List.length_append, ih, List.length_cons,
        Nat.add_comm]
      cases token with
      | plain chr => rfl
      | code color => rfl

private theorem flatMap_outputToken {tokens : List (Token (BitVec 8) (BitVec 32))}
    (h : ∀ token ∈ tokens, token.isPlain = true) :
    tokens.flatMap outputToken = tokens.map TextItem.ofToken := by
  rw [List.map_eq_flatMap]
  apply List.flatMap_congr
  intro token htoken
  cases token with
  | plain chr => rfl
  | code color => exact absurd (h _ htoken) (by simp [Token.isPlain])

end Output

/-- The two printers agree on the texts without colour codes only. -/
theorem printers_agree_iff (info : TextInfo) {str : Nat → BitVec 8} {text : List (BitVec 8)}
    (h : Stored str text) (hzero : 0 ∉ text) (s : Text) :
    (∃ t, textOutput info (text.length + 1) str s = some t ∧
        SameOutput t (textOutputSize info str text.length s)) ↔
      ∀ c ∈ sColors, ¬c.ansi <:+: text := by
  rw [h.textOutput_eq hzero, (codesEnd_of_zero h.zero).textOutputSize_eq h.bytes]
  simp only [Option.some.injEq, exists_eq_left']
  have hcodes : (∀ token ∈ colorBook.tokens text, token.isPlain = true) ↔
      ∀ c ∈ sColors, ¬c.ansi <:+: text := by
    rw [Codebook.forall_isPlain_tokens_iff]
    exact List.forall_mem_map
  rw [← hcodes]
  constructor
  · intro hsame
    have hlen := congrArg List.length hsame.chars
    rw [length_chars_output, ← Text.putTokens, length_chars_putTokens] at hlen
    exact List.countP_eq_length.mp (by omega)
  · intro hplain
    rw [flatMap_outputToken hplain]
    exact ⟨rfl, rfl, rfl⟩

theorem printers_agree_two :
    ∃ t, textOutput blankInfo 3 (byteIovec [0x61, 0x62]).iovBase emptyConsole.text = some t ∧
      SameOutput t
        (textOutputSize blankInfo (byteIovec [0x61, 0x62]).iovBase 2 emptyConsole.text) := by
  have hstored : Stored (byteIovec [0x61, 0x62]).iovBase [0x61, 0x62] := ⟨by decide, rfl⟩
  exact (printers_agree_iff blankInfo hstored (by decide) emptyConsole.text).mpr (by decide)

/-- Behind the code for red the letter m is drawn. -/
theorem text_output_draws_code_end :
    (textOutput blankInfo 9 (byteIovec (colorCode 0x31 ++ [0x61])).iovBase
        emptyConsole.text).map Text.chars = some [(0x6d, textColorRed), (0x61, textColorRed)] ∧
      (textOutputSize blankInfo (byteIovec (colorCode 0x31 ++ [0x61])).iovBase 8
        emptyConsole.text).chars = [(0x61, textColorRed)] := by
  decide +kernel

/-! ## The memory behind a buffer -/

/-- A code that begins in a buffer of the given size and ends in the memory behind it. -/
structure Straddles (str : Nat → BitVec 8) (size start : Nat) (c : ColorInterface) : Prop where
  mem : c ∈ sColors
  begins : start < size
  beyond : size < start + c.ansi.length
  occurs : Occurs str start c.ansi

/-- The memory behind a buffer completes a code for the colour. -/
def CompletedTo (str : Nat → BitVec 8) (size : Nat) (color : BitVec 32) : Prop :=
  ∃ start c, Straddles str size start c ∧ c.shell = color

/-- The output of `text_output_size`, and so that of `sys_write`, is the same in two memories. -/
structure BufferOnly (info : TextInfo) (str str' : Nat → BitVec 8) (size : Nat) (s : WriteState) :
    Prop where
  output : SameOutput (textOutputSize info str size s.text) (textOutputSize info str' size s.text)
  write : ∀ count : BitVec 64, count.toNat = size →
    SameOutput (sysWrite info sysFdStdout str count s).2.text
      (sysWrite info sysFdStdout str' count s).2.text

/-- The bytes of a buffer. -/
def firstBytes (str : Nat → BitVec 8) (size : Nat) : List (BitVec 8) := (List.range size).map str

section Buffers

variable {info : TextInfo} {str str' : Nat → BitVec 8} {size start start' i k : Nat}
  {c c' : ColorInterface}

@[simp] theorem length_firstBytes : (firstBytes str size).length = size := by
  rw [firstBytes, List.length_map, List.length_range]

private theorem occurs_firstBytes : Occurs str 0 (firstBytes str size) := by
  intro k hk
  simp [firstBytes]

private theorem firstBytes_congr (h : ∀ k < size, str k = str' k) :
    firstBytes str size = firstBytes str' size :=
  List.map_congr_left fun k hk => h k (List.mem_range.mp hk)

private theorem Occurs.begins {a b : List (BitVec 8)} (ha : Occurs str i a) (hb : Occurs str i b)
    (hle : a.length ≤ b.length) : a <+: b := by
  rw [List.prefix_iff_getElem]
  refine ⟨hle, fun k hk => ?_⟩
  rw [← ha k hk, hb k (by omega)]

private theorem Occurs.color_unique (hc : c ∈ sColors) (hc' : c' ∈ sColors)
    (h : Occurs str i c.ansi) (h' : Occurs str i c'.ansi) : c = c' := by
  have hpair : (c.ansi, c.shell) = (c'.ansi, c'.shell) := by
    rcases Nat.le_total c.ansi.length c'.ansi.length with hle | hle
    · exact colorBook.free _ (mem_colorBook hc) _ (mem_colorBook hc') (h.begins h' hle)
    · exact (colorBook.free _ (mem_colorBook hc') _ (mem_colorBook hc) (h'.begins h hle)).symm
  cases c
  cases c'
  rw [ColorInterface.mk.injEq]
  exact Prod.mk.inj hpair

private theorem Occurs.eq_mark (hc : c ∈ sColors) (h : Occurs str i c.ansi) :
    str i = colorAnsiMagicCharStart := by
  obtain ⟨rest, hrest, -⟩ := colorBook.marked _ (mem_colorBook hc)
  dsimp only at hrest
  rw [hrest, occurs_cons] at h
  exact h.1

private theorem Occurs.ne_mark (hc : c ∈ sColors) (h : Occurs str i c.ansi) (hk : i < k)
    (hlt : k < i + c.ansi.length) : str k ≠ colorAnsiMagicCharStart := by
  obtain ⟨rest, hrest, hmark⟩ := colorBook.marked _ (mem_colorBook hc)
  dsimp only at hrest
  rw [hrest, occurs_cons] at h
  rw [hrest, List.length_cons] at hlt
  have hinside := h.2 (k - (i + 1)) (by omega)
  rw [show i + 1 + (k - (i + 1)) = k by omega] at hinside
  rw [hinside]
  intro heq
  have hmem := List.getElem_mem (l := rest) (n := k - (i + 1)) (by omega)
  rw [heq] at hmem
  exact hmark hmem

private theorem not_codesEnd_iff : ¬CodesEnd str size ↔ ∃ start c, Straddles str size start c := by
  rw [CodesEnd]
  push Not
  constructor
  · rintro ⟨c, hc, start, hstart, hoccurs, hlt⟩
    exact ⟨start, c, hc, hstart, hlt, hoccurs⟩
  · rintro ⟨start, c, hc, hstart, hlt, hoccurs⟩
    exact ⟨c, hc, start, hstart, hoccurs, hlt⟩

private theorem CodesEnd.textOutputSize_firstBytes (hends : CodesEnd str size) (s : Text) :
    textOutputSize info str size s =
      s.putTokens info (colorBook.tokens (firstBytes str size)) := by
  have hends : CodesEnd str (firstBytes str size).length := by rwa [length_firstBytes]
  have heq := hends.textOutputSize_eq occurs_firstBytes info s
  rwa [length_firstBytes] at heq

namespace Straddles

private theorem codesEnd (h : Straddles str size start c) : CodesEnd str start := by
  intro c' hc' i hi hoccurs
  by_contra hover
  exact hoccurs.ne_mark hc' hi (by omega) (h.occurs.eq_mark h.mem)

private theorem start_le (h : Straddles str size start c) (h' : Straddles str' size start' c')
    (hagree : ∀ k < size, str k = str' k) : start' ≤ start := by
  by_contra hlt
  have hbeyond := h.beyond
  have hbegins := h'.begins
  apply h.occurs.ne_mark h.mem (Nat.lt_of_not_le hlt) (by omega)
  rw [hagree start' hbegins, h'.occurs.eq_mark h'.mem]

private theorem start_eq (h : Straddles str size start c) (h' : Straddles str' size start' c')
    (hagree : ∀ k < size, str k = str' k) : start = start' :=
  le_antisymm (h'.start_le h fun k hk => (hagree k hk).symm) (h.start_le h' hagree)

private theorem textOutputSize_eq (h : Straddles str size start c) (s : Text) :
    textOutputSize info str size s =
      { s.putTokens info (colorBook.tokens (firstBytes str start)) with colorState := c.shell } := by
  have hbegins := h.begins
  have hends : CodesEnd str (firstBytes str start).length := by
    rw [length_firstBytes]
    exact h.codesEnd
  have hrest : outputSizeItems str size (size - start) start = [.setColor c.shell] := by
    rw [show size - start = size - start - 1 + 1 by omega, outputSizeItems, if_pos hbegins]
    have hresult := colorFromAnsi_result fun k => str (start + k)
    generalize colorFromAnsi (fun k => str (start + k)) = result at hresult ⊢
    cases hresult with
    | @found c' hc' hoccurs =>
        have heq : c' = c := (occurs_shift.mp hoccurs).color_unique hc' h.mem h.occurs
        have hbeyond := h.beyond
        subst c'
        dsimp only
        rw [@outputSizeItems_rounds _ _ _ _ 0 (by omega) (by omega)]
        rfl
    | failed hnone => exact absurd (occurs_shift.mpr h.occurs) (hnone c h.mem)
  rw [textOutputSize, textOutputSizeLoop_eq, hends.outputSizeItems_append occurs_firstBytes
    (by rw [length_firstBytes]; omega) (Nat.zero_le _) (Nat.zero_add _).ge, List.drop_zero,
    length_firstBytes, hrest, List.foldl_append]
  rfl

private theorem firstBytes_eq (h : Straddles str size start c) :
    firstBytes str size = firstBytes str start ++ c.ansi.take (size - start) := by
  have hbegins := h.begins
  have hbeyond := h.beyond
  apply List.ext_getElem
  · simp
    omega
  · intro k hk hk'
    rw [List.getElem_append]
    split_ifs with hlt
    · simp [firstBytes]
    · rw [length_firstBytes] at hk hlt
      simp only [firstBytes, List.getElem_map, List.getElem_range, List.length_map,
        List.length_range, List.getElem_take]
      rw [← h.occurs (k - start) (by omega), show start + (k - start) = k by omega]

private theorem length_chars_lt (h : Straddles str size start c) (hends : CodesEnd str' size)
    (hagree : ∀ k < size, str k = str' k) (s : Text) :
    (textOutputSize info str size s).chars.length <
      (textOutputSize info str' size s).chars.length := by
  have hbegins := h.begins
  have hbeyond := h.beyond
  have htokens : colorBook.tokens (firstBytes str' size) =
      colorBook.tokens (firstBytes str start) ++ (c.ansi.take (size - start)).map .plain := by
    rw [← firstBytes_congr hagree, h.firstBytes_eq]
    apply Codebook.tokens_append_part (mem_colorBook h.mem)
      (List.take_append_drop (size - start) c.ansi).symm
    · rw [← List.length_pos_iff, List.length_take]
      omega
    · rw [← List.length_pos_iff, List.length_drop]
      omega
  rw [h.textOutputSize_eq, hends.textOutputSize_firstBytes, htokens]
  dsimp only
  rw [length_chars_putTokens, length_chars_putTokens, List.countP_append, Token.countP_plain,
    List.length_take]
  omega

private theorem completedTo_iff (h : Straddles str size start c) (color : BitVec 32) :
    CompletedTo str size color ↔ color = c.shell := by
  constructor
  · rintro ⟨start', c', h', rfl⟩
    obtain rfl := h.start_eq h' fun k _ => rfl
    rw [h.occurs.color_unique h.mem h'.mem h'.occurs]
  · rintro rfl
    exact ⟨start, c, h, rfl⟩

end Straddles

private theorem CodesEnd.not_completedTo (hends : CodesEnd str size) (color : BitVec 32) :
    ¬CompletedTo str size color := by
  rintro ⟨start, c, h, -⟩
  exact not_codesEnd_iff.mpr ⟨start, c, h⟩ hends

private theorem SameOutput.symm {a b : Text} (h : SameOutput a b) : SameOutput b a :=
  ⟨h.chars.symm, h.cursor.symm, h.colorState.symm⟩

/-- A code that is completed in one of the memories only. -/
theorem Straddles.sameOutput_iff (h : Straddles str size start c) (hends : CodesEnd str' size)
    (hagree : ∀ k < size, str k = str' k) (s : Text) :
    SameOutput (textOutputSize info str size s) (textOutputSize info str' size s) ↔
      ∀ color, CompletedTo str size color ↔ CompletedTo str' size color := by
  apply iff_of_false
  · intro hsame
    exact absurd (congrArg List.length hsame.chars) (h.length_chars_lt hends hagree s).ne
  · intro hcompleted
    exact hends.not_completedTo c.shell ((hcompleted c.shell).mp ⟨start, c, h, rfl⟩)

private theorem sameOutput_iff (hagree : ∀ k < size, str k = str' k) (s : Text) :
    SameOutput (textOutputSize info str size s) (textOutputSize info str' size s) ↔
      ∀ color, CompletedTo str size color ↔ CompletedTo str' size color := by
  by_cases hends : CodesEnd str size
  · by_cases hends' : CodesEnd str' size
    · apply iff_of_true
      · rw [hends.textOutputSize_firstBytes, hends'.textOutputSize_firstBytes,
          firstBytes_congr hagree]
        exact ⟨rfl, rfl, rfl⟩
      · intro color
        exact iff_of_false (hends.not_completedTo color) (hends'.not_completedTo color)
    · obtain ⟨start, c, h⟩ := not_codesEnd_iff.mp hends'
      have hiff := @Straddles.sameOutput_iff info str' str size start c h hends
        (fun k hk => (hagree k hk).symm) s
      constructor
      · intro hsame color
        exact (hiff.mp hsame.symm color).symm
      · intro hcompleted
        exact (hiff.mpr fun color => (hcompleted color).symm).symm
  · obtain ⟨start, c, h⟩ := not_codesEnd_iff.mp hends
    by_cases hends' : CodesEnd str' size
    · exact h.sameOutput_iff hends' hagree s
    · obtain ⟨start', c', h'⟩ := not_codesEnd_iff.mp hends'
      obtain rfl := h.start_eq h' hagree
      -- Both memories complete the same part of a code, perhaps for different colours.
      have hbegins := h.begins
      have hpart : firstBytes str start = firstBytes str' start :=
        firstBytes_congr fun k hk => hagree k (by omega)
      simp only [h.completedTo_iff, h'.completedTo_iff]
      rw [h.textOutputSize_eq, h'.textOutputSize_eq, hpart]
      constructor
      · intro hsame color
        rw [show c.shell = c'.shell from hsame.colorState]
      · intro hcolor
        exact ⟨rfl, rfl, (hcolor c.shell).mp rfl⟩

end Buffers

/-- What is behind a buffer matters if and only if it completes a code in one of the memories and
not, or for another colour, in the other. -/
theorem buffer_only_iff (info : TextInfo) {str str' : Nat → BitVec 8} {size : Nat}
    (hagree : ∀ k < size, str k = str' k) (s : WriteState) :
    BufferOnly info str str' size s ↔
      ∀ color, CompletedTo str size color ↔ CompletedTo str' size color := by
  rw [← sameOutput_iff hagree s.text]
  constructor
  · intro h
    exact h.output
  · intro h
    refine ⟨h, ?_⟩
    rintro count rfl
    exact h

/-- Two letters, with zeros or the code for red behind them. -/
theorem buffer_only_letters :
    BufferOnly blankInfo (byteIovec [0x61, 0x62]).iovBase
      (byteIovec ([0x61, 0x62] ++ colorCode 0x31)).iovBase 2 emptyConsole := by
  have hends : CodesEnd (byteIovec [0x61, 0x62]).iovBase 2 := by
    rw [CodesEnd]
    decide
  have hends' : CodesEnd (byteIovec ([0x61, 0x62] ++ colorCode 0x31)).iovBase 2 := by
    rw [CodesEnd]
    decide
  exact (buffer_only_iff blankInfo (by decide) emptyConsole).mpr fun color =>
    iff_of_false (hends.not_completedTo color) (hends'.not_completedTo color)

/-- The escape character, with zeros or the rest of the code for red behind it. -/
theorem buffer_completed_from_memory :
    (∀ k < 1, (byteIovec (colorCode 0x31)).iovBase k = (byteIovec [0x1b]).iovBase k) ∧
      (textOutputSize blankInfo (byteIovec (colorCode 0x31)).iovBase 1 emptyConsole.text).chars =
        [] ∧
      (textOutputSize blankInfo (byteIovec [0x1b]).iovBase 1 emptyConsole.text).chars =
        [(0x1b, textColorWhite)] := by
  decide +kernel

end VisualOS.Kernel
