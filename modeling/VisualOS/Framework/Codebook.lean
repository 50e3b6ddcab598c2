import Mathlib.Data.List.Basic
import Mathlib.Data.List.Infix
import Mathlib.Tactic

/-!
# Texts with embedded codes

A codebook is a set of code words that all begin with one mark, which occurs nowhere else in them,
and of which none begins another.  A text is read from left to right: a code word is taken as one
token, any other symbol as itself.  Reading a text in pieces gives the same tokens as reading it
whole exactly when no code word lies across the end of a piece.
-/

namespace VisualOS.Framework

variable {α γ : Type*}

structure Codebook (α γ : Type*) where
  mark : α
  codes : List (List α × γ)
  marked : ∀ c ∈ codes, ∃ l, c.1 = mark :: l ∧ mark ∉ l
  free : ∀ c ∈ codes, ∀ d ∈ codes, c.1 <+: d.1 → c = d

inductive Token (α γ : Type*)
  | plain (a : α)
  | code (g : γ)
  deriving DecidableEq, Repr

def Token.isPlain : Token α γ → Bool
  | plain _ => true
  | code _ => false

theorem Token.countP_plain (l : List α) :
    (l.map (Token.plain (γ := γ))).countP Token.isPlain = l.length := by
  rw [List.countP_map, List.countP_eq_length]
  exact fun _ _ => rfl

namespace Codebook

section Codes

variable (book : Codebook α γ)

/-- A code word begins in the first part and ends in the second. -/
def Across (a b : List α) : Prop :=
  ∃ a₁ a₂ b₁ b₂, a = a₁ ++ a₂ ∧ b = b₁ ++ b₂ ∧ a₂ ≠ [] ∧ b₁ ≠ [] ∧
    ∃ c ∈ book.codes, c.1 = a₂ ++ b₁

/-- A code word lies across the end of a piece. -/
def Split (pieces : List (List α)) : Prop :=
  ∃ before after, pieces = before ++ after ∧ book.Across before.flatten after.flatten

variable {book} {a b : List α} {c : List α × γ} {pieces : List (List α)}

private theorem ne_nil_of_mem (hc : c ∈ book.codes) : c.1 ≠ [] := by
  obtain ⟨rest, hrest, -⟩ := book.marked c hc
  simp [hrest]

private theorem parts_of_mem (hc : c ∈ book.codes) (hsplit : c.1 = a ++ b) (ha : a ≠ []) :
    ∃ l, a = book.mark :: l ∧ book.mark ∉ l ∧ book.mark ∉ b := by
  obtain ⟨rest, hrest, hmark⟩ := book.marked c hc
  cases a with
  | nil => exact absurd rfl ha
  | cons x l =>
      rw [hrest, List.cons_append, List.cons.injEq] at hsplit
      obtain ⟨rfl, rfl⟩ := hsplit
      rw [List.mem_append, not_or] at hmark
      exact ⟨l, rfl, hmark⟩

private theorem Across.append_left (h : book.Across a b) (a' : List α) :
    book.Across (a' ++ a) b := by
  obtain ⟨a₁, a₂, b₁, b₂, rfl, hb, hne, hne', hc⟩ := h
  exact ⟨a' ++ a₁, a₂, b₁, b₂, by simp, hb, hne, hne', hc⟩

private theorem not_across_nil : ¬book.Across [] b := by
  rintro ⟨a₁, a₂, b₁, b₂, hnil, -, hne, -⟩
  exact hne (List.append_eq_nil_iff.mp hnil.symm).2

private theorem not_across_mark : ¬book.Across a (book.mark :: b) := by
  rintro ⟨a₁, a₂, b₁, b₂, -, hb, hne, hne', c, hc, hsplit⟩
  obtain ⟨l, -, -, hmark⟩ := parts_of_mem hc hsplit hne
  cases b₁ with
  | nil => exact hne' rfl
  | cons x b₁ =>
      rw [List.cons_append, List.cons.injEq] at hb
      exact hmark (hb.1 ▸ List.mem_cons_self)

theorem not_across_of_notMem (hmark : book.mark ∉ a) : ¬book.Across a b := by
  rintro ⟨a₁, a₂, b₁, b₂, rfl, -, hne, -, c, hc, hsplit⟩
  obtain ⟨l, rfl, -⟩ := parts_of_mem hc hsplit hne
  simp at hmark

theorem split_cons {piece : List α} :
    book.Split (piece :: pieces) ↔ book.Across piece pieces.flatten ∨ book.Split pieces := by
  constructor
  · rintro ⟨before, after, hsplit, hacross⟩
    cases before with
    | nil => exact absurd hacross not_across_nil
    | cons b before =>
        rw [List.cons_append, List.cons.injEq] at hsplit
        obtain ⟨rfl, rfl⟩ := hsplit
        obtain ⟨a₁, a₂, b₁, b₂, ha, hb, hne, hne', c, hc, hcode⟩ := hacross
        rw [List.flatten_cons] at ha
        -- The code word begins in the first piece or after it.
        rcases List.append_eq_append_iff.mp ha with ⟨m, rfl, hm⟩ | ⟨m, rfl, rfl⟩
        · exact .inr ⟨before, after, rfl, m, a₂, b₁, b₂, hm, hb, hne, hne', c, hc, hcode⟩
        · by_cases hm : m = []
          · subst m
            exact .inr ⟨before, after, rfl, [], before.flatten, b₁, b₂, rfl, hb, hne, hne', c, hc,
              hcode⟩
          · refine .inl ⟨a₁, m, before.flatten ++ b₁, b₂, rfl, ?_, hm, ?_, c, hc, ?_⟩
            · rw [List.flatten_append, hb, List.append_assoc]
            · simp [hne']
            · rw [hcode, List.append_assoc]
  · rintro (hacross | ⟨before, after, rfl, hacross⟩)
    · exact ⟨[piece], pieces, rfl, by simpa using hacross⟩
    · exact ⟨piece :: before, after, rfl, hacross.append_left _⟩

theorem not_split_nil : ¬book.Split [] := by
  rintro ⟨before, after, hsplit, hacross⟩
  obtain ⟨rfl, rfl⟩ := List.append_eq_nil_iff.mp hsplit.symm
  exact not_across_nil hacross

end Codes

section Tokens

variable [DecidableEq α] (book : Codebook α γ)

/-- The code word at the beginning of a text. -/
def lookup (l : List α) : Option (List α × γ) := book.codes.find? fun c => decide (c.1 <+: l)

/-- Reading a text of which the given number of symbols is still to be skipped. -/
def scan : Nat → List α → List (Token α γ)
  | _, [] => []
  | skip + 1, _ :: l => scan skip l
  | 0, a :: l =>
      match book.lookup (a :: l) with
      | some c => .code c.2 :: scan (c.1.length - 1) l
      | none => .plain a :: scan 0 l

def tokens (l : List α) : List (Token α γ) := book.scan 0 l

/-- The number of symbols that are read as themselves. -/
def plainCount (l : List α) : Nat := (book.tokens l).countP Token.isPlain

variable {book} {a b l : List α} {c : List α × γ} {x : α} {pieces : List (List α)}

private theorem lookup_eq_some : book.lookup l = some c ↔ c ∈ book.codes ∧ c.1 <+: l := by
  constructor
  · intro h
    exact ⟨List.mem_of_find?_eq_some h, by simpa using List.find?_some h⟩
  · rintro ⟨hmem, hle⟩
    cases hlookup : book.lookup l with
    | none =>
        have := List.find?_eq_none.mp hlookup c hmem
        simp [hle] at this
    | some d =>
        have hd : d ∈ book.codes := List.mem_of_find?_eq_some hlookup
        have hdl : d.1 <+: l := by simpa using List.find?_some hlookup
        -- Of two code words at one place the shorter begins the longer.
        rcases List.prefix_or_prefix_of_prefix hle hdl with h | h
        · rw [book.free c hmem d hd h]
        · rw [book.free d hd c hmem h]

private theorem lookup_eq_none : book.lookup l = none ↔ ∀ c ∈ book.codes, ¬c.1 <+: l := by
  rw [lookup, List.find?_eq_none]
  simp

private theorem scan_eq_drop (n : Nat) (l : List α) : book.scan n l = book.tokens (l.drop n) := by
  induction n generalizing l with
  | zero => rfl
  | succ n ih =>
      cases l with
      | nil => rfl
      | cons a l => exact ih l

theorem tokens_code (hc : c ∈ book.codes) (l : List α) :
    book.tokens (c.1 ++ l) = .code c.2 :: book.tokens l := by
  obtain ⟨rest, hrest, -⟩ := book.marked c hc
  have hlookup : book.lookup (book.mark :: (rest ++ l)) = some c :=
    lookup_eq_some.mpr ⟨hc, by rw [hrest]; exact ⟨l, rfl⟩⟩
  rw [hrest, List.cons_append, tokens, scan, hlookup]
  dsimp only
  rw [scan_eq_drop, hrest, List.length_cons, Nat.add_sub_cancel, List.drop_left]

theorem tokens_plain (h : ∀ c ∈ book.codes, ¬c.1 <+: x :: l) :
    book.tokens (x :: l) = .plain x :: book.tokens l := by
  rw [tokens, scan, lookup_eq_none.mpr h]
  rfl

/-- Where no code word lies across, both parts can be read on their own. -/
theorem tokens_append (h : ¬book.Across a b) :
    book.tokens (a ++ b) = book.tokens a ++ book.tokens b := by
  induction hn : a.length using Nat.strong_induction_on generalizing a with
  | _ n ih =>
      cases a with
      | nil => rfl
      | cons x a =>
          by_cases hcode : ∃ c ∈ book.codes, c.1 <+: x :: a ++ b
          · obtain ⟨c, hc, rest, hrest⟩ := hcode
            -- The code word ends within the first part.
            have hinside : ∃ m, x :: a = c.1 ++ m := by
              rcases List.append_eq_append_iff.mp hrest with ⟨m, hm, -⟩ | ⟨m, hm, hb⟩
              · exact ⟨m, hm⟩
              · by_cases hempty : m = []
                · exact ⟨[], by rw [hm, hempty, List.append_nil, List.append_nil]⟩
                · exact absurd ⟨[], x :: a, m, rest, rfl, hb, by simp, hempty, c, hc, hm⟩ h
            obtain ⟨m, hm⟩ := hinside
            have hlt : m.length < n := by
              have := List.length_pos_of_ne_nil (ne_nil_of_mem hc)
              rw [← hn, hm, List.length_append]
              omega
            have hacross : ¬book.Across m b := fun hacross => h (hm ▸ hacross.append_left _)
            rw [hm, List.append_assoc, tokens_code hc, tokens_code hc, ih _ hlt hacross rfl,
              List.cons_append]
          · have hplain : ∀ c ∈ book.codes, ¬c.1 <+: x :: (a ++ b) :=
              fun c hc hle => hcode ⟨c, hc, hle⟩
            have hplain' : ∀ c ∈ book.codes, ¬c.1 <+: x :: a :=
              fun c hc hle => hcode ⟨c, hc, hle.trans ⟨b, rfl⟩⟩
            have hacross : ¬book.Across a b :=
              fun hacross => h (hacross.append_left [x])
            rw [List.cons_append, tokens_plain hplain, tokens_plain hplain',
              ih _ (by rw [← hn]; simp) hacross rfl, List.cons_append]

private theorem tokens_append_code (hc : c ∈ book.codes) (a b : List α) :
    book.tokens (a ++ (c.1 ++ b)) = book.tokens a ++ .code c.2 :: book.tokens b := by
  obtain ⟨rest, hrest, -⟩ := book.marked c hc
  rw [tokens_append, tokens_code hc]
  rw [hrest, List.cons_append]
  exact not_across_mark

theorem tokens_of_ne_mark (hx : x ≠ book.mark) (l : List α) :
    book.tokens (x :: l) = .plain x :: book.tokens l := by
  apply tokens_plain
  intro c hc hle
  obtain ⟨rest, hrest, -⟩ := book.marked c hc
  rw [hrest, List.cons_prefix_cons] at hle
  exact hx hle.1.symm

private theorem tokens_of_notMem (hmark : book.mark ∉ l) : book.tokens l = l.map .plain := by
  induction l with
  | nil => rfl
  | cons x l ih =>
      rw [List.mem_cons, not_or] at hmark
      rw [tokens_of_ne_mark (Ne.symm hmark.1), ih hmark.2, List.map_cons]

private theorem tokens_of_noCode (h : ∀ c ∈ book.codes, ¬c.1 <:+: l) :
    book.tokens l = l.map .plain := by
  induction l with
  | nil => rfl
  | cons x l ih =>
      rw [tokens_plain, ih, List.map_cons]
      · intro c hc hle
        exact h c hc (hle.trans (List.infix_cons List.infix_rfl))
      · intro c hc hle
        exact h c hc hle.isInfix

theorem forall_isPlain_tokens_iff :
    (∀ token ∈ book.tokens l, token.isPlain = true) ↔ ∀ c ∈ book.codes, ¬c.1 <:+: l := by
  constructor
  · rintro h c hc ⟨a, b, rfl⟩
    have hcode := h (.code c.2) (by
      rw [List.append_assoc, tokens_append_code hc]
      simp)
    exact absurd hcode (by simp [Token.isPlain])
  · intro h token htoken
    rw [tokens_of_noCode h, List.mem_map] at htoken
    obtain ⟨x, -, rfl⟩ := htoken
    rfl

/-- The beginning of a code word that is cut off is read as plain symbols. -/
theorem tokens_of_part (hc : c ∈ book.codes) (hsplit : c.1 = a ++ b) (hb : b ≠ []) :
    book.tokens a = a.map .plain := by
  cases a with
  | nil => rfl
  | cons x l =>
      obtain ⟨l', hl', hmark, -⟩ := parts_of_mem hc hsplit (by simp)
      obtain ⟨rfl, rfl⟩ := List.cons.inj hl'
      rw [tokens_plain, tokens_of_notMem hmark, List.map_cons]
      intro d hd hle
      have hwhole : d = c := book.free d hd c hc (hle.trans ⟨b, hsplit.symm⟩)
      have := hle.length_le
      rw [hwhole, hsplit, List.length_append] at this
      have := List.length_pos_of_ne_nil hb
      omega

theorem tokens_append_part (hc : c ∈ book.codes) (hsplit : c.1 = a ++ b) (ha : a ≠ [])
    (hb : b ≠ []) (l : List α) : book.tokens (l ++ a) = book.tokens l ++ a.map .plain := by
  obtain ⟨rest, hrest, -⟩ := parts_of_mem hc hsplit ha
  rw [tokens_append (hrest ▸ not_across_mark), tokens_of_part hc hsplit hb]

private theorem plainCount_append (h : ¬book.Across a b) :
    book.plainCount (a ++ b) = book.plainCount a + book.plainCount b := by
  rw [plainCount, tokens_append h, List.countP_append]
  rfl

/-- A code word that lies across is lost, and its symbols are read as themselves. -/
theorem plainCount_across (h : book.Across a b) :
    book.plainCount (a ++ b) < book.plainCount a + book.plainCount b := by
  obtain ⟨a₁, a₂, b₁, b₂, rfl, rfl, ha, hb, c, hc, hsplit⟩ := h
  obtain ⟨-, -, -, hmark⟩ := parts_of_mem hc hsplit ha
  have hwhole : book.tokens (a₁ ++ a₂ ++ (b₁ ++ b₂)) =
      book.tokens a₁ ++ .code c.2 :: book.tokens b₂ := by
    rw [List.append_assoc, ← List.append_assoc a₂, ← hsplit, tokens_append_code hc]
  have hfirst : book.tokens (a₁ ++ a₂) = book.tokens a₁ ++ a₂.map .plain :=
    tokens_append_part hc hsplit ha hb a₁
  have hsecond : book.tokens (b₁ ++ b₂) = b₁.map .plain ++ book.tokens b₂ := by
    rw [tokens_append (not_across_of_notMem hmark), tokens_of_notMem hmark]
  have := List.length_pos_of_ne_nil ha
  rw [plainCount, plainCount, plainCount, hwhole, hfirst, hsecond, List.countP_append,
    List.countP_append, List.countP_append, Token.countP_plain,
    Token.countP_plain, List.countP_cons_of_neg (by simp [Token.isPlain])]
  omega

private theorem plainCount_append_le :
    book.plainCount (a ++ b) ≤ book.plainCount a + book.plainCount b := by
  by_cases h : book.Across a b
  · exact (plainCount_across h).le
  · exact (plainCount_append h).le

private theorem plainCount_flatten_le :
    book.plainCount pieces.flatten ≤ (pieces.map book.plainCount).sum := by
  induction pieces with
  | nil => rfl
  | cons piece pieces ih =>
      rw [List.flatten_cons, List.map_cons, List.sum_cons]
      exact plainCount_append_le.trans (Nat.add_le_add_left ih _)

theorem plainCount_flatten_lt (h : book.Split pieces) :
    book.plainCount pieces.flatten < (pieces.map book.plainCount).sum := by
  induction pieces with
  | nil => exact absurd h not_split_nil
  | cons piece pieces ih =>
      rw [List.flatten_cons, List.map_cons, List.sum_cons]
      rcases split_cons.mp h with hacross | hrest
      · exact (plainCount_across hacross).trans_le (Nat.add_le_add_left plainCount_flatten_le _)
      · exact plainCount_append_le.trans_lt (Nat.add_lt_add_left (ih hrest) _)

theorem countP_flatMap_tokens :
    (pieces.flatMap book.tokens).countP Token.isPlain = (pieces.map book.plainCount).sum := by
  induction pieces with
  | nil => rfl
  | cons piece pieces ih =>
      rw [List.flatMap_cons, List.countP_append, ih, List.map_cons, List.sum_cons]
      rfl

theorem tokens_flatten (h : ¬book.Split pieces) :
    book.tokens pieces.flatten = pieces.flatMap book.tokens := by
  induction pieces with
  | nil => rfl
  | cons piece pieces ih =>
      rw [split_cons, not_or] at h
      rw [List.flatten_cons, List.flatMap_cons, tokens_append h.1, ih h.2]

end Tokens

end Codebook

end VisualOS.Framework
