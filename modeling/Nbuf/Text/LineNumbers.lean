import Nbuf.Text.Partition

set_option autoImplicit false

/-! # Line numbers of the lexer (`lib/token.c`)

`l->lineno` is an `int` that `skipspaces` and `scanstr` count up at each newline. A newline in a
block comment or directly behind a lone slash is read as well, but nothing counts it.
`nbufLexLine` and its parts run beside the scanners of `Text/Lex.lean` and say what becomes of
`l->lineno`.
-/

namespace Nbuf

/-! ## The counter -/

/-- The newlines of a text. -/
def newlines (s : Text) : Nat := s.count 10

/-- `l->lineno++` -/
def nextLine (n : Int) : Int := (n + 1).bmod (2 ^ 32)

/-- `skipspaces` -/
def skipspacesLine (n : Int) : Text → Int
  | [] => n
  | c :: s =>
      let n := if c = 10 then nextLine n else n
      if isspace c then skipspacesLine n s else n

/-- `scanstr` behind the opening quote -/
def scanstrLine (delim : UInt8) (n : Int) (s : Text) : Int :=
  match s with
  | [] => n
  | c :: s =>
      if c = delim then
        let n := skipspacesLine n s
        if (skipspaces s).head? = some delim then scanstrLine delim n (skipspaces s).tail else n
      else if c = 92 then scanstrLine delim n (scanEscape s).rest
      else scanstrLine delim (if c = 10 then nextLine n else n) s
termination_by s.length
decreasing_by
  · have := ((List.tail_suffix _).trans (skipspaces_suffix s)).length_le
    rw [List.length_cons]
    omega
  · have := (scanEscape_suffix s).length_le
    rw [List.length_cons]
    omega
  · exact Nat.lt_succ_self _

/-- The token that starts with the character `c`. Only a string goes on to another line. -/
def lexTokenLine (n : Int) (c : UInt8) (s : Text) : Int :=
  if c = 34 then scanstrLine c n s else n

/-- `nbuf_lex`: neither `skiplong` nor the `getc` behind a slash counts. -/
def nbufLexLine (n : Int) (s : Text) : Int :=
  let n := skipspacesLine n s
  match _h : skipspaces s with
  | [] => n
  | c :: s' =>
      if c = 47 then
        if s'.head? = some 42 then nbufLexLine n (skiplong s'.tail).rest
        else if s'.head? = some 47 then nbufLexLine n (skipline s'.tail)
        else nbufLexLine n s'.tail
      else if c = 35 then nbufLexLine n (skipline s')
      else lexTokenLine n c s'
termination_by s.length
decreasing_by
  all_goals
    have hs : s'.length < s.length := by
      have := (skipspaces_suffix s).length_le
      rw [_h, List.length_cons] at this
      omega
    refine lt_of_le_of_lt ?_ hs
  · exact ((skiplong_suffix _).trans (List.tail_suffix s')).length_le
  · exact ((skipline_suffix _).trans (List.tail_suffix s')).length_le
  · exact (List.tail_suffix s').length_le
  · exact (skipline_suffix _).length_le

/-! ## Newlines that are not counted -/

/-- The newlines in block comments and directly behind lone slashes that stand in front of the next
token. -/
def uncounted (s : Text) : Nat :=
  match _h : skipspaces s with
  | [] => 0
  | c :: s' =>
      if c = 47 then
        if s'.head? = some 42 then
          newlines s'.tail - newlines (skiplong s'.tail).rest + uncounted (skiplong s'.tail).rest
        else if s'.head? = some 47 then uncounted (skipline s'.tail)
        else (if s'.head? = some 10 then 1 else 0) + uncounted s'.tail
      else if c = 35 then uncounted (skipline s')
      else 0
termination_by s.length
decreasing_by
  all_goals
    have hs : s'.length < s.length := by
      have := (skipspaces_suffix s).length_le
      rw [_h, List.length_cons] at this
      omega
    refine lt_of_le_of_lt ?_ hs
  · exact ((skiplong_suffix _).trans (List.tail_suffix s')).length_le
  · exact ((skipline_suffix _).trans (List.tail_suffix s')).length_le
  · exact (List.tail_suffix s').length_le
  · exact (skipline_suffix _).length_le

theorem newlines_append (s r : Text) : newlines (s ++ r) = newlines s + newlines r :=
  List.count_append

theorem newlines_cons (c : UInt8) (s : Text) :
    newlines (c :: s) = (if c = 10 then 1 else 0) + newlines s := by
  unfold newlines
  rw [List.count_cons, Nat.add_comm]
  simp only [beq_iff_eq]

theorem newlines_of_not_mem {s : Text} (h : 10 ∉ s) : newlines s = 0 := List.count_eq_zero.mpr h

theorem newlines_le_of_suffix {s r : Text} (h : r <:+ s) : newlines r ≤ newlines s :=
  h.sublist.count_le 10

/-- What has no newline in front of it has all of them. -/
theorem newlines_skip {l s r : Text} (hs : l ++ r = s) (hl : 10 ∉ l) : newlines r = newlines s := by
  rw [← hs, newlines_append, newlines_of_not_mem hl, Nat.zero_add]

theorem newlines_dropWhile {p : UInt8 → Bool} (hp : p 10 = false) (s : Text) :
    newlines (s.dropWhile p) = newlines s := by
  refine newlines_skip List.takeWhile_append_dropWhile fun h => ?_
  have := List.mem_takeWhile_imp h
  rw [hp] at this
  cases this

theorem newlines_skipline (s : Text) : newlines (skipline s) = newlines s :=
  newlines_dropWhile (by decide) s

theorem nextLine_modEq (n : Int) : nextLine n ≡ n + 1 [ZMOD 2 ^ 32] := by
  unfold nextLine Int.ModEq
  exact Int.bmod_emod

/-- **Whitespace**: every newline counts. -/
theorem skipspacesLine_modEq (n : Int) (s : Text) :
    skipspacesLine n s + newlines (skipspaces s) ≡ n + newlines s [ZMOD 2 ^ 32] := by
  induction s generalizing n with
  | nil => exact Int.ModEq.refl _
  | cons c s ih =>
      unfold skipspacesLine
      by_cases hspace : isspace c = true
      · rw [skipspaces_space s hspace, newlines_cons]
        simp only [hspace, if_true]
        by_cases hline : c = 10
        · simp only [hline, if_true]
          calc skipspacesLine (nextLine n) s + newlines (skipspaces s)
              ≡ nextLine n + newlines s [ZMOD 2 ^ 32] := ih _
            _ ≡ n + 1 + newlines s [ZMOD 2 ^ 32] := (nextLine_modEq n).add_right _
            _ = n + ((1 + newlines s : Nat) : Int) := by push_cast; ring
        · simp only [hline, if_false, Nat.zero_add]
          exact ih n
      · have hline : c ≠ 10 := by
          rintro rfl
          exact hspace (by decide)
        rw [skipspaces_cons s (by simpa using hspace)]
        simp only [hspace, hline, if_false]
        exact Int.ModEq.refl _

/-- **An escape sequence** has no newline: one behind the backslash is left. -/
theorem newlines_scanEscape (s : Text) : newlines (scanEscape s).rest = newlines s := by
  unfold scanEscape
  cases hesc : s.head?.bind escapeChar with
  | some b =>
      obtain ⟨c, hc, hb⟩ := Option.bind_eq_some_iff.mp hesc
      obtain ⟨r, rfl⟩ := List.head?_eq_some_iff.mp hc
      have hline : c ≠ 10 := by
        rintro rfl
        cases hb
      exact newlines_skip (l := [c]) rfl (by simpa using hline.symm)
  | none =>
      obtain ⟨l, hs, hl⟩ := escapeDigits_chars s
      have hline : 10 ∉ l := by
        intro h
        rcases hl 10 h with h10 | h10
        · exact absurd h10 (by decide)
        · exact absurd h10 (by decide)
      have hrest := newlines_skip hs.symm hline
      simp only
      split_ifs <;> exact hrest

/-- **A string**: every newline in it and behind it counts. -/
theorem scanstrLine_modEq {delim : UInt8} (hdelim : delim ≠ 10) (n : Int) (s : Text) :
    scanstrLine delim n s + newlines (scanstr delim s).rest ≡ n + newlines s [ZMOD 2 ^ 32] := by
  fun_induction scanstr delim s generalizing n with
  | case1 => rw [scanstrLine]
  | case2 s hnext ih =>
      obtain ⟨r, hr⟩ := List.head?_eq_some_iff.mp hnext
      have hskip : newlines (skipspaces s) = newlines (skipspaces s).tail := by
        rw [hr, newlines_cons, if_neg hdelim, Nat.zero_add, List.tail_cons]
      rw [scanstrLine, if_pos rfl]
      simp only [hnext, if_true]
      calc scanstrLine delim (skipspacesLine n s) (skipspaces s).tail
            + newlines (scanstr delim (skipspaces s).tail).rest
          ≡ skipspacesLine n s + newlines (skipspaces s).tail [ZMOD 2 ^ 32] := ih _
        _ = skipspacesLine n s + newlines (skipspaces s) := by rw [hskip]
        _ ≡ n + newlines s [ZMOD 2 ^ 32] := skipspacesLine_modEq n s
        _ = n + newlines (delim :: s) := by rw [newlines_cons, if_neg hdelim, Nat.zero_add]
  | case3 s hnext =>
      rw [scanstrLine, if_pos rfl]
      simp only [hnext, if_false]
      calc skipspacesLine n s + newlines (skipspaces s)
          ≡ n + newlines s [ZMOD 2 ^ 32] := skipspacesLine_modEq n s
        _ = n + newlines (delim :: s) := by rw [newlines_cons, if_neg hdelim, Nat.zero_add]
  | case4 s e l hc ih =>
      rw [scanstrLine, if_neg hc, if_pos rfl]
      calc scanstrLine delim n e.rest + newlines l.rest
          ≡ n + newlines e.rest [ZMOD 2 ^ 32] := ih n
        _ = n + newlines (92 :: s) := by
            rw [newlines_scanEscape, newlines_cons, if_neg (by decide), Nat.zero_add]
  | case5 c s hc hb l ih =>
      rw [scanstrLine, if_neg hc, if_neg hb, newlines_cons]
      by_cases hline : c = 10
      · simp only [hline, if_true]
        calc scanstrLine delim (nextLine n) s + newlines l.rest
            ≡ nextLine n + newlines s [ZMOD 2 ^ 32] := ih _
          _ ≡ n + 1 + newlines s [ZMOD 2 ^ 32] := (nextLine_modEq n).add_right _
          _ = n + ((1 + newlines s : Nat) : Int) := by push_cast; ring
      · simp only [hline, if_false, Nat.zero_add]
        exact ih n

/-! ## One call -/

theorem IsNumber.no_newline {n : Number} (h : IsNumber n) : 10 ∉ n.buf := by
  have hsign : ∀ {minus : Text}, minus = [] ∨ minus = asc "-" → 10 ∉ minus := by
    rintro minus (rfl | rfl) <;> decide
  have hclass : ∀ {p : UInt8 → Bool} {l : Text}, p 10 = false → (∀ d ∈ l, p d = true) → 10 ∉ l := by
    intro p l hp hl hin
    rw [hl 10 hin] at hp
    cases hp
  cases h with
  | hex hminus hx hds =>
      have hdigits := hclass (by decide) hds
      rcases hx with rfl | rfl <;> simp [hsign hminus, hdigits]
  | oct hminus hne hds => simp [hsign hminus, hclass (by decide) hds]
  | dec hminus hne hds hpoint hexp hflt =>
      have hdigits := hclass (by decide) hds
      have hpoint' : ∀ {point : Text}, (point = [] ∨ ∃ l, point = 46 :: l ∧
          ∀ d ∈ l, isdigit d = true) → 10 ∉ point := by
        rintro point (rfl | ⟨l, rfl, hl⟩)
        · decide
        · simp [hclass (by decide) hl]
      have hexp' : ∀ {exponent : Text}, (exponent = [] ∨ ∃ e sign l, exponent = e :: (sign ++ l) ∧
          (e = 101 ∨ e = 69) ∧ (sign = [] ∨ sign = asc "+" ∨ sign = asc "-") ∧
          ∀ d ∈ l, isdigit d = true) → 10 ∉ exponent := by
        rintro exponent (rfl | ⟨e, sign, l, rfl, he, hs, hl⟩)
        · decide
        · have hs' : 10 ∉ sign := by
            rcases hs with rfl | rfl | rfl <;> decide
          rcases he with rfl | rfl <;> simp [hs', hclass (by decide) hl]
      simp [hsign hminus, hdigits, hpoint' hpoint, hexp' hexp]

section

variable {conv : Number → Token}

theorem newlines_scannum (conv : Number → Token) {s : Text} (h : StartsNumber s) :
    newlines (scannum conv s).rest = newlines s :=
  newlines_skip (scanNumber_append s) (scanNumber_isNumber h).no_newline

/-- **A token**: only a string has newlines. -/
theorem lexTokenLine_modEq (n : Int) {c : UInt8} (s : Text) (hc : isspace c = false) :
    lexTokenLine n c s + newlines (lexToken conv c s).rest ≡ n + newlines (c :: s)
      [ZMOD 2 ^ 32] := by
  have hline : c ≠ 10 := (ne_of_class (show isspace 10 = true by decide) hc).symm
  have hcons : newlines (c :: s) = newlines s := by
    rw [newlines_cons, if_neg hline, Nat.zero_add]
  -- a token that is no string leaves the counter alone, and it takes no newline
  have hplain : ∀ l : Lexed (Option Token), newlines l.rest = newlines (c :: s) →
      n + newlines l.rest ≡ n + newlines (c :: s) [ZMOD 2 ^ 32] := by
    intro l hl
    rw [hl]
  unfold lexTokenLine lexToken
  by_cases hquote : c = 34
  · subst hquote
    rw [hcons]
    exact scanstrLine_modEq (by decide) n s
  · simp only [hquote, if_false]
    apply hplain
    split_ifs with hminus hdigit hident
    · cases s with
      | nil => rw [hcons]; rfl
      | cons d s =>
          simp only [List.head?_cons]
          split_ifs with hd
          · exact newlines_scannum conv ⟨d, s, Or.inr (by rw [hminus]), hd⟩
          · rw [hcons]
    · exact newlines_scannum conv ⟨c, s, Or.inl rfl, hdigit⟩
    · exact (newlines_dropWhile (by decide) s).trans hcons.symm
    · exact hcons.symm

/-- What a call does to the line number, behind the whitespace. -/
theorem nbufLexLine_cons (n : Int) {c : UInt8} {s s' : Text} (h : skipspaces s = c :: s') :
    nbufLexLine n s =
      if c = 47 then
        if s'.head? = some 42 then nbufLexLine (skipspacesLine n s) (skiplong s'.tail).rest
        else if s'.head? = some 47 then nbufLexLine (skipspacesLine n s) (skipline s'.tail)
        else nbufLexLine (skipspacesLine n s) s'.tail
      else if c = 35 then nbufLexLine (skipspacesLine n s) (skipline s')
      else lexTokenLine (skipspacesLine n s) c s' := by
  rw [nbufLexLine]
  split
  next h' => simp [h] at h'
  next c' s'' h' =>
    rw [h, List.cons.injEq] at h'
    obtain ⟨rfl, rfl⟩ := h'
    rfl

theorem uncounted_cons {c : UInt8} {s s' : Text} (h : skipspaces s = c :: s') :
    uncounted s =
      if c = 47 then
        if s'.head? = some 42 then
          newlines s'.tail - newlines (skiplong s'.tail).rest + uncounted (skiplong s'.tail).rest
        else if s'.head? = some 47 then uncounted (skipline s'.tail)
        else (if s'.head? = some 10 then 1 else 0) + uncounted s'.tail
      else if c = 35 then uncounted (skipline s')
      else 0 := by
  rw [uncounted]
  split
  next h' => simp [h] at h'
  next c' s'' h' =>
    rw [h, List.cons.injEq] at h'
    obtain ⟨rfl, rfl⟩ := h'
    rfl

/-- The head of a text may be a newline. -/
theorem newlines_tail (s : Text) :
    newlines s = (if s.head? = some 10 then 1 else 0) + newlines s.tail := by
  cases s with
  | nil => rfl
  | cons c s => simp [newlines_cons]

/-- **One call**: what it adds to the line number and what is not counted make up the newlines that
it reads. -/
theorem nbufLexLine_modEq (conv : Number → Token) (n : Int) (s : Text) :
    nbufLexLine n s + uncounted s + newlines (nbufLex conv s).rest ≡ n + newlines s
      [ZMOD 2 ^ 32] := by
  -- what is read first is whitespace and a character that is no newline
  have hfirst : ∀ {s s' : Text} {c : UInt8}, c ≠ 10 → skipspaces s = c :: s' → ∀ n : Int,
      skipspacesLine n s + newlines s' ≡ n + newlines s [ZMOD 2 ^ 32] := by
    intro s s' c hc h n
    have hspace := skipspacesLine_modEq n s
    rwa [h, newlines_cons, if_neg hc, Nat.zero_add] at hspace
  fun_induction nbufLex conv s generalizing n with
  | case1 s h =>
      have hspace := skipspacesLine_modEq n s
      rw [h] at hspace
      rw [nbufLexLine, uncounted]
      split
      next => simpa using hspace
      next c s' h' =>
        rw [h] at h'
        cases h'
  | case2 s s' hstar comment l h ih =>
      have hle : newlines comment.rest ≤ newlines s'.tail := newlines_le_of_suffix (skiplong_suffix _)
      have htail : newlines s' = newlines s'.tail := by
        rw [newlines_tail s', hstar]
        simp
      rw [nbufLexLine_cons n h, uncounted_cons h, if_pos rfl, if_pos hstar, if_pos rfl, if_pos hstar]
      calc nbufLexLine (skipspacesLine n s) comment.rest
            + ((newlines s'.tail - newlines comment.rest + uncounted comment.rest : Nat) : Int)
            + newlines l.rest
          = nbufLexLine (skipspacesLine n s) comment.rest + uncounted comment.rest + newlines l.rest
            + (newlines s'.tail - newlines comment.rest) := by push_cast [hle]; ring
        _ ≡ skipspacesLine n s + newlines comment.rest
            + (newlines s'.tail - newlines comment.rest) [ZMOD 2 ^ 32] := (ih _).add_right _
        _ = skipspacesLine n s + newlines s' := by rw [htail]; ring
        _ ≡ n + newlines s [ZMOD 2 ^ 32] := hfirst (by decide) h n
  | case3 s s' hstar hslash h ih =>
      have htail : newlines s' = newlines (skipline s'.tail) := by
        rw [newlines_tail s', hslash, newlines_skipline]
        simp
      rw [nbufLexLine_cons n h, uncounted_cons h, if_pos rfl, if_neg hstar, if_pos hslash, if_pos rfl,
        if_neg hstar, if_pos hslash]
      calc nbufLexLine (skipspacesLine n s) (skipline s'.tail) + uncounted (skipline s'.tail)
            + newlines (nbufLex conv (skipline s'.tail)).rest
          ≡ skipspacesLine n s + newlines (skipline s'.tail) [ZMOD 2 ^ 32] := ih _
        _ = skipspacesLine n s + newlines s' := by rw [htail]
        _ ≡ n + newlines s [ZMOD 2 ^ 32] := hfirst (by decide) h n
  | case4 s s' hstar hslash h ih =>
      rw [nbufLexLine_cons n h, uncounted_cons h, if_pos rfl, if_neg hstar, if_neg hslash, if_pos rfl,
        if_neg hstar, if_neg hslash]
      calc nbufLexLine (skipspacesLine n s) s'.tail
            + (((if s'.head? = some 10 then 1 else 0) + uncounted s'.tail : Nat) : Int)
            + newlines (nbufLex conv s'.tail).rest
          = nbufLexLine (skipspacesLine n s) s'.tail + uncounted s'.tail
            + newlines (nbufLex conv s'.tail).rest
            + ((if s'.head? = some 10 then 1 else 0 : Nat) : Int) := by push_cast; ring
        _ ≡ skipspacesLine n s + newlines s'.tail
            + ((if s'.head? = some 10 then 1 else 0 : Nat) : Int) [ZMOD 2 ^ 32] := (ih _).add_right _
        _ = skipspacesLine n s + newlines s' := by rw [newlines_tail s']; push_cast; ring
        _ ≡ n + newlines s [ZMOD 2 ^ 32] := hfirst (by decide) h n
  | case5 s s' h hslash ih =>
      rw [nbufLexLine_cons n h, uncounted_cons h, if_neg hslash, if_pos rfl, if_neg hslash, if_pos rfl]
      calc nbufLexLine (skipspacesLine n s) (skipline s') + uncounted (skipline s')
            + newlines (nbufLex conv (skipline s')).rest
          ≡ skipspacesLine n s + newlines (skipline s') [ZMOD 2 ^ 32] := ih _
        _ = skipspacesLine n s + newlines s' := by rw [newlines_skipline]
        _ ≡ n + newlines s [ZMOD 2 ^ 32] := hfirst (by decide) h n
  | case6 s c s' h hslash hhash =>
      have hspace := isspace_of_skipspaces h
      rw [nbufLexLine_cons n h, uncounted_cons h, if_neg hslash, if_neg hhash, if_neg hslash,
        if_neg hhash]
      calc lexTokenLine (skipspacesLine n s) c s' + ((0 : Nat) : Int)
            + newlines (lexToken conv c s').rest
          = lexTokenLine (skipspacesLine n s) c s' + newlines (lexToken conv c s').rest := by simp
        _ ≡ skipspacesLine n s + newlines (c :: s') [ZMOD 2 ^ 32] := lexTokenLine_modEq _ s' hspace
        _ = skipspacesLine n s + newlines (skipspaces s) := by rw [h]
        _ ≡ n + newlines s [ZMOD 2 ^ 32] := skipspacesLine_modEq n s

/-- The newlines that are not counted are among those that are read. -/
theorem uncounted_le (conv : Number → Token) (s : Text) :
    uncounted s + newlines (nbufLex conv s).rest ≤ newlines s := by
  -- whitespace and a character in front
  have hfirst : ∀ {s s' : Text} {c : UInt8}, skipspaces s = c :: s' →
      newlines s'.tail ≤ newlines s' ∧ newlines s' ≤ newlines s := by
    intro s s' c h
    have hsuf : c :: s' <:+ s := h ▸ skipspaces_suffix s
    exact ⟨newlines_le_of_suffix (List.tail_suffix s'),
      newlines_le_of_suffix ((List.suffix_cons c s').trans hsuf)⟩
  fun_induction nbufLex conv s with
  | case1 s h =>
      rw [uncounted]
      split
      next => exact Nat.zero_le _
      next c s' h' =>
        rw [h] at h'
        cases h'
  | case2 s s' hstar comment l h ih =>
      have hle : newlines comment.rest ≤ newlines s'.tail := newlines_le_of_suffix (skiplong_suffix _)
      have hcomment : newlines s'.tail - newlines comment.rest + uncounted comment.rest
          + newlines l.rest ≤ newlines s'.tail := by
        have ih : uncounted comment.rest + newlines l.rest ≤ newlines comment.rest := ih
        omega
      rw [uncounted_cons h, if_pos rfl, if_pos hstar]
      exact hcomment.trans ((hfirst h).1.trans (hfirst h).2)
  | case3 s s' hstar hslash h ih =>
      rw [uncounted_cons h, if_pos rfl, if_neg hstar, if_pos hslash]
      rw [newlines_skipline] at ih
      exact ih.trans ((hfirst h).1.trans (hfirst h).2)
  | case4 s s' hstar hslash h ih =>
      rw [uncounted_cons h, if_pos rfl, if_neg hstar, if_neg hslash, Nat.add_assoc]
      calc (if s'.head? = some 10 then 1 else 0)
            + (uncounted s'.tail + newlines (nbufLex conv s'.tail).rest)
          ≤ (if s'.head? = some 10 then 1 else 0) + newlines s'.tail := Nat.add_le_add_left ih _
        _ = newlines s' := (newlines_tail s').symm
        _ ≤ newlines s := (hfirst h).2
  | case5 s s' h hslash ih =>
      rw [uncounted_cons h, if_neg hslash, if_pos rfl]
      rw [newlines_skipline] at ih
      exact ih.trans (hfirst h).2
  | case6 s c s' h hslash hhash =>
      rw [uncounted_cons h, if_neg hslash, if_neg hhash, Nat.zero_add]
      exact (newlines_le_of_suffix (lexToken_suffix c s')).trans (hfirst h).2

end

/-! ## The counter is an `int` -/

/-- The values of an `int`. -/
def IsInt (n : Int) : Prop := -2 ^ 31 ≤ n ∧ n < 2 ^ 31

theorem isInt_nextLine (n : Int) : IsInt (nextLine n) := by
  have hle := Int.le_bmod (x := n + 1) (show 0 < 2 ^ 32 by decide)
  have hlt := Int.bmod_lt (x := n + 1) (show 0 < 2 ^ 32 by decide)
  unfold IsInt nextLine
  constructor <;> omega

section

variable {n : Int}

theorem isInt_line (h : IsInt n) (c : UInt8) : IsInt (if c = 10 then nextLine n else n) := by
  split_ifs
  · exact isInt_nextLine n
  · exact h

theorem isInt_skipspacesLine (h : IsInt n) (s : Text) : IsInt (skipspacesLine n s) := by
  induction s generalizing n with
  | nil => exact h
  | cons c s ih =>
      unfold skipspacesLine
      simp only
      split_ifs
      · exact ih (isInt_nextLine n)
      · exact ih h
      · exact isInt_nextLine n
      · exact h

theorem isInt_scanstrLine (delim : UInt8) (h : IsInt n) (s : Text) :
    IsInt (scanstrLine delim n s) := by
  fun_induction scanstrLine delim n s with
  | case1 => exact h
  | case2 n s n' hnext ih => exact ih (isInt_skipspacesLine h s)
  | case3 n s n' hnext => exact isInt_skipspacesLine h s
  | case4 n s hc ih => exact ih h
  | case5 n c s hc hb ih => exact ih (isInt_line h c)

theorem isInt_nbufLexLine (h : IsInt n) (s : Text) : IsInt (nbufLexLine n s) := by
  fun_induction nbufLexLine n s with
  | case1 => exact isInt_skipspacesLine h _
  | case2 n s n' s' hstar hs ih => exact ih (isInt_skipspacesLine h s)
  | case3 n s n' s' hstar hslash hs ih => exact ih (isInt_skipspacesLine h s)
  | case4 n s n' s' hstar hslash hs ih => exact ih (isInt_skipspacesLine h s)
  | case5 n s n' s' hs hslash ih => exact ih (isInt_skipspacesLine h s)
  | case6 n s n' c s' hs hslash hhash =>
      unfold lexTokenLine
      split_ifs
      · exact isInt_scanstrLine c (isInt_skipspacesLine h s) s'
      · exact isInt_skipspacesLine h s

end

/-! ## Any number of calls -/

section

variable (conv : Number → Token) (s : Text)

/-- `l->lineno` and what is left of the text `s` after `nbuf_lex_init` and `k` calls. -/
def afterCalls : Nat → Int × Text
  | 0 => (1, s)
  | k + 1 => (nbufLexLine (afterCalls k).1 (afterCalls k).2, (nbufLex conv (afterCalls k).2).rest)

/-- What `k` calls have read. -/
def consumed (k : Nat) : Text := s.take (s.length - (afterCalls conv s k).2.length)

/-- No newline that `k` calls have read is uncounted. -/
def AllCounted (k : Nat) : Prop := ∀ i < k, uncounted (afterCalls conv s i).2 = 0

theorem afterCalls_suffix (k : Nat) : (afterCalls conv s k).2 <:+ s := by
  induction k with
  | zero => exact List.suffix_refl s
  | succ k ih => exact (nbufLex_rest _).1.trans ih

theorem consumed_append (k : Nat) : consumed conv s k ++ (afterCalls conv s k).2 = s := by
  obtain ⟨pre, hpre⟩ := afterCalls_suffix conv s k
  have hlen : s.length - (afterCalls conv s k).2.length = pre.length := by
    have hsum := congrArg List.length hpre
    rw [List.length_append] at hsum
    omega
  rw [consumed, hlen]
  generalize (afterCalls conv s k).2 = r at hpre
  rw [← hpre, List.take_left]

theorem isInt_afterCalls (k : Nat) : IsInt (afterCalls conv s k).1 := by
  induction k with
  | zero => exact ⟨show (-2 ^ 31 : Int) ≤ 1 by decide, show (1 : Int) < 2 ^ 31 by decide⟩
  | succ k ih => exact isInt_nbufLexLine ih _

theorem newlines_consumed (k : Nat) :
    newlines s = newlines (consumed conv s k) + newlines (afterCalls conv s k).2 := by
  conv_lhs => rw [← consumed_append conv s k, newlines_append]

/-- The newlines that are not counted are among those that have been read. -/
theorem sum_uncounted_le (k : Nat) :
    ∑ i ∈ Finset.range k, uncounted (afterCalls conv s i).2 ≤ newlines (consumed conv s k) := by
  suffices h : ∑ i ∈ Finset.range k, uncounted (afterCalls conv s i).2
      + newlines (afterCalls conv s k).2 ≤ newlines s by
    have hsplit := newlines_consumed conv s k
    omega
  induction k with
  | zero => exact Nat.le_of_eq (Nat.zero_add _)
  | succ k ih =>
      have hcall := uncounted_le conv (afterCalls conv s k).2
      rw [Finset.sum_range_succ]
      show _ + newlines (nbufLex conv (afterCalls conv s k).2).rest ≤ _
      omega

/-- **After any number of calls** the line number and what was not counted make up the newlines that
were read. -/
theorem afterCalls_modEq (k : Nat) :
    (afterCalls conv s k).1 + (∑ i ∈ Finset.range k, uncounted (afterCalls conv s i).2 : Nat)
      ≡ 1 + newlines (consumed conv s k) [ZMOD 2 ^ 32] := by
  suffices h : (afterCalls conv s k).1
      + (∑ i ∈ Finset.range k, uncounted (afterCalls conv s i).2 : Nat)
      + newlines (afterCalls conv s k).2 ≡ 1 + newlines s [ZMOD 2 ^ 32] by
    rw [newlines_consumed conv s k, Nat.cast_add, ← Int.add_assoc] at h
    exact h.add_right_cancel' _
  induction k with
  | zero => exact Int.ModEq.refl _
  | succ k ih =>
      have hcall := nbufLexLine_modEq conv (afterCalls conv s k).1 (afterCalls conv s k).2
      rw [Finset.sum_range_succ]
      generalize (∑ i ∈ Finset.range k, uncounted (afterCalls conv s i).2 : Nat) = u at ih ⊢
      calc (afterCalls conv s (k + 1)).1 + ((u + uncounted (afterCalls conv s k).2 : Nat) : Int)
            + newlines (afterCalls conv s (k + 1)).2
          = (nbufLexLine (afterCalls conv s k).1 (afterCalls conv s k).2
              + uncounted (afterCalls conv s k).2
              + newlines (nbufLex conv (afterCalls conv s k).2).rest) + u := by
            rw [afterCalls]
            push_cast
            ring
        _ ≡ (afterCalls conv s k).1 + newlines (afterCalls conv s k).2 + u [ZMOD 2 ^ 32] :=
            hcall.add_right _
        _ = (afterCalls conv s k).1 + u + newlines (afterCalls conv s k).2 := by ring
        _ ≡ 1 + newlines s [ZMOD 2 ^ 32] := ih

end

/-- **Line numbers are exact** after any number of calls if and only if no newline that was read is
in a block comment or directly behind a lone slash, and the line number is an `int`. -/
theorem lineno_exact_iff (conv : Number → Token) (s : Text) (k : Nat) :
    (afterCalls conv s k).1 = 1 + newlines (consumed conv s k) ↔
      AllCounted conv s k ∧ 1 + newlines (consumed conv s k) < 2 ^ 31 := by
  have hmod := afterCalls_modEq conv s k
  have hint := isInt_afterCalls conv s k
  have hall : AllCounted conv s k ↔
      ∑ i ∈ Finset.range k, uncounted (afterCalls conv s i).2 = 0 := by
    simp [AllCounted, Finset.sum_eq_zero_iff]
  have hle := sum_uncounted_le conv s k
  rw [hall]
  generalize (∑ i ∈ Finset.range k, uncounted (afterCalls conv s i).2) = u at hmod hle ⊢
  generalize newlines (consumed conv s k) = m at hmod hle ⊢
  generalize (afterCalls conv s k).1 = n at hmod hint ⊢
  obtain ⟨hlow, hhigh⟩ := hint
  unfold Int.ModEq at hmod
  constructor
  · rintro rfl
    constructor <;> omega
  · rintro ⟨rfl, hsmall⟩
    omega

/-- A letter at the end of the file. -/
theorem call_letter (conv : Number → Token) :
    nbufLexLine 1 [97] = 1 ∧ (nbufLex conv [97]).rest = [] := by
  have h : skipspaces [97] = 97 :: [] := rfl
  rw [nbufLexLine_cons 1 h, nbufLex_cons h]
  exact ⟨rfl, rfl⟩

/-- **Two newlines that are not counted**: one in a block comment and one behind a slash. -/
theorem lineno_misses :
    (afterCalls (Number.token fun _ => (0, 0)) (asc "/*\n*/a") 1).1 = 1 ∧
      newlines (consumed (Number.token fun _ => (0, 0)) (asc "/*\n*/a") 1) = 1 ∧
      (afterCalls (Number.token fun _ => (0, 0)) (asc "/\na") 1).1 = 1 ∧
      newlines (consumed (Number.token fun _ => (0, 0)) (asc "/\na") 1) = 1 := by
  generalize (Number.token fun _ => (0, 0)) = conv
  have hblock : skipspaces (asc "/*\n*/a") = 47 :: asc "*\n*/a" := by decide
  have hslash : skipspaces (asc "/\na") = 47 :: asc "\na" := by decide
  have hline : nbufLexLine 1 (asc "/*\n*/a") = nbufLexLine 1 [97] := by
    rw [nbufLexLine_cons 1 hblock]
    rfl
  have hrest : (nbufLex conv (asc "/*\n*/a")).rest = (nbufLex conv [97]).rest := by
    rw [nbufLex_cons hblock]
    rfl
  have hline' : nbufLexLine 1 (asc "/\na") = nbufLexLine 1 [97] := by
    rw [nbufLexLine_cons 1 hslash]
    rfl
  have hrest' : (nbufLex conv (asc "/\na")).rest = (nbufLex conv [97]).rest := by
    rw [nbufLex_cons hslash]
    rfl
  obtain ⟨hone, hend⟩ := call_letter conv
  simp only [afterCalls, consumed, hline, hrest, hline', hrest', hone, hend]
  decide

end Nbuf
