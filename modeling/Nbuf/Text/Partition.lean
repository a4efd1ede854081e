import Nbuf.Text.Lex

set_option autoImplicit false

/-! # Where the bytes of a text go

Each call of the lexer takes whitespace and comments and then one token. What a token, a comment and
a string are is said here without the lexer; `Accounted` says that a call took just that.
-/

namespace Nbuf

/-! ## Whitespace, comments and tokens -/

/-- `pre` is whitespace and comments in front of `rest`. A comment ends at the newline or at the first
`*/`, or at the end of the file. -/
inductive Blank : Text → Text → Prop
  | nil {rest : Text} : Blank [] rest
  | space {c : UInt8} {pre rest : Text} (hc : isspace c = true) (h : Blank pre rest) :
      Blank (c :: pre) rest
  | line {mark body pre rest : Text} (hmark : mark = asc "#" ∨ mark = asc "//") (hbody : 10 ∉ body)
      (hend : ∀ c ∈ (pre ++ rest).head?, c = 10) (h : Blank pre rest) :
      Blank (mark ++ (body ++ pre)) rest
  | block {body pre rest : Text} (hbody : ¬ asc "*/" <:+: body) (h : Blank pre rest) :
      Blank (asc "/*" ++ (body ++ (asc "*/" ++ pre))) rest
  | unclosed {body : Text} (hbody : ¬ asc "*/" <:+: body) : Blank (asc "/*" ++ body) []

/-- The text starts a comment. -/
def StartsComment (s : Text) : Prop := asc "#" <+: s ∨ asc "//" <+: s ∨ asc "/*" <+: s

/-- The text starts a number. -/
def StartsNumber (s : Text) : Prop :=
  ∃ c r, (s = c :: r ∨ s = 45 :: c :: r) ∧ isdigit c = true

/-- The text of a number, with its base: `0x` and hexadecimal digits, `0` and octal digits, or decimal
digits, with a fraction and an exponent or without. -/
inductive IsNumber : Number → Prop
  | hex {minus ds : Text} {x : UInt8} (hminus : minus = [] ∨ minus = asc "-")
      (hx : x = 120 ∨ x = 88) (hds : ∀ d ∈ ds, isxdigit d = true) :
      IsNumber ⟨minus ++ (48 :: x :: ds), 16, false⟩
  | oct {minus ds : Text} (hminus : minus = [] ∨ minus = asc "-") (hne : ds ≠ [])
      (hds : ∀ d ∈ ds, isodigit d = true) : IsNumber ⟨minus ++ (48 :: ds), 8, false⟩
  | dec {minus ds point exponent : Text} {flt : Bool} (hminus : minus = [] ∨ minus = asc "-")
      (hne : ds ≠ []) (hds : ∀ d ∈ ds, isdigit d = true)
      (hpoint : point = [] ∨ ∃ l, point = 46 :: l ∧ ∀ d ∈ l, isdigit d = true)
      (hexp : exponent = [] ∨ ∃ e sign l, exponent = e :: (sign ++ l) ∧ (e = 101 ∨ e = 69) ∧
        (sign = [] ∨ sign = asc "+" ∨ sign = asc "-") ∧ ∀ d ∈ l, isdigit d = true)
      (hflt : flt = true ↔ point ++ exponent ≠ []) :
      IsNumber ⟨minus ++ (ds ++ (point ++ exponent)), 10, flt⟩

/-- The text of a string behind its opening quote, in front of `rest`. A quote closes the string
unless a backslash of its own stands in front of it; another one behind it and whitespace opens the
string again. -/
inductive StrTail : Text → Text → Prop
  | unclosed : StrTail [] []
  | close {rest : Text} (hnext : (skipspaces rest).head? ≠ some 34) : StrTail [34] rest
  | again {space l rest : Text} (hspace : ∀ c ∈ space, isspace c = true) (h : StrTail l rest) :
      StrTail (34 :: (space ++ 34 :: l)) rest
  | chr {c : UInt8} {l rest : Text} (hquote : c ≠ 34) (hslash : c ≠ 92) (h : StrTail l rest) :
      StrTail (c :: l) rest
  | pair {c : UInt8} {l rest : Text} (hc : (escapeChar c).isSome) (h : StrTail l rest) :
      StrTail (92 :: c :: l) rest
  | slash {l rest : Text} (hnext : ∀ c ∈ (l ++ rest).head?, escapeChar c = none)
      (h : StrTail l rest) : StrTail (92 :: l) rest

section

variable (conv : Number → Token)

/-- The token is spelled by the text `s`, in front of `rest`. A character that is no whitespace and
starts nothing else is a token of its own. -/
inductive Spelled : Token → Text → Text → Prop
  | chr {c : UInt8} {rest : Text} (hspace : isspace c = false) (hcomment : ¬ StartsComment (c :: rest))
      (hnumber : ¬ StartsNumber (c :: rest)) (hid : isalpha c = false ∧ c ≠ 95) (hstr : c ≠ 34) :
      Spelled (.chr c.toNat) [c] rest
  | num {n : Number} {rest : Text} (h : IsNumber n) : Spelled (conv n) n.buf rest
  | id {c : UInt8} {s rest : Text} (hc : isalpha c = true ∨ c = 95)
      (hs : ∀ d ∈ s, isident d = true) (hend : ∀ d ∈ rest.head?, isident d = false) :
      Spelled (.id (c :: s)) (c :: s) rest
  | str {t s rest : Text} (h : StrTail s rest) : Spelled (.str t) (34 :: s) rest

/-- The bytes of `s` in front of `rest` are whitespace and comments and then the token, or all of `s`
is whitespace and comments and there is none. Whitespace behind a string is read with it. -/
inductive Accounted : Text → Option Token → Text → Prop
  | eof {s : Text} (h : Blank s []) : Accounted s none []
  | token {pre s space rest : Text} {t : Token} (hpre : Blank pre (s ++ (space ++ rest)))
      (hs : Spelled conv t s (space ++ rest)) (hspace : ∀ c ∈ space, isspace c = true)
      (hstr : (∃ l, t = .str l) ∨ space = []) :
      Accounted (pre ++ (s ++ (space ++ rest))) (some t) rest

/-- **The calls of the lexer partition the text**: each takes what comes next, up to the end. -/
inductive Partitioned : Text → Prop
  | eof {s : Text} (hcall : (nbufLex conv s).val = none)
      (h : Accounted conv s none (nbufLex conv s).rest) : Partitioned s
  | token {s : Text} {t : Token} (hcall : (nbufLex conv s).val = some t)
      (h : Accounted conv s (some t) (nbufLex conv s).rest)
      (hrest : Partitioned (nbufLex conv s).rest) : Partitioned s

/-- The lexer, called on the text `s` until the end of the file, is called on `s'`. -/
inductive Reached : Text → Text → Prop
  | here {s : Text} : Reached s s
  | next {s s' : Text} {t : Token} (hcall : (nbufLex conv s).val = some t)
      (h : Reached (nbufLex conv s).rest s') : Reached s s'

end

/-! ## What comes behind whitespace and comments -/

/-- The text behind whitespace and comments. -/
def skipBlank (s : Text) : Text :=
  match _h : skipspaces s with
  | 47 :: 42 :: r => skipBlank (skiplong r).rest
  | 47 :: 47 :: r => skipBlank (skipline r)
  | 35 :: r => skipBlank (skipline r)
  | r => r
termination_by s.length
decreasing_by
  all_goals
    have hlen := (skipspaces_suffix s).length_le
    rw [_h] at hlen
    simp only [List.length_cons] at hlen
  · exact lt_of_le_of_lt (skiplong_suffix r).length_le (by omega)
  · exact lt_of_le_of_lt (skipline_suffix r).length_le (by omega)
  · exact lt_of_le_of_lt (skipline_suffix r).length_le (by omega)

/-- Neither whitespace nor the start of a comment. -/
def Solid (s : Text) : Prop := (∀ c ∈ s.head?, isspace c = false) ∧ ¬ StartsComment s

theorem skipline_spec (s : Text) : ∃ body, s = body ++ skipline s ∧ 10 ∉ body ∧
    ∀ c ∈ (skipline s).head?, c = 10 := by
  refine ⟨s.takeWhile (· ≠ 10), List.takeWhile_append_dropWhile.symm, fun h => ?_, fun c hc => ?_⟩
  · simpa using List.mem_takeWhile_imp h
  · have hhead := List.head?_dropWhile_not (fun c : UInt8 => decide (c ≠ 10)) s
    rw [← skipline, Option.mem_def.mp hc] at hhead
    simpa using hhead

/-- `*/` at the start of a text. -/
theorem star_prefix_iff {c : UInt8} {s : Text} :
    asc "*/" <+: c :: s ↔ c = 42 ∧ s.head? = some 47 := by
  rw [show asc "*/" = [42, 47] from rfl, List.cons_prefix_cons]
  cases s with
  | nil => simp
  | cons d s => simp [List.cons_prefix_cons, eq_comm]

theorem skiplong_spec (s : Text) : (∃ body, s = body ++ (asc "*/" ++ (skiplong s).rest) ∧
    ¬ asc "*/" <:+: body) ∨ (skiplong s).rest = [] ∧ ¬ asc "*/" <:+: s := by
  induction s with
  | nil => exact Or.inr ⟨rfl, by decide⟩
  | cons c s ih =>
      unfold skiplong
      split_ifs with h
      · refine Or.inl ⟨[], ?_, by decide⟩
        obtain ⟨rest, rfl⟩ : ∃ rest, s = 47 :: rest := by
          cases s with
          | nil => cases h.2
          | cons d rest => exact ⟨rest, by simpa using h.2⟩
        rw [h.1]
        rfl
      · rcases ih with ⟨body, hs, hbody⟩ | ⟨hrest, hs⟩
        · refine Or.inl ⟨c :: body, congrArg (c :: ·) hs, fun hin => ?_⟩
          rcases List.infix_cons_iff.mp hin with hpre | hin
          · refine h ⟨(star_prefix_iff.mp hpre).1, ?_⟩
            have := (star_prefix_iff.mp hpre).2
            rw [hs]
            cases body with
            | nil => cases this
            | cons d body => exact this
          · exact hbody hin
        · refine Or.inr ⟨hrest, fun hin => ?_⟩
          rcases List.infix_cons_iff.mp hin with hpre | hin
          · exact h (star_prefix_iff.mp hpre)
          · exact hs hin

theorem skipspaces_spec (s : Text) : ∃ l, s = l ++ skipspaces s ∧ ∀ c ∈ l, isspace c = true :=
  ⟨s.takeWhile isspace, List.takeWhile_append_dropWhile.symm, fun _ h => List.mem_takeWhile_imp h⟩

theorem Blank.spaces {l pre rest : Text} (hl : ∀ c ∈ l, isspace c = true) (h : Blank pre rest) :
    Blank (l ++ pre) rest := by
  induction l with
  | nil => exact h
  | cons c l ih =>
      exact .space (hl c List.mem_cons_self) (ih fun d hd => hl d (List.mem_cons_of_mem c hd))

theorem Blank.append {pre pre' s rest : Text} (h : Blank pre s) (hs : s = pre' ++ rest)
    (h' : Blank pre' rest) : Blank (pre ++ pre') rest := by
  induction h with
  | nil => exact h'
  | space hc _ ih => exact .space hc (ih hs)
  | line hmark hbody hend _ ih =>
      rw [List.append_assoc, List.append_assoc]
      refine .line hmark hbody ?_ (ih hs)
      rwa [List.append_assoc, ← hs]
  | block hbody _ ih =>
      rw [List.append_assoc, List.append_assoc, List.append_assoc]
      exact .block hbody (ih hs)
  | unclosed hbody =>
      obtain ⟨rfl, rfl⟩ := List.append_eq_nil_iff.mp hs.symm
      rw [List.append_nil]
      exact .unclosed hbody

section

variable (conv : Number → Token)

/-- In front of `t` the text `s` has only whitespace and comments, and the lexer passes over them. -/
structure Passes (s t : Text) : Prop where
  blank : ∃ pre, s = pre ++ t ∧ Blank pre t
  solid : Solid t
  val : (nbufLex conv s).val = (nbufLex conv t).val
  rest : (nbufLex conv s).rest = (nbufLex conv t).rest

variable {conv}

/-- Whitespace and a comment that goes to the end of the line. -/
theorem Passes.line {s r t mark : Text} (hmark : mark = asc "#" ∨ mark = asc "//")
    (hs : skipspaces s = mark ++ r) (hlex : nbufLex conv (mark ++ r) = nbufLex conv (skipline r))
    (h : Passes conv (skipline r) t) : Passes conv s t := by
  obtain ⟨pre, hpre, hblank⟩ := h.blank
  obtain ⟨l, hl, hspace⟩ := skipspaces_spec s
  obtain ⟨body, hr, hbody, hend⟩ := skipline_spec r
  have hcall : nbufLex conv s = nbufLex conv (skipline r) := by rw [← nbufLex_skipspaces, hs, hlex]
  refine ⟨⟨l ++ (mark ++ (body ++ pre)), ?_, (Blank.line hmark hbody (hpre ▸ hend) hblank).spaces hspace⟩,
    h.solid, by rw [hcall, h.val], by rw [hcall, h.rest]⟩
  calc s = l ++ (mark ++ r) := by rw [← hs, ← hl]
    _ = l ++ (mark ++ (body ++ (pre ++ t))) := by rw [← hpre, ← hr]
    _ = l ++ (mark ++ (body ++ pre)) ++ t := by simp only [List.append_assoc]

/-- Whitespace and a comment that has to be closed. -/
theorem Passes.block {s r t : Text} (hs : skipspaces s = asc "/*" ++ r)
    (h : Passes conv (skiplong r).rest t) : Passes conv s t := by
  obtain ⟨pre, hpre, hblank⟩ := h.blank
  obtain ⟨l, hl, hspace⟩ := skipspaces_spec s
  have hcall : nbufLex conv s = nbufLex conv (asc "/*" ++ r) := by rw [← nbufLex_skipspaces, hs]
  refine ⟨?_, h.solid, ?_, ?_⟩
  · rcases skiplong_spec r with ⟨body, hr, hbody⟩ | ⟨hnil, hbody⟩
    · refine ⟨l ++ (asc "/*" ++ (body ++ (asc "*/" ++ pre))), ?_,
        (Blank.block hbody hblank).spaces hspace⟩
      calc s = l ++ (asc "/*" ++ r) := by rw [← hs, ← hl]
        _ = l ++ (asc "/*" ++ (body ++ (asc "*/" ++ (pre ++ t)))) := by rw [← hpre, ← hr]
        _ = _ := by simp only [List.append_assoc]
    · -- the comment goes to the end of the file
      rw [hnil] at hpre
      obtain ⟨-, rfl⟩ := List.append_eq_nil_iff.mp hpre.symm
      refine ⟨l ++ (asc "/*" ++ r), ?_, (Blank.unclosed hbody).spaces hspace⟩
      rw [List.append_nil, ← hs, ← hl]
  · exact (congrArg Lexed.val (hcall.trans (nbufLex_block r))).trans h.val
  · exact (congrArg Lexed.rest (hcall.trans (nbufLex_block r))).trans h.rest

/-- **The lexer passes over whitespace and comments.** -/
theorem passes_skipBlank (conv : Number → Token) (s : Text) : Passes conv s (skipBlank s) := by
  fun_induction skipBlank s with
  | case1 s r h ih => exact .block h ih
  | case2 s r h ih => exact .line (Or.inr rfl) h (nbufLex_line r) ih
  | case3 s r h ih => exact .line (Or.inl rfl) h (nbufLex_hash r) ih
  | case4 s hblock hline hhash =>
      obtain ⟨l, hs, hl⟩ := skipspaces_spec s
      refine ⟨⟨l, hs, by simpa using Blank.nil.spaces hl⟩, ⟨fun c hc => ?_, ?_⟩, ?_, ?_⟩
      · obtain ⟨r, hr⟩ := List.head?_eq_some_iff.mp hc
        exact isspace_of_skipspaces hr
      · rintro (⟨r, hr⟩ | ⟨r, hr⟩ | ⟨r, hr⟩)
        · exact hhash r hr.symm
        · exact hline r hr.symm
        · exact hblock r hr.symm
      · rw [nbufLex_skipspaces]
      · rw [nbufLex_skipspaces]

end

/-! ### There is one way to read whitespace and comments -/

theorem skipline_append {body r : Text} (hbody : 10 ∉ body) (hr : ∀ c ∈ r.head?, c = 10) :
    skipline (body ++ r) = r := by
  have hall : ∀ c ∈ body, decide (c ≠ 10) = true := by
    intro c hc
    exact decide_eq_true fun h => hbody (h ▸ hc)
  rw [skipline, List.dropWhile_append_of_pos hall]
  cases r with
  | nil => rfl
  | cons c r => simp [hr c rfl]

theorem skiplong_append {body : Text} (hbody : ¬ asc "*/" <:+: body) (r : Text) :
    (skiplong (body ++ (asc "*/" ++ r))).rest = r := by
  induction body with
  | nil => rfl
  | cons c body ih =>
      have hin := fun h => hbody (List.infix_cons_iff.mpr h)
      rw [List.cons_append, skiplong, if_neg]
      · exact ih fun h => hin (Or.inr h)
      · intro h
        refine hin (Or.inl (star_prefix_iff.mpr ⟨h.1, ?_⟩))
        cases body with
        | nil => cases h.2
        | cons d body => exact h.2

theorem skiplong_unclosed {body : Text} (hbody : ¬ asc "*/" <:+: body) :
    (skiplong body).rest = [] := by
  rcases skiplong_spec body with ⟨body', h, -⟩ | ⟨h, -⟩
  · exact absurd ⟨body', _, (List.append_assoc _ _ _).trans h.symm⟩ hbody
  · exact h

theorem skipBlank_space {c : UInt8} {s : Text} (h : isspace c = true) :
    skipBlank (c :: s) = skipBlank s := by
  rw [skipBlank, skipspaces_space s h, ← skipBlank]

theorem skipBlank_block (s : Text) : skipBlank (asc "/*" ++ s) = skipBlank (skiplong s).rest := by
  rw [skipBlank]
  rfl

theorem skipBlank_line {mark : Text} (hmark : mark = asc "#" ∨ mark = asc "//") (s : Text) :
    skipBlank (mark ++ s) = skipBlank (skipline s) := by
  rw [skipBlank]
  rcases hmark with rfl | rfl <;> rfl

theorem skipBlank_solid {s : Text} (h : Solid s) : skipBlank s = s := by
  have hs : skipspaces s = s := by
    cases s with
    | nil => rfl
    | cons c s => exact skipspaces_cons s (h.1 c rfl)
  rw [skipBlank, hs]
  split
  next r => exact absurd (Or.inr (Or.inr ⟨r, rfl⟩)) h.2
  next r => exact absurd (Or.inr (Or.inl ⟨r, rfl⟩)) h.2
  next r => exact absurd (Or.inl ⟨r, rfl⟩) h.2
  next => rfl

/-- **There is one way to read whitespace and comments.** -/
theorem Blank.skipBlank_eq {pre rest : Text} (h : Blank pre rest) (hsolid : Solid rest) :
    skipBlank (pre ++ rest) = rest := by
  induction h with
  | nil => exact skipBlank_solid hsolid
  | space hc _ ih =>
      rw [List.cons_append, skipBlank_space hc]
      exact ih hsolid
  | line hmark hbody hend _ ih =>
      rw [List.append_assoc, skipBlank_line hmark, List.append_assoc, skipline_append hbody hend]
      exact ih hsolid
  | block hbody _ ih =>
      rw [List.append_assoc, skipBlank_block, List.append_assoc, List.append_assoc,
        skiplong_append hbody]
      exact ih hsolid
  | unclosed hbody =>
      rw [List.append_nil, skipBlank_block, skiplong_unclosed hbody]
      exact skipBlank_solid hsolid

/-! ## Numbers, identifiers and strings -/

theorem scanDigits_spec {c : UInt8} (hc : isdigit c = true) (s : Text) :
    (∃ x ds, (scanDigits (c :: s)).1 = ⟨48 :: x :: ds, 16, false⟩ ∧ (x = 120 ∨ x = 88) ∧
      ∀ d ∈ ds, isxdigit d = true) ∨
    (∃ ds, (scanDigits (c :: s)).1 = ⟨48 :: ds, 8, false⟩ ∧ ds ≠ [] ∧
      ∀ d ∈ ds, isodigit d = true) ∨
    ∃ ds, (scanDigits (c :: s)).1 = ⟨ds, 10, false⟩ ∧ ds ≠ [] ∧ ∀ d ∈ ds, isdigit d = true := by
  have hzero : ∀ d ∈ ([48] : Text), isdigit d = true := by
    intro d hd
    rw [List.mem_singleton.mp hd]
    rfl
  unfold scanDigits
  split
  next x s' h =>
    split_ifs with hx ho
    · exact Or.inl ⟨x, _, rfl, hx, fun d hd => List.mem_takeWhile_imp hd⟩
    · refine Or.inr (Or.inl ⟨_, rfl, List.cons_ne_nil _ _, fun d hd => ?_⟩)
      rcases List.mem_cons.mp hd with rfl | hd
      · exact ho
      · exact List.mem_takeWhile_imp hd
    · exact Or.inr (Or.inr ⟨[48], rfl, by decide, hzero⟩)
  next c' s' _ h =>
    rw [List.cons.injEq] at h
    obtain ⟨rfl, rfl⟩ := h
    split_ifs with h48
    · exact Or.inr (Or.inr ⟨[48], rfl, by decide, hzero⟩)
    · refine Or.inr (Or.inr ⟨_, rfl, List.cons_ne_nil _ _, fun d hd => ?_⟩)
      rcases List.mem_cons.mp hd with rfl | hd
      · exact hc
      · exact List.mem_takeWhile_imp hd
  next h => cases h

theorem scanPoint_spec (s : Text) : (scanPoint s).1 = [] ∨
    ∃ l, (scanPoint s).1 = 46 :: l ∧ ∀ d ∈ l, isdigit d = true := by
  unfold scanPoint
  split
  · exact Or.inr ⟨_, rfl, fun d hd => List.mem_takeWhile_imp hd⟩
  · exact Or.inl rfl

theorem scanSign_spec (s : Text) :
    (scanSign s).1 = [] ∨ (scanSign s).1 = asc "+" ∨ (scanSign s).1 = asc "-" := by
  unfold scanSign
  split
  next c s =>
    split_ifs with hc
    · rcases hc with rfl | rfl
      · exact Or.inr (Or.inl rfl)
      · exact Or.inr (Or.inr rfl)
    · exact Or.inl rfl
  next => exact Or.inl rfl

theorem scanExponent_spec (s : Text) : (scanExponent s).1 = [] ∨
    ∃ e sign l, (scanExponent s).1 = e :: (sign ++ l) ∧ (e = 101 ∨ e = 69) ∧
      (sign = [] ∨ sign = asc "+" ∨ sign = asc "-") ∧ ∀ d ∈ l, isdigit d = true := by
  unfold scanExponent
  split
  next c s =>
    split_ifs with hc
    · exact Or.inr ⟨c, _, _, rfl, hc, scanSign_spec s, fun d hd => List.mem_takeWhile_imp hd⟩
    · exact Or.inl rfl
  next => exact Or.inl rfl

/-- What `scannum` takes is a number. -/
theorem scanNumber_isNumber {s : Text} (h : StartsNumber s) : IsNumber (scanNumber s).1 := by
  obtain ⟨c, r, hs, hc⟩ := h
  obtain ⟨hminus, hrest⟩ : ((scanMinus s).1 = [] ∨ (scanMinus s).1 = asc "-") ∧
      (scanMinus s).2 = c :: r := by
    rcases hs with rfl | rfl
    · have h45 : c ≠ 45 := fun h => absurd hc (by rw [h]; decide)
      unfold scanMinus
      split
      next h => exact absurd (List.cons.inj h).1 h45
      next => exact ⟨Or.inl rfl, rfl⟩
    · exact ⟨Or.inr rfl, rfl⟩
  unfold scanNumber
  simp only [hrest]
  rcases scanDigits_spec hc r with ⟨x, ds, hn, hx, hds⟩ | ⟨ds, hn, hne, hds⟩ | ⟨ds, hn, hne, hds⟩
  · rw [hn, if_neg (by simp)]
    exact .hex hminus hx hds
  · rw [hn, if_neg (by simp)]
    exact .oct hminus hne hds
  · rw [hn, if_pos rfl]
    simp only [List.append_assoc]
    exact .dec hminus hne hds (scanPoint_spec _) (scanExponent_spec _) decide_eq_true_iff

/-- A number starts with a digit or a minus sign in front of one. -/
theorem IsNumber.head {n : Number} (h : IsNumber n) :
    ∃ c r, (n.buf = c :: r ∨ n.buf = 45 :: c :: r) ∧ isdigit c = true := by
  have hor : ∀ {minus r : Text} {c : UInt8}, minus = [] ∨ minus = asc "-" →
      (minus ++ c :: r = c :: r ∨ minus ++ c :: r = 45 :: c :: r) := by
    rintro minus r c (rfl | rfl)
    · exact Or.inl rfl
    · exact Or.inr rfl
  cases h with
  | hex hminus hx hds => exact ⟨48, _, hor hminus, by decide⟩
  | oct hminus hne hds => exact ⟨48, _, hor hminus, by decide⟩
  | dec hminus hne hds hpoint hexp hflt =>
      obtain ⟨c, ds, rfl⟩ := List.exists_cons_of_ne_nil hne
      exact ⟨c, _, hor hminus, hds c List.mem_cons_self⟩

/-- The characters of an escape sequence with digits. -/
theorem escapeDigits_chars (s : Text) : ∃ l, s = l ++ (escapeDigits s).2.2 ∧
    ∀ c ∈ l, c = 120 ∨ isxdigit c = true := by
  have ho : ∀ c : UInt8, isodigit c = true → isxdigit c = true := by
    intro c h
    simp only [isodigit, isxdigit, isdigit, decide_eq_true_eq, Bool.or_eq_true] at h ⊢
    omega
  have htake : ∀ (p : UInt8 → Bool) (n : Nat) (s : Text),
      s = (s.takeWhile p).take n ++ s.drop ((s.takeWhile p).take n).length := by
    intro p n s
    have hpre : (s.takeWhile p).take n <+: s :=
      (List.take_prefix _ _).trans (List.takeWhile_prefix p)
    conv_lhs => rw [← List.take_append_drop ((s.takeWhile p).take n).length s]
    rw [← List.prefix_iff_eq_take.mp hpre]
  unfold escapeDigits
  simp only
  split_ifs with h
  · obtain ⟨r, rfl⟩ := List.head?_eq_some_iff.mp h
    refine ⟨120 :: (r.takeWhile isxdigit).take 2, congrArg (120 :: ·) (htake isxdigit 2 r), ?_⟩
    intro c hc
    rcases List.mem_cons.mp hc with rfl | hc
    · exact Or.inl rfl
    · exact Or.inr (List.mem_takeWhile_imp (List.mem_of_mem_take hc))
  · exact ⟨_, htake isodigit 3 s, fun c hc =>
      Or.inr (ho c (List.mem_takeWhile_imp (List.mem_of_mem_take hc)))⟩

/-- They are neither quotes nor backslashes. -/
theorem escapeDigits_spec (s : Text) : ∃ l, s = l ++ (escapeDigits s).2.2 ∧
    ∀ c ∈ l, c ≠ 34 ∧ c ≠ 92 := by
  obtain ⟨l, hs, hl⟩ := escapeDigits_chars s
  refine ⟨l, hs, fun c hc => ?_⟩
  rcases hl c hc with rfl | hx
  · decide
  · constructor <;> rintro rfl <;> exact absurd hx (by decide)

theorem StrTail.chrs {l s rest : Text} (hl : ∀ c ∈ l, c ≠ 34 ∧ c ≠ 92) (h : StrTail s rest) :
    StrTail (l ++ s) rest := by
  induction l with
  | nil => exact h
  | cons c l ih =>
      have hc := hl c List.mem_cons_self
      exact .chr hc.1 hc.2 (ih fun d hd => hl d (List.mem_cons_of_mem c hd))

/-- A backslash and what `scanstr` takes behind it. -/
theorem StrTail.escape {s l rest : Text} (hs : (scanEscape s).rest = l ++ rest) (h : StrTail l rest) :
    ∃ l', 92 :: s = l' ++ rest ∧ StrTail l' rest := by
  unfold scanEscape at hs
  split at hs
  next b hb =>
    obtain ⟨c, hc, hcb⟩ := Option.bind_eq_some_iff.mp hb
    obtain ⟨r, rfl⟩ := List.head?_eq_some_iff.mp hc
    have hr : r = l ++ rest := hs
    exact ⟨92 :: c :: l, by rw [hr]; rfl, .pair (by rw [hcb]; rfl) h⟩
  next hb =>
    have hrest : (escapeDigits s).2.2 = l ++ rest := by
      simp only at hs
      split_ifs at hs <;> exact hs
    obtain ⟨cs, hs', hcs⟩ := escapeDigits_spec s
    rw [hrest] at hs'
    refine ⟨92 :: (cs ++ l), by rw [hs', List.cons_append, List.append_assoc], .slash ?_ (.chrs hcs h)⟩
    intro c hc
    rw [List.append_assoc, ← hs'] at hc
    rw [Option.mem_def.mp hc] at hb
    exact hb

/-- **What `scanstr` takes is the text of a string**, and whitespace behind it. -/
theorem scanstr_strTail (s : Text) : ∃ l space, s = l ++ (space ++ (scanstr 34 s).rest) ∧
    StrTail l (space ++ (scanstr 34 s).rest) ∧ ∀ c ∈ space, isspace c = true := by
  fun_induction scanstr 34 s with
  | case1 => exact ⟨[], [], rfl, .unclosed, by simp⟩
  | case2 s hnext ih =>
      obtain ⟨l, space, hs, hl, hspace⟩ := ih
      obtain ⟨pre, hpre, hpres⟩ := skipspaces_spec s
      refine ⟨34 :: (pre ++ 34 :: l), space, ?_, .again hpres hl, hspace⟩
      calc 34 :: s = 34 :: (pre ++ skipspaces s) := by rw [← hpre]
        _ = 34 :: (pre ++ 34 :: (skipspaces s).tail) := by
            rw [List.cons_head?_tail (Option.mem_def.mpr hnext)]
        _ = 34 :: (pre ++ 34 :: (l ++ (space ++ (scanstr 34 (skipspaces s).tail).rest))) := by
            rw [← hs]
        _ = _ := by simp only [List.append_assoc, List.cons_append]
  | case3 s hnext =>
      obtain ⟨space, hs, hspace⟩ := skipspaces_spec s
      refine ⟨[34], space, congrArg (34 :: ·) hs, ?_, hspace⟩
      show StrTail [34] (space ++ skipspaces s)
      exact hs ▸ .close hnext
  | case4 s hc e l ih =>
      obtain ⟨l, space, hs, hl, hspace⟩ := ih
      obtain ⟨l', hs', hl'⟩ := hl.escape hs
      exact ⟨l', space, hs', hl', hspace⟩
  | case5 c s hc hb l ih =>
      obtain ⟨l, space, hs, hl, hspace⟩ := ih
      exact ⟨c :: l, space, congrArg (c :: ·) hs, .chr hc hb hl, hspace⟩

/-! ## The bytes that the lexer loses -/

/-- Behind whitespace and comments: a `/`, or a minus sign with neither a digit nor another minus sign
behind it. -/
def Stray (s : Text) : Prop :=
  s.head? = some 47 ∨
    s.head? = some 45 ∧ s.tail.head? ≠ some 45 ∧ ∀ d ∈ s.tail.head?, isdigit d = false

section

variable {conv : Number → Token}

theorem not_space_of_digit {c : UInt8} (h : isdigit c = true) : isspace c = false := by
  simp only [isdigit, isspace, decide_eq_true_eq, decide_eq_false_iff_not] at h ⊢
  omega

theorem not_space_of_alpha {c : UInt8} (h : isalpha c = true) : isspace c = false := by
  simp only [isalpha, isspace, decide_eq_true_eq, decide_eq_false_iff_not] at h ⊢
  omega

theorem solid_cons {c : UInt8} {s : Text} (hspace : isspace c = false) (hhash : c ≠ 35)
    (hslash : c ≠ 47) : Solid (c :: s) := by
  refine ⟨fun d hd => ?_, ?_⟩
  · rw [List.head?_cons, Option.mem_def, Option.some.injEq] at hd
    exact hd ▸ hspace
  · rintro (⟨r, hr⟩ | ⟨r, hr⟩ | ⟨r, hr⟩)
    · exact hhash (List.cons.inj hr).1.symm
    · exact hslash (List.cons.inj hr).1.symm
    · exact hslash (List.cons.inj hr).1.symm

/-- A token starts neither whitespace nor a comment. -/
theorem Spelled.solid {t : Token} {s rest : Text} (h : Spelled conv t s rest) : Solid (s ++ rest) := by
  cases h with
  | chr hspace hcomment =>
      refine ⟨fun d hd => ?_, hcomment⟩
      rw [List.singleton_append, List.head?_cons, Option.mem_def, Option.some.injEq] at hd
      exact hd ▸ hspace
  | num hn =>
      obtain ⟨c, r, hbuf | hbuf, hc⟩ := hn.head
      · rw [hbuf]
        exact solid_cons (not_space_of_digit hc) (ne_of_class hc (by decide))
          (ne_of_class hc (by decide))
      · rw [hbuf]
        exact solid_cons (by decide) (by decide) (by decide)
  | id hc =>
      rcases hc with hc | rfl
      · exact solid_cons (not_space_of_alpha hc) (ne_of_class hc (by decide))
          (ne_of_class hc (by decide))
      · exact solid_cons (by decide) (by decide) (by decide)
  | str => exact solid_cons (by decide) (by decide) (by decide)

/-- A token that starts with `/` or with a minus sign in front of no digit is this character. -/
theorem Spelled.stray {t : Token} {s rest r : Text} {c : UInt8} (h : Spelled conv t s rest)
    (hs : s ++ rest = c :: r) (hc : c = 47 ∨ c = 45 ∧ ∀ d ∈ r.head?, isdigit d = false) :
    t = .chr c.toNat ∧ r = rest := by
  have hdigit : isdigit c = false := by
    rcases hc with rfl | ⟨rfl, -⟩ <;> decide
  cases h with
  | chr =>
      rw [List.singleton_append, List.cons.injEq] at hs
      exact ⟨by rw [hs.1], hs.2.symm⟩
  | num hn =>
      obtain ⟨d, r', hbuf | hbuf, hd⟩ := hn.head
      · rw [hbuf, List.cons_append, List.cons.injEq] at hs
        rw [hs.1, hdigit] at hd
        cases hd
      · rw [hbuf, List.cons_append, List.cons.injEq, List.cons_append] at hs
        rcases hc with rfl | ⟨-, hr⟩
        · exact absurd hs.1 (by decide)
        · rw [hr d (by rw [← hs.2]; rfl)] at hd
          cases hd
  | id hid =>
      rw [List.cons_append, List.cons.injEq] at hs
      rw [hs.1] at hid
      rcases hc with rfl | ⟨rfl, -⟩ <;> exact absurd hid (by decide)
  | str =>
      rw [List.cons_append, List.cons.injEq] at hs
      rcases hc with rfl | ⟨rfl, -⟩ <;> exact absurd hs.1 (by decide)

/-- What a call takes, behind whitespace and comments. -/
theorem Accounted.skipBlank_eq {s rest : Text} {t : Option Token} (h : Accounted conv s t rest) :
    (t = none ∧ skipBlank s = [] ∧ rest = []) ∨ ∃ t' l space, t = some t' ∧
      skipBlank s = l ++ (space ++ rest) ∧ Spelled conv t' l (space ++ rest) ∧
      ((∃ l, t' = .str l) ∨ space = []) := by
  cases h with
  | eof h =>
      refine Or.inl ⟨rfl, ?_, rfl⟩
      have heq := h.skipBlank_eq ⟨by simp, by rintro (h | h | h) <;> simp [asc] at h⟩
      rwa [List.append_nil] at heq
  | token hpre hs hspace hstr => exact Or.inr ⟨_, _, _, rfl, hpre.skipBlank_eq hs.solid, hs, hstr⟩

/-- A token without whitespace behind it. -/
theorem Accounted.of_spelled {t : Token} {l rest : Text} (h : Spelled conv t l rest) :
    Accounted conv (l ++ rest) (some t) rest := by
  show Accounted conv ([] ++ (l ++ ([] ++ rest))) (some t) rest
  exact .token .nil h (by simp) (Or.inr rfl)

theorem scannum_accounted {s : Text} (h : StartsNumber s) :
    Accounted conv s (some (scannum conv s).val) (scannum conv s).rest := by
  have hspelled : Spelled conv (conv (scanNumber s).1) (scanNumber s).1.buf (scanNumber s).2 :=
    .num (scanNumber_isNumber h)
  have hacc := Accounted.of_spelled hspelled
  rwa [scanNumber_append] at hacc

theorem scanident_accounted {c : UInt8} (s : Text) (hc : isalpha c = true ∨ c = 95) :
    Accounted conv (c :: s) (some (scanident (c :: s)).val) (scanident (c :: s)).rest := by
  have hspelled : Spelled conv (.id (c :: s.takeWhile isident)) (c :: s.takeWhile isident)
      (s.dropWhile isident) := by
    refine .id hc (fun d hd => List.mem_takeWhile_imp hd) (fun d hd => ?_)
    have hhead := List.head?_dropWhile_not isident s
    rwa [Option.mem_def.mp hd] at hhead
  have hacc := Accounted.of_spelled hspelled
  rwa [List.cons_append, List.takeWhile_append_dropWhile] at hacc

theorem scanstr_accounted (s : Text) :
    Accounted conv (34 :: s) (some (.str (scanstr 34 s).val)) (scanstr 34 s).rest := by
  obtain ⟨l, space, hs, hl, hspace⟩ := scanstr_strTail s
  have hspelled : Spelled conv (.str (scanstr 34 s).val) (34 :: l) (space ++ (scanstr 34 s).rest) :=
    .str hl
  have hacc := Accounted.token .nil hspelled hspace (Or.inl ⟨_, rfl⟩)
  rwa [List.nil_append, List.cons_append, ← hs] at hacc

/-- A call that comes to a token which is not lost takes just this token. -/
theorem lexToken_accounted {c : UInt8} {s : Text} (hsolid : Solid (c :: s))
    (hstray : ¬ Stray (c :: s)) :
    Accounted conv (c :: s) (lexToken conv c s).val (lexToken conv c s).rest := by
  unfold lexToken
  simp only
  split_ifs with hquote hminus hdigit hid
  · exact hquote ▸ scanstr_accounted s
  · subst hminus
    have hdash : s.head? ≠ some 45 → ∃ d r, s = d :: r ∧ isdigit d = true := by
      intro hne
      by_contra hno
      refine hstray (Or.inr ⟨rfl, hne, fun d hd => ?_⟩)
      obtain ⟨r, hr⟩ := List.head?_eq_some_iff.mp hd
      exact Bool.eq_false_iff.mpr fun h => hno ⟨d, r, hr, h⟩
    by_cases hne : s.head? = some 45
    · -- of two minus signs the first is returned and the second is left
      obtain ⟨r, rfl⟩ := List.head?_eq_some_iff.mp hne
      refine Accounted.of_spelled (.chr (by decide) hsolid.2 ?_ (by decide) (by decide))
      rintro ⟨d, r', hs | hs, hd⟩
      · rw [← (List.cons.inj hs).1] at hd
        exact absurd hd (by decide)
      · rw [← (List.cons.inj (List.cons.inj hs).2).1] at hd
        exact absurd hd (by decide)
    · obtain ⟨d, r, rfl, hd⟩ := hdash hne
      simp only [List.head?_cons, hd, if_true]
      exact scannum_accounted ⟨d, r, Or.inr rfl, hd⟩
  · exact scannum_accounted ⟨c, s, Or.inl rfl, hdigit⟩
  · exact scanident_accounted s hid
  · refine Accounted.of_spelled (.chr (hsolid.1 c rfl) hsolid.2 ?_ ?_ hquote)
    · rintro ⟨d, r, hs | hs, hd⟩
      · exact hdigit ((List.cons.inj hs).1 ▸ hd)
      · exact hminus (List.cons.inj hs).1
    · exact ⟨Bool.eq_false_iff.mpr fun h => hid (Or.inl h), fun h => hid (Or.inr h)⟩

/-- Whitespace and comments in front. -/
theorem Accounted.blank {pre s rest : Text} {t : Option Token} (h : Accounted conv s t rest)
    (hpre : Blank pre s) : Accounted conv (pre ++ s) t rest := by
  cases h with
  | eof h => exact .eof (hpre.append (List.append_nil s).symm h)
  | token hpre' hs hspace hstr =>
      rw [← List.append_assoc]
      exact .token (hpre.append rfl hpre') hs hspace hstr

/-- A lost character would have to be a token of its own. -/
theorem Accounted.stray {s r rest : Text} {c : UInt8} {t : Option Token} (h : Accounted conv s t rest)
    (hs : skipBlank s = c :: r) (hc : c = 47 ∨ c = 45 ∧ ∀ d ∈ r.head?, isdigit d = false) :
    t = some (.chr c.toNat) ∧ r = rest := by
  rcases h.skipBlank_eq with ⟨-, hnil, -⟩ | ⟨t', l, space, rfl, heq, hspelled, hstr⟩
  · rw [hs] at hnil
    cases hnil
  · obtain ⟨rfl, hr⟩ := hspelled.stray (heq.symm.trans hs) hc
    rcases hstr with ⟨l', hl'⟩ | rfl
    · cases hl'
    · exact ⟨rfl, hr⟩

/-- A call that comes to a lost character does not account for it. -/
theorem not_accounted {s : Text} (h : Stray (skipBlank s)) :
    ¬ Accounted conv s (nbufLex conv s).val (nbufLex conv s).rest := by
  intro hacc
  have hpass := passes_skipBlank conv s
  rw [hpass.val, hpass.rest] at hacc
  rcases h with hslash | ⟨hminus, hdash, hdigit⟩
  · -- `/` is dropped with the character behind it, so the rest is too short
    obtain ⟨r, hr⟩ := List.head?_eq_some_iff.mp hslash
    obtain ⟨hval, hrest⟩ := hacc.stray hr (Or.inl rfl)
    have hcall : nbufLex conv (skipBlank s) = nbufLex conv r.tail := by
      have hsolid := hpass.solid.2
      rw [hr] at hsolid ⊢
      refine nbufLex_slash (fun h => hsolid ?_) (fun h => hsolid ?_)
      · obtain ⟨r', rfl⟩ := List.head?_eq_some_iff.mp h
        exact Or.inr (Or.inr ⟨r', rfl⟩)
      · obtain ⟨r', rfl⟩ := List.head?_eq_some_iff.mp h
        exact Or.inr (Or.inl ⟨r', rfl⟩)
    rw [hcall] at hval hrest
    have hlt := (nbufLex_rest r.tail).2 (by rw [hval]; rfl)
    have hle := (List.tail_suffix r).length_le
    rw [← hrest] at hlt
    omega
  · -- another character is returned for the minus sign
    obtain ⟨r, hr⟩ := List.head?_eq_some_iff.mp hminus
    rw [hr, List.tail_cons] at hdash hdigit
    obtain ⟨hval, -⟩ := hacc.stray hr (Or.inr ⟨rfl, hdigit⟩)
    rw [hr, nbufLex_token r (by decide) (by decide) (by decide)] at hval
    cases r with
    | nil => cases hval
    | cons d r =>
        rw [lexToken_minus (hdigit d rfl), Option.some.injEq, Token.chr.injEq, UInt8.toNat_inj] at hval
        exact hdash (by rw [hval]; rfl)

/-- **When a call accounts for what it takes**: exactly if it does not come to a lost character. -/
theorem accounted_iff (conv : Number → Token) (s : Text) :
    Accounted conv s (nbufLex conv s).val (nbufLex conv s).rest ↔ ¬ Stray (skipBlank s) := by
  refine ⟨fun h hstray => not_accounted hstray h, fun hstray => ?_⟩
  obtain ⟨⟨pre, hs, hpre⟩, hsolid, hval, hrest⟩ := passes_skipBlank conv s
  rw [hval, hrest]
  conv => arg 2; rw [hs]
  refine Accounted.blank ?_ hpre
  cases ht : skipBlank s with
  | nil =>
      rw [nbufLex_nil rfl]
      exact .eof .nil
  | cons c r =>
      rw [ht] at hsolid hstray
      have hhash : c ≠ 35 := by
        rintro rfl
        exact hsolid.2 (Or.inl ⟨r, rfl⟩)
      have hslash : c ≠ 47 := by
        rintro rfl
        exact hstray (Or.inl rfl)
      rw [nbufLex_token r (hsolid.1 c rfl) hslash hhash]
      exact lexToken_accounted hsolid hstray

/-! ## The whole text -/

/-- **Where the lexer partitions a text.** Each byte goes to one piece exactly if no call comes to a
lost character. -/
theorem partitioned_iff (conv : Number → Token) (s : Text) :
    Partitioned conv s ↔ ∀ s', Reached conv s s' → ¬ Stray (skipBlank s') := by
  constructor
  · intro h
    induction h with
    | eof hcall h =>
        intro s' hs'
        cases hs' with
        | here =>
            rw [← hcall] at h
            exact (accounted_iff conv _).mp h
        | next hcall' _ =>
            rw [hcall] at hcall'
            cases hcall'
    | token hcall h _ ih =>
        intro s' hs'
        cases hs' with
        | here =>
            rw [← hcall] at h
            exact (accounted_iff conv _).mp h
        | next _ h' => exact ih s' h'
  · intro h
    fun_induction lexCalls conv s with
    | case1 s l hl ih =>
        obtain ⟨t, ht⟩ := Option.isSome_iff_exists.mp hl
        refine .token ht ?_ (ih fun s' hs' => h s' (.next ht hs'))
        rw [← ht]
        exact (accounted_iff conv s).mpr (h s .here)
    | case2 s l hl =>
        have ht : (nbufLex conv s).val = none := by simpa using hl
        refine .eof ht ?_
        rw [← ht]
        exact (accounted_iff conv s).mpr (h s .here)

/-- The pieces of a text that is partitioned: all its bytes in their order, and the tokens that the
lexer returns. Whitespace and comments have no token. -/
theorem Partitioned.pieces {s : Text} (h : Partitioned conv s) :
    ∃ pieces : List (Option Token × Text), s = pieces.flatMap Prod.snd ∧
      tokens conv s = pieces.filterMap Prod.fst := by
  induction h with
  | @eof s hcall _ =>
      refine ⟨[(none, s)], by simp, ?_⟩
      simp [tokens, lexCalls_none conv hcall, hcall]
  | @token s t hcall h _ ih =>
      obtain ⟨pieces, hrest, htoks⟩ := ih
      have hcons : tokens conv s = t :: tokens conv (nbufLex conv s).rest := by
        simp [tokens, lexCalls_some conv hcall, hcall]
      rw [htoks] at hcons
      generalize (nbufLex conv s).rest = rest at h hrest
      cases h with
      | @token pre l space _ _ =>
          exact ⟨(none, pre) :: (some t, l) :: (none, space) :: pieces, by simp [← hrest], by
            simpa using hcons⟩

end

/-- `-a` and `/a b` -/
theorem not_partitioned : ¬ Partitioned (Number.token fun _ => (0, 0)) (asc "-a") ∧
    ¬ Partitioned (Number.token fun _ => (0, 0)) (asc "/a b") := by
  have hfirst : ∀ {s : Text}, Partitioned (Number.token fun _ => (0, 0)) s → ¬ Stray (skipBlank s) := by
    intro s h
    refine (accounted_iff (Number.token fun _ => (0, 0)) s).mp ?_
    cases h with
    | eof hcall h => exact hcall ▸ h
    | token hcall h _ => exact hcall ▸ h
  constructor
  · intro h
    refine hfirst h ?_
    rw [skipBlank]
    exact Or.inr ⟨rfl, by decide, fun d hd => by cases hd; rfl⟩
  · intro h
    refine hfirst h ?_
    rw [skipBlank]
    exact Or.inl rfl

end Nbuf
