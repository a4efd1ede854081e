import Nbuf.Text.Accepts
import Nbuf.Text.Lex

set_option autoImplicit false

/-! # Parsing a text

`nbuf_parse` reads its tokens one by one from the lexer, which goes on after its own errors. The
parser does not learn of them.
-/

namespace Nbuf

open Outcome

section

variable (conv : Number → Token)

/-- The messages of the lexer in the calls that a parser made which is left with `toks`, the tokens of
a text: one call for each token that it has read, and one for the token to come. -/
def lexedErrs (text : Text) (toks : List Token) : List Text :=
  ((lexCalls conv text).take ((tokens conv text).length - toks.length + 1)).flatMap Lexed.errs

variable (alloc : Nat → Realloc) (schema : Schema) (ofInt : Int → Int × Int)

/-- `nbuf_parse` on a text, with the messages of the lexer while it runs. -/
def nbufParseText (addr : Nat) (haddr : addr < 2 ^ 64) (msgType : MsgType) (text : Text) :
    Outcome (Parsed × List Text) := do
  let toks := tokens conv text
  let p := initBuilder addr haddr
  let (p, o) ← ofOption (p.create (alloc 0) 1 msgType.ssize msgType.psize)
  let (ok, s) ← parseMsg alloc schema ofInt (toks.length + 1) ⟨p, 1, toks, []⟩ 0 o msgType
  let (ok, s) := if ok = true ∧ s.toks ≠ [] then (false, s.error (asc "expecting end of file"))
    else (ok, s)
  let b ← ofOption (s.pool.serialize (alloc s.clock))
  pure (⟨ok, b, s.errs⟩, lexedErrs conv text s.toks)

end

/-! ## Calls and tokens -/

section

variable {conv : Number → Token}

theorem lexCalls_length (text : Text) :
    (lexCalls conv text).length = (tokens conv text).length + 1 := by
  unfold tokens
  fun_induction lexCalls conv text with
  | case1 text l hl ih =>
      obtain ⟨t, ht⟩ := Option.isSome_iff_exists.mp hl
      simp [ht, ih]
  | case2 text l hl =>
      have ht : l.val = none := by simpa using hl
      simp [ht]

/-- At the end of the text all calls have been made. -/
theorem lexedErrs_nil (text : Text) : lexedErrs conv text [] = lexErrs conv text := by
  unfold lexedErrs lexErrs
  rw [List.take_of_length_le]
  rw [lexCalls_length, List.length_nil, Nat.sub_zero]

variable {alloc : Nat → Realloc} {schema : Schema} {ofInt : Int → Int × Int} {addr : Nat}
  {haddr : addr < 2 ^ 64} {msgType : MsgType} {text : Text}

/-- On a text the parser does what it does on its tokens, and when it returns true it has read them
all. -/
theorem nbufParseText_eq_done {r : Parsed} {errs : List Text}
    (h : nbufParseText conv alloc schema ofInt addr haddr msgType text = done (r, errs)) :
    nbufParse alloc schema ofInt addr haddr msgType (tokens conv text) = done r ∧
      (r.ok = true → errs = lexErrs conv text) := by
  unfold nbufParseText at h
  obtain ⟨⟨p, o⟩, hcreate, h⟩ := ofOption_bind_eq_done.mp h
  obtain ⟨⟨ok, s⟩, hmsg, h⟩ := bind_eq_done.mp h
  simp only [nbufParse, hcreate, ofOption_some, done_bind, hmsg]
  simp only at h
  split_ifs at h ⊢ with hend
  all_goals
    obtain ⟨b, hb, h⟩ := ofOption_bind_eq_done.mp h
    rw [pure_eq, done.injEq, Prod.mk.injEq] at h
    obtain ⟨rfl, rfl⟩ := h
    simp only [hb, ofOption_some, done_bind, pure_eq, true_and]
    intro hok
  · cases hok
  · have hnil : s.toks = [] := by
      by_contra hne
      exact hend ⟨hok, hne⟩
    rw [hnil, lexedErrs_nil]

theorem nbufParseText_of_done {r : Parsed}
    (h : nbufParse alloc schema ofInt addr haddr msgType (tokens conv text) = done r) :
    ∃ errs, nbufParseText conv alloc schema ofInt addr haddr msgType text = done (r, errs) := by
  unfold nbufParse at h
  obtain ⟨⟨p, o⟩, hcreate, h⟩ := ofOption_bind_eq_done.mp h
  obtain ⟨⟨ok, s⟩, hmsg, h⟩ := bind_eq_done.mp h
  simp only [nbufParseText, hcreate, ofOption_some, done_bind, hmsg]
  simp only at h
  split_ifs at h ⊢
  all_goals
    obtain ⟨b, hb, h⟩ := ofOption_bind_eq_done.mp h
    rw [pure_eq, done.injEq] at h
    subst h
    simp only [hb, ofOption_some, done_bind, pure_eq]
    exact ⟨_, rfl⟩

end

/-! ## A bad escape sequence that is accepted -/

end Nbuf
