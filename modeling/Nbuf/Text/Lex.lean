import Nbuf.Text.Parse
import Nbuf.Text.Print

set_option autoImplicit false

/-! # The lexer (`lib/token.c`)

`nbuf_lex` reads one token from a file. The file is the list of the bytes that are still to be read,
so that `getc` takes its head and `ungetc` puts it back; `EOF` is the empty list. A scanner returns
its token, the messages of `l->error` and the bytes it leaves. Memory is granted, and the line
numbers, which only the default `error` prints, are left out.
-/

namespace Nbuf

/-! ## Characters in the C locale -/

def isspace (c : UInt8) : Bool := decide (c.toNat = 32 ∨ 9 ≤ c.toNat ∧ c.toNat ≤ 13)

def isdigit (c : UInt8) : Bool := decide (48 ≤ c.toNat ∧ c.toNat ≤ 57)

def isodigit (c : UInt8) : Bool := decide (48 ≤ c.toNat ∧ c.toNat ≤ 55)

def isxdigit (c : UInt8) : Bool :=
  isdigit c || decide (65 ≤ c.toNat ∧ c.toNat ≤ 70 ∨ 97 ≤ c.toNat ∧ c.toNat ≤ 102)

def isalpha (c : UInt8) : Bool :=
  decide (65 ≤ c.toNat ∧ c.toNat ≤ 90 ∨ 97 ≤ c.toNat ∧ c.toNat ≤ 122)

def isalnum (c : UInt8) : Bool := isalpha c || isdigit c

theorem ne_of_class {p : UInt8 → Bool} {c d : UInt8} (hc : p c = true) (hd : p d = false) : c ≠ d := by
  rintro rfl
  rw [hc] at hd
  cases hd

/-- What a scanner returns, with the messages of `l->error` and the bytes that are left. -/
structure Lexed (α : Type) where
  val : α
  errs : List Text
  rest : Text

/-! ## Whitespace and comments -/

/-- `skipspaces`: the character that it returns is the head of the rest. -/
def skipspaces (s : Text) : Text := s.dropWhile isspace

/-- `skipline`: the newline is left. -/
def skipline (s : Text) : Text := s.dropWhile (· ≠ 10)

/-- `skiplong` -/
def skiplong : Text → Lexed Unit
  | [] => ⟨(), [asc "comment is not closed at EOF"], []⟩
  | c :: s => if c = 42 ∧ s.head? = some 47 then ⟨(), [], s.tail⟩ else skiplong s

/-! ## Numbers -/

/-- The text of a number in the buffer of `scannum`, with its base and whether it has a fraction or an
exponent. -/
structure Number where
  buf : Text
  base : Nat
  flt : Bool

/-- A minus sign, or nothing. -/
def scanMinus : Text → Text × Text
  | 45 :: s => ([45], s)
  | s => ([], s)

/-- The digits of an integer and their base. A single `0` is decimal. -/
def scanDigits : Text → Number × Text
  | 48 :: c :: s =>
      if c = 120 ∨ c = 88 then (⟨48 :: c :: s.takeWhile isxdigit, 16, false⟩, s.dropWhile isxdigit)
      else if isodigit c then (⟨48 :: c :: s.takeWhile isodigit, 8, false⟩, s.dropWhile isodigit)
      else (⟨[48], 10, false⟩, c :: s)
  | c :: s =>
      if c = 48 then (⟨[48], 10, false⟩, s)
      else (⟨c :: s.takeWhile isdigit, 10, false⟩, s.dropWhile isdigit)
  | [] => (⟨[], 10, false⟩, [])

/-- A point and digits, or nothing. -/
def scanPoint : Text → Text × Text
  | 46 :: s => (46 :: s.takeWhile isdigit, s.dropWhile isdigit)
  | s => ([], s)

/-- The sign of an exponent, or nothing. -/
def scanSign : Text → Text × Text
  | c :: s => if c = 43 ∨ c = 45 then ([c], s) else ([], c :: s)
  | [] => ([], [])

/-- An exponent, or nothing. -/
def scanExponent : Text → Text × Text
  | c :: s =>
      if c = 101 ∨ c = 69 then
        let (sign, s) := scanSign s
        (c :: sign ++ s.takeWhile isdigit, s.dropWhile isdigit)
      else ([], c :: s)
  | [] => ([], [])

/-- The characters that `scannum` takes. -/
def scanNumber (s : Text) : Number × Text :=
  let (minus, s) := scanMinus s
  let (n, s) := scanDigits s
  if n.base = 10 then
    let (point, s) := scanPoint s
    let (exponent, s) := scanExponent s
    (⟨minus ++ n.buf ++ point ++ exponent, 10, decide (point ++ exponent ≠ [])⟩, s)
  else (⟨minus ++ n.buf, n.base, false⟩, s)

/-- The value of a digit. -/
def digitVal (c : UInt8) : Nat :=
  if c.toNat ≤ 57 then c.toNat - 48 else if c.toNat ≤ 70 then c.toNat - 55 else c.toNat - 87

namespace Number

variable (n : Number)

/-- `buf.base[0] == '-'` -/
def neg : Bool := n.buf.head? == some 45

/-- The digits, behind the sign and `0x`. -/
def digits : Text := n.buf.drop ((if n.neg then 1 else 0) + if n.base = 16 then 2 else 0)

/-- The number without its sign. -/
def magnitude : Nat := n.digits.foldl (fun x d => x * n.base + digitVal d) 0

end Number

/-- The token of a number. `strtod` gives the bits of the `double`, as a `float` and as such. `strtoll`
and `strtoull` stop at the ends of their ranges, and the `uint64_t` is read as an `int64_t`. -/
def Number.token (strtod : Text → Int × Int) (n : Number) : Token :=
  if n.flt then .flt (strtod n.buf).1 (strtod n.buf).2
  else if n.neg then .int (-(min n.magnitude (2 ^ 63) : Nat))
  else .int (((min n.magnitude (2 ^ 64 - 1) : Nat) : Int).bmod (2 ^ 64))

theorem scanMinus_append (s : Text) : (scanMinus s).1 ++ (scanMinus s).2 = s := by
  unfold scanMinus
  split <;> rfl

theorem scanDigits_append (s : Text) : (scanDigits s).1.buf ++ (scanDigits s).2 = s := by
  unfold scanDigits
  split
  next c s =>
    split_ifs
    all_goals simp [List.takeWhile_append_dropWhile]
  next c s =>
    split_ifs with hc
    · simp [hc]
    · simp [List.takeWhile_append_dropWhile]
  next => rfl

theorem scanPoint_append (s : Text) : (scanPoint s).1 ++ (scanPoint s).2 = s := by
  unfold scanPoint
  split
  · simp [List.takeWhile_append_dropWhile]
  · rfl

theorem scanSign_append (s : Text) : (scanSign s).1 ++ (scanSign s).2 = s := by
  unfold scanSign
  split
  · split_ifs <;> rfl
  · rfl

theorem scanExponent_append (s : Text) : (scanExponent s).1 ++ (scanExponent s).2 = s := by
  unfold scanExponent
  split
  next c s =>
    split_ifs
    · simp [List.takeWhile_append_dropWhile, scanSign_append]
    · rfl
  next => rfl

/-- A number and what comes behind it are the text that is scanned. -/
theorem scanNumber_append (s : Text) : (scanNumber s).1.buf ++ (scanNumber s).2 = s := by
  unfold scanNumber
  simp only
  split_ifs
  all_goals simp [scanExponent_append, scanPoint_append, scanDigits_append, scanMinus_append]

/-! ## Scanners -/

/-- `scannum` on the minus sign or the first digit. The number is converted by `conv`. -/
def scannum (conv : Number → Token) (s : Text) : Lexed Token :=
  let (n, rest) := scanNumber s
  { val := conv n
    errs := (rest.head?.filter isalnum).toList.map fun c =>
      asc "malformed number: " ++ n.buf ++ [c]
    rest := rest }

/-- The characters of an identifier, behind the first. -/
def isident (c : UInt8) : Bool := isalnum c || c == 95

/-- `scanident` on the first character -/
def scanident (s : Text) : Lexed Token where
  val := .id (s.take 1 ++ s.tail.takeWhile isident)
  errs := []
  rest := s.tail.dropWhile isident

/-- The escape sequences of one letter. -/
def escapeChar (c : UInt8) : Option UInt8 :=
  if c = 97 then some 7
  else if c = 98 then some 8
  else if c = 102 then some 12
  else if c = 110 then some 10
  else if c = 114 then some 13
  else if c = 116 then some 9
  else if c = 118 then some 11
  else if c = 92 ∨ c = 39 ∨ c = 34 then some c
  else none

/-- `x = x * base + (ch - '0')` for each digit, stored as a byte. -/
def escapeVal (base : Nat) (ds : Text) : UInt8 :=
  UInt8.ofNat (ds.foldl (fun x d => x * base + (d.toNat - 48)) 0)

/-- The digits of an escape sequence, at most two behind `x` and at most three otherwise, with their
value and what comes behind them. -/
def escapeDigits (s : Text) : Text × UInt8 × Text :=
  let hex := s.head? = some 120
  let s := if hex then s.tail else s
  let ds := if hex then (s.takeWhile isxdigit).take 2 else (s.takeWhile isodigit).take 3
  (ds, escapeVal (if hex then 16 else 8) ds, s.drop ds.length)

/-- An escape sequence behind its backslash: the character it stands for. Without digits it is the
next one, which is left as well; the `EOF` is stored as `255`. -/
def scanEscape (s : Text) : Lexed UInt8 :=
  match s.head?.bind escapeChar with
  | some b => ⟨b, [], s.tail⟩
  | none =>
      let (ds, x, rest) := escapeDigits s
      if ds = [] then ⟨rest.head?.getD 255, [asc "bad escape sequence"], rest⟩ else ⟨x, [], rest⟩

theorem skipspaces_suffix (s : Text) : skipspaces s <:+ s := List.dropWhile_suffix _

theorem escapeDigits_suffix (s : Text) : (escapeDigits s).2.2 <:+ s := by
  unfold escapeDigits
  refine (List.drop_suffix _ _).trans ?_
  split_ifs
  · exact List.tail_suffix s
  · exact List.suffix_refl s

theorem scanEscape_suffix (s : Text) : (scanEscape s).rest <:+ s := by
  unfold scanEscape
  split
  · exact List.tail_suffix s
  · simp only
    split_ifs <;> exact escapeDigits_suffix s

/-- `scanstr` behind the opening quote. Behind the closing quote and whitespace, another quote goes
on with the string. -/
def scanstr (delim : UInt8) (s : Text) : Lexed Text :=
  match s with
  | [] => ⟨[], [asc "string is not closed at EOF"], []⟩
  | c :: s =>
      if c = delim then
        if (skipspaces s).head? = some delim then scanstr delim (skipspaces s).tail
        else ⟨[], [], skipspaces s⟩
      else if c = 92 then
        let e := scanEscape s
        let l := scanstr delim e.rest
        ⟨e.val :: l.val, e.errs ++ l.errs, l.rest⟩
      else
        let l := scanstr delim s
        ⟨c :: l.val, (if c = 10 then [asc "newline within string literal"] else []) ++ l.errs,
          l.rest⟩
termination_by s.length
decreasing_by
  · have := ((List.tail_suffix _).trans (skipspaces_suffix s)).length_le
    rw [List.length_cons]
    omega
  · have := (scanEscape_suffix s).length_le
    rw [List.length_cons]
    omega
  · exact Nat.lt_succ_self _

/-! ## The lexer -/

theorem skipline_suffix (s : Text) : skipline s <:+ s := List.dropWhile_suffix _

theorem skiplong_suffix (s : Text) : (skiplong s).rest <:+ s := by
  induction s with
  | nil => exact List.suffix_refl _
  | cons c s ih =>
      unfold skiplong
      split_ifs
      · exact (List.tail_suffix s).trans (List.suffix_cons c s)
      · exact ih.trans (List.suffix_cons c s)

/-- The token that starts with the character `c`, which starts no comment. A minus sign in front of no
digit is dropped, and the character behind it is returned but left. -/
def lexToken (conv : Number → Token) (c : UInt8) (s : Text) : Lexed (Option Token) :=
  let some' := fun l : Lexed Token => { l with val := some l.val }
  if c = 34 then
    let l := scanstr c s
    ⟨some (.str l.val), l.errs, l.rest⟩
  else if c = 45 then
    match s.head? with
    | none => ⟨none, [], []⟩
    | some d =>
        if isdigit d then some' (scannum conv (c :: s)) else ⟨some (.chr d.toNat), [], s⟩
  else if isdigit c then some' (scannum conv (c :: s))
  else if isalpha c ∨ c = 95 then some' (scanident (c :: s))
  else ⟨some (.chr c.toNat), [], s⟩

/-- `nbuf_lex`. A `/` that starts no comment is dropped with the character behind it. -/
def nbufLex (conv : Number → Token) (s : Text) : Lexed (Option Token) :=
  match _h : skipspaces s with
  | [] => ⟨none, [], []⟩
  | c :: s' =>
      if c = 47 then
        if s'.head? = some 42 then
          let comment := skiplong s'.tail
          let l := nbufLex conv comment.rest
          { l with errs := comment.errs ++ l.errs }
        else if s'.head? = some 47 then nbufLex conv (skipline s'.tail)
        else nbufLex conv s'.tail
      else if c = 35 then nbufLex conv (skipline s')
      else lexToken conv c s'
termination_by s.length
decreasing_by
  all_goals
    have hs : s'.length < s.length := by
      have := (skipspaces_suffix s).length_le
      rw [_h, List.length_cons] at this
      omega
    refine lt_of_le_of_lt ?_ hs
  · exact ((skiplong_suffix _).trans (List.tail_suffix s')).length_le
  · exact ((skipline_suffix _).trans (List.tail_suffix s')).length_le
  · exact (List.tail_suffix s').length_le
  · exact (skipline_suffix _).length_le

/-! ## One call of the lexer -/

theorem skipspaces_space {c : UInt8} (s : Text) (h : isspace c = true) :
    skipspaces (c :: s) = skipspaces s := List.dropWhile_cons_of_pos h

theorem skipspaces_cons {c : UInt8} (s : Text) (h : isspace c = false) :
    skipspaces (c :: s) = c :: s := List.dropWhile_cons_of_neg (by simp [h])

/-- Behind the whitespace there is none. -/
theorem isspace_of_skipspaces {c : UInt8} {s s' : Text} (h : skipspaces s = c :: s') :
    isspace c = false := by
  have hhead := List.head?_dropWhile_not isspace s
  rw [← skipspaces, h] at hhead
  simpa using hhead

section

variable {conv : Number → Token}

/-- A minus sign in front of a character that is no digit. -/
theorem lexToken_minus {d : UInt8} (hd : isdigit d = false) (s : Text) :
    lexToken conv 45 (d :: s) = ⟨some (.chr d.toNat), [], d :: s⟩ := by
  simp [lexToken, hd]

theorem nbufLex_nil {s : Text} (h : skipspaces s = []) : nbufLex conv s = ⟨none, [], []⟩ := by
  rw [nbufLex]
  split
  next => rfl
  next c s' h' => simp [h] at h'

/-- A call, behind the whitespace. -/
theorem nbufLex_cons {c : UInt8} {s s' : Text} (h : skipspaces s = c :: s') :
    nbufLex conv s =
      if c = 47 then
        if s'.head? = some 42 then
          let comment := skiplong s'.tail
          let l := nbufLex conv comment.rest
          { l with errs := comment.errs ++ l.errs }
        else if s'.head? = some 47 then nbufLex conv (skipline s'.tail)
        else nbufLex conv s'.tail
      else if c = 35 then nbufLex conv (skipline s')
      else lexToken conv c s' := by
  rw [nbufLex]
  split
  next h' => simp [h] at h'
  next c' s'' h' =>
    rw [h, List.cons.injEq] at h'
    obtain ⟨rfl, rfl⟩ := h'
    rfl

/-- Whitespace in front makes no difference. -/
theorem nbufLex_skipspaces (s : Text) : nbufLex conv (skipspaces s) = nbufLex conv s := by
  cases h : skipspaces s with
  | nil => rw [nbufLex_nil h, nbufLex_nil rfl]
  | cons c s' =>
      rw [nbufLex_cons h, nbufLex_cons (skipspaces_cons s' (isspace_of_skipspaces h))]

theorem nbufLex_block (s : Text) : nbufLex conv (47 :: 42 :: s)
    = { nbufLex conv (skiplong s).rest with
        errs := (skiplong s).errs ++ (nbufLex conv (skiplong s).rest).errs } :=
  nbufLex_cons (skipspaces_cons (42 :: s) (by decide))

theorem nbufLex_line (s : Text) : nbufLex conv (47 :: 47 :: s) = nbufLex conv (skipline s) :=
  nbufLex_cons (skipspaces_cons (47 :: s) (by decide))

theorem nbufLex_hash (s : Text) : nbufLex conv (35 :: s) = nbufLex conv (skipline s) :=
  nbufLex_cons (skipspaces_cons s (by decide))

/-- A `/` that starts no comment. -/
theorem nbufLex_slash {s : Text} (hstar : s.head? ≠ some 42) (hslash : s.head? ≠ some 47) :
    nbufLex conv (47 :: s) = nbufLex conv s.tail := by
  rw [nbufLex_cons (skipspaces_cons s (by decide)), if_pos rfl, if_neg hstar, if_neg hslash]

theorem nbufLex_token {c : UInt8} (s : Text) (hspace : isspace c = false) (hslash : c ≠ 47)
    (hhash : c ≠ 35) : nbufLex conv (c :: s) = lexToken conv c s := by
  rw [nbufLex_cons (skipspaces_cons s hspace), if_neg hslash, if_neg hhash]

end

/-! ## What a call leaves -/

theorem suffix_of_append {l rest s : Text} {c : UInt8} (h : l ++ rest = c :: s) (hl : l ≠ []) :
    rest <:+ s := by
  obtain ⟨d, l, rfl⟩ := List.exists_cons_of_ne_nil hl
  rw [List.cons_append, List.cons.injEq] at h
  exact ⟨l, h.2⟩

theorem scanDigits_ne_nil (c : UInt8) (s : Text) : (scanDigits (c :: s)).1.buf ≠ [] := by
  unfold scanDigits
  split
  next => split_ifs <;> exact List.cons_ne_nil _ _
  next => split_ifs <;> exact List.cons_ne_nil _ _
  next h => cases h

/-- A number takes at least one character. -/
theorem scanNumber_suffix (c : UInt8) (s : Text) : (scanNumber (c :: s)).2 <:+ s := by
  refine suffix_of_append (scanNumber_append (c :: s)) ?_
  have hdigits : (scanMinus (c :: s)).1 ++ (scanDigits (scanMinus (c :: s)).2).1.buf ≠ [] := by
    unfold scanMinus
    split
    next => exact List.cons_ne_nil _ _
    next => exact scanDigits_ne_nil c s
  unfold scanNumber
  simp only
  split_ifs
  · simpa [and_assoc] using fun h h' => absurd h' (by simpa [h] using hdigits)
  · exact hdigits

theorem scanstr_suffix (delim : UInt8) (s : Text) : (scanstr delim s).rest <:+ s := by
  fun_induction scanstr delim s with
  | case1 => exact List.suffix_refl _
  | case2 s hnext ih =>
      exact ih.trans ((List.tail_suffix _).trans ((skipspaces_suffix s).trans (List.suffix_cons _ s)))
  | case3 s hnext => exact (skipspaces_suffix s).trans (List.suffix_cons _ s)
  | case4 s hc e l ih => exact ih.trans ((scanEscape_suffix s).trans (List.suffix_cons _ s))
  | case5 c s hc hb l ih => exact ih.trans (List.suffix_cons c s)

section

variable {conv : Number → Token}

theorem lexToken_suffix (c : UInt8) (s : Text) : (lexToken conv c s).rest <:+ s := by
  unfold lexToken
  simp only
  split_ifs
  · exact scanstr_suffix c s
  · cases s.head? with
    | none => exact List.nil_suffix
    | some d =>
        simp only
        split_ifs
        · exact scanNumber_suffix c s
        · exact List.suffix_refl s
  · exact scanNumber_suffix c s
  · exact List.dropWhile_suffix _
  · exact List.suffix_refl s

/-- What is left is a suffix, and a token is not empty. -/
theorem nbufLex_rest (s : Text) :
    (nbufLex conv s).rest <:+ s ∧
      ((nbufLex conv s).val.isSome → (nbufLex conv s).rest.length < s.length) := by
  -- behind the first character that is no whitespace, something shorter is read
  have hstep : ∀ {s s' r : Text} {c : UInt8} {l : Lexed (Option Token)}, skipspaces s = c :: s' →
      r <:+ s' → (l.rest <:+ r) → l.rest <:+ s ∧ (l.val.isSome → l.rest.length < s.length) := by
    intro s s' r c l hs hr hl
    have hsuf : c :: s' <:+ s := hs ▸ skipspaces_suffix s
    have hlt : s'.length < s.length := hsuf.length_le
    exact ⟨(hl.trans hr).trans ((List.suffix_cons c s').trans hsuf), fun _ =>
      lt_of_le_of_lt (hl.trans hr).length_le hlt⟩
  fun_induction nbufLex conv s with
  | case1 s h => exact ⟨List.nil_suffix, fun h' => by cases h'⟩
  | case2 s s' hstar comment l h ih =>
      exact hstep h ((skiplong_suffix _).trans (List.tail_suffix s')) ih.1
  | case3 s s' hstar hslash h ih =>
      exact hstep h ((skipline_suffix _).trans (List.tail_suffix s')) ih.1
  | case4 s s' hstar hslash h ih => exact hstep h (List.tail_suffix s') ih.1
  | case5 s s' h hslash ih => exact hstep h (skipline_suffix s') ih.1
  | case6 s c s' h hslash hhash => exact hstep h (List.suffix_refl s') (lexToken_suffix c s')

variable (conv)

/-! ## The calls -/

/-- The calls of `nbuf_lex` until the end of the file. -/
def lexCalls (s : Text) : List (Lexed (Option Token)) :=
  let l := nbufLex conv s
  if _h : l.val.isSome then l :: lexCalls l.rest else [l]
termination_by s.length
decreasing_by exact (nbufLex_rest s).2 _h

/-- The tokens of a text. -/
def tokens (s : Text) : List Token := (lexCalls conv s).filterMap Lexed.val

/-- The messages of the lexer while a text is read to its end. -/
def lexErrs (s : Text) : List Text := (lexCalls conv s).flatMap Lexed.errs

theorem lexCalls_none {s : Text} (h : (nbufLex conv s).val = none) :
    lexCalls conv s = [nbufLex conv s] := by
  rw [lexCalls]
  simp [h]

theorem lexCalls_some {s : Text} {t : Token} (h : (nbufLex conv s).val = some t) :
    lexCalls conv s = nbufLex conv s :: lexCalls conv (nbufLex conv s).rest := by
  rw [lexCalls]
  simp [h]

variable {conv}

theorem lexCalls_cons {s rest : Text} {t : Token} {errs : List Text}
    (h : nbufLex conv s = ⟨some t, errs, rest⟩) :
    lexCalls conv s = ⟨some t, errs, rest⟩ :: lexCalls conv rest := by
  rw [lexCalls_some conv (show (nbufLex conv s).val = some t by rw [h]), h]

theorem lexCalls_end {s : Text} (h : skipspaces s = []) : lexCalls conv s = [⟨none, [], []⟩] := by
  have hcall : nbufLex conv s = ⟨none, [], []⟩ := nbufLex_nil h
  rw [lexCalls_none conv (by rw [hcall]), hcall]

end

end Nbuf
