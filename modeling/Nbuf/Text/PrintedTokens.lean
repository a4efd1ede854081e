import Nbuf.Text.Lex

set_option autoImplicit false

/-! # The tokens of printed text

Names, numbers, signs and comments as the printers write them, read by the lexer: each gives its
token, whatever text comes behind it that does not continue it.
-/

namespace Nbuf

/-! ## Words -/

/-- A name that the lexer takes whole. -/
def IsIdent (s : Text) : Prop :=
  ∃ c l, s = c :: l ∧ (isalpha c = true ∨ c = 95) ∧ ∀ d ∈ l, isident d = true

instance : (s : Text) → Decidable (IsIdent s)
  | [] => isFalse fun ⟨_, _, h, _⟩ => nomatch h
  | c :: l => decidable_of_iff ((isalpha c = true ∨ c = 95) ∧ l.all isident = true) <| by
      rw [List.all_eq_true]
      constructor
      · exact fun h => ⟨c, l, rfl, h⟩
      · rintro ⟨_, _, heq, h⟩
        cases heq
        exact h

/-- A word does not go on here: neither a letter nor a digit, an underscore or a point. -/
def WordEnd (s : Text) : Prop := ∀ c ∈ s.head?, isident c = false ∧ c ≠ 46

theorem wordEnd_cons {c : UInt8} (s : Text) (h : isident c = false ∧ c ≠ 46) : WordEnd (c :: s) := by
  intro d hd
  cases hd
  exact h

theorem WordEnd.head {s : Text} (h : WordEnd s) {p : UInt8 → Bool}
    (hp : ∀ c, p c = true → isident c = true) : ∀ c ∈ s.head?, p c = false := by
  intro c hc
  have hend := (h c hc).1
  by_contra hpc
  rw [hp c (by simpa using hpc)] at hend
  cases hend

theorem span_append {p : UInt8 → Bool} {l r : Text} (hl : ∀ c ∈ l, p c = true)
    (hr : ∀ c ∈ r.head?, p c = false) : (l ++ r).takeWhile p = l ∧ (l ++ r).dropWhile p = r := by
  have hstop : r.takeWhile p = [] ∧ r.dropWhile p = r := by
    cases r with
    | nil => exact ⟨rfl, rfl⟩
    | cons c r => simp [hr c rfl]
  rw [List.takeWhile_append_of_pos hl, List.dropWhile_append_of_pos hl, hstop.1, hstop.2,
    List.append_nil]
  exact ⟨rfl, rfl⟩

theorem isident_of_digit {c : UInt8} (h : isdigit c = true) : isident c = true := by
  simp [isident, isalnum, h]

theorem isdigit_of_odigit {c : UInt8} (h : isodigit c = true) : isdigit c = true := by
  simp only [isodigit, isdigit, decide_eq_true_eq] at h ⊢
  omega

/-! ## One token -/

section

variable {conv : Number → Token}

theorem tokens_congr {s s' : Text} (h : nbufLex conv s = nbufLex conv s') :
    tokens conv s = tokens conv s' := by
  unfold tokens
  rw [lexCalls.eq_def conv s, lexCalls.eq_def conv s', h]

theorem tokens_cons {s rest : Text} {t : Token} (errs : List Text)
    (h : nbufLex conv s = ⟨some t, errs, rest⟩) : tokens conv s = t :: tokens conv rest := by
  unfold tokens
  rw [lexCalls_cons h]
  rfl

theorem tokens_nil : tokens conv [] = [] := by
  unfold tokens
  rw [lexCalls_end rfl]
  rfl

theorem tokens_skipspaces (s : Text) : tokens conv (skipspaces s) = tokens conv s :=
  tokens_congr (nbufLex_skipspaces s)

/-- **Whitespace** gives no token. -/
theorem tokens_space {c : UInt8} (hc : isspace c = true) (s : Text) :
    tokens conv (c :: s) = tokens conv s := by
  rw [← tokens_skipspaces (c :: s), skipspaces_space s hc, tokens_skipspaces]

theorem tokens_spaces {l : Text} (hl : ∀ c ∈ l, isspace c = true) (s : Text) :
    tokens conv (l ++ s) = tokens conv s := by
  induction l with
  | nil => rfl
  | cons c l ih =>
      rw [List.cons_append, tokens_space (hl c List.mem_cons_self),
        ih fun d hd => hl d (List.mem_cons_of_mem c hd)]

/-- **A comment** up to the end of its line gives no token. -/
theorem tokens_line {body : Text} (hbody : 10 ∉ body) (s : Text) :
    tokens conv (47 :: 47 :: (body ++ 10 :: s)) = tokens conv s := by
  have hskip : skipline (body ++ 10 :: s) = 10 :: s := by
    refine (span_append (fun c hc => ?_) fun c hc => ?_).2
    · exact decide_eq_true fun h => hbody (h ▸ hc)
    · cases hc
      rfl
  rw [tokens_congr (nbufLex_line _), hskip, tokens_space rfl]

/-- **A name** is one token. -/
theorem tokens_ident {name : Text} (hname : IsIdent name) {s : Text} (hs : WordEnd s) :
    tokens conv (name ++ s) = .id name :: tokens conv s := by
  obtain ⟨c, l, rfl, hc, hl⟩ := hname
  obtain ⟨htake, hdrop⟩ := span_append hl (hs.head fun _ h => h)
  have hident : ∀ {d : UInt8}, isident d = false → c ≠ d := fun hd =>
    ne_of_class (p := isident) (by rcases hc with hc | rfl <;> simp [isident, isalnum, *]) hd
  have hspace : isspace c = false := by
    rcases hc with hc | rfl
    · simp only [isalpha, decide_eq_true_eq] at hc
      exact decide_eq_false (by omega)
    · rfl
  have hdigit : ¬ isdigit c = true := by
    rcases hc with hc | rfl
    · simp only [isalpha, isdigit, decide_eq_true_eq] at hc ⊢
      omega
    · decide
  refine tokens_cons [] ?_
  rw [List.cons_append, nbufLex_token _ hspace (hident rfl) (hident rfl), lexToken,
    if_neg (hident rfl), if_neg (hident rfl), if_neg hdigit, if_pos hc]
  simp [scanident, htake, hdrop]

/-- The characters that are tokens of their own. -/
def IsSign (c : UInt8) : Prop :=
  isspace c = false ∧ isident c = false ∧ c ≠ 34 ∧ c ≠ 35 ∧ c ≠ 45 ∧ c ≠ 47

instance (c : UInt8) : Decidable (IsSign c) := inferInstanceAs (Decidable (_ ∧ _))

/-- **A sign** is one token. -/
theorem tokens_sign {c : UInt8} (hc : IsSign c) (s : Text) :
    tokens conv (c :: s) = .chr c.toNat :: tokens conv s := by
  obtain ⟨hspace, hident, hquote, hhash, hminus, hslash⟩ := hc
  rw [isident, isalnum, Bool.or_eq_false_iff, Bool.or_eq_false_iff, beq_eq_false_iff_ne] at hident
  refine tokens_cons [] ?_
  rw [nbufLex_token _ hspace hslash hhash, lexToken, if_neg hquote, if_neg hminus,
    if_neg (by simp [hident.1.2]), if_neg (by simp [hident.1.1, hident.2])]

end

/-! ## Names come from the lexer -/

theorem IsIdent.no_nul {s : Text} (h : IsIdent s) : ∀ c ∈ s, c ≠ 0 := by
  obtain ⟨c, l, rfl, hc, hl⟩ := h
  intro d hd
  rcases List.mem_cons.mp hd with rfl | hd
  · rcases hc with hc | rfl
    · exact ne_of_class hc rfl
    · decide
  · exact ne_of_class (hl d hd) rfl

/-- Behind its first character a name ends no word. -/
theorem IsIdent.ne_nil {s : Text} (h : IsIdent s) : s ≠ [] := by
  obtain ⟨c, l, rfl, -⟩ := h
  exact List.cons_ne_nil c l

/-- A call that returns a name found it in the text. -/
theorem nbufLex_id {conv : Number → Token} (hconv : ∀ n name, conv n ≠ .id name) {s name : Text}
    (h : (nbufLex conv s).val = some (.id name)) : IsIdent name := by
  fun_induction nbufLex conv s with
  | case1 s hs => cases h
  | case2 s s' hstar comment l hs ih => exact ih h
  | case3 s s' hstar hslash hs ih => exact ih h
  | case4 s s' hstar hslash hs ih => exact ih h
  | case5 s s' hs hslash ih => exact ih h
  | case6 s c s' hs hslash hhash =>
      unfold lexToken at h
      simp only at h
      split_ifs at h with hquote hminus hdigit hid
      · cases h
      · cases hd : s'.head? with
        | none =>
            rw [hd] at h
            cases h
        | some d =>
            rw [hd] at h
            simp only at h
            split_ifs at h
            · exact absurd (Option.some.inj h) (hconv _ _)
            · cases h
      · exact absurd (Option.some.inj h) (hconv _ _)
      · obtain rfl := Token.id.inj (Option.some.inj h)
        exact ⟨c, s'.takeWhile isident, rfl, hid, fun d hd => List.mem_takeWhile_imp hd⟩
      · cases h

theorem mem_lexCalls {conv : Number → Token} {s : Text} {l : Lexed (Option Token)}
    (h : l ∈ lexCalls conv s) : ∃ s', l = nbufLex conv s' := by
  fun_induction lexCalls conv s with
  | case1 s l' hsome ih =>
      rcases List.mem_cons.mp h with rfl | h
      · exact ⟨s, rfl⟩
      · exact ih h
  | case2 s l' hnone => exact ⟨s, List.mem_singleton.mp h⟩

/-- **The names among the tokens** are identifiers. -/
theorem isIdent_of_mem_tokens {strtod : Text → Int × Int} {s name : Text}
    (h : .id name ∈ tokens (Number.token strtod) s) : IsIdent name := by
  obtain ⟨l, hl, hval⟩ := List.mem_filterMap.mp h
  obtain ⟨s', rfl⟩ := mem_lexCalls hl
  refine nbufLex_id (fun n name => ?_) hval
  unfold Number.token
  split_ifs <;> exact fun h => by cases h

/-! ## Numbers -/

theorem decimal_small {n : Nat} (hn : n < 10) : decimal n = [UInt8.ofNat (48 + n)] := by
  unfold decimal
  split_ifs with h0
  · subst h0
    rfl
  · rw [Nat.digits_of_lt 10 n h0 hn]
    rfl

theorem decimal_step {n : Nat} (hn : 10 ≤ n) :
    decimal n = decimal (n / 10) ++ [UInt8.ofNat (48 + n % 10)] := by
  unfold decimal
  rw [if_neg (by omega), if_neg (by omega), Nat.digits_eq_cons_digits_div (by decide) (by omega),
    List.reverse_cons, List.map_append]
  rfl

theorem digitChr {d : Nat} (hd : d < 10) : (UInt8.ofNat (48 + d)).toNat = 48 + d := by
  rw [UInt8.toNat_ofNat']
  omega

theorem isdigit_digitChr {d : Nat} (hd : d < 10) : isdigit (UInt8.ofNat (48 + d)) = true := by
  unfold isdigit
  rw [digitChr hd]
  exact decide_eq_true (by omega)

theorem isdigit_decimal (n : Nat) : ∀ c ∈ decimal n, isdigit c = true := by
  induction n using Nat.strong_induction_on with
  | _ n ih =>
      intro c hc
      by_cases hn : n < 10
      · rw [decimal_small hn, List.mem_singleton] at hc
        exact hc ▸ isdigit_digitChr hn
      · rw [decimal_step (by omega), List.mem_append, List.mem_singleton] at hc
        rcases hc with hc | rfl
        · exact ih (n / 10) (by omega) c hc
        · exact isdigit_digitChr (by omega)

/-- A number but `0` starts with another digit. -/
theorem decimal_cons {n : Nat} (hn : n ≠ 0) : ∃ c l, decimal n = c :: l ∧ c ≠ 48 := by
  induction n using Nat.strong_induction_on with
  | _ n ih =>
      by_cases hlt : n < 10
      · refine ⟨_, _, decimal_small hlt, fun h => ?_⟩
        have := digitChr hlt
        rw [h, show (48 : UInt8).toNat = 48 from rfl] at this
        omega
      · obtain ⟨c, l, hl, hc⟩ := ih (n / 10) (by omega) (by omega)
        exact ⟨c, l ++ [UInt8.ofNat (48 + n % 10)], by rw [decimal_step (by omega), hl]; rfl, hc⟩

/-- The digits of a number in decimal have its value. -/
theorem foldl_decimal (n : Nat) : (decimal n).foldl (fun x d => x * 10 + digitVal d) 0 = n := by
  induction n using Nat.strong_induction_on with
  | _ n ih =>
      have hval : ∀ d < 10, digitVal (UInt8.ofNat (48 + d)) = d := by
        intro d hd
        unfold digitVal
        rw [digitChr hd, if_pos (by omega)]
        omega
      by_cases hn : n < 10
      · rw [decimal_small hn, List.foldl_cons, List.foldl_nil, hval n hn]
        omega
      · rw [decimal_step (by omega), List.foldl_append, ih (n / 10) (by omega), List.foldl_cons,
          List.foldl_nil, hval _ (by omega)]
        omega

/-- The digits of a decimal number are taken up to the end of the word. -/
theorem scanDigits_decimal (n : Nat) {s : Text} (hs : WordEnd s) :
    scanDigits (decimal n ++ s) = (⟨decimal n, 10, false⟩, s) := by
  by_cases hn : n = 0
  · subst hn
    cases s with
    | nil => rfl
    | cons c s =>
        have hc := (hs c rfl).1
        have hx : ¬ (c = 120 ∨ c = 88) := by
          rintro (rfl | rfl) <;> cases hc
        have ho : ¬ isodigit c = true := fun h => by
          rw [isident_of_digit (isdigit_of_odigit h)] at hc
          cases hc
        exact (if_neg hx).trans (if_neg ho)
  · obtain ⟨c, l, hl, hc⟩ := decimal_cons hn
    have hall : ∀ d ∈ l, isdigit d = true := fun d hd =>
      isdigit_decimal n d (hl ▸ List.mem_cons_of_mem c hd)
    obtain ⟨htake, hdrop⟩ := span_append hall (hs.head fun _ => isident_of_digit)
    rw [hl, List.cons_append]
    unfold scanDigits
    split
    next h => exact absurd (List.cons.inj h).1 hc
    next c' s' _ h =>
      obtain ⟨rfl, rfl⟩ := List.cons.inj h
      rw [if_neg hc, htake, hdrop]
    next h => cases h

/-- Neither a fraction nor an exponent is behind the end of a word. -/
theorem WordEnd.no_fraction {s : Text} (hs : WordEnd s) :
    scanPoint s = ([], s) ∧ scanExponent s = ([], s) := by
  cases s with
  | nil => exact ⟨rfl, rfl⟩
  | cons c s =>
      obtain ⟨hc, hpoint⟩ := hs c rfl
      refine ⟨?_, ?_⟩
      · unfold scanPoint
        split
        next h => exact absurd (List.cons.inj h).1 hpoint
        next => rfl
      · refine if_neg ?_
        rintro (rfl | rfl) <;> cases hc

/-- **The number that `scannum` finds** in a signed number in decimal. -/
theorem scanNumber_decimalInt (v : Int) {s : Text} (hs : WordEnd s) :
    scanNumber (decimalInt v ++ s) = (⟨decimalInt v, 10, false⟩, s) := by
  have hminus : scanMinus (decimalInt v ++ s)
      = (if v < 0 then [45] else [], decimal v.natAbs ++ s) := by
    unfold decimalInt
    split_ifs with hv
    · rfl
    · have habs : v.toNat = v.natAbs := by omega
      rw [habs]
      unfold scanMinus
      split
      next h =>
        have hmem : (45 : UInt8) ∈ decimal v.natAbs := by
          by_cases h0 : v.natAbs < 10
          · rw [decimal_small h0] at h ⊢
            exact List.mem_singleton.mpr (List.cons.inj h).1.symm
          · obtain ⟨c, l, hl, -⟩ := decimal_cons (show v.natAbs ≠ 0 by omega)
            rw [hl] at h ⊢
            exact (List.cons.inj h).1 ▸ List.mem_cons_self
        have := isdigit_decimal _ _ hmem
        cases this
      next => rfl
  have htext : (if v < 0 then [45] else []) ++ decimal v.natAbs = decimalInt v := by
    unfold decimalInt
    split_ifs with hv
    · rfl
    · rw [List.nil_append, show v.toNat = v.natAbs by omega]
  unfold scanNumber
  simp only [hminus, scanDigits_decimal _ hs, hs.no_fraction.1, hs.no_fraction.2]
  rw [if_pos trivial, List.append_nil, List.append_nil, htext]
  rfl

theorem decimal_head (n : Nat) : ∃ c l, decimal n = c :: l ∧ isdigit c = true := by
  cases h : decimal n with
  | nil =>
      by_cases hn : n = 0
      · subst hn
        cases h
      · obtain ⟨c, l, hl, -⟩ := decimal_cons hn
        rw [hl] at h
        cases h
  | cons c l => exact ⟨c, l, rfl, isdigit_decimal n c (h ▸ List.mem_cons_self)⟩

/-- **A signed number in decimal** is one token. -/
theorem tokens_decimalInt {conv : Number → Token} (v : Int) {s : Text} (hs : WordEnd s) :
    tokens conv (decimalInt v ++ s) = conv ⟨decimalInt v, 10, false⟩ :: tokens conv s := by
  obtain ⟨c, l, hl, hc⟩ := decimal_head v.natAbs
  have hscan := scanNumber_decimalInt v hs
  have hspace : isspace c = false := by
    simp only [isdigit, decide_eq_true_eq] at hc
    exact decide_eq_false (by omega)
  refine tokens_cons (scannum conv (decimalInt v ++ s)).errs ?_
  by_cases hv : v < 0
  · have htext : decimalInt v = 45 :: c :: l := by
      rw [decimalInt, if_pos hv, hl]
      rfl
    rw [htext, List.cons_append] at hscan
    rw [htext, List.cons_append, nbufLex_token _ rfl (by decide) (by decide)]
    simp only [List.cons_append] at hscan ⊢
    simp [lexToken, scannum, hc, hscan]
  · have htext : decimalInt v = c :: l := by
      rw [decimalInt, if_neg hv, show v.toNat = v.natAbs by omega, hl]
    have hne : ∀ {d : UInt8}, isdigit d = false → c ≠ d := fun hd => ne_of_class hc hd
    rw [htext, List.cons_append] at hscan
    rw [htext, List.cons_append, nbufLex_token _ hspace (hne rfl) (hne rfl), lexToken,
      if_neg (hne rfl), if_neg (hne rfl), if_pos hc]
    simp [scannum, hscan]

/-- **The number that the token holds**: `strtoll` and `strtoull` do not stop at the ends of their
ranges here. -/
theorem token_decimalInt (strtod : Text → Int × Int) {v : Int} (hmin : -2 ^ 63 ≤ v)
    (hmax : v < 2 ^ 64) :
    Number.token strtod ⟨decimalInt v, 10, false⟩ = .int (v.bmod (2 ^ 64)) := by
  obtain ⟨c, l, hl, hc⟩ := decimal_head v.natAbs
  have hmag : ∀ {n : Number}, n.digits = decimal v.natAbs → n.base = 10 → n.magnitude = v.natAbs := by
    intro n hdigits hbase
    unfold Number.magnitude
    rw [hdigits, hbase]
    exact foldl_decimal _
  by_cases hv : v < 0
  · have htext : decimalInt v = 45 :: decimal v.natAbs := by
      rw [decimalInt, if_pos hv]
      rfl
    have hneg : (⟨decimalInt v, 10, false⟩ : Number).neg = true := by
      unfold Number.neg
      rw [htext]
      rfl
    have hm := hmag (by rw [Number.digits, hneg, htext]; rfl) rfl
    unfold Number.token
    rw [if_neg (by simp), if_pos hneg, hm, Int.bmod_eq_of_le (by omega) (by omega)]
    congr 1
    omega
  · have htext : decimalInt v = decimal v.natAbs := by
      rw [decimalInt, if_neg hv, show v.toNat = v.natAbs by omega]
    have hneg : (⟨decimalInt v, 10, false⟩ : Number).neg = false := by
      unfold Number.neg
      rw [htext, hl]
      simpa using ne_of_class hc (by decide)
    have hm := hmag (by rw [Number.digits, hneg, htext]; rfl) rfl
    unfold Number.token
    rw [if_neg (by simp), if_neg (by simp [hneg]), hm,
      show ((min v.natAbs (2 ^ 64 - 1) : Nat) : Int) = v by omega]

end Nbuf
