import Nbuf.Text.Lex

set_option autoImplicit false

/-! # String literals

`dumpstr` writes a string as a literal, and the lexer reads it again. A backslash is printable, so
`dumpstr` leaves it as it is, and the hexadecimal digits `a` to `f` are read as if they came right
behind the decimal ones.
-/

namespace Nbuf

/-- Without a backslash the literal is read byte by byte: what comes back for each. -/
def reread (c : UInt8) : UInt8 :=
  if isprint c then c else escapeVal 16 [hexDigit (c.toNat / 16), hexDigit (c.toNat % 16)]

/-- The byte is no backslash, and it is printable or has two decimal digits in hexadecimal. -/
def Legible (c : UInt8) : Prop :=
  c ≠ 92 ∧ (isprint c = true ∨ c.toNat / 16 < 10 ∧ c.toNat % 16 < 10)

instance : DecidablePred Legible := fun _ => inferInstanceAs (Decidable (_ ∧ _))

/-- The literal of `s` is read as `s`, whatever comes behind it, and no error is reported. -/
def RoundTrips (conv : Number → Token) (s : Text) : Prop :=
  ∀ t : Text, (skipspaces t).head? ≠ some 34 →
    nbufLex conv (dumpstr s ++ t) = ⟨some (.str s), [], skipspaces t⟩

/-! ## Bytes -/

theorem hexDigit_toNat {d : Nat} (h : d < 16) :
    (hexDigit d).toNat = if d < 10 then 48 + d else 87 + d := by
  unfold hexDigit
  rw [UInt8.toNat_ofNat']
  split_ifs <;> omega

theorem isxdigit_hexDigit {d : Nat} (h : d < 16) : isxdigit (hexDigit d) = true := by
  simp only [isxdigit, isdigit, hexDigit_toNat h, Bool.or_eq_true, decide_eq_true_eq]
  split_ifs <;> omega

/-- The byte `\xhh` stands for: a digit from `a` on counts 39 too much. -/
theorem escapeVal_hex {d e : Nat} (hd : d < 16) (he : e < 16) :
    (escapeVal 16 [hexDigit d, hexDigit e]).toNat =
      ((d + if d < 10 then 0 else 39) * 16 + (e + if e < 10 then 0 else 39)) % 256 := by
  rw [escapeVal, UInt8.toNat_ofNat']
  simp only [List.foldl_cons, List.foldl_nil, hexDigit_toNat hd, hexDigit_toNat he]
  congr 1
  split_ifs <;> omega

theorem reread_eq_iff (c : UInt8) :
    reread c = c ↔ isprint c = true ∨ c.toNat / 16 < 10 ∧ c.toNat % 16 < 10 := by
  unfold reread
  split_ifs with hprint
  · simp [hprint]
  · have hlt := UInt8.toNat_lt c
    rw [Bool.not_eq_true] at hprint
    rw [← UInt8.toNat_inj, escapeVal_hex (by omega) (Nat.mod_lt _ (by decide))]
    simp only [hprint, Bool.false_eq_true, false_or]
    split_ifs <;> omega

theorem map_reread_eq_iff {s : Text} : s.map reread = s ↔
    ∀ c ∈ s, isprint c = true ∨ c.toNat / 16 < 10 ∧ c.toNat % 16 < 10 := by
  calc s.map reread = s ↔ s.map reread = s.map id := by rw [List.map_id]
    _ ↔ ∀ c ∈ s, reread c = c := List.map_inj_left
    _ ↔ _ := forall₂_congr fun c _ => reread_eq_iff c

/-! ## Scanning -/

theorem scanstr_chr {c : UInt8} (hquote : c ≠ 34) (hslash : c ≠ 92) (hline : c ≠ 10) (s : Text) :
    scanstr 34 (c :: s) = ⟨c :: (scanstr 34 s).val, (scanstr 34 s).errs, (scanstr 34 s).rest⟩ := by
  rw [scanstr, if_neg hquote, if_neg hslash, if_neg hline]
  rfl

theorem scanstr_slash (s : Text) : scanstr 34 (92 :: s)
    = ⟨(scanEscape s).val :: (scanstr 34 (scanEscape s).rest).val,
        (scanEscape s).errs ++ (scanstr 34 (scanEscape s).rest).errs,
        (scanstr 34 (scanEscape s).rest).rest⟩ := by
  rw [scanstr, if_neg (by decide), if_pos rfl]

/-- A quote that closes the string. -/
theorem scanstr_close {t : Text} (h : (skipspaces t).head? ≠ some 34) :
    scanstr 34 (34 :: t) = ⟨[], [], skipspaces t⟩ := by
  rw [scanstr, if_pos rfl, if_neg h]

/-- A quote with another one behind it. -/
theorem scanstr_again {t r : Text} (h : skipspaces t = 34 :: r) :
    scanstr 34 (34 :: t) = scanstr 34 r := by
  rw [scanstr, if_pos rfl, if_pos (by rw [h]; rfl), h, List.tail_cons]

theorem scanEscape_chr {c b : UInt8} (h : escapeChar c = some b) (s : Text) :
    scanEscape (c :: s) = ⟨b, [], s⟩ := by
  simp [scanEscape, h]

/-- `\\xhh` -/
theorem scanEscape_hex {d e : UInt8} (hd : isxdigit d = true) (he : isxdigit e = true) (s : Text) :
    scanEscape (120 :: d :: e :: s) = ⟨escapeVal 16 [d, e], [], s⟩ := by
  have hx : escapeChar 120 = none := rfl
  simp [scanEscape, hx, escapeDigits, hd, he]

theorem dumpchr_print {c : UInt8} (hquote : c ≠ 34) (hprint : isprint c = true) : dumpchr c = [c] := by
  rw [dumpchr, if_neg hquote, if_pos hprint]

theorem dumpchr_hex {c : UInt8} (hprint : isprint c = false) :
    dumpchr c = [92, 120, hexDigit (c.toNat / 16), hexDigit (c.toNat % 16)] := by
  have hquote : c ≠ 34 := by
    rintro rfl
    exact absurd hprint (by decide)
  rw [dumpchr, if_neg hquote, hprint]
  rfl

/-- A byte that is no backslash is read on its own. -/
theorem scanstr_dumpchr {c : UInt8} (hc : c ≠ 92) (t : Text) : scanstr 34 (dumpchr c ++ t)
    = ⟨reread c :: (scanstr 34 t).val, (scanstr 34 t).errs, (scanstr 34 t).rest⟩ := by
  by_cases hquote : c = 34
  · subst hquote
    rw [show dumpchr 34 = [92, 34] from rfl, List.cons_append, List.singleton_append, scanstr_slash,
      scanEscape_chr (show escapeChar 34 = some 34 from rfl)]
    rfl
  · cases hprint : isprint c with
    | true =>
        have hline : c ≠ 10 := by
          rintro rfl
          exact absurd hprint (by decide)
        rw [dumpchr_print hquote hprint, List.singleton_append, scanstr_chr hquote hc hline, reread,
          if_pos hprint]
    | false =>
        have hlt := UInt8.toNat_lt c
        rw [dumpchr_hex hprint]
        simp only [List.cons_append, List.nil_append]
        rw [scanstr_slash, scanEscape_hex (isxdigit_hexDigit (by omega))
          (isxdigit_hexDigit (Nat.mod_lt _ (by decide))), reread, hprint]
        rfl

/-- A good escape sequence that is no single letter has digits. -/
theorem scanEscape_digits {s : Text} (h : s.head?.bind escapeChar = none)
    (herr : (scanEscape s).errs = []) :
    (escapeDigits s).1 ≠ [] ∧ (scanEscape s).rest = (escapeDigits s).2.2 := by
  unfold scanEscape at herr ⊢
  rw [h] at herr ⊢
  simp only at herr ⊢
  split_ifs at herr ⊢ with hds
  exact ⟨hds, rfl⟩

/-- **A literal without a backslash** is read byte by byte. -/
theorem scanstr_dump {s t : Text} (hs : 92 ∉ s) (ht : (skipspaces t).head? ≠ some 34) :
    scanstr 34 (s.flatMap dumpchr ++ 34 :: t) = ⟨s.map reread, [], skipspaces t⟩ := by
  induction s with
  | nil => exact scanstr_close ht
  | cons c s ih =>
      rw [List.flatMap_cons, List.append_assoc, scanstr_dumpchr fun h => hs (h ▸ List.mem_cons_self),
        ih fun h => hs (List.mem_cons_of_mem c h), List.map_cons]

/-! ## Backslashes

A literal with a backslash is never read as the string it was written for. Weigh the bytes of a
string: where the lexer reads the text up to its end without an error, the string weighs no more than
the one that was written, and less if it has a backslash. -/

/-- A backslash and a byte that is not printable weigh as much as four others. -/
def weight (c : UInt8) : Nat := if c = 92 ∨ isprint c = false then 4 else 1

/-- What a string weighs. -/
def weighs (s : Text) : Nat := (s.map weight).sum

@[simp] theorem weighs_cons (c : UInt8) (s : Text) : weighs (c :: s) = weight c + weighs s := rfl

theorem weight_pos (c : UInt8) : 1 ≤ weight c := by
  unfold weight
  split_ifs <;> omega

theorem weight_le (c : UInt8) : weight c ≤ 4 := by
  unfold weight
  split_ifs <;> omega

theorem weighs_drop (n : Nat) (s : Text) : weighs (s.drop n) ≤ weighs s := by
  have h : weighs (s.take n) + weighs (s.drop n) = weighs s := by
    unfold weighs
    rw [← List.sum_append, ← List.map_append, List.take_append_drop]
  omega

/-- A byte that is read on its own comes back no heavier. -/
theorem weight_reread (c : UInt8) : weight (reread c) ≤ weight c := by
  cases hprint : isprint c with
  | true => rw [(reread_eq_iff c).mpr (Or.inl hprint)]
  | false =>
      rw [show weight c = 4 by simp [weight, hprint]]
      exact weight_le _

/-- The text of a literal behind its opening quote. -/
def inner (s : Text) : Text := s.flatMap dumpchr ++ [34]

@[simp] theorem inner_cons (c : UInt8) (s : Text) : inner (c :: s) = dumpchr c ++ inner s := by
  simp [inner]

/-- Behind whitespace there is the last quote or something else than a quote. -/
theorem skipspaces_inner (s : Text) :
    skipspaces (inner s) = [34] ∨
      (skipspaces (inner s)).head? ≠ some 34 ∧ skipspaces (inner s) ≠ [] := by
  induction s with
  | nil => exact Or.inl rfl
  | cons c s ih =>
      rw [inner_cons]
      by_cases hquote : c = 34
      · subst hquote
        refine Or.inr ?_
        rw [show dumpchr 34 = [92, 34] from rfl, List.cons_append, skipspaces_cons _ (by decide)]
        simp
      · cases hprint : isprint c with
        | true =>
            rw [dumpchr_print hquote hprint, List.singleton_append]
            cases hspace : isspace c with
            | true => rwa [skipspaces_space _ hspace]
            | false =>
                rw [skipspaces_cons _ hspace]
                simp [hquote]
        | false =>
            refine Or.inr ?_
            rw [dumpchr_hex hprint, List.cons_append, skipspaces_cons _ (by decide)]
            simp

/-- Characters of a class that `dumpstr` leaves as they are. -/
theorem takeWhile_inner {p : UInt8 → Bool} (hp : ∀ c, p c = true → dumpchr c = [c])
    (hslash : p 92 = false) (hquote : p 34 = false) (s : Text) :
    (inner s).takeWhile p = s.takeWhile p ∧
      ∀ n, n ≤ (s.takeWhile p).length → (inner s).drop n = inner (s.drop n) := by
  induction s with
  | nil =>
      refine ⟨by simp [inner, hquote], fun n hn => ?_⟩
      obtain rfl := Nat.le_zero.mp hn
      rfl
  | cons c s ih =>
      cases hc : p c with
      | true =>
          rw [inner_cons, hp c hc, List.singleton_append, List.takeWhile_cons_of_pos hc,
            List.takeWhile_cons_of_pos hc, ih.1]
          refine ⟨rfl, fun n hn => ?_⟩
          cases n with
          | zero => rw [List.drop_zero, List.drop_zero, inner_cons, hp c hc, List.singleton_append]
          | succ n => exact ih.2 n (by simpa using hn)
      | false =>
          rw [List.takeWhile_cons_of_neg (by simp [hc])]
          constructor
          · rw [inner_cons]
            by_cases hq : c = 34
            · subst hq
              rw [show dumpchr 34 = [92, 34] from rfl]
              exact List.takeWhile_cons_of_neg (by simp [hslash])
            · cases hprint : isprint c with
              | true =>
                  rw [dumpchr_print hq hprint]
                  exact List.takeWhile_cons_of_neg (by simp [hc])
              | false =>
                  rw [dumpchr_hex hprint]
                  exact List.takeWhile_cons_of_neg (by simp [hslash])
          · intro n hn
            obtain rfl := Nat.le_zero.mp hn
            rfl

theorem dumpchr_xdigit (c : UInt8) (h : isxdigit c = true) : dumpchr c = [c] := by
  simp only [isxdigit, isdigit, Bool.or_eq_true, decide_eq_true_eq] at h
  refine dumpchr_print ?_ (decide_eq_true (by omega))
  rintro rfl
  simp at h

theorem dumpchr_odigit (c : UInt8) (h : isodigit c = true) : dumpchr c = [c] := by
  refine dumpchr_xdigit c ?_
  simp only [isxdigit, isdigit, isodigit, Bool.or_eq_true, decide_eq_true_eq] at h ⊢
  omega

/-- The digits of an escape sequence that a backslash of the string makes of what comes behind it. -/
theorem escapeDigits_inner {c : UInt8} (hc : dumpchr c = [c]) (s : Text) :
    ∃ n, (escapeDigits (inner (c :: s))).2.2 = inner ((c :: s).drop n) ∧
      ((escapeDigits (inner (c :: s))).1 ≠ [] → 1 ≤ n) := by
  obtain ⟨hxtake, hxdrop⟩ := takeWhile_inner dumpchr_xdigit (by decide) (by decide) s
  obtain ⟨hotake, hodrop⟩ := takeWhile_inner dumpchr_odigit (by decide) (by decide) (c :: s)
  have hhead : (inner (c :: s)).head? = some c := by rw [inner_cons, hc]; rfl
  have htail : (inner (c :: s)).tail = inner s := by rw [inner_cons, hc]; rfl
  unfold escapeDigits
  simp only [hhead, htail, Option.some.injEq]
  split_ifs with hx
  · refine ⟨((s.takeWhile isxdigit).take 2).length + 1, ?_, fun _ => Nat.le_add_left 1 _⟩
    rw [hxtake, hxdrop _ (List.length_take_le' _ _), List.drop_succ_cons]
  · refine ⟨(((c :: s).takeWhile isodigit).take 3).length, ?_, fun h => ?_⟩
    · rw [hotake, hodrop _ (List.length_take_le' _ _)]
    · rw [hotake] at h
      exact List.length_pos_of_ne_nil h

/-- The literal of `s` is read to its end and without an error. -/
def ReadsWell (t : Text) : Prop := (scanstr 34 t).errs = [] ∧ (scanstr 34 t).rest = []

theorem ReadsWell.escape {t : Text} (h : ReadsWell (92 :: t)) :
    (scanEscape t).errs = [] ∧ ReadsWell (scanEscape t).rest ∧
      (scanstr 34 (92 :: t)).val = (scanEscape t).val :: (scanstr 34 (scanEscape t).rest).val := by
  unfold ReadsWell at h
  rw [scanstr_slash] at h ⊢
  obtain ⟨herr, hrest⟩ := h
  obtain ⟨herr, herr'⟩ := List.append_eq_nil_iff.mp herr
  exact ⟨herr, ⟨herr', hrest⟩, rfl⟩

/-- After an early end of the string something is left. -/
theorem not_readsWell_close (s : Text) : ¬ ReadsWell (34 :: inner s) := by
  rintro ⟨herr, hrest⟩
  rcases skipspaces_inner s with h | ⟨h, hne⟩
  · -- the last quote opens the string again
    rw [scanstr_again h, scanstr] at herr
    cases herr
  · rw [scanstr_close h] at hrest
    exact hne hrest

theorem not_readsWell_nil : ¬ ReadsWell [] := by
  rintro ⟨herr, -⟩
  rw [scanstr] at herr
  cases herr

/-- A character that is read as itself. -/
theorem ReadsWell.chr {c : UInt8} {t : Text} (hquote : c ≠ 34) (hslash : c ≠ 92) (hline : c ≠ 10)
    (h : ReadsWell (c :: t)) :
    ReadsWell t ∧ (scanstr 34 (c :: t)).val = c :: (scanstr 34 t).val := by
  unfold ReadsWell at h ⊢
  rw [scanstr_chr hquote hslash hline] at h ⊢
  exact ⟨h, rfl⟩

/-- A backslash in front of a byte that is not printable. -/
theorem weighs_backslash_hex {c : UInt8} {t : Text} (hprint : isprint c = false)
    (h : ReadsWell (92 :: (dumpchr c ++ t))) : ReadsWell t ∧
      weighs (scanstr 34 (92 :: (dumpchr c ++ t))).val = 7 + weighs (scanstr 34 t).val := by
  have hlt := UInt8.toNat_lt c
  have hplain : ∀ {d : UInt8} {t : Text}, d ≠ 10 → isprint d = true → d ≠ 34 → d ≠ 92 →
      ReadsWell (d :: t) → ReadsWell t ∧
      weighs (scanstr 34 (d :: t)).val = 1 + weighs (scanstr 34 t).val := by
    intro d t hline hprint hquote hslash hwell
    obtain ⟨hwell', hval⟩ := hwell.chr hquote hslash hline
    rw [hval, weighs_cons, show weight d = 1 by simp [weight, hslash, hprint]]
    exact ⟨hwell', rfl⟩
  have hdigit : ∀ {d : Nat}, d < 16 → hexDigit d ≠ 10 ∧ isprint (hexDigit d) = true ∧
      hexDigit d ≠ 34 ∧ hexDigit d ≠ 92 := by
    intro d hd
    have hclass := isxdigit_hexDigit hd
    refine ⟨ne_of_class hclass (by decide), ?_, ne_of_class hclass (by decide),
      ne_of_class hclass (by decide)⟩
    rw [isprint, decide_eq_true_eq, hexDigit_toNat hd]
    split_ifs <;> omega
  obtain ⟨h1, h2, h3, h4⟩ := hdigit (show c.toNat / 16 < 16 by omega)
  obtain ⟨h1', h2', h3', h4'⟩ := hdigit (Nat.mod_lt c.toNat (show 0 < 16 by decide))
  rw [dumpchr_hex hprint] at h ⊢
  obtain ⟨-, hwell, hval⟩ := h.escape
  have hwell : ReadsWell (120 :: hexDigit (c.toNat / 16) :: hexDigit (c.toNat % 16) :: t) := hwell
  obtain ⟨hwell, hx⟩ := hplain (by decide) (by decide) (by decide) (by decide) hwell
  obtain ⟨hwell, hhi⟩ := hplain h1 h2 h3 h4 hwell
  obtain ⟨hwell, hlo⟩ := hplain h1' h2' h3' h4' hwell
  refine ⟨hwell, ?_⟩
  calc weighs (scanstr 34 (92 :: 92 :: 120 :: hexDigit (c.toNat / 16) :: hexDigit (c.toNat % 16) :: t)).val
      = 4 + weighs (scanstr 34 (120 :: hexDigit (c.toNat / 16) :: hexDigit (c.toNat % 16) :: t)).val :=
        congrArg weighs hval
    _ = 7 + weighs (scanstr 34 t).val := by omega

/-- A backslash in front of another character. -/
theorem weighs_backslash_print {c : UInt8} {s : Text} (hquote : c ≠ 34)
    (hprint : isprint c = true) (h : ReadsWell (92 :: inner (c :: s))) :
    ∃ b n, 1 ≤ n ∧ ReadsWell (inner ((c :: s).drop n)) ∧
      (scanstr 34 (92 :: inner (c :: s))).val = b :: (scanstr 34 (inner ((c :: s).drop n))).val := by
  obtain ⟨herr, hwell, hval⟩ := h.escape
  have hdump := dumpchr_print hquote hprint
  cases he : escapeChar c with
  | some b =>
      have hesc : scanEscape (inner (c :: s)) = ⟨b, [], inner s⟩ := by
        rw [inner_cons, hdump]
        exact scanEscape_chr he (inner s)
      rw [hesc] at hwell hval
      exact ⟨b, 1, le_refl 1, hwell, hval⟩
  | none =>
      have hhead : (inner (c :: s)).head?.bind escapeChar = none := by
        rw [inner_cons, hdump]
        exact he
      obtain ⟨n, hrest, hn⟩ := escapeDigits_inner hdump s
      obtain ⟨hds, hrest'⟩ := scanEscape_digits hhead herr
      rw [hrest', hrest] at hwell hval
      exact ⟨_, n, hn hds, hwell, hval⟩

/-- A backslash of the string, with an upper bound for what comes back of a shorter one. -/
theorem weighs_backslash {s : Text} (ih : ∀ s' : Text, s'.length ≤ s.length → ReadsWell (inner s') →
    weighs (scanstr 34 (inner s')).val ≤ weighs s') (h : ReadsWell (inner (92 :: s))) :
    weighs (scanstr 34 (inner (92 :: s))).val + 1 ≤ weighs (92 :: s) := by
  have hinner : inner (92 :: s) = 92 :: inner s := by
    rw [inner_cons]
    rfl
  rw [hinner] at h ⊢
  obtain ⟨herr, hwell, hval⟩ := h.escape
  rw [weighs_cons, show weight 92 = 4 from rfl]
  cases s with
  | nil =>
      rw [show inner [] = [34] from rfl, scanEscape_chr (show escapeChar 34 = some 34 from rfl)]
        at hwell
      exact absurd hwell not_readsWell_nil
  | cons c s =>
      by_cases hslash : c = 92
      · -- two backslashes are read as one
        subst hslash
        have hesc : scanEscape (inner (92 :: s)) = ⟨92, [], inner s⟩ := by
          rw [inner_cons]
          exact scanEscape_chr (show escapeChar 92 = some 92 from rfl) (inner s)
        simp only [hesc] at hwell hval
        have hle : weighs (scanstr 34 (inner s)).val ≤ weighs s := ih s (Nat.le_succ _) hwell
        rw [hval, weighs_cons, weighs_cons, show weight 92 = 4 from rfl]
        omega
      by_cases hquote : c = 34
      · -- two backslashes, and then the quote ends the string
        subst hquote
        have hesc : scanEscape (inner (34 :: s)) = ⟨92, [], 34 :: inner s⟩ := by
          rw [inner_cons]
          exact scanEscape_chr (show escapeChar 92 = some 92 from rfl) (34 :: inner s)
        rw [hesc] at hwell
        exact absurd hwell (not_readsWell_close s)
      cases hprint : isprint c with
      | false =>
          rw [inner_cons] at h
          obtain ⟨hwell', hweighs⟩ := weighs_backslash_hex hprint h
          have hle := ih s (Nat.le_succ _) hwell'
          rw [inner_cons, hweighs, weighs_cons, show weight c = 4 by simp [weight, hprint]]
          omega
      | true =>
          obtain ⟨b, n, hn, hwell', hval'⟩ := weighs_backslash_print hquote hprint h
          have hle := ih _ (List.drop_suffix n (c :: s)).length_le hwell'
          have hdrop : weighs ((c :: s).drop n) ≤ weighs s := by
            obtain ⟨n, rfl⟩ := Nat.exists_eq_succ_of_ne_zero (Nat.one_le_iff_ne_zero.mp hn)
            exact weighs_drop n s
          have hb := weight_le b
          have hc := weight_pos c
          rw [hval', weighs_cons, weighs_cons]
          omega

/-- **Reading a literal loses weight** at a backslash. -/
theorem scanstr_inner_weighs (s : Text) (h : ReadsWell (inner s)) :
    weighs (scanstr 34 (inner s)).val + (if 92 ∈ s then 1 else 0) ≤ weighs s := by
  induction hn : s.length using Nat.strong_induction_on generalizing s with
  | _ n ih =>
      cases s with
      | nil =>
          rw [show inner [] = [34] from rfl, scanstr_close (by simp [skipspaces])]
          rfl
      | cons c s =>
          have hle : ∀ s' : Text, s'.length ≤ s.length → ReadsWell (inner s') →
              weighs (scanstr 34 (inner s')).val ≤ weighs s' := fun s' hlen hwell =>
            (Nat.le_add_right _ _).trans
              (ih s'.length (by rw [← hn, List.length_cons]; omega) s' hwell rfl)
          by_cases hc : c = 92
          · subst hc
            rw [if_pos List.mem_cons_self]
            exact weighs_backslash hle h
          · have hstep := scanstr_dumpchr hc (inner s)
            rw [inner_cons] at h ⊢
            unfold ReadsWell at h
            rw [hstep] at h ⊢
            have hih := ih s.length (by rw [← hn]; exact Nat.lt_succ_self _) s h rfl
            have hw := weight_reread c
            have hmem : 92 ∈ c :: s ↔ 92 ∈ s := by simp [Ne.symm hc]
            simp only [weighs_cons, hmem]
            omega

/-! ## The round trip -/

theorem nbufLex_dumpstr (conv : Number → Token) (s t : Text) :
    nbufLex conv (dumpstr s ++ t) = ⟨some (.str (scanstr 34 (s.flatMap dumpchr ++ 34 :: t)).val),
      (scanstr 34 (s.flatMap dumpchr ++ 34 :: t)).errs,
      (scanstr 34 (s.flatMap dumpchr ++ 34 :: t)).rest⟩ := by
  have hdump : dumpstr s ++ t = 34 :: (s.flatMap dumpchr ++ 34 :: t) := by
    simp [dumpstr, show asc "\"" = [34] from rfl]
  rw [hdump, nbufLex_token _ (by decide) (by decide) (by decide), lexToken, if_pos rfl]

/-- **Which strings come back** from their literals: exactly those without backslashes whose bytes are
printable or have two decimal digits in hexadecimal. -/
theorem roundTrips_iff (conv : Number → Token) (s : Text) :
    RoundTrips conv s ↔ ∀ c ∈ s, Legible c := by
  constructor
  · intro h
    have hend := h [] (by simp [skipspaces])
    rw [nbufLex_dumpstr, Lexed.mk.injEq, Option.some.injEq, Token.str.injEq] at hend
    obtain ⟨hval, herr, hrest⟩ := hend
    have hslash : 92 ∉ s := by
      intro hmem
      have hlt := scanstr_inner_weighs s ⟨herr, hrest⟩
      rw [if_pos hmem, inner, hval] at hlt
      omega
    rw [scanstr_dump hslash (by simp [skipspaces])] at hval
    rw [map_reread_eq_iff] at hval
    exact fun c hc => ⟨fun h => hslash (h ▸ hc), hval c hc⟩
  · intro h t ht
    have hslash : 92 ∉ s := fun hmem => (h 92 hmem).1 rfl
    rw [nbufLex_dumpstr, scanstr_dump hslash ht, map_reread_eq_iff.mpr fun c hc => (h c hc).2]

/-- A backslash at the end of a string makes the last quote a character, and the byte `0xab` is read
as `0x42`. -/
theorem not_roundTrips (conv : Number → Token) :
    nbufLex conv (dumpstr (asc "a\\")) =
      ⟨some (.str (asc "a\"")), [asc "string is not closed at EOF"], []⟩ ∧
    nbufLex conv (dumpstr [171]) = ⟨some (.str [66]), [], []⟩ := by
  constructor
  · have h := nbufLex_dumpstr conv (asc "a\\") []
    rw [List.append_nil] at h
    rw [h, show (asc "a\\").flatMap dumpchr ++ [34] = [97, 92, 34] from rfl,
      scanstr_chr (by decide) (by decide) (by decide), scanstr_slash,
      scanEscape_chr (show escapeChar 34 = some 34 from rfl), scanstr]
    rfl
  · have h := nbufLex_dumpstr conv [171] []
    rw [List.append_nil, scanstr_dump (by decide) (by decide)] at h
    exact h

/-- The string `a\` does not come back from its literal. -/
theorem backslash_lost : ¬ ∀ s, RoundTrips (Number.token fun _ => (0, 0)) s := by
  intro h
  have hlit := h (asc "a\\") [] (by decide)
  rw [List.append_nil, (not_roundTrips _).1, Lexed.mk.injEq] at hlit
  exact absurd hlit.2.1 (by simp)

end Nbuf
