import Nbuf.Text.Grammar

set_option autoImplicit false

/-! # Readings

What the parser does, without the builder: it reads the tokens and fills in a document. `readMsg`
computes it, and `Reads` says the same case by case.
-/

namespace Nbuf

/-! ## Drafts -/

/-- What a token is taken for: a value, an error, or something the parser does not come back from. -/
inductive Taken where
  | value (x : Val)
  | refused
  | stuck

/-- What a field makes of the next token. -/
def taken (schema : Schema) (ofInt : Int → Int × Int) (f : FieldDesc) (t : Option Token) : Taken :=
  match f.kind, t with
  | .bool, some (.int v) => .value (.bit (decide (v ≠ 0)))
  | .bool, some (.id s) =>
      if cstr s = asc "true" then .value (.bit true)
      else if cstr s = asc "false" then .value (.bit false)
      else .refused
  | .bool, _ => .refused
  | .enum, some (.int v) => .value (.num (v % 2 ^ 32).toNat)
  | .enum, some (.id s) =>
      let v := enumValue (schema.enumType f.tag1) s
      if v = 2 ^ 32 - 1 then .refused else .value (.num v)
  | .enum, _ => .stuck
  | .int, some (.int v) | .uint, some (.int v) => .value (.num v)
  | .int, _ | .uint, _ => .refused
  | .float, some (.int v) => .value (.num (floatBits (ofInt v) f.tag1))
  | .float, some (.flt single double) => .value (.num (floatBits (single, double) f.tag1))
  | .float, _ => .refused
  | .str, some (.str s) | .str, some (.id s) => .value (.str s)
  | .str, _ => .stuck
  | .ptr, _ => .stuck

/-- A value is put into a field that was made ready. -/
def Doc.putVal (d : Doc) (m : Nat) (f : FieldDesc) : Val → Doc
  | .num v => d.putNum m f (toU64 v)
  | .bit v => d.putBit m f v
  | .str s => d.putStr m f s
  | .msg _ => d

/-- The document in which a text is filled in, and what the text gives to each of its messages. -/
structure Draft where
  doc : Doc
  given : List Given

namespace Draft

variable (schema : Schema) (D : Draft)

/-- A message to which nothing is given. -/
def start (type : Nat) : Draft := ⟨Doc.start schema type, [Given.blank type]⟩

/-- A field is made ready. A submessage is given at once, a value when it is put. -/
def ready (m : Nat) (f : FieldDesc) : Draft where
  doc := D.doc.ready schema m f
  given :=
    if f.kind = .ptr then
      (D.given.modify m fun G => G.give f (.msg D.given.length)) ++ [Given.blank f.tag1]
    else D.given

/-- A value is put. -/
def put (m : Nat) (f : FieldDesc) (x : Val) : Draft where
  doc := D.doc.putVal m f x
  given := D.given.modify m fun G => G.give f x

/-- The field is a submessage that is there already. -/
def Twice (m : Nat) (f : FieldDesc) : Prop :=
  f.kind = .ptr ∧ f.list = false ∧ D.doc.items m f ≠ []

instance (m : Nat) (f : FieldDesc) : Decidable (D.Twice m f) :=
  inferInstanceAs (Decidable (f.kind = .ptr ∧ f.list = false ∧ D.doc.items m f ≠ []))

theorem not_twice {D : Draft} {m : Nat} {f : FieldDesc} (hk : f.kind ≠ .ptr) : ¬ D.Twice m f :=
  fun h => hk h.1

end Draft

/-! ## Readings -/

/-- The tokens behind the character `c`, which has to come next. -/
def expect (c : Nat) (toks : List Token) : Option (List Token) :=
  if toks.head? = some (.chr c) then some toks.tail else none

/-- The tokens behind a colon, or all of them. -/
def colon (toks : List Token) : List Token := (expect 58 toks).getD toks

/-- The tokens behind `,` or `;`, or all of them. -/
def separator (toks : List Token) : List Token :=
  if toks.head? = some (.chr 44) ∨ toks.head? = some (.chr 59) then toks.tail else toks

section

variable (schema : Schema) (ofInt : Int → Int × Int)

/-- Message `m`, of type `type`, is read from some tokens: the parser returns a verdict, or none when
it does not come back, and leaves the draft and the rest of the tokens. -/
def readMsg : Nat → Nat → Nat → Draft → List Token → Option (Option Bool × Draft × List Token)
  | 0, _, _, _, _ => none
  | fuel + 1, m, type, D, toks =>
      match toks with
      | .id name :: rest =>
          match findField (schema.msgType type) name with
          | none => some (some true, D, .id name :: rest)
          | some f =>
              if D.Twice m f then some (some true, D, .id name :: rest)
              else if f.kind = .ptr then
                match expect 123 (colon rest) with
                | none => some (some false, D.ready schema m f, colon rest)
                | some inner => do
                    let (v, D', rest) ← readMsg fuel D.doc.msgs.length f.tag1 (D.ready schema m f) inner
                    if v = some true then
                      match expect 125 rest with
                      | none => some (some false, D', rest)
                      | some rest => readMsg fuel m type D' (separator rest)
                    else some (v, D', rest)
              else
                match expect 58 rest with
                | none => some (some false, D.ready schema m f, rest)
                | some due =>
                    match taken schema ofInt f due.head? with
                    | .value x =>
                        readMsg fuel m type ((D.ready schema m f).put m f x) (separator due.tail)
                    | .refused => some (some false, D.ready schema m f, due)
                    | .stuck => some (none, D.ready schema m f, due)
      | _ => some (some true, D, toks)

/-- **A reading**, case by case. -/
inductive Reads : Nat → Nat → Draft → List Token → Option Bool → Draft → List Token → Prop
  | stop {m type : Nat} {D : Draft} {toks : List Token} (h : ∀ name rest, toks ≠ .id name :: rest) :
      Reads m type D toks (some true) D toks
  | unknown {m type : Nat} {D : Draft} {name : Text} {rest : List Token}
      (hf : findField (schema.msgType type) name = none) :
      Reads m type D (.id name :: rest) (some true) D (.id name :: rest)
  | twice {m type : Nat} {D : Draft} {name : Text} {rest : List Token} {f : FieldDesc}
      (hf : findField (schema.msgType type) name = some f) (h : D.Twice m f) :
      Reads m type D (.id name :: rest) (some true) D (.id name :: rest)
  | noColon {m type : Nat} {D : Draft} {name : Text} {rest : List Token} {f : FieldDesc}
      (hf : findField (schema.msgType type) name = some f) (hk : f.kind ≠ .ptr)
      (h : expect 58 rest = none) :
      Reads m type D (.id name :: rest) (some false) (D.ready schema m f) rest
  | refused {m type : Nat} {D : Draft} {name : Text} {rest due : List Token} {f : FieldDesc}
      (hf : findField (schema.msgType type) name = some f) (hk : f.kind ≠ .ptr)
      (h : expect 58 rest = some due) (ht : taken schema ofInt f due.head? = .refused) :
      Reads m type D (.id name :: rest) (some false) (D.ready schema m f) due
  | stuck {m type : Nat} {D : Draft} {name : Text} {rest due : List Token} {f : FieldDesc}
      (hf : findField (schema.msgType type) name = some f) (hk : f.kind ≠ .ptr)
      (h : expect 58 rest = some due) (ht : taken schema ofInt f due.head? = .stuck) :
      Reads m type D (.id name :: rest) none (D.ready schema m f) due
  | value {m type : Nat} {D D' : Draft} {name : Text} {rest due rest' : List Token} {f : FieldDesc}
      {x : Val} {v : Option Bool} (hf : findField (schema.msgType type) name = some f)
      (hk : f.kind ≠ .ptr) (h : expect 58 rest = some due)
      (ht : taken schema ofInt f due.head? = .value x)
      (hrest : Reads m type ((D.ready schema m f).put m f x) (separator due.tail) v D' rest') :
      Reads m type D (.id name :: rest) v D' rest'
  | noOpen {m type : Nat} {D : Draft} {name : Text} {rest : List Token} {f : FieldDesc}
      (hf : findField (schema.msgType type) name = some f) (hk : f.kind = .ptr) (hnew : ¬ D.Twice m f)
      (h : expect 123 (colon rest) = none) :
      Reads m type D (.id name :: rest) (some false) (D.ready schema m f) (colon rest)
  | inner {m type : Nat} {D D' : Draft} {name : Text} {rest body rest' : List Token} {f : FieldDesc}
      {v : Option Bool} (hf : findField (schema.msgType type) name = some f) (hk : f.kind = .ptr)
      (hnew : ¬ D.Twice m f) (h : expect 123 (colon rest) = some body)
      (hin : Reads D.doc.msgs.length f.tag1 (D.ready schema m f) body v D' rest')
      (hv : v ≠ some true) : Reads m type D (.id name :: rest) v D' rest'
  | noClose {m type : Nat} {D D' : Draft} {name : Text} {rest body rest' : List Token}
      {f : FieldDesc} (hf : findField (schema.msgType type) name = some f) (hk : f.kind = .ptr)
      (hnew : ¬ D.Twice m f) (h : expect 123 (colon rest) = some body)
      (hin : Reads D.doc.msgs.length f.tag1 (D.ready schema m f) body (some true) D' rest')
      (hclose : expect 125 rest' = none) :
      Reads m type D (.id name :: rest) (some false) D' rest'
  | sub {m type : Nat} {D D' D'' : Draft} {name : Text} {rest body rest1 rest2 rest' : List Token}
      {f : FieldDesc} {v : Option Bool} (hf : findField (schema.msgType type) name = some f)
      (hk : f.kind = .ptr) (hnew : ¬ D.Twice m f) (h : expect 123 (colon rest) = some body)
      (hin : Reads D.doc.msgs.length f.tag1 (D.ready schema m f) body (some true) D' rest1)
      (hclose : expect 125 rest1 = some rest2)
      (hrest : Reads m type D' (separator rest2) v D'' rest') :
      Reads m type D (.id name :: rest) v D'' rest'

end

/-! ## Tokens that are left -/

section

variable {schema : Schema} {ofInt : Int → Int × Int} {m type : Nat} {D D' : Draft}
  {toks rest : List Token} {v : Option Bool}

theorem expect_eq_some {c : Nat} {toks rest : List Token} (h : expect c toks = some rest) :
    toks = .chr c :: rest := by
  unfold expect at h
  split_ifs at h with hc
  cases toks with
  | nil => cases hc
  | cons t l =>
      rw [List.head?_cons, Option.some.injEq] at hc
      rw [List.tail_cons, Option.some.injEq] at h
      rw [hc, h]

theorem expect_cons (c : Nat) (toks : List Token) : expect c (.chr c :: toks) = some toks := by
  unfold expect
  rw [if_pos (by rfl)]
  rfl

theorem colon_suffix (toks : List Token) : colon toks <:+ toks := by
  unfold colon
  cases h : expect 58 toks with
  | none => exact List.suffix_refl _
  | some rest =>
      rw [expect_eq_some h]
      exact List.suffix_cons _ _

theorem separator_suffix (toks : List Token) : separator toks <:+ toks := by
  unfold separator
  split_ifs
  · exact List.tail_suffix _
  · exact List.suffix_refl _

theorem expect_suffix {c : Nat} {toks rest : List Token} (h : expect c toks = some rest) :
    rest <:+ toks := by
  rw [expect_eq_some h]
  exact List.suffix_cons _ _

theorem body_suffix {rest body : List Token} (h : expect 123 (colon rest) = some body) :
    body <:+ rest := (expect_suffix h).trans (colon_suffix rest)

theorem value_suffix {rest due : List Token} (h : expect 58 rest = some due) :
    separator due.tail <:+ rest :=
  (separator_suffix _).trans ((List.tail_suffix _).trans (expect_suffix h))

theorem close_suffix {rest rest' : List Token} (h : expect 125 rest = some rest') :
    separator rest' <:+ rest := (separator_suffix _).trans (expect_suffix h)

/-- What a reading leaves is a suffix of its tokens. -/
theorem Reads.suffix (h : Reads schema ofInt m type D toks v D' rest) : rest <:+ toks := by
  induction h with
  | stop | unknown | twice => exact List.suffix_refl _
  | noColon => exact List.suffix_cons _ _
  | refused _ _ h | stuck _ _ h => exact (expect_suffix h).trans (List.suffix_cons _ _)
  | value _ _ h _ _ ih => exact ih.trans ((value_suffix h).trans (List.suffix_cons _ _))
  | noOpen => exact (colon_suffix _).trans (List.suffix_cons _ _)
  | inner _ _ _ h _ _ ih | noClose _ _ _ h _ _ ih =>
      exact ih.trans ((body_suffix h).trans (List.suffix_cons _ _))
  | sub _ _ _ h _ hclose _ ih ih' =>
      exact ih'.trans ((close_suffix hclose).trans (ih.trans ((body_suffix h).trans
        (List.suffix_cons _ _))))

/-! ## The function and the relation -/

/-- What the function computes is a reading. -/
theorem readMsg_sound {fuel : Nat} {r : Option Bool × Draft × List Token}
    (h : readMsg schema ofInt fuel m type D toks = some r) :
    Reads schema ofInt m type D toks r.1 r.2.1 r.2.2 := by
  induction fuel generalizing m type D toks r with
  | zero => cases h
  | succ fuel ih =>
      unfold readMsg at h
      split at h
      next name rest =>
        cases hf : findField (schema.msgType type) name with
        | none =>
            simp only [hf, Option.some.injEq] at h
            exact h ▸ .unknown hf
        | some f =>
            simp only [hf] at h
            split_ifs at h with htwice hk
            · rw [Option.some.injEq] at h
              exact h ▸ .twice hf htwice
            · cases hopen : expect 123 (colon rest) with
              | none =>
                  simp only [hopen, Option.some.injEq] at h
                  exact h ▸ .noOpen hf hk htwice hopen
              | some body =>
                  simp only [hopen, Option.bind_eq_bind, Option.bind_eq_some_iff] at h
                  obtain ⟨⟨v, D', rest1⟩, hin, h⟩ := h
                  have hin' := ih hin
                  simp only at h hin'
                  split_ifs at h with hv
                  · subst hv
                    cases hclose : expect 125 rest1 with
                    | none =>
                        simp only [hclose, Option.some.injEq] at h
                        exact h ▸ .noClose hf hk htwice hopen hin' hclose
                    | some rest2 =>
                        simp only [hclose] at h
                        exact .sub hf hk htwice hopen hin' hclose (ih h)
                  · rw [Option.some.injEq] at h
                    exact h ▸ .inner hf hk htwice hopen hin' hv
            · cases hcolon : expect 58 rest with
              | none =>
                  simp only [hcolon, Option.some.injEq] at h
                  exact h ▸ .noColon hf hk hcolon
              | some due =>
                  simp only [hcolon] at h
                  cases ht : taken schema ofInt f due.head? with
                  | value x =>
                      simp only [ht] at h
                      exact .value hf hk hcolon ht (ih h)
                  | refused =>
                      simp only [ht, Option.some.injEq] at h
                      exact h ▸ .refused hf hk hcolon ht
                  | stuck =>
                      simp only [ht, Option.some.injEq] at h
                      exact h ▸ .stuck hf hk hcolon ht
      next hne =>
        rw [Option.some.injEq] at h
        exact h ▸ .stop hne

/-- The function computes every reading. -/
theorem Reads.readMsg_eq (h : Reads schema ofInt m type D toks v D' rest) :
    ∀ fuel, toks.length < fuel → readMsg schema ofInt fuel m type D toks = some (v, D', rest) := by
  induction h with
  | stop h =>
      intro fuel hfuel
      obtain ⟨fuel, rfl⟩ := Nat.exists_eq_succ_of_ne_zero (Nat.ne_zero_of_lt hfuel)
      unfold readMsg
      split
      next name rest => exact absurd rfl (h name rest)
      next => rfl
  | unknown hf =>
      intro fuel hfuel
      obtain ⟨fuel, rfl⟩ := Nat.exists_eq_succ_of_ne_zero (Nat.ne_zero_of_lt hfuel)
      simp only [readMsg, hf]
  | twice hf h =>
      intro fuel hfuel
      obtain ⟨fuel, rfl⟩ := Nat.exists_eq_succ_of_ne_zero (Nat.ne_zero_of_lt hfuel)
      simp only [readMsg, hf, if_pos h]
  | noColon hf hk h =>
      intro fuel hfuel
      obtain ⟨fuel, rfl⟩ := Nat.exists_eq_succ_of_ne_zero (Nat.ne_zero_of_lt hfuel)
      simp only [readMsg, hf, if_neg (Draft.not_twice hk), if_neg hk, h]
  | refused hf hk h ht =>
      intro fuel hfuel
      obtain ⟨fuel, rfl⟩ := Nat.exists_eq_succ_of_ne_zero (Nat.ne_zero_of_lt hfuel)
      simp only [readMsg, hf, if_neg (Draft.not_twice hk), if_neg hk, h, ht]
  | stuck hf hk h ht =>
      intro fuel hfuel
      obtain ⟨fuel, rfl⟩ := Nat.exists_eq_succ_of_ne_zero (Nat.ne_zero_of_lt hfuel)
      simp only [readMsg, hf, if_neg (Draft.not_twice hk), if_neg hk, h, ht]
  | value hf hk h ht _ ih =>
      intro fuel hfuel
      obtain ⟨fuel, rfl⟩ := Nat.exists_eq_succ_of_ne_zero (Nat.ne_zero_of_lt hfuel)
      have hlen := (value_suffix h).length_le
      rw [List.length_cons] at hfuel
      simp only [readMsg, hf, if_neg (Draft.not_twice hk), if_neg hk, h, ht]
      exact ih fuel (by omega)
  | noOpen hf hk hnew h =>
      intro fuel hfuel
      obtain ⟨fuel, rfl⟩ := Nat.exists_eq_succ_of_ne_zero (Nat.ne_zero_of_lt hfuel)
      simp only [readMsg, hf, if_neg hnew, if_pos hk, h]
  | inner hf hk hnew h _ hv ih =>
      intro fuel hfuel
      obtain ⟨fuel, rfl⟩ := Nat.exists_eq_succ_of_ne_zero (Nat.ne_zero_of_lt hfuel)
      have hbody := (body_suffix h).length_le
      rw [List.length_cons] at hfuel
      simp only [readMsg, hf, if_neg hnew, if_pos hk, h, ih fuel (by omega), Option.bind_eq_bind,
        Option.bind_some, if_neg hv]
  | noClose hf hk hnew h _ hclose ih =>
      intro fuel hfuel
      obtain ⟨fuel, rfl⟩ := Nat.exists_eq_succ_of_ne_zero (Nat.ne_zero_of_lt hfuel)
      have hbody := (body_suffix h).length_le
      rw [List.length_cons] at hfuel
      simp only [readMsg, hf, if_neg hnew, if_pos hk, h, ih fuel (by omega), Option.bind_eq_bind,
        Option.bind_some, if_true, hclose]
  | sub hf hk hnew h hin hclose _ ih ih' =>
      intro fuel hfuel
      obtain ⟨fuel, rfl⟩ := Nat.exists_eq_succ_of_ne_zero (Nat.ne_zero_of_lt hfuel)
      have hbody := (body_suffix h).length_le
      have hlen := ((close_suffix hclose).trans hin.suffix).length_le
      rw [List.length_cons] at hfuel
      simp only [readMsg, hf, if_neg hnew, if_pos hk, h, ih fuel (by omega), Option.bind_eq_bind,
        Option.bind_some, if_true, hclose]
      exact ih' fuel (by omega)

/-- **Every stream has a reading.** -/
theorem readMsg_total (schema : Schema) (ofInt : Int → Int × Int) (fuel : Nat) :
    ∀ (m type : Nat) (D : Draft) (toks : List Token), toks.length < fuel →
      ∃ r, readMsg schema ofInt fuel m type D toks = some r := by
  induction fuel with
  | zero => exact fun _ _ _ _ h => absurd h (Nat.not_lt_zero _)
  | succ fuel ih =>
      intro m type D toks hfuel
      unfold readMsg
      split
      next name rest =>
        rw [List.length_cons] at hfuel
        cases hf : findField (schema.msgType type) name with
        | none => exact ⟨_, rfl⟩
        | some f =>
            simp only
            split_ifs with htwice hk
            · exact ⟨_, rfl⟩
            · cases hopen : expect 123 (colon rest) with
              | none => exact ⟨_, rfl⟩
              | some body =>
                  have hbody := (body_suffix hopen).length_le
                  obtain ⟨⟨v, D', rest1⟩, hin⟩ := ih D.doc.msgs.length f.tag1
                    (D.ready schema m f) body (by omega)
                  have hle : rest1.length ≤ body.length := (readMsg_sound hin).suffix.length_le
                  simp only [hin, Option.bind_eq_bind, Option.bind_some]
                  split_ifs
                  · cases hclose : expect 125 rest1 with
                    | none => exact ⟨_, rfl⟩
                    | some rest2 =>
                        have hlen := (close_suffix hclose).length_le
                        exact ih _ _ _ _ (by omega)
                  · exact ⟨_, rfl⟩
            · cases hcolon : expect 58 rest with
              | none => exact ⟨_, rfl⟩
              | some due =>
                  have hlen := (value_suffix hcolon).length_le
                  simp only
                  cases taken schema ofInt f due.head? with
                  | value x => exact ih _ _ _ _ (by omega)
                  | refused => exact ⟨_, rfl⟩
                  | stuck => exact ⟨_, rfl⟩
      next => exact ⟨_, rfl⟩

end

end Nbuf
