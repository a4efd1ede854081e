import Nbuf.Text.ParseText
import Nbuf.Text.ReadsKept

set_option autoImplicit false

/-! # Integer literals

`strtoll` and `strtoull` stop at the ends of their ranges, and a put cuts a number to the width of its
field. A text is compared with what is read back from the message that is made of it.
-/

namespace Nbuf

open Outcome

/-! ## Exact tokens -/

/-- The value of a number without a fraction or an exponent. -/
def Number.value (n : Number) : Int := if n.neg then -n.magnitude else n.magnitude

/-- The token of a number, with its exact value. -/
def Number.exact (strtod : Text → Int × Int) (n : Number) : Token :=
  if n.flt then .flt (strtod n.buf).1 (strtod n.buf).2 else .int n.value

/-- What `strtoll` makes of a negative number, and `strtoull` of any other, as an `int64_t`. -/
def convert64 (v : Int) : Int :=
  if v < 0 then max v (-2 ^ 63) else (min v (2 ^ 64 - 1)).bmod (2 ^ 64)

/-- The integer of a token is changed. -/
def Token.mapInt (h : Int → Int) : Token → Token
  | .int v => .int (h v)
  | t => t

/-- The tokens of the lexer are the exact ones with their integers converted. -/
theorem Number.token_eq (strtod : Text → Int × Int) (n : Number) :
    n.token strtod = (n.exact strtod).mapInt convert64 := by
  unfold Number.token Number.exact
  by_cases hflt : n.flt = true
  · rw [if_pos hflt, if_pos hflt]
    rfl
  · rw [if_neg hflt, if_neg hflt]
    show _ = Token.int (convert64 n.value)
    unfold Number.value convert64
    by_cases hneg : n.neg = true
    · rw [if_pos hneg, if_pos hneg]
      rcases Nat.eq_zero_or_pos n.magnitude with h0 | hpos
      · rw [h0]
        rfl
      · rw [if_pos (by omega)]
        congr 1
        omega
    · rw [if_neg hneg, if_neg hneg, if_neg (by omega)]
      congr 2
      omega

section

variable (conv : Number → Token) (h : Int → Int)

/-- A conversion behind the lexer is a conversion in it. -/
theorem lexToken_mapInt (c : UInt8) (s : Text) : lexToken (fun n => (conv n).mapInt h) c s =
    { lexToken conv c s with val := (lexToken conv c s).val.map (Token.mapInt h) } := by
  unfold lexToken
  simp only
  split_ifs
  · rfl
  · cases s.head? with
    | none => rfl
    | some d =>
        simp only
        split_ifs <;> rfl
  · rfl
  · rfl
  · rfl

theorem nbufLex_mapInt (s : Text) : nbufLex (fun n => (conv n).mapInt h) s =
    { nbufLex conv s with val := (nbufLex conv s).val.map (Token.mapInt h) } := by
  fun_induction nbufLex conv s with
  | case1 s hs => exact nbufLex_nil hs
  | case2 s s' hstar comment l hs ih =>
      rw [nbufLex_cons hs, if_pos rfl, if_pos hstar]
      simp only
      rw [ih]
  | case3 s s' hstar hslash hs ih => rw [nbufLex_cons hs, if_pos rfl, if_neg hstar, if_pos hslash, ih]
  | case4 s s' hstar hslash hs ih => rw [nbufLex_cons hs, if_pos rfl, if_neg hstar, if_neg hslash, ih]
  | case5 s s' hs hslash ih => rw [nbufLex_cons hs, if_neg hslash, if_pos rfl, ih]
  | case6 s c s' hs hslash hhash =>
      rw [nbufLex_cons hs, if_neg hslash, if_neg hhash, lexToken_mapInt]

/-- The tokens with their integers converted. -/
theorem tokens_mapInt (s : Text) :
    tokens (fun n => (conv n).mapInt h) s = (tokens conv s).map (Token.mapInt h) := by
  unfold tokens
  fun_induction lexCalls conv s with
  | case1 s l hl ih =>
      obtain ⟨t, ht⟩ := Option.isSome_iff_exists.mp hl
      have hcall := nbufLex_mapInt conv h s
      have ht' : (nbufLex conv s).val = some t := ht
      rw [ht', Option.map_some] at hcall
      rw [lexCalls_cons hcall]
      simp only [List.filterMap_cons, ht, List.map_cons]
      exact congrArg _ ih
  | case2 s l hl =>
      have ht : (nbufLex conv s).val = none := by simpa using hl
      have hcall := nbufLex_mapInt conv h s
      rw [ht, Option.map_none] at hcall
      rw [lexCalls_none _ (by rw [hcall]), hcall]
      simp [l, ht]

end

/-! ## Ranges -/

/-- A field that holds an integer. -/
def FieldDesc.IsInteger (f : FieldDesc) : Prop := f.kind = .int ∨ f.kind = .uint ∨ f.kind = .enum

/-- The numbers that a field can hold, by its declared signedness and width. -/
def FieldDesc.InRange (f : FieldDesc) (v : Int) : Prop :=
  if f.kind = .int then -(256 ^ f.width : Int) ≤ 2 * v ∧ 2 * v < 256 ^ f.width
  else 0 ≤ v ∧ v < 256 ^ f.width

/-- The number that is read back when `a` is put. -/
def FieldDesc.readBack (f : FieldDesc) (a : Int) : Int :=
  if f.kind = .int then a.bmod (256 ^ f.width) else a % 256 ^ f.width

/-- An integer as a number. -/
def FieldValue.number : FieldValue → Option Int
  | .int v => some v
  | .uint v | .enum v => some v
  | _ => none

section

variable {f : FieldDesc} {v : Int}

theorem FieldDesc.IsInteger.isNum (h : f.IsInteger) : f.IsNum := by
  rcases h with h | h | h <;> simp [FieldDesc.IsNum, h]

/-- **A literal is read back** exactly if it is in the range of the field. -/
theorem FieldDesc.readBack_convert64 (hw : scalarSize f.width = true) :
    f.readBack (convert64 v) = v ↔ f.InRange v := by
  unfold FieldDesc.readBack FieldDesc.InRange convert64
  simp only [scalarSize, Bool.or_eq_true, beq_iff_eq] at hw
  rcases hw with ((hw | hw) | hw) | hw
  all_goals
    rw [hw]
    by_cases hk : f.kind = .int
    · simp only [if_pos hk]
      norm_num
      rw [Int.bmod_def]
      by_cases hv : v < 0
      · rw [if_pos hv]
        omega
      · rw [if_neg hv, Int.bmod_def]
        omega
    · simp only [if_neg hk]
      norm_num
      by_cases hv : v < 0
      · rw [if_pos hv]
        omega
      · rw [if_neg hv, Int.bmod_def]
        omega

/-- The number that is put is stored modulo `2 ^ 64` and cut to the width. -/
theorem FieldDesc.readBack_eq (hw : scalarSize f.width = true) : f.readBack v =
    if f.kind = .int then ((toU64 v % 256 ^ f.width : Nat) : Int).bmod (256 ^ f.width)
    else (toU64 v % 256 ^ f.width : Nat) := by
  have hv := Int.toNat_of_nonneg (Int.emod_nonneg v (show (2 ^ 64 : Int) ≠ 0 by decide))
  unfold FieldDesc.readBack toU64
  simp only [scalarSize, Bool.or_eq_true, beq_iff_eq] at hw
  rcases hw with ((hw | hw) | hw) | hw
  all_goals
    rw [hw]
    split_ifs
    · norm_num
      rw [Int.bmod_def, Int.bmod_def]
      omega
    · norm_num
      omega

end

/-- **An integer that is kept** is read back. -/
theorem View.Stores.integer {w : View} {schema : Schema} {d : Doc} {b : Buffer} {m k : Nat} {o : Obj}
    {M : DocMsg} {f : FieldDesc} {v : Int} (h : w.Stores schema d b) (ho : w.Opens m o)
    (hM : d.msgs[m]? = some M) (hf : f ∈ (schema.msgType M.type).fields) (hint : f.IsInteger)
    (hkept : M.Keeps f k (.num v)) :
    (reflected b o f k).bind FieldValue.number = some (f.readBack v) := by
  obtain ⟨ref, href, hkind, htag, hget⟩ := h.num ho hM hf hint.isNum hkept
  obtain ⟨i, j, c, hat, -⟩ := h.msgAt ho hM
  have hw := h.sound.width _ (schema.msgType_mem hat.type) f hf
  have hwidth := hw.width hint.isNum
  have hlt : toU64 v % 256 ^ f.width < 256 ^ f.width := Nat.mod_lt _ (Nat.pow_pos (by decide))
  have hle : 256 ^ f.width ≤ 256 ^ 8 :=
    Nat.pow_le_pow_right (by decide) (scalarSize_bounds hwidth).2
  have hnum := refGetNum_eq hw hint.isNum hkind htag hlt hget
  have hfloat : ref.kind ≠ .float := by
    rw [hkind]
    rcases hint with h | h | h <;> simp [h]
  rw [refGetNum, if_neg hfloat] at hnum
  rw [f.readBack_eq hwidth]
  unfold reflected
  simp only [href, Option.bind_eq_bind, Option.bind_some]
  unfold refValue
  rw [hkind]
  rcases hint with hk | hk | hk
  · rw [hk, hnum]
    simp [FieldValue.number, FieldDesc.shown, hk]
  · have hmask : toU64 (((toU64 v % 256 ^ f.width : Nat) : Int).bmod (2 ^ 64))
        = toU64 v % 256 ^ f.width := toU64_bmod_eight (by omega)
    rw [hk, hnum]
    simp only [FieldDesc.shown, hk, if_true, Option.map_some, Option.bind_some, FieldValue.number, hmask,
      reduceCtorEq, if_false]
  · have h2 : f.width = 2 := by simp [FieldDesc.width, hk]
    have hmask : toU64 (((toU64 v % 256 ^ f.width : Nat) : Int).bmod (256 ^ f.width)) % 2 ^ 16
        = toU64 v % 256 ^ f.width := by
      have hcut := toU64_bmod hlt hwidth
      rw [h2] at hcut ⊢
      exact hcut
    rw [hk, hnum]
    simp only [FieldDesc.shown, hk, Option.map_some, Option.bind_some, FieldValue.number, hmask,
      reduceCtorEq, if_false]

/-! ## Texts with other integers -/

section

variable {schema : Schema} {h : Int → Int} {type : Nat} {seen : List FieldDesc} {toks : List Token}

/-- The integers of the values are changed. -/
def Fields.mapInt (h : Int → Int) : Fields → Fields
  | .nil => .nil
  | .value f t rest => .value f (t.mapInt h) (rest.mapInt h)
  | .sub f body rest => .sub f (body.mapInt h) (rest.mapInt h)

theorem Fields.descs_mapInt (T : Fields) : (T.mapInt h).descs = T.descs := by
  induction T with
  | nil => rfl
  | value f t rest ih => exact congrArg (f :: ·) ih
  | sub f body rest _ ih => exact congrArg (f :: ·) ih

theorem Fields.givenTo_mapInt (f : FieldDesc) (T : Fields) :
    (T.mapInt h).givenTo f = (T.givenTo f).map (Token.mapInt h) := by
  induction T with
  | nil => rfl
  | value g t rest ih =>
      unfold Fields.mapInt Fields.givenTo
      split_ifs
      · rw [ih, List.map_cons]
      · exact ih
  | sub f body rest _ ih => exact ih

theorem isValue_mapInt {f : FieldDesc} {t : Token} :
    IsValue schema Token.IsText f (t.mapInt h) ↔ IsValue schema Token.IsText f t := by
  cases t with
  | int v => cases hk : f.kind <;> simp [IsValue, Token.mapInt, Token.IsInt, Token.IsText, hk]
  | id | flt | str | chr => exact Iff.rfl

theorem Token.mapInt_of_not_int {t : Token} (ht : ¬ t.IsInt) : t.mapInt h = t := by
  cases t with
  | int v => exact absurd ⟨v, rfl⟩ ht
  | id | flt | str | chr => rfl

/-- Tokens without integers stay. -/
theorem map_mapInt {l : List Token} (hl : ∀ t ∈ l, ¬ t.IsInt) : l.map (Token.mapInt h) = l :=
  (List.map_congr_left fun t ht => Token.mapInt_of_not_int (hl t ht)).trans (List.map_id l)

theorem IsSep.not_int {sep : List Token} (hsep : IsSep sep) : ∀ t ∈ sep, ¬ t.IsInt := by
  rcases hsep with rfl | rfl | rfl <;> simp [Token.IsInt]

theorem IsColon.not_int {c : List Token} (hc : IsColon c) : ∀ t ∈ c, ¬ t.IsInt := by
  rcases hc with rfl | rfl <;> simp [Token.IsInt]

/-- What is spelled with other integers. -/
theorem Spells.mapInt {T : Fields} (hT : Spells schema Token.IsText type seen toks T) :
    Spells schema Token.IsText type seen (toks.map (Token.mapInt h)) (T.mapInt h) := by
  induction hT with
  | nil => exact .nil
  | value hf ht hsep _ ih =>
      rw [List.map_cons, List.map_cons, List.map_cons, List.map_append, map_mapInt hsep.not_int]
      exact .value hf (isValue_mapInt.mpr ht) hsep ih
  | sub hf hk hnew hc _ hsep _ ihbody ihrest =>
      rw [List.map_cons, List.map_append, List.map_cons, List.map_append, List.map_cons,
        List.map_append, map_mapInt hsep.not_int, map_mapInt hc.not_int]
      exact .sub hf hk hnew hc ihbody hsep ihrest

end

/-! ## Literals and what is read back -/

/-- What a token means for a field that holds an integer: a name stands for its constant. -/
def FieldDesc.meant (schema : Schema) (f : FieldDesc) : Token → Option Int
  | .int v => some v
  | .id s => some (enumValue (schema.enumType f.tag1) s)
  | _ => none

/-- **Every integer literal is read back** from its field in the buffer: from its own element of a list,
or from the only value of any other field. -/
def Fields.StoredIn (b : Buffer) : Fields → Obj → List FieldDesc → Prop
  | .nil, _, _ => True
  | .value f t rest, o, prior =>
      (f.IsInteger → ∀ v, t = .int v →
        (reflected b o f (prior.count f)).bind FieldValue.number = some v) ∧
      rest.StoredIn b o (f :: prior)
  | .sub f body rest, o, prior =>
      (∃ ref, elemRef b o f (prior.count f) = some ref ∧ body.StoredIn b ref.o []) ∧
      rest.StoredIn b o (f :: prior)

/-- Every integer literal is in the range of its field, and a field that is no list is given the same
number in the end. -/
def Fields.Exact (schema : Schema) : Fields → Prop
  | .nil => True
  | .value f t rest =>
      (f.IsInteger → ∀ v, t = .int v → f.InRange v ∧
        (f.list = false → ∀ t' ∈ (rest.givenTo f).getLast?, f.meant schema t' = some v)) ∧
      rest.Exact schema
  | .sub _ body rest => body.Exact schema ∧ rest.Exact schema

section

variable {schema : Schema} {ofInt : Int → Int × Int} {f : FieldDesc} {t : Token} {x : Val}
  {T : Fields} {v : Int}

theorem Fields.Exact.inRange (h : T.Exact schema) (hint : f.IsInteger)
    (hv : .int v ∈ T.givenTo f) : f.InRange v := by
  induction T with
  | nil => cases hv
  | value g t rest ih =>
      unfold Fields.givenTo at hv
      split_ifs at hv with heq
      · subst heq
        rcases List.mem_cons.mp hv with ht | hv
        · exact (h.1 hint v ht.symm).1
        · exact ih h.2 hv
      · exact ih h.2 hv
  | sub g body rest _ ih => exact ih h.2 hv

/-- What a token is taken for, and what it means. -/
theorem taken_meant (hw : f.HasWidth) (hint : f.IsInteger)
    (hx : taken schema ofInt f (some (t.mapInt convert64)) = .value x) :
    ∃ a v, x = .num a ∧ f.meant schema t = some v ∧ (f.readBack a = v ↔ f.InRange v) ∧
      (¬ t.IsInt → f.InRange v) := by
  have hwidth := hw.width hint.isNum
  cases t with
  | int v =>
      have hread := f.readBack_convert64 (v := v) hwidth
      have hno : ¬ (Token.int v).IsInt → f.InRange v := fun h => absurd ⟨v, rfl⟩ h
      rcases hint with hk | hk | hk
      · simp only [taken, Token.mapInt, hk, Taken.value.injEq] at hx
        exact ⟨_, v, hx.symm, rfl, hread, hno⟩
      · simp only [taken, Token.mapInt, hk, Taken.value.injEq] at hx
        exact ⟨_, v, hx.symm, rfl, hread, hno⟩
      · simp only [taken, Token.mapInt, hk, Taken.value.injEq] at hx
        refine ⟨_, v, hx.symm, rfl, ?_, hno⟩
        -- the 16 bits that are stored are among the 32 of the `uint32_t`
        have hcut : f.readBack (convert64 v % 2 ^ 32).toNat = f.readBack (convert64 v) := by
          have h2 : f.width = 2 := by simp [FieldDesc.width, hk]
          unfold FieldDesc.readBack
          rw [if_neg (by simp [hk]), if_neg (by simp [hk]), h2]
          omega
        rw [hcut]
        exact hread
  | id s =>
      have hk : f.kind = .enum := by
        rcases hint with h | h | h
        · simp [taken, Token.mapInt, h] at hx
        · simp [taken, Token.mapInt, h] at hx
        · exact h
      have h2 : f.width = 2 := by simp [FieldDesc.width, hk]
      simp only [taken, Token.mapInt, hk] at hx
      split_ifs at hx with hno
      have hlt := enumValue_lt hno
      rw [Taken.value.injEq] at hx
      have hrange : f.InRange (enumValue (schema.enumType f.tag1) s) := by
        unfold FieldDesc.InRange
        rw [if_neg (by simp [hk]), h2]
        omega
      refine ⟨_, _, hx.symm, rfl, ⟨fun _ => hrange, fun _ => ?_⟩, fun _ => hrange⟩
      unfold FieldDesc.readBack
      rw [if_neg (by simp [hk]), h2]
      omega
  | flt | str | chr =>
      rcases hint with h | h | h <;> simp [taken, Token.mapInt, h] at hx

/-- **A token that is kept** is read back as what it means, exactly if that is in range. -/
theorem View.Stores.literal {w : View} {d : Doc} {b : Buffer} {m k : Nat} {o : Obj} {M : DocMsg}
    (h : w.Stores schema d b) (ho : w.Opens m o) (hM : d.msgs[m]? = some M)
    (hf : f ∈ (schema.msgType M.type).fields) (hint : f.IsInteger)
    (hx : taken schema ofInt f (some (t.mapInt convert64)) = .value x) (hkeeps : d.Keeps m f k x) :
    ∃ v, f.meant schema t = some v ∧
      ((reflected b o f k).bind FieldValue.number = some v ↔ f.InRange v) ∧
      (¬ t.IsInt → f.InRange v) := by
  obtain ⟨M', hM', hkeeps⟩ := hkeeps
  rw [hM, Option.some.injEq] at hM'
  subst hM'
  obtain ⟨_, _, _, hat, -⟩ := h.msgAt ho hM
  have hw := h.sound.width _ (schema.msgType_mem hat.type) f hf
  obtain ⟨a, v, rfl, hmeant, hexactly, hname⟩ := taken_meant hw hint hx
  refine ⟨v, hmeant, ?_, hname⟩
  rw [h.integer ho hM hf hint hkeeps, Option.some.injEq, hexactly]

/-- **What is spelled is read back exactly** if it is in range. -/
theorem Spells.storedIn_iff {w : View} {d : Doc} {b : Buffer} (hd : w.Stores schema d b) {type : Nat}
    {seen : List FieldDesc} {toks : List Token}
    (h : Spells schema Token.IsText type seen toks T) : ∀ {m : Nat} {o : Obj} {M : DocMsg}
      {prior : List FieldDesc}, (T.mapInt convert64).Kept schema ofInt d m prior → w.Opens m o →
      d.msgs[m]? = some M → M.type = type → (T.StoredIn b o prior ↔ T.Exact schema) := by
  induction h with
  | nil => exact fun _ _ _ _ => Iff.rfl
  | @value type _ name f t _ _ T hf ht _ hrest ih =>
      intro m o M prior hkept ho hM htype
      have hrestKept := hkept.2
      have hiff := ih hrestKept ho hM htype
      have hfield : f ∈ (schema.msgType M.type).fields := htype ▸ findField_mem hf
      unfold Fields.StoredIn Fields.Exact
      rw [hiff]
      refine and_congr_left fun hexact => forall_congr' fun hint => forall_congr' fun v =>
        forall_congr' fun hv => ?_
      subst hv
      by_cases hlast : f.list = true ∨ T.givenTo f = []
      · obtain ⟨x, hx, hkeeps⟩ := hkept.1 (hlast.imp_right fun h0 => by
          rw [T.descs_mapInt]
          exact hrest.not_mem_descs hint.isNum.2.2 h0)
        obtain ⟨v', hmeant, hread, -⟩ := hd.literal ho hM hfield hint hx hkeeps
        obtain rfl : v = v' := Option.some.inj hmeant
        rw [hread]
        refine ⟨fun hrange => ⟨hrange, fun hl t' ht' => ?_⟩, fun hall => hall.1⟩
        rcases hlast with hl' | h0
        · rw [hl] at hl'
          cases hl'
        · rw [h0] at ht'
          cases ht'
      · -- another value is given to the field, and the last one is read
        rw [not_or, Bool.not_eq_true] at hlast
        obtain ⟨hl, hne⟩ := hlast
        obtain ⟨t', ht'⟩ : ∃ t', (T.givenTo f).getLast? = some t' :=
          ⟨_, List.getLast?_eq_some_getLast hne⟩
        obtain ⟨x, hx, hkeeps⟩ := hrest.mapInt.kept_last hrestKept hl hint.isNum.2.2
          (by rw [T.givenTo_mapInt, List.getLast?_map, ht']; rfl) (prior.count f)
        obtain ⟨v', hmeant, hread, hname⟩ := hd.literal ho hM hfield hint hx hkeeps
        have hrange : f.InRange v' := by
          by_cases hisInt : t'.IsInt
          · obtain ⟨u, rfl⟩ := hisInt
            obtain rfl : u = v' := Option.some.inj hmeant
            exact hexact.inRange hint (List.mem_of_getLast? ht')
          · exact hname hisInt
        rw [hread.mpr hrange, Option.some.injEq]
        constructor
        · rintro rfl
          refine ⟨hrange, fun _ t'' ht'' => ?_⟩
          rw [Option.mem_def, ht', Option.some.injEq] at ht''
          exact ht'' ▸ hmeant
        · intro hall
          have hsame := hall.2 hl t' ht'
          rw [hmeant, Option.some.injEq] at hsame
          exact hsame
  | @sub type _ name f _ _ _ _ B T hf hk _ _ hbody _ hrest ih ih' =>
      intro m o M prior hkept ho hM htype
      obtain ⟨⟨m', M', -, hM', htype', ⟨M1, hM1, hkeeps⟩, hbodyKept⟩, hrestKept⟩ := hkept
      rw [hM, Option.some.injEq] at hM1
      subst hM1
      obtain ⟨ref, href, hopens⟩ := hd.sub ho hM (htype ▸ findField_mem hf) hk hkeeps
      unfold Fields.StoredIn Fields.Exact
      rw [ih' hrestKept ho hM htype, ← ih hbodyKept hopens hM' htype']
      refine and_congr_left fun _ => ⟨fun ⟨ref', href', hstored⟩ => ?_, fun hstored => ⟨ref, href, hstored⟩⟩
      rw [href, Option.some.injEq] at href'
      exact href' ▸ hstored

end

/-! ## Stored exactly or rejected -/

section

variable (strtod : Text → Int × Int) (alloc : Nat → Realloc) (schema : Schema)
  (ofInt : Int → Int × Int)

/-- The fields that a text spells, with the exact values of its integers. -/
def TextSpells (type : Nat) (text : Text) (T : Fields) : Prop :=
  Spells schema Token.IsText type [] (tokens (Number.exact strtod) text) T

end

section

variable {strtod : Text → Int × Int} {alloc : Nat → Realloc} {schema : Schema}
  {ofInt : Int → Int × Int} {addr type : Nat} {text : Text}

theorem tokens_token (strtod : Text → Int × Int) (text : Text) : tokens (Number.token strtod) text
    = (tokens (Number.exact strtod) text).map (Token.mapInt convert64) := by
  rw [← tokens_mapInt]
  congr 1
  funext n
  exact n.token_eq strtod

/-- A text that spells a message is parsed, and its integers are read back exactly if they are in
range. -/
theorem TextSpells.parse (hs : schema.Sound) (ha : ∀ n, (alloc n).Total) (haddr : addr < 2 ^ 64)
    (htype : type < schema.msgTypes.length)
    (hbound : TextBounded schema ofInt type (tokens (Number.token strtod) text))
    (hnear : (textDoc schema ofInt type (tokens (Number.token strtod) text)).bytes ≤ 2 ^ 33) {T : Fields}
    (hT : TextSpells strtod schema type text T) : ∃ r errs b o,
      nbufParseText (Number.token strtod) alloc schema ofInt addr haddr (schema.msgType type) text
        = done (r, errs) ∧ r.ok = true ∧ r.buf = some b ∧ objInit b Obj.null 0 = some o ∧
      (T.StoredIn b o [] ↔ T.Exact schema) := by
  have hcode := hT.mapInt (h := convert64)
  rw [← tokens_token] at hcode
  obtain ⟨r, b, o, w, d, M, hr, hok, hbuf, hroot, hd, ho, hM, hMtype, hkept⟩ :=
    hcode.parse hs ha haddr htype hbound hnear
  obtain ⟨errs, hrun⟩ := nbufParseText_of_done hr
  exact ⟨r, errs, b, o, hrun, hok, hbuf, hroot, hT.storedIn_iff hd hkept ho hM hMtype⟩

end

/-! ## A literal that is cut -/

end Nbuf
