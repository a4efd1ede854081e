import Nbuf.Text.ClientStep
import Nbuf.Text.ReadingDoc

set_option autoImplicit false

/-! # The parser does what a reading says

While the parser goes on, its builder holds the document of the reading. It gets stuck where the
reading gets stuck, and returns what the reading returns.
-/

namespace Nbuf

open Outcome

/-! ## Sizes -/

/-- A document that a builder can hold: at most `2 ^ 31` objects, and lists with fewer than
`2 ^ 32 - 1` elements, or `2 ^ 32 - 7` if they have no bytes. -/
structure Doc.Bounded (schema : Schema) (d : Doc) : Prop where
  objects : d.objects ≤ 2 ^ 31
  list : ∀ M ∈ d.msgs, ∀ f ∈ (schema.msgType M.type).fields, f.list = true →
    (M.vals f).length < 2 ^ 32 - 1 ∧
      (getSize schema f.kind f.tag1 = (0, 0) → (M.vals f).length < 2 ^ 32 - 7)

/-- A token whose text has fewer than `2 ^ 32 - 1` bytes. -/
def Token.Short : Token → Prop
  | .str s | .id s => s.length + 1 < 2 ^ 32
  | _ => True

section

variable {schema : Schema} {d d' : Doc} {m : Nat} {M : DocMsg} {f : FieldDesc}

theorem Doc.Bounded.of_le (h : d'.Bounded schema) (hle : d.Le d') : d.Bounded schema := by
  refine ⟨hle.objects.trans h.objects, fun M hM f hf hl => ?_⟩
  obtain ⟨m, hm, hget⟩ := List.mem_iff_getElem.mp hM
  obtain ⟨M', hM', htype, hlen⟩ := hle.msg m M (List.getElem?_eq_some_iff.mpr ⟨hm, hget⟩)
  have hbound := h.list M' (List.mem_of_getElem? hM') f (by rw [htype]; exact hf) hl
  exact ⟨(hlen f hl).trans_lt hbound.1, fun h0 => (hlen f hl).trans_lt (hbound.2 h0)⟩

/-- A field may be made ready if the document stays within the bounds. -/
theorem Doc.Bounded.canGrow (h : (d.ready schema m f).Bounded schema) (hM : d.msgs[m]? = some M)
    (hf : f ∈ (schema.msgType M.type).fields) (hfree : f.list = true ∨ M.vals f = [])
    (hlist : f.list = true ∨ f.kind = .ptr) : View.CanGrow schema M f := by
  by_cases hl : f.list = true
  · have hready : (d.ready schema m f).msgs[m]? = _ := View.ready_msg hM
    rw [if_pos hlist] at hready
    have hbound := h.list _ (List.mem_of_getElem? hready) f hf hl
    rw [DocMsg.push_vals, List.length_append, List.length_singleton] at hbound
    exact hbound
  · rw [View.CanGrow, hfree.resolve_left hl]
    exact ⟨by decide, fun _ => by decide⟩

end

/-! ## The state of the parser -/

namespace Parser

variable (s : Parser) (c : Nat)

theorem sees_eq : s.sees c = (expect c s.toks).isSome := by
  unfold sees expect
  split_ifs with h <;> simp [h]

@[simp] theorem next_toks : s.next.toks = s.toks.tail := rfl

@[simp] theorem next_pool : s.next.pool = s.pool := rfl

@[simp] theorem optional_toks : (s.optional 58).toks = colon s.toks := by
  unfold optional colon
  rw [sees_eq]
  cases h : expect 58 s.toks with
  | none => rfl
  | some rest =>
      rw [Option.isSome_some, if_pos rfl, next_toks, expect_eq_some h]
      rfl

@[simp] theorem optional_pool : (s.optional c).pool = s.pool := by
  unfold optional
  split_ifs <;> rfl

@[simp] theorem separator_toks : s.separator.toks = Nbuf.separator s.toks := by
  unfold Parser.separator Nbuf.separator sees
  simp only [Bool.or_eq_true, beq_iff_eq]
  split_ifs <;> rfl

@[simp] theorem separator_pool : s.separator.pool = s.pool := by
  unfold Parser.separator
  split_ifs <;> rfl

end Parser

section

variable {schema : Schema} {ofInt : Int → Int × Int} {alloc : Nat → Realloc} {s : Parser} {w : View}
  {d : Doc} {m i j : Nat} {o : Obj} {M : DocMsg} {f : FieldDesc} {ref : Ref}

/-! ## Values -/

/-- How a value is put. -/
def Parser.putVal (alloc : Nat → Realloc) (s : Parser) (j : Nat) (ref : Ref) : Val → Option Pool
  | .num v => s.pool.onBuf j fun b => refPutNum b ref v
  | .bit v => s.pool.onBuf j fun b => refPutBit b ref v
  | .str t => s.pool.refPutStr (alloc s.clock) j ref (t ++ [0]) t.length
  | .msg _ => none

theorem refPutNum_int (hk : ref.kind ≠ .float) (b : Buffer) (v : Int) :
    refPutNum b ref v = refPutInt b ref v := if_neg hk

theorem refPutNum_float (hk : ref.kind = .float) (b : Buffer) (v : Int × Int) :
    refPutNum b ref (floatBits v ref.tag1) = refPutFloat b ref fun w => toU64 (floatBits v w) :=
  if_pos hk

/-- **The value parsers** put the value that the next token is taken for. -/
theorem parseValue_eq (alloc : Nat → Realloc) (ofInt : Int → Int × Int) (schema : Schema)
    (s : Parser) (j : Nat) (hkind : ref.kind = f.kind) (htag : ref.tag1 = f.tag1) (name : Text) :
    ∃ msg, parseValue alloc schema ofInt s j ref name =
      match taken schema ofInt f s.toks.head? with
      | .value x => s.accept (s.putVal alloc j ref x)
      | .refused => s.refuse msg
      | .stuck => none := by
  unfold parseValue taken
  rw [hkind]
  cases hk : f.kind with
  | bool =>
      unfold parseBool
      cases htoks : s.toks with
      | nil => exact ⟨_, rfl⟩
      | cons t rest =>
          cases t with
          | id t =>
              simp only [List.head?_cons]
              split_ifs
              · exact ⟨[], rfl⟩
              · exact ⟨[], rfl⟩
              · exact ⟨_, rfl⟩
          | int v => exact ⟨[], rfl⟩
          | flt | str | chr => exact ⟨_, rfl⟩
  | enum =>
      have hnf : ref.kind ≠ .float := by simp [hkind, hk]
      unfold parseEnum
      cases htoks : s.toks with
      | nil => exact ⟨[], rfl⟩
      | cons t rest =>
          cases t with
          | id t =>
              simp only [List.head?_cons, htag]
              split_ifs
              · exact ⟨_, rfl⟩
              · exact ⟨[], by simp only [Parser.putVal, refPutNum_int hnf]⟩
          | int v => exact ⟨[], by simp only [List.head?_cons, Parser.putVal, refPutNum_int hnf]⟩
          | flt | str | chr => exact ⟨[], rfl⟩
  | int | uint =>
      have hnf : ref.kind ≠ .float := by simp [hkind, hk]
      unfold parseInt
      cases htoks : s.toks with
      | nil => exact ⟨_, rfl⟩
      | cons t rest =>
          cases t with
          | int v => exact ⟨[], by simp only [List.head?_cons, Parser.putVal, refPutNum_int hnf]⟩
          | id | flt | str | chr => exact ⟨_, rfl⟩
  | float =>
      have hf : ref.kind = .float := by rw [hkind, hk]
      unfold parseFloat
      cases htoks : s.toks with
      | nil => exact ⟨_, rfl⟩
      | cons t rest =>
          cases t with
          | int v => exact ⟨[], by simp only [List.head?_cons, Parser.putVal, ← htag,
              refPutNum_float hf]⟩
          | flt x y => exact ⟨[], by simp only [List.head?_cons, Parser.putVal, ← htag,
              refPutNum_float hf]⟩
          | id | str | chr => exact ⟨_, rfl⟩
  | str =>
      unfold parseStr
      cases htoks : s.toks with
      | nil => exact ⟨[], rfl⟩
      | cons t rest => cases t <;> exact ⟨[], rfl⟩
  | ptr => exact ⟨[], rfl⟩

/-- What a value is of that a token is taken for. -/
theorem taken_value {t : Option Token} {x : Val} (h : taken schema ofInt f t = .value x) :
    match x with
    | .num _ => f.IsNum
    | .bit _ => f.kind = .bool
    | .str s => f.kind = .str ∧ (t = some (.str s) ∨ t = some (.id s))
    | .msg _ => False := by
  unfold taken at h
  unfold FieldDesc.IsNum
  cases hk : f.kind <;> rw [hk] at h <;> rcases t with _ | t <;> try cases t
  all_goals
    first
    | (cases h; simp)
    | (simp only at h; split_ifs at h <;> (cases h; simp))
    | cases h

/-- **A value is put** into the document. -/
theorem Parser.putVal_spec (hs : schema.Sound) (ha : ∀ n, (alloc n).Total)
    (hp : s.pool.Rep w.heap) (hd : w.Shows View.Room.any schema d) (href : w.RefTo m f j ref)
    (hM : d.msgs[m]? = some M) (hf : f ∈ (schema.msgType M.type).fields) {t : Option Token} {x : Val}
    (ht : taken schema ofInt f t = .value x) (hshort : ∀ y ∈ t, y.Short)
    (hobj : (d.putVal m f x).objects ≤ 2 ^ 31) :
    ∃ p' w', s.putVal alloc j ref x = some p' ∧ p'.Rep w'.heap ∧
      w'.Shows View.Room.any schema (d.putVal m f x) ∧ w.Grows w' := by
  obtain ⟨hkind, htag⟩ := href.tags
  have htype : M.type < schema.msgTypes.length := by
    obtain ⟨_, _, _, _, hat⟩ := hd.msg m M hM
    exact hat.type
  have hval := taken_value ht
  cases x with
  | num v =>
      have hw := hs.width _ (schema.msgType_mem htype) f hf
      obtain ⟨p', w', hput, hp', hd', hg'⟩ := View.put_num hs hp hd href hM hf hval (toU64 v)
      refine ⟨p', w', ?_, hp', hd', hg'⟩
      rw [← hput]
      unfold Parser.putVal
      simp only [refPutNum_eq hkind htag hw hval]
  | bit v =>
      have hbool : f.kind = .bool := hval
      obtain ⟨p', w', hput, hp', hd', hg'⟩ := View.put_bit hs hp hd href hM hf hbool v
      refine ⟨p', w', ?_, hp', hd', hg'⟩
      rw [← hput]
      unfold Parser.putVal
      simp only [refPutBit, assertC_pos (hkind.trans hbool), Option.bind_eq_bind, Option.bind_some]
  | str str =>
      obtain ⟨hk, ht⟩ := hval
      have hlt : str.length + 1 < 2 ^ 32 := by
        rcases ht with rfl | rfl <;> exact hshort _ rfl
      have hlen : strLength (str ++ [0]) str.length = some str.length := by
        unfold strLength
        rw [sizeT_of_lt (by omega), if_neg (by omega)]
      have htake : (str ++ [0]).take str.length = str := List.take_left
      have hobj' : d.objects + 1 ≤ 2 ^ 31 := hobj
      obtain ⟨p', w', hput, hp', hd', hg'⟩ := View.put_str hs (ha s.clock) hp hd href hM hf hk hlen
        (by simp) hlt (by omega) fun _ _ => trivial
      rw [htake] at hd'
      exact ⟨p', w', hput, hp', hd', hg'⟩
  | msg m' => exact hval.elim

/-! ## Fields -/

theorem Pool.appendElem_tags {p p' : Pool} {a : Realloc} {ref' : Ref}
    (h : p.appendElem a i ref = some (p', j, ref')) : ref'.kind = ref.kind ∧ ref'.tag1 = ref.tag1 := by
  unfold Pool.appendElem at h
  simp only [Option.bind_eq_bind, Option.pure_def, Option.bind_eq_some_iff, Option.some.injEq,
    Prod.mk.injEq] at h
  obtain ⟨-, -, _, -, _, -, _, -, -, -, rfl⟩ := h
  exact ⟨rfl, rfl⟩

theorem Pool.createElem_tags {p p' : Pool} {a : Realloc} {ref' : Ref}
    (h : p.createElem a schema i ref = some (p', j, ref')) :
    ref'.kind = ref.kind ∧ ref'.tag1 = ref.tag1 := by
  unfold Pool.createElem at h
  simp only [Option.bind_eq_bind, Option.pure_def, Option.bind_eq_some_iff, Option.some.injEq,
    Prod.mk.injEq] at h
  obtain ⟨-, -, _, -, -, -, _, -, -, -, rfl⟩ := h
  exact ⟨rfl, rfl⟩

/-- A reference to a field has its kind, and its width or type. -/
theorem Pool.fieldRef_tags {p p' : Pool} {a : Realloc}
    (h : p.fieldRef a schema i o f = some (p', j, ref)) :
    ref.kind = f.kind ∧ ref.tag1 = f.tag1 := by
  unfold Pool.fieldRef at h
  by_cases hlist : (getRef o f).list = true ∨ (getRef o f).kind = .ptr
  · simp only [if_pos hlist, Pool.refInitPtr, Option.bind_eq_bind, Option.bind_eq_some_iff] at h
    obtain ⟨b, -, has, -, h⟩ := h
    split_ifs at h
    · exact Pool.appendElem_tags h
    · exact Pool.createElem_tags h
  · simp only [if_neg hlist, Option.some.injEq, Prod.mk.injEq] at h
    obtain ⟨-, -, rfl⟩ := h
    exact ⟨rfl, rfl⟩

/-! ## Messages -/

/-- The parser ends as the reading does: it gets stuck, or it returns, and then its builder holds
the document of the reading. -/
def Parser.EndsAs (schema : Schema) (w : View) (r : Outcome (Bool × Parser)) (D : Draft)
    (rest : List Token) : Option Bool → Prop
  | none => r = .abort
  | some ok => ∃ s' w', r = .done (ok, s') ∧ s'.toks = rest ∧ s'.pool.Rep w'.heap ∧
      w'.Shows View.Room.any schema D.doc ∧ w.Grows w'

theorem Parser.EndsAs.grows {w0 w : View} {r : Outcome (Bool × Parser)} {D : Draft}
    {rest : List Token} {v : Option Bool} (h : Parser.EndsAs schema w r D rest v) (hg : w0.Grows w) :
    Parser.EndsAs schema w0 r D rest v := by
  cases v with
  | none => exact h
  | some ok =>
      obtain ⟨s', w', hr, htoks, hp, hd, hg'⟩ := h
      exact ⟨s', w', hr, htoks, hp, hd, hg.trans hg'⟩

/-- Behind the colon there is a value, an error, or no way on. -/
theorem Parser.value_spec (ofInt : Int → Int × Int) (hs : schema.Sound) (ha : ∀ n, (alloc n).Total) (hp : s.pool.Rep w.heap)
    (hd : w.Shows View.Room.any schema d) (href : w.RefTo m f j ref) (hM : d.msgs[m]? = some M)
    (hf : f ∈ (schema.msgType M.type).fields) (hshort : ∀ y ∈ s.toks, y.Short) {x : Val}
    (ht : taken schema ofInt f s.toks.head? = .value x)
    (hobj : (d.putVal m f x).objects ≤ 2 ^ 31) (name : Text) :
    ∃ s' w', parseValue alloc schema ofInt s j ref name = some (true, s') ∧
      s'.toks = s.toks.tail ∧ s'.pool.Rep w'.heap ∧
      w'.Shows View.Room.any schema (d.putVal m f x) ∧ w.Grows w' := by
  obtain ⟨msg, heq⟩ := parseValue_eq alloc ofInt schema s j href.tags.1 href.tags.2 name
  obtain ⟨p', w', hput, hp', hd', hg'⟩ := Parser.putVal_spec (s := s) hs ha hp hd href hM hf ht
    (fun y hy => hshort y (List.mem_of_mem_head? hy)) hobj
  refine ⟨{ s with pool := p', clock := s.clock + 1 }.next, w', ?_, rfl, hp', hd', hg'⟩
  rw [heq, ht]
  simp only [Parser.accept, hput, Option.map_some]

/-- The parser is in message `m`, of type `type`, with the handle `o` in buffer `i`. -/
structure Parser.At (schema : Schema) (s : Parser) (w : View) (i : Nat) (o : Obj) (m type : Nat)
    (D : Draft) (toks : List Token) : Prop where
  tokens : s.toks = toks
  short : ∀ t ∈ toks, t.Short
  rep : s.pool.Rep w.heap
  shows : w.Shows View.Room.any schema D.doc
  isMsg : w.IsMsg m i o
  msg : ∃ M, D.doc.msgs[m]? = some M ∧ M.type = type

section

variable {type : Nat} {D : Draft} {toks : List Token}

/-- The test for a submessage that is given twice. -/
theorem Parser.At.twice (h : s.At schema w i o m type D toks) (hs : schema.Sound)
    (hf : f ∈ (schema.msgType type).fields) :
    s.twice i (getRef o f) = some (decide (D.Twice m f)) := by
  obtain ⟨M, hM, rfl⟩ := h.msg
  have hitems : D.doc.items m f = M.vals f := Doc.items_eq hM f
  unfold Parser.twice
  by_cases hk : f.kind = .ptr ∧ f.list = false
  · have hk' : (getRef o f).kind = .ptr ∧ (getRef o f).list = false := hk
    obtain ⟨b, hb, hhas⟩ := View.hasPtr_spec hs h.rep h.shows h.isMsg hM hf (Or.inr hk.1)
    have hhas' : hasPtr b (getRef o f).o (getRef o f).tag0 = some (!(M.vals f).isEmpty) := hhas
    have htwice : D.Twice m f ↔ M.vals f ≠ [] := by simp [Draft.Twice, hk.1, hk.2, hitems]
    rw [if_pos hk', hb, Option.bind_eq_bind, Option.bind_some, hhas', Option.some.injEq,
      Bool.eq_iff_iff, decide_eq_true_iff, htwice]
    simp
  · have hk' : ¬ ((getRef o f).kind = .ptr ∧ (getRef o f).list = false) := hk
    rw [if_neg hk', Option.some.injEq, eq_comm, decide_eq_false_iff_not]
    exact fun htwice => hk ⟨htwice.1, htwice.2.1⟩

/-- **A field is made ready.** -/
theorem Parser.At.field (h : s.At schema w i o m type D toks) (hs : schema.Sound)
    (ha : ∀ n, (alloc n).Total) (hf : f ∈ (schema.msgType type).fields) (hnew : ¬ D.Twice m f)
    (hbound : (D.ready schema m f).doc.Bounded schema) :
    s.twice i (getRef o f) = some false ∧ ∃ s' j ref w',
      s.field alloc schema i o f = some (s', j, ref) ∧ s'.toks = toks.tail ∧ ref.kind = f.kind ∧
      ref.tag1 = f.tag1 ∧ s'.pool.Rep w'.heap ∧
      w'.Shows View.Room.any schema (D.ready schema m f).doc ∧ w.Grows w' ∧
      (f.kind ≠ .ptr → w'.RefTo m f j ref) ∧ (f.kind = .ptr → w'.IsMsg D.doc.msgs.length j ref.o) := by
  have htwice := h.twice hs hf
  rw [decide_eq_false hnew] at htwice
  obtain ⟨M, hM, rfl⟩ := h.msg
  have hfree : f.kind = .ptr → f.list = true ∨ M.vals f = [] := by
    intro hk
    by_contra hno
    rw [not_or, Bool.not_eq_true] at hno
    exact hnew ⟨hk, hno.1, by rw [Doc.items_eq hM]; exact hno.2⟩
  obtain ⟨p', j, ref, w', href, hp', hd', hg', hto, hmsg'⟩ := View.field_spec hs (ha s.clock) h.rep
    h.shows h.isMsg hM hf hfree
    (fun hlist => hbound.canGrow hM hf (hlist.imp_right hfree |>.elim Or.inl id) hlist) hbound.objects
  obtain ⟨hkind, htag⟩ := Pool.fieldRef_tags href
  refine ⟨htwice, { s with pool := p', clock := s.clock + 1 }.next, j, ref, w', ?_, ?_, hkind, htag,
    hp', hd', hg', hto, hmsg'⟩
  · unfold Parser.field
    rw [href]
    rfl
  · rw [← h.tokens]
    rfl

/-- **A submessage is opened**: the parser is in a new message. -/
theorem Parser.At.inside (h : s.At schema w i o m type D toks) (hs : schema.Sound)
    (ha : ∀ n, (alloc n).Total) (hf : f ∈ (schema.msgType type).fields) (hk : f.kind = .ptr)
    (hnew : ¬ D.Twice m f) (hbound : (D.ready schema m f).doc.Bounded schema) {body : List Token}
    (hopen : expect 123 (colon toks.tail) = some body) :
    s.twice i (getRef o f) = some false ∧ ∃ s1 j ref w',
      s.field alloc schema i o f = some (s1, j, ref) ∧ ref.kind = .ptr ∧ ref.tag1 = f.tag1 ∧
      (s1.optional 58).sees 123 = true ∧ w.Grows w' ∧
      (s1.optional 58).next.At schema w' j ref.o D.doc.msgs.length f.tag1 (D.ready schema m f) body := by
  obtain ⟨htwice, s1, j, ref, w1, hfield, htoks, hkind, htag, hp, hd, hg, -, hmsg⟩ :=
    h.field hs ha hf hnew hbound
  refine ⟨htwice, s1, j, ref, w1, hfield, hkind.trans hk, htag, ?_, hg, ?_⟩
  · rw [Parser.sees_eq, Parser.optional_toks, htoks, hopen]
    rfl
  · refine ⟨?_, fun t ht => ?_, ?_, hd, hmsg hk, DocMsg.new f.tag1, Doc.ready_new hk, rfl⟩
    · rw [Parser.next_toks, Parser.optional_toks, htoks, expect_eq_some hopen, List.tail_cons]
    · exact h.short t ((List.tail_suffix _).subset ((body_suffix hopen).subset ht))
    · rw [Parser.next_pool, Parser.optional_pool]
      exact hp

end

/-- **The parser does what the reading says.** -/
theorem Reads.parse (hs : schema.Sound) (ha : ∀ n, (alloc n).Total) {type : Nat} {D D' : Draft}
    {toks rest : List Token} {v : Option Bool} (h : Reads schema ofInt m type D toks v D' rest) :
    ∀ (fuel : Nat) {s : Parser} {w : View} {i : Nat} {o : Obj}, s.At schema w i o m type D toks →
      toks.length < fuel → D'.doc.Bounded schema →
      Parser.EndsAs schema w (parseMsg alloc schema ofInt fuel s i o (schema.msgType type)) D' rest v := by
  induction h with
  | stop h =>
      intro fuel s w i o hat hfuel hbound
      obtain ⟨fuel, rfl⟩ := Nat.exists_eq_succ_of_ne_zero (Nat.ne_zero_of_lt hfuel)
      refine ⟨s, w, ?_, hat.tokens, hat.rep, hat.shows, .refl w⟩
      unfold parseMsg
      split
      next name rest heq => exact absurd (hat.tokens.symm.trans heq) (h name rest)
      next => rfl
  | @unknown m type D name rest hf =>
      intro fuel s w i o hat hfuel hbound
      obtain ⟨fuel, rfl⟩ := Nat.exists_eq_succ_of_ne_zero (Nat.ne_zero_of_lt hfuel)
      obtain ⟨msg, hr⟩ : ∃ msg, parseMsg alloc schema ofInt (fuel + 1) s i o (schema.msgType type)
          = .done (true, s.error msg) := by
        simp only [parseMsg, hat.tokens, hf]
        exact ⟨_, rfl⟩
      exact ⟨s.error msg, w, hr, hat.tokens, hat.rep, hat.shows, .refl w⟩
  | @twice m type D name rest f hf h =>
      intro fuel s w i o hat hfuel hbound
      obtain ⟨fuel, rfl⟩ := Nat.exists_eq_succ_of_ne_zero (Nat.ne_zero_of_lt hfuel)
      have htwice := hat.twice hs (List.mem_of_find?_eq_some hf)
      obtain ⟨msg, hr⟩ : ∃ msg, parseMsg alloc schema ofInt (fuel + 1) s i o (schema.msgType type)
          = .done (true, s.error msg) := by
        simp only [parseMsg, hat.tokens, hf, htwice, decide_eq_true h, ofOption_some, done_bind,
          if_true]
        exact ⟨_, rfl⟩
      exact ⟨s.error msg, w, hr, hat.tokens, hat.rep, hat.shows, .refl w⟩
  | @noColon m type D name rest f hf hk h =>
      intro fuel s w i o hat hfuel hbound
      obtain ⟨fuel, rfl⟩ := Nat.exists_eq_succ_of_ne_zero (Nat.ne_zero_of_lt hfuel)
      obtain ⟨htwice, s1, j, ref, w1, hfield, htoks, hkind, htag, hp, hd, hg, hto, -⟩ :=
        hat.field hs ha (List.mem_of_find?_eq_some hf) (Draft.not_twice hk) hbound
      rw [List.tail_cons] at htoks
      have hsees : s1.sees 58 = false := by rw [Parser.sees_eq, htoks, h]; rfl
      obtain ⟨msg, hr⟩ : ∃ msg, parseMsg alloc schema ofInt (fuel + 1) s i o (schema.msgType type)
          = .done (false, s1.error msg) := by
        simp only [parseMsg, hat.tokens, hf, htwice, hfield, ofOption_some, done_bind,
          Bool.false_eq_true, if_false, hkind, if_neg hk, hsees, if_true]
        exact ⟨_, rfl⟩
      exact ⟨s1.error msg, w1, hr, htoks, hp, hd, hg⟩
  | @refused m type D name rest due f hf hk h ht =>
      intro fuel s w i o hat hfuel hbound
      obtain ⟨fuel, rfl⟩ := Nat.exists_eq_succ_of_ne_zero (Nat.ne_zero_of_lt hfuel)
      obtain ⟨htwice, s1, j, ref, w1, hfield, htoks, hkind, htag, hp, hd, hg, hto, -⟩ :=
        hat.field hs ha (List.mem_of_find?_eq_some hf) (Draft.not_twice hk) hbound
      rw [List.tail_cons] at htoks
      have hsees : s1.sees 58 = true := by rw [Parser.sees_eq, htoks, h]; rfl
      have htoks' : s1.next.toks = due := by
        rw [Parser.next_toks, htoks, expect_eq_some h, List.tail_cons]
      obtain ⟨msg, hparse⟩ := parseValue_eq alloc ofInt schema s1.next j hkind htag name
      rw [htoks', ht] at hparse
      refine ⟨s1.next.error msg, w1, ?_, htoks', hp, hd, hg⟩
      simp only [parseMsg, hat.tokens, hf, htwice, hfield, ofOption_some, done_bind,
        Bool.false_eq_true, Bool.true_eq_false, if_false, hkind, if_neg hk, hsees, hparse, Parser.refuse,
        if_true]
  | @stuck m type D name rest due f hf hk h ht =>
      intro fuel s w i o hat hfuel hbound
      obtain ⟨fuel, rfl⟩ := Nat.exists_eq_succ_of_ne_zero (Nat.ne_zero_of_lt hfuel)
      obtain ⟨htwice, s1, j, ref, w1, hfield, htoks, hkind, htag, hp, hd, hg, hto, -⟩ :=
        hat.field hs ha (List.mem_of_find?_eq_some hf) (Draft.not_twice hk) hbound
      rw [List.tail_cons] at htoks
      have hsees : s1.sees 58 = true := by rw [Parser.sees_eq, htoks, h]; rfl
      have htoks' : s1.next.toks = due := by
        rw [Parser.next_toks, htoks, expect_eq_some h, List.tail_cons]
      obtain ⟨msg, hparse⟩ := parseValue_eq alloc ofInt schema s1.next j hkind htag name
      rw [htoks', ht] at hparse
      show parseMsg alloc schema ofInt (fuel + 1) s i o (schema.msgType type) = .abort
      simp only [parseMsg, hat.tokens, hf, htwice, hfield, ofOption_some, done_bind,
        Bool.false_eq_true, Bool.true_eq_false, if_false, hkind, if_neg hk, hsees, hparse,
        ofOption_none, abort_bind]
  | @value m type D D' name rest due rest' f x v hf hk h ht hrest ih =>
      intro fuel s w i o hat hfuel hbound
      obtain ⟨fuel, rfl⟩ := Nat.exists_eq_succ_of_ne_zero (Nat.ne_zero_of_lt hfuel)
      have hle : (D.ready schema m f).doc.Le ((D.ready schema m f).put m f x).doc :=
        (Doc.next_putVal ..).le
      obtain ⟨htwice, s1, j, ref, w1, hfield, htoks, hkind, htag, hp, hd, hg, hto, -⟩ :=
        hat.field hs ha (List.mem_of_find?_eq_some hf) (Draft.not_twice hk)
          (hbound.of_le (hle.trans hrest.le))
      rw [List.tail_cons] at htoks
      have hsees : s1.sees 58 = true := by rw [Parser.sees_eq, htoks, h]; rfl
      have htoks' : s1.next.toks = due := by
        rw [Parser.next_toks, htoks, expect_eq_some h, List.tail_cons]
      have hshort : ∀ t ∈ due, t.Short := fun t ht =>
        hat.short t (List.mem_cons_of_mem _ ((expect_suffix h).subset ht))
      obtain ⟨M, hM, rfl⟩ := hat.msg
      have hready : (D.doc.ready schema m f).msgs[m]? = _ := View.ready_msg hM
      obtain ⟨s2, w2, hparse, htoks2, hp2, hd2, hg2⟩ := Parser.value_spec (s := s1.next)
        ofInt hs ha hp hd (hto hk) hready
        (mem_fields_ready (List.mem_of_find?_eq_some hf) _) (by rw [htoks']; exact hshort)
        (by rw [htoks']; exact ht) (hrest.le.objects.trans hbound.objects) name
      rw [htoks'] at htoks2
      obtain ⟨M', hM', htype, -⟩ := hle.msg m _ hready
      have hat' : s2.separator.At schema w2 i o m M.type ((D.ready schema m f).put m f x)
          (separator due.tail) := by
        refine ⟨by rw [Parser.separator_toks, htoks2], fun t ht => ?_, ?_, hd2,
          (hat.isMsg.grows hg).grows hg2, M', hM', ?_⟩
        · exact hshort t (((separator_suffix _).trans (List.tail_suffix _)).subset ht)
        · rw [Parser.separator_pool]
          exact hp2
        · rw [htype]
          split_ifs <;> rfl
      have hlen := (value_suffix h).length_le
      rw [List.length_cons] at hfuel
      have hends := ih fuel hat' (by omega) hbound
      have hr : parseMsg alloc schema ofInt (fuel + 1) s i o (schema.msgType M.type)
          = parseMsg alloc schema ofInt fuel s2.separator i o (schema.msgType M.type) := by
        simp only [parseMsg, hat.tokens, hf, htwice, hfield, ofOption_some, done_bind,
          Bool.false_eq_true, Bool.true_eq_false, if_false, hkind, if_neg hk, hsees, hparse]
      rw [hr]
      exact hends.grows (hg.trans hg2)
  | @noOpen m type D name rest f hf hk hnew h =>
      intro fuel s w i o hat hfuel hbound
      obtain ⟨fuel, rfl⟩ := Nat.exists_eq_succ_of_ne_zero (Nat.ne_zero_of_lt hfuel)
      obtain ⟨htwice, s1, j, ref, w1, hfield, htoks, hkind, htag, hp, hd, hg, -, hmsg⟩ :=
        hat.field hs ha (List.mem_of_find?_eq_some hf) hnew hbound
      rw [List.tail_cons] at htoks
      have hsees : (s1.optional 58).sees 123 = false := by
        rw [Parser.sees_eq, Parser.optional_toks, htoks, h]
        rfl
      obtain ⟨msg, hr⟩ : ∃ msg, parseMsg alloc schema ofInt (fuel + 1) s i o (schema.msgType type)
          = .done (false, (s1.optional 58).error msg) := by
        simp only [parseMsg, hat.tokens, hf, htwice, hfield, ofOption_some, done_bind,
          Bool.false_eq_true, if_false, hkind, if_pos hk, hsees, if_true]
        exact ⟨_, rfl⟩
      refine ⟨(s1.optional 58).error msg, w1, hr, ?_, ?_, hd, hg⟩
      · show (s1.optional 58).toks = _
        rw [Parser.optional_toks, htoks]
      · show (s1.optional 58).pool.Rep _
        rw [Parser.optional_pool]
        exact hp
  | @inner m type D D' name rest body rest' f v hf hk hnew h hin hv ih =>
      intro fuel s w i o hat hfuel hbound
      obtain ⟨fuel, rfl⟩ := Nat.exists_eq_succ_of_ne_zero (Nat.ne_zero_of_lt hfuel)
      have hlen := (body_suffix h).length_le
      rw [List.length_cons] at hfuel
      obtain ⟨htwice, s1, j, ref, w1, hfield, hkind, htag, hsees, hg, hat1⟩ :=
        hat.inside hs ha (List.mem_of_find?_eq_some hf) hk hnew (hbound.of_le hin.le) h
      have hends := ih fuel hat1 (by omega) hbound
      cases v with
      | none =>
          have hends' : parseMsg alloc schema ofInt fuel (s1.optional 58).next j ref.o
            (schema.msgType f.tag1) = .abort := hends
          show parseMsg alloc schema ofInt (fuel + 1) s i o (schema.msgType type) = .abort
          simp only [parseMsg, hat.tokens, hf, htwice, hfield, ofOption_some, done_bind,
            Bool.false_eq_true, Bool.true_eq_false, if_false, hkind, if_true, hsees, htag, hends',
            abort_bind]
      | some ok =>
          obtain ⟨s2, w2, hr, htoks, hp, hd, hg2⟩ := hends
          have hok : ok = false := by simpa using hv
          subst hok
          refine ⟨s2, w2, ?_, htoks, hp, hd, hg.trans hg2⟩
          simp only [parseMsg, hat.tokens, hf, htwice, hfield, ofOption_some, done_bind,
            Bool.false_eq_true, Bool.true_eq_false, if_false, hkind, if_true, hsees, htag, hr]
  | @noClose m type D D' name rest body rest' f hf hk hnew h hin hclose ih =>
      intro fuel s w i o hat hfuel hbound
      obtain ⟨fuel, rfl⟩ := Nat.exists_eq_succ_of_ne_zero (Nat.ne_zero_of_lt hfuel)
      have hlen := (body_suffix h).length_le
      rw [List.length_cons] at hfuel
      obtain ⟨htwice, s1, j, ref, w1, hfield, hkind, htag, hsees, hg, hat1⟩ :=
        hat.inside hs ha (List.mem_of_find?_eq_some hf) hk hnew (hbound.of_le hin.le) h
      obtain ⟨s2, w2, hr, htoks, hp, hd, hg2⟩ := ih fuel hat1 (by omega) hbound
      have hsees' : s2.sees 125 = false := by rw [Parser.sees_eq, htoks, hclose]; rfl
      obtain ⟨msg, hr'⟩ : ∃ msg, parseMsg alloc schema ofInt (fuel + 1) s i o (schema.msgType type)
          = .done (false, s2.error msg) := by
        simp only [parseMsg, hat.tokens, hf, htwice, hfield, ofOption_some, done_bind,
          Bool.false_eq_true, Bool.true_eq_false, if_false, hkind, if_true, hsees, htag, hr, hsees']
        exact ⟨_, rfl⟩
      exact ⟨s2.error msg, w2, hr', htoks, hp, hd, hg.trans hg2⟩
  | @sub m type D D' D'' name rest body rest1 rest2 rest' f v hf hk hnew h hin hclose hrest ih ih' =>
      intro fuel s w i o hat hfuel hbound
      obtain ⟨fuel, rfl⟩ := Nat.exists_eq_succ_of_ne_zero (Nat.ne_zero_of_lt hfuel)
      have hlen := (body_suffix h).length_le
      have hlen' := ((close_suffix hclose).trans hin.suffix).length_le
      rw [List.length_cons] at hfuel
      obtain ⟨htwice, s1, j, ref, w1, hfield, hkind, htag, hsees, hg, hat1⟩ := hat.inside hs ha
        (List.mem_of_find?_eq_some hf) hk hnew (hbound.of_le (hin.le.trans hrest.le)) h
      obtain ⟨s2, w2, hr, htoks, hp, hd, hg2⟩ :=
        ih fuel hat1 (by omega) (hbound.of_le hrest.le)
      have hsees' : s2.sees 125 = true := by rw [Parser.sees_eq, htoks, hclose]; rfl
      -- the outer message is still there
      obtain ⟨M, hM, rfl⟩ := hat.msg
      obtain ⟨M', hM', htype, -⟩ := ((Doc.next_ready schema D.doc m f).le.trans hin.le).msg m M hM
      have hat2 : s2.next.separator.At schema w2 i o m M.type D' (separator rest2) := by
        refine ⟨?_, fun t ht => hat1.short t ?_, ?_, hd, (hat.isMsg.grows hg).grows hg2, M', hM', htype⟩
        · rw [Parser.separator_toks, Parser.next_toks, htoks, expect_eq_some hclose, List.tail_cons]
        · exact hin.suffix.subset ((close_suffix hclose).subset ht)
        · rw [Parser.separator_pool]
          exact hp
      have hends := ih' fuel hat2 (by omega) hbound
      have hr' : parseMsg alloc schema ofInt (fuel + 1) s i o (schema.msgType M.type)
          = parseMsg alloc schema ofInt fuel s2.next.separator i o (schema.msgType M.type) := by
        simp only [parseMsg, hat.tokens, hf, htwice, hfield, ofOption_some, done_bind,
          Bool.false_eq_true, Bool.true_eq_false, if_false, hkind, if_true, hsees, htag, hr, hsees']
      rw [hr']
      exact hends.grows (hg.trans hg2)

end

end Nbuf
