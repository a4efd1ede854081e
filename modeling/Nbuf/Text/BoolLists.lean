import Nbuf.Text.ParseText
import Nbuf.Text.ReadsKept

set_option autoImplicit false

/-! # Lists of booleans

`nbuf_ref_init_ptr` makes a new list with one element of no bytes, and its handle has no scalar part, so
that `nbuf_put_bit` drops the first boolean. The later ones are put through the handles of elements.
-/

namespace Nbuf

open Outcome

/-! ## What is given and what is read -/

/-- The boolean that a token stands for. -/
def Token.bool : Token → Bool
  | .int v => decide (v ≠ 0)
  | .id s => decide (cstr s = asc "true")
  | _ => false

/-- The lists of booleans of a message have the booleans that they are given, and no others. -/
def Fields.BoolsRead (schema : Schema) (b : Buffer) (type : Nat) (T : Fields) (o : Obj) : Prop :=
  ∀ f ∈ (schema.msgType type).fields, f.kind = .bool → f.list = true →
    ∃ list, getPtr b o f.tag0 = some list ∧ list.nelem = (T.givenTo f).length ∧
      ∀ i t, (T.givenTo f)[i]? = some t → getBit b (getElem list i) (i % 8) = some t.bool

/-- `P` holds of the type, the fields and the handle of each submessage. -/
def Fields.EachSub (b : Buffer) (P : Nat → Fields → Obj → Prop) :
    Fields → Obj → List FieldDesc → Prop
  | .nil, _, _ => True
  | .value f _ rest, o, prior => rest.EachSub b P o (f :: prior)
  | .sub f body rest, o, prior =>
      (∃ ref, elemRef b o f (prior.count f) = some ref ∧ P f.tag1 body ref.o ∧
        body.EachSub b P ref.o []) ∧
      rest.EachSub b P o (f :: prior)

/-- No list of booleans starts with `true`. -/
def Fields.FirstsFalse (schema : Schema) (type : Nat) (T : Fields) : Prop :=
  ∀ f ∈ (schema.msgType type).fields, f.kind = .bool → f.list = true →
    ∀ t ∈ (T.givenTo f).head?, t.bool = false

/-- `Q` holds of the type and the fields of each submessage. -/
def Fields.AllSubs (Q : Nat → Fields → Prop) : Fields → Prop
  | .nil => True
  | .value _ _ rest => rest.AllSubs Q
  | .sub f body rest => (Q f.tag1 body ∧ body.AllSubs Q) ∧ rest.AllSubs Q

section

variable {schema : Schema} {ofInt : Int → Int × Int} {w : View} {d : Doc} {b : Buffer} {m type : Nat}
  {o : Obj} {M : DocMsg} {f : FieldDesc} {t : Token} {x : Val} {T : Fields} {toks : List Token}
  {seen : List FieldDesc}

theorem taken_bool (hk : f.kind = .bool) (hx : taken schema ofInt f (some t) = .value x) :
    x = .bit t.bool := by
  unfold taken at hx
  rw [hk] at hx
  cases t with
  | int v => exact (Taken.value.inj hx).symm
  | id s =>
      simp only at hx
      show x = .bit (decide (cstr s = asc "true"))
      split_ifs at hx with htrue hfalse
      · rw [decide_eq_true htrue]
        exact (Taken.value.inj hx).symm
      · rw [decide_eq_false htrue]
        exact (Taken.value.inj hx).symm
  | flt | str | chr => cases hx

/-- **One message**: its lists are read as they are given exactly if none starts with `true`. -/
theorem Spells.boolsRead_iff (hd : w.Stores schema d b)
    (h : Spells schema Token.IsText type seen toks T) (hkept : T.Kept schema ofInt d m [])
    (ho : w.Opens m o) (hM : d.msgs[m]? = some M) (htype : M.type = type) :
    T.BoolsRead schema b type o ↔ T.FirstsFalse schema type := by
  refine forall_congr' fun f => forall_congr' fun hf => forall_congr' fun hk =>
    forall_congr' fun hl => ?_
  have hnp : f.kind ≠ .ptr := by simp [hk]
  obtain ⟨list, hptr, hlen, hbits⟩ := hd.bit ho hM (htype ▸ hf) hl hk
  have hlength : list.nelem = (T.givenTo f).length := by
    rw [hlen, h.kept_length hkept hl hnp hM, List.count_nil, Nat.zero_add]
  -- the first element is false, the others are as given
  have hread : ∀ i t, (T.givenTo f)[i]? = some t →
      getBit b (getElem list i) (i % 8) = some (decide (i ≠ 0) && t.bool) := by
    intro i t ht
    obtain ⟨x, hx, M', hM', hkeeps⟩ := h.kept_element hkept hl hnp ht
    rw [hM, Option.some.injEq] at hM'
    subst hM'
    rw [taken_bool hk hx, DocMsg.Keeps, if_pos hl, List.count_nil, Nat.zero_add] at hkeeps
    exact hbits i _ hkeeps
  constructor
  · rintro ⟨list', hptr', -, hall⟩ t ht
    rw [hptr, Option.some.injEq] at hptr'
    subst hptr'
    rw [Option.mem_def, List.head?_eq_getElem?] at ht
    have hfirst := hall 0 t ht
    rw [hread 0 t ht] at hfirst
    simpa using hfirst.symm
  · intro hfirst
    refine ⟨list, hptr, hlength, fun i t ht => ?_⟩
    rw [hread i t ht]
    cases i with
    | zero =>
        rw [hfirst t (by rw [Option.mem_def, List.head?_eq_getElem?, ht])]
        rfl
    | succ i => rfl

/-- **All submessages** of a message. -/
theorem Spells.eachSub_iff (hd : w.Stores schema d b)
    (h : Spells schema Token.IsText type seen toks T) : ∀ {m : Nat} {o : Obj} {M : DocMsg}
      {prior : List FieldDesc}, T.Kept schema ofInt d m prior → w.Opens m o → d.msgs[m]? = some M →
      M.type = type → (T.EachSub b (fun type T o => T.BoolsRead schema b type o) o prior ↔
        T.AllSubs fun type T => T.FirstsFalse schema type) := by
  induction h with
  | nil => exact fun _ _ _ _ => Iff.rfl
  | value _ _ _ _ ih => exact fun hkept ho hM htype => ih hkept.2 ho hM htype
  | @sub type _ name f _ _ _ _ B T hf hk _ _ hbody _ hrest ih ih' =>
      intro m o M prior hkept ho hM htype
      obtain ⟨⟨m', M', -, hM', htype', ⟨M1, hM1, hkeeps⟩, hbodyKept⟩, hrestKept⟩ := hkept
      rw [hM, Option.some.injEq] at hM1
      subst hM1
      obtain ⟨ref, href, hopens⟩ := hd.sub ho hM (htype ▸ findField_mem hf) hk hkeeps
      unfold Fields.EachSub Fields.AllSubs
      rw [ih' hrestKept ho hM htype, ← ih hbodyKept hopens hM' htype',
        ← hbody.boolsRead_iff hd hbodyKept hopens hM' htype']
      refine and_congr_left fun _ => ⟨fun ⟨ref', href', hall⟩ => ?_, fun hall => ⟨ref, href, hall⟩⟩
      rw [href, Option.some.injEq] at href'
      exact href' ▸ hall

end

/-! ## Texts with lists of booleans -/

section

variable (conv : Number → Token) (alloc : Nat → Realloc) (schema : Schema) (ofInt : Int → Int × Int)

/-- What a text spells is parsed, and all its lists of booleans are read as they are given. -/
def BoolListsRead (addr : Nat) (haddr : addr < 2 ^ 64) (type : Nat) (text : Text) : Prop :=
  ∀ T, Spells schema Token.IsText type [] (tokens conv text) T → ∃ r errs b o,
    nbufParseText conv alloc schema ofInt addr haddr (schema.msgType type) text = done (r, errs) ∧
    r.ok = true ∧ r.buf = some b ∧ objInit b Obj.null 0 = some o ∧ T.BoolsRead schema b type o ∧
    T.EachSub b (fun type T o => T.BoolsRead schema b type o) o []

variable {conv alloc schema ofInt}

/-- **Which lists of booleans are read as they are given**: those that do not start with `true`. -/
theorem boolListsRead_iff {desc : T2b.SchemaDesc} (hschema : T2b.t2b desc = some schema)
    (hfits : T2b.Fits desc) (ha : ∀ n, (alloc n).Total) {addr : Nat} (haddr : addr < 2 ^ 64)
    {type : Nat} (htype : type < schema.msgTypes.length) {text : Text}
    (hbound : TextBounded schema ofInt type (tokens conv text))
    (hnear : (textDoc schema ofInt type (tokens conv text)).bytes ≤ 2 ^ 33) :
    BoolListsRead conv alloc schema ofInt addr haddr type text ↔
      ∀ T, Spells schema Token.IsText type [] (tokens conv text) T →
        T.FirstsFalse schema type ∧ T.AllSubs fun type T => T.FirstsFalse schema type := by
  refine forall_congr' fun T => forall_congr' fun hT => ?_
  obtain ⟨r, b, o, w, d, M, hr, hok, hbuf, hroot, hd, ho, hM, hMtype, hkept⟩ :=
    hT.parse (T2b.t2b_sound hschema hfits) ha haddr htype hbound hnear
  obtain ⟨errs, hrun⟩ := nbufParseText_of_done hr
  rw [← hT.boolsRead_iff hd hkept ho hM hMtype, ← hT.eachSub_iff hd hkept ho hM hMtype]
  constructor
  · rintro ⟨r', errs', b', o', hrun', -, hbuf', hroot', hall⟩
    rw [hrun, done.injEq, Prod.mk.injEq] at hrun'
    obtain ⟨rfl, -⟩ := hrun'
    rw [hbuf, Option.some.injEq] at hbuf'
    subst hbuf'
    rw [hroot, Option.some.injEq] at hroot'
    subst hroot'
    exact hall
  · exact fun hall => ⟨r, errs, b, o, hrun, hok, hbuf, hroot, hall⟩

end

/-! ## A first boolean that is lost -/

/-- A message with a list of booleans. -/
def flagsDesc : T2b.SchemaDesc := ⟨none, [], [⟨asc "Flags", [⟨asc "on", asc "bool", true⟩]⟩]⟩

def onField : FieldDesc := ⟨asc "on", .bool, true, 0, 0⟩

/-- The schema as it is compiled. -/
def flagsSchema : Schema := ⟨[], [], [⟨asc "Flags", [onField], 0, 1⟩]⟩

/-- `on: true` -/
def onText : Text := asc "on: true"

theorem tokens_onText (conv : Number → Token) :
    tokens conv onText = [.id (asc "on"), .chr 58, .id (asc "true")] := by
  have hname : nbufLex conv onText = ⟨some (.id (asc "on")), [], asc ": true"⟩ :=
    nbufLex_token _ (by decide) (by decide) (by decide)
  have hcolon : nbufLex conv (asc ": true") = ⟨some (.chr 58), [], asc " true"⟩ :=
    nbufLex_token _ (by decide) (by decide) (by decide)
  have htrue : nbufLex conv (asc " true") = ⟨some (.id (asc "true")), [], []⟩ := by
    rw [← nbufLex_skipspaces]
    exact nbufLex_token _ (by decide) (by decide) (by decide)
  rw [tokens, lexCalls_cons hname, lexCalls_cons hcolon, lexCalls_cons htrue, lexCalls_end rfl]
  rfl

theorem onText_spells (conv : Number → Token) : Spells flagsSchema Token.IsText 0 []
    (tokens conv onText) (.value onField (.id (asc "true")) .nil) := by
  have hfield : findField (flagsSchema.msgType 0) (asc "on") = some onField := by decide +kernel
  rw [tokens_onText]
  exact .value hfield (Or.inr ⟨_, rfl, Or.inl rfl⟩) (Or.inl rfl) .nil

/-- **A single `true` is read as false.** -/
theorem onText_not_read : T2b.t2b flagsDesc = some flagsSchema ∧
    ¬ BoolListsRead (Number.token fun _ => (0, 0)) granting flagsSchema (fun v => (v, v)) 4096
      (by decide) 0 onText := by
  have h : (match nbufParse granting flagsSchema (fun v => (v, v)) 4096 (by decide)
      (flagsSchema.msgType 0) [.id (asc "on"), .chr 58, .id (asc "true")] with
    | .done r => decide ((r.buf.bind fun b => (objInit b Obj.null 0).bind fun o =>
        (getPtr b o onField.tag0).bind fun list => getBit b (getElem list 0) 0) = some false)
    | _ => false) = true := by decide +kernel
  refine ⟨by decide +kernel, fun hread => ?_⟩
  obtain ⟨r, errs, b, o, hrun, -, hbuf, hroot, hall, -⟩ := hread _ (onText_spells _)
  obtain ⟨hr, -⟩ := nbufParseText_eq_done hrun
  obtain ⟨list, hptr, -, hfirst⟩ := hall onField (by decide +kernel) rfl rfl
  have htrue : getBit b (getElem list 0) 0 = some true := hfirst 0 _ rfl
  rw [tokens_onText] at hr
  simp only [hr, hbuf, hroot, hptr, htrue, Option.bind_some] at h
  cases h

theorem onText_condition : TextBounded flagsSchema (fun v => (v, v)) 0
      (tokens (Number.token fun _ => (0, 0)) onText) ∧
    (BoolListsRead (Number.token fun _ => (0, 0)) granting flagsSchema (fun v => (v, v)) 4096
        (by decide) 0 onText ↔
      ∀ T, Spells flagsSchema Token.IsText 0 [] (tokens (Number.token fun _ => (0, 0)) onText) T →
        T.FirstsFalse flagsSchema 0 ∧
          T.AllSubs fun type T => T.FirstsFalse flagsSchema type) := by
  have hbound : TextBounded flagsSchema (fun v => (v, v)) 0
        (tokens (Number.token fun _ => (0, 0)) onText) ∧
      (textDoc flagsSchema (fun v => (v, v)) 0
        (tokens (Number.token fun _ => (0, 0)) onText)).bytes ≤ 2 ^ 33 := by
    rw [tokens_onText]
    decide +kernel
  exact ⟨hbound.1, boolListsRead_iff (show T2b.t2b flagsDesc = some flagsSchema by decide +kernel)
    (show T2b.Fits flagsDesc by decide +kernel) (fun _ _ => rfl) (by decide) (by decide) hbound.1
    hbound.2⟩

end Nbuf
