import Nbuf.Text.Getters
import Nbuf.Wire.ReaderSafety

set_option autoImplicit false

/-! # What a message says

A reader that follows the schema finds the values of the fields of a message, the elements of its
lists and its submessages. The printer with a schema shows exactly this, whatever the bytes of the
buffer are.
-/

namespace Nbuf

open Outcome

/-! ## Contents -/

/-- **The content of a message**: values and submessages in the order of the fields, and for a list
in the order of its elements. -/
inductive Content where
  | nil
  | value (f : FieldDesc) (x : FieldValue) (rest : Content)
  | sub (f : FieldDesc) (body rest : Content)
  deriving DecidableEq

namespace Content

def append : Content → Content → Content
  | nil, T => T
  | value f x rest, T => value f x (rest.append T)
  | sub f body rest, T => sub f body (rest.append T)

instance : Append Content := ⟨append⟩

@[simp] theorem nil_append (T : Content) : nil ++ T = T := rfl

@[simp] theorem append_nil (T : Content) : T ++ nil = T := by
  induction T with
  | nil => rfl
  | value f x rest ih => exact congrArg (value f x) ih
  | sub f body rest _ ih => exact congrArg (sub f body) ih

@[simp] theorem value_append (f : FieldDesc) (x : FieldValue) (rest T : Content) :
    value f x rest ++ T = value f x (rest ++ T) := rfl

@[simp] theorem sub_append (f : FieldDesc) (body rest T : Content) :
    sub f body rest ++ T = sub f body (rest ++ T) := rfl

theorem append_assoc (S T U : Content) : S ++ T ++ U = S ++ (T ++ U) := by
  induction S with
  | nil => rfl
  | value f x rest ih => exact congrArg (value f x) ih
  | sub f body rest _ ih => exact congrArg (sub f body) ih

end Content

/-- Contents that are found one after the other. -/
def joined {α : Type} (g : α → Outcome Content) : List α → Outcome Content
  | [] => done .nil
  | a :: l => do
      let T ← g a
      let rest ← joined g l
      pure (T ++ rest)

section

variable (b : Buffer) (schema : Schema)

/-- The number of elements of a field. A submessage is there or not, anything else that is no list
always is. -/
def elemCount (o : Obj) (f : FieldDesc) : Option Nat :=
  if f.list = true ∨ f.kind = .ptr then do
    let list ← getPtr b o f.tag0
    pure (if f.list = true then list.nelem else min list.nelem 1)
  else some 1

/-- One element: its value, or what `inner` finds in the message. -/
def readEntry (inner : Obj → MsgType → Outcome Content) (f : FieldDesc) (ref : Ref) :
    Outcome Content :=
  if f.kind = .ptr then do
    let body ← inner ref.o (schema.msgType f.tag1)
    pure (.sub f body .nil)
  else do
    let x ← ofOption (refValue b ref)
    pure (.value f x .nil)

/-- Element `i` of a field, by reflection. -/
def readElem (inner : Obj → MsgType → Outcome Content) (o : Obj) (f : FieldDesc) (i : Nat) :
    Outcome Content := do
  let ref ← ofOption (elemRef b o f i)
  readEntry b schema inner f ref

/-- All elements of a field. -/
def readField (inner : Obj → MsgType → Outcome Content) (o : Obj) (f : FieldDesc) :
    Outcome Content := do
  let n ← ofOption (elemCount b o f)
  joined (readElem b schema inner o f) (List.range n)

/-- **What is found in a message**, as deep as the fuel allows. -/
def readMessage : Nat → Obj → MsgType → Outcome Content
  | 0, _, _ => outOfFuel
  | fuel + 1, o, msgType => joined (readField b schema (readMessage fuel) o) msgType.fields

end

/-! ## Contents as text -/

section

variable (schema : Schema) (fmtFloat : Nat → Int → Text) (indentInc : Int)

/-- A value of a field as the printer writes it. -/
def FieldDesc.valueText (f : FieldDesc) : FieldValue → Text
  | .bool v => if v then asc "true" else asc "false"
  | .int v => decimalInt v
  | .uint v => decimal v
  | .enum v =>
      match enumName (schema.enumType f.tag1) v with
      | some name => cstr name
      | none => decimal v
  | .float v => fmtFloat f.tag1 v
  | .str s => dumpstr s
  | .msg .. => []

/-- A content as the printer writes it: a line for each value, and braces around submessages. -/
def Content.render : Int → Content → Text
  | _, .nil => []
  | indent, .value f x rest =>
      doIndent indent ++ cstr f.name ++ asc ": " ++ f.valueText schema fmtFloat x
        ++ [newline indentInc] ++ rest.render indent
  | indent, .sub f body rest =>
      doIndent indent ++ cstr f.name ++ asc " " ++ (asc "\x7b" ++ [newline indentInc]
        ++ body.render (indent + indentInc) ++ doIndent indent ++ asc "\x7d")
        ++ [newline indentInc] ++ rest.render indent

end

theorem Content.render_append (schema : Schema) (fmtFloat : Nat → Int → Text) (indentInc : Int)
    (T T' : Content) (indent : Int) : (T ++ T').render schema fmtFloat indentInc indent
      = T.render schema fmtFloat indentInc indent
        ++ T'.render schema fmtFloat indentInc indent := by
  induction T with
  | nil => rfl
  | value f x rest ih =>
      rw [value_append, Content.render, Content.render, ih]
      simp only [List.append_assoc]
  | sub f body rest _ ih =>
      rw [sub_append, Content.render, Content.render, ih]
      simp only [List.append_assoc]

/-! ## The printer shows the content -/

/-- The text of what is found. -/
def rendered (schema : Schema) (fmtFloat : Nat → Int → Text) (indentInc indent : Int)
    (x : Outcome Content) : Outcome Text := do
  let T ← x
  pure (T.render schema fmtFloat indentInc indent)

section

variable {b : Buffer} {schema : Schema} {fmtFloat : Nat → Int → Text} {indentInc indent : Int}
  {inner : Obj → MsgType → Outcome Text} {innerT : Obj → MsgType → Outcome Content}
  {f : FieldDesc} {ref : Ref}

theorem rendered_append (x y : Outcome Content) :
    rendered schema fmtFloat indentInc indent (do
        let T ← x
        let rest ← y
        pure (T ++ rest))
      = (do
        let out ← rendered schema fmtFloat indentInc indent x
        let rest ← rendered schema fmtFloat indentInc indent y
        pure (out ++ rest)) := by
  unfold rendered
  cases x with
  | done T =>
      cases y with
      | done T' => exact congrArg done (T.render_append schema fmtFloat indentInc T' indent)
      | abort => rfl
      | outOfFuel => rfl
  | abort => rfl
  | outOfFuel => rfl

theorem concat_rendered {α : Type} {print : α → Outcome Text} {read : α → Outcome Content}
    {l : List α} (h : ∀ a ∈ l, print a = rendered schema fmtFloat indentInc indent (read a)) :
    concat print l = rendered schema fmtFloat indentInc indent (joined read l) := by
  induction l with
  | nil => rfl
  | cons a l ih =>
      rw [concat, joined, rendered_append, h a List.mem_cons_self,
        ih fun a' ha' => h a' (List.mem_cons_of_mem a ha')]

theorem rendered_value (f : FieldDesc) (x : FieldValue) :
    rendered schema fmtFloat indentInc indent (done (.value f x .nil))
      = done (doIndent indent ++ cstr f.name ++ asc ": " ++ f.valueText schema fmtFloat x
          ++ [newline indentInc]) :=
  congrArg done (List.append_nil _)

/-- **One element** as the printer shows it. -/
theorem printValue_eq (hkind : ref.kind = f.kind) (htag : ref.tag1 = f.tag1)
    (hinner : f.kind = .ptr → inner ref.o (schema.msgType f.tag1)
      = rendered schema fmtFloat indentInc (indent + indentInc)
          (innerT ref.o (schema.msgType f.tag1))) : (do
      let value ← printValue b schema fmtFloat indentInc inner indent ref
      pure (doIndent indent ++ cstr f.name ++ fieldSep ref.kind ++ value ++ [newline indentInc]))
    = rendered schema fmtFloat indentInc indent (readEntry b schema innerT f ref) := by
  unfold printValue readEntry refValue
  rw [hkind, htag]
  cases hk : f.kind with
  | ptr =>
      simp only [if_true, hinner hk]
      unfold rendered
      cases innerT ref.o (schema.msgType f.tag1) with
      | done T => simp [Content.render, fieldSep]
      | abort => rfl
      | outOfFuel => rfl
  | enum =>
      cases refGetInt b ref with
      | none => rfl
      | some v =>
          simp only [Option.map_some, ofOption_some, done_bind, pure_eq, reduceCtorEq, if_false,
            rendered_value, FieldDesc.valueText]
          cases enumName (schema.enumType f.tag1) (toU64 v % 2 ^ 16) <;> rfl
  | bool =>
      cases refGetBit b ref with
      | none => rfl
      | some v => exact (rendered_value f (.bool v)).symm
  | int =>
      cases refGetInt b ref with
      | none => rfl
      | some v => exact (rendered_value f (.int v)).symm
  | uint =>
      cases refGetInt b ref with
      | none => rfl
      | some v => exact (rendered_value f (.uint (toU64 v))).symm
  | float =>
      cases refGetFloat b ref with
      | none => rfl
      | some v => exact (rendered_value f (.float v)).symm
  | str =>
      cases refGetStr b ref with
      | none => rfl
      | some s => exact (rendered_value f (.str s)).symm

end

/-! ## Elements of lists -/

section

variable {b : Buffer} {o list : Obj} {f : FieldDesc}

/-- The reference that `nbuf_ref_get_ptr` makes of a list or a submessage. -/
def listRef (o : Obj) (f : FieldDesc) (list : Obj) : Ref :=
  { getRef o f with
    o := if f.kind = .bool then Obj.ofFields list.base list.nelem 1 list.psize else list
    tag0 := 0 }

theorem refGetPtr_eq (hptr : f.list = true ∨ f.kind = .ptr) :
    refGetPtr b (getRef o f) = (getPtr b o f.tag0).map (listRef o f) := by
  unfold refGetPtr
  rw [assertC_pos (show (getRef o f).list = true ∨ (getRef o f).kind = .ptr from hptr)]
  show (getPtr b o f.tag0).bind _ = _
  cases getPtr b o f.tag0 <;> rfl

/-- The reference to an element of a list lies inside the buffer. -/
structure ListElem (b : Buffer) (f : FieldDesc) (n : Nat) (ref : Ref) : Prop where
  kind : ref.kind = f.kind
  tag1 : ref.tag1 = f.tag1
  list : ref.list = true
  nelem : ref.o.nelem = n
  inside : boundsCheck b ref.o.base ref.o.ssize = true
  fits : f.kind ≠ .bool → ref.o.base + ref.o.elemsz ≤ b.len

theorem elemRef_succ (hlist : f.list = true) (i : Nat) : elemRef b o f (i + 1)
    = (elemRef b o f i).bind fun ref => refAdvance ref 1 := by
  unfold elemRef
  simp only [getRef, hlist, true_or, if_true, Option.bind_eq_bind]
  cases hget : refGetPtr b ⟨o, f.kind, f.list, f.tag0, f.tag1⟩ with
  | none => simp [hlist ▸ hget]
  | some ref =>
      have hkeep : ref.list = true := by
        unfold refGetPtr at hget
        rw [assertC_bind_eq_some] at hget
        obtain ⟨list, -, href⟩ := Option.bind_eq_some_iff.mp hget.2
        cases href
        exact hlist
      rw [hlist] at hget
      simp only [hget, Option.bind_some, if_pos hkeep]
      rfl

/-- **Element `i` of a list** that is accepted. -/
theorem elemRef_listElem (hlen : b.len < 2 ^ 63) (hlist : f.list = true)
    (hptr : getPtr b o f.tag0 = some list) {i : Nat} (hi : i < list.nelem) :
    ∃ ref, elemRef b o f i = some ref ∧ ListElem b f (list.nelem - i) ref := by
  obtain ⟨hbase, hacc⟩ := getPtr_accepted hlen hptr
  have hrows := hacc.rows_fit (by omega)
  have hsmall := list.nelem_lt
  unfold elemRef
  simp only [getRef, hlist, true_or, if_true, refGetPtr, hptr, Option.bind_eq_bind, assertC_pos,
    Option.bind_some]
  by_cases hbool : f.kind = .bool
  · simp only [if_pos hbool]
    have hn : (Obj.ofFields list.base list.nelem 1 list.psize).nelem = list.nelem :=
      Obj.ofFields_nelem list.nelem_lt
    refine ⟨_, advance_bits hbool rfl (show list.base < 2 ^ 64 by omega) (by rw [hn]; exact hi),
      rfl, rfl, rfl, ?_, ?_, fun hk => absurd hbool hk⟩
    · show (Obj.ofFields _ _ _ _).nelem = _
      rw [hn, Obj.ofFields_nelem (by omega)]
    · -- a row is at least a byte, and holds at most eight bits
      have hbyte : i / 8 < list.rows := by
        unfold Obj.rows
        split_ifs <;> omega
      have hrow : i / 8 + 1 ≤ list.rows * list.stride := by
        calc i / 8 + 1 ≤ list.rows := hbyte
          _ ≤ list.rows * list.stride := Nat.le_mul_of_pos_right _ list.stride_pos
      show boundsCheck b (sizeT (list.base + i / 8)) 1 = true
      rw [sizeT_of_lt (by omega)]
      exact (boundsCheck_of_len_lt hlen (by decide)).mpr (by omega)
  · simp only [if_neg hbool]
    have hfit : list.base + i * list.elemsz + list.elemsz ≤ b.len := by
      by_cases h0 : list.elemsz = 0
      · rw [h0]
        omega
      · have hle : (i + 1) * list.elemsz ≤ list.rows * list.stride := by
          rw [Obj.stride_eq h0, Obj.rows, if_neg h0]
          exact Nat.mul_le_mul_right _ hi
        rw [Nat.succ_mul] at hle
        omega
    have hpos : (list.skip i).base = list.base + i * list.elemsz := sizeT_of_lt (by omega)
    have hss : (list.skip i).ssize = list.ssize := Obj.ofFields_ssize list.ssize_lt
    have hsz : (list.skip i).elemsz = list.elemsz := by
      rw [Obj.elemsz_eq, list.elemsz_eq, hss]
      exact congrArg (fun n => list.ssize + n * 4) (Obj.ofFields_psize list.psize_lt)
    refine ⟨_, advance_elems hbool (show list.base < 2 ^ 64 by omega) hi, rfl, rfl, rfl, ?_, ?_,
      fun _ => ?_⟩
    · exact Obj.ofFields_nelem (show list.nelem - i < 2 ^ 32 by omega)
    · have hle := list.elemsz_eq
      have hlt := list.ssize_lt
      show boundsCheck b (list.skip i).base (list.skip i).ssize = true
      rw [hpos, hss]
      exact (boundsCheck_of_len_lt hlen (by omega)).mpr (by omega)
    · show (list.skip i).base + (list.skip i).elemsz ≤ b.len
      rw [hpos, hsz]
      exact hfit

end

/-! ## Messages -/

section

variable {b : Buffer} {schema : Schema} {fmtFloat : Nat → Int → Text} {indentInc indent : Int}
  {inner : Obj → MsgType → Outcome Text} {innerT : Obj → MsgType → Outcome Content}
  {o : Obj} {f : FieldDesc}

/-- The loop of the printer from element `i` on. -/
theorem printElems_list (hlen : b.len < 2 ^ 63) (hlist : f.list = true) {list : Obj}
    (hptr : getPtr b o f.tag0 = some list)
    (hinner : ∀ o' ms, o'.base + o'.elemsz ≤ b.len → inner o' ms
      = rendered schema fmtFloat indentInc (indent + indentInc) (innerT o' ms)) :
    ∀ (n i : Nat) (ref : Ref), elemRef b o f i = some ref → i < list.nelem → i + n = list.nelem →
      printElems b schema fmtFloat indentInc inner f.name indent n ref
        = rendered schema fmtFloat indentInc indent
            (joined (readElem b schema innerT o f) (List.range' i n)) := by
  intro n
  induction n with
  | zero => intro i ref _ hi hn; omega
  | succ n ih =>
      intro i ref href hi hn
      obtain ⟨ref', href', hat⟩ := elemRef_listElem hlen hlist hptr hi
      rw [href, Option.some.injEq] at href'
      subst href'
      have hsub : f.kind = .ptr → inner ref.o (schema.msgType f.tag1)
          = rendered schema fmtFloat indentInc (indent + indentInc)
              (innerT ref.o (schema.msgType f.tag1)) :=
        fun hk => hinner ref.o (schema.msgType f.tag1) (hat.fits (by simp [hk]))
      have hvalue := printValue_eq (b := b) hat.kind hat.tag1 hsub
      have hread : readElem b schema innerT o f i = readEntry b schema innerT f ref := by
        rw [readElem, href]
        rfl
      have hnext : elemRef b o f (i + 1) = refAdvance ref 1 := by
        rw [elemRef_succ hlist, href]
        rfl
      rw [List.range'_succ, joined, rendered_append, hread, ← hvalue, printElems, hat.inside,
        if_neg (by decide)]
      cases printValue b schema fmtFloat indentInc inner indent ref with
      | abort => rfl
      | outOfFuel => rfl
      | done value =>
          simp only [done_bind, pure_eq, if_pos hat.list]
          by_cases hlast : i + 1 < list.nelem
          · obtain ⟨ref', href', -⟩ := elemRef_listElem hlen hlist hptr hlast
            rw [← ih (i + 1) ref' href' hlast (by omega), ← hnext, href']
          · have hend : refAdvance ref 1 = none := if_pos (by rw [hat.nelem]; omega)
            obtain rfl : n = 0 := by omega
            rw [hend]
            exact congrArg done (List.append_nil _).symm

/-- **One field** as the printer shows it. -/
theorem printField_eq (hlen : b.len < 2 ^ 63) (ho : o.base + o.elemsz ≤ b.len)
    (hinner : ∀ o' ms, o'.base + o'.elemsz ≤ b.len → inner o' ms
      = rendered schema fmtFloat indentInc (indent + indentInc) (innerT o' ms)) (f : FieldDesc) :
    printField b schema fmtFloat indentInc inner indent o f
      = rendered schema fmtFloat indentInc indent (readField b schema innerT o f) := by
  -- a field that is no list has one element at most
  have hone : ∀ ref : Ref, ref.list = false → ref.kind = f.kind → ref.tag1 = f.tag1 →
      ref.o.base + ref.o.elemsz ≤ b.len → elemRef b o f 0 = some ref → ∀ n,
      printElems b schema fmtFloat indentInc inner f.name indent n ref
        = rendered schema fmtFloat indentInc indent
            (joined (readElem b schema innerT o f) (List.range 1)) := by
    intro ref hl hkind htag hfit href n
    have hsz := ref.o.elemsz_eq
    have hlt := ref.o.ssize_lt
    have hin : boundsCheck b ref.o.base ref.o.ssize = true :=
      (boundsCheck_of_len_lt hlen (by omega)).mpr (by omega)
    have hread : joined (readElem b schema innerT o f) (List.range 1)
        = readEntry b schema innerT f ref := by
      rw [List.range_one, joined, readElem, href, ofOption_some, done_bind]
      cases readEntry b schema innerT f ref with
      | done T => exact congrArg done T.append_nil
      | abort => rfl
      | outOfFuel => rfl
    rw [hread, ← printValue_eq hkind htag fun _ => hinner ref.o _ hfit, printElems, hin,
      if_neg (by decide)]
    cases printValue b schema fmtFloat indentInc inner indent ref with
    | abort => rfl
    | outOfFuel => rfl
    | done value =>
        cases n with
        | zero => rfl
        | succ n => simp only [done_bind, pure_eq, hl, Bool.false_eq_true, if_false]
  unfold printField readField elemCount
  by_cases hptr : f.list = true ∨ f.kind = .ptr
  · have hget := refGetPtr_eq (b := b) (o := o) hptr
    simp only
    rw [if_pos (show (getRef o f).list = true ∨ (getRef o f).kind = .ptr from hptr), if_pos hptr, hget]
    cases hlist : getPtr b o f.tag0 with
    | none => rfl
    | some list =>
        rw [hlist] at hget
        obtain ⟨hbase, hacc⟩ := getPtr_accepted hlen hlist
        have hn : (listRef o f list).o.nelem = list.nelem := by
          unfold listRef
          split_ifs
          · exact Obj.ofFields_nelem list.nelem_lt
          · rfl
        simp only [Option.map_some, Option.bind_eq_bind, Option.bind_some, Option.pure_def, ofOption_some,
          done_bind, pure_eq, hn]
        by_cases hl : f.list = true
        · have hfirst : elemRef b o f 0 = some (listRef o f list) := by
            unfold elemRef
            simp only
            rw [if_pos (show (getRef o f).list = true ∨ (getRef o f).kind = .ptr from hptr), hget,
              Option.map_some]
            exact if_pos hl
          rw [if_pos hl]
          split_ifs with h0
          · rw [h0]
            rfl
          · rw [List.range_eq_range']
            exact printElems_list hlen hl hlist hinner _ 0 _ hfirst (by omega) (Nat.zero_add _)
        · rw [if_neg hl]
          have hk : f.kind = .ptr := hptr.resolve_left hl
          split_ifs with h0
          · rw [h0]
            rfl
          · rw [Nat.min_eq_right (by omega)]
            refine hone _ (show f.list = false by simpa using hl) rfl rfl ?_ ?_ _
            · unfold listRef
              rw [if_neg (by simp [hk])]
              exact hacc.elem_fits (by omega)
            · unfold elemRef
              simp only
              rw [if_pos (show (getRef o f).list = true ∨ (getRef o f).kind = .ptr from hptr), hget,
                Option.map_some]
              exact if_neg hl
  · have hnot : ¬ ((getRef o f).list = true ∨ (getRef o f).kind = .ptr) := hptr
    have hl : f.list = false := by simpa using fun h => hptr (Or.inl h)
    simp only
    rw [if_neg hnot, if_neg hptr, ofOption_some, done_bind]
    exact hone _ hl rfl rfl ho (if_neg hnot) _

/-- **The printer with a schema shows what is found**, whatever the buffer holds. -/
theorem doPrint_eq (hlen : b.len < 2 ^ 63) : ∀ (fuel : Nat) (indent : Int) (o : Obj) (ms : MsgType),
    o.base + o.elemsz ≤ b.len → doPrint b schema fmtFloat indentInc fuel indent o ms
      = rendered schema fmtFloat indentInc indent (readMessage b schema fuel o ms) := by
  intro fuel
  induction fuel with
  | zero => exact fun _ _ _ _ => rfl
  | succ fuel ih =>
      intro indent o ms ho
      exact concat_rendered fun f _ =>
        printField_eq hlen ho (fun o' ms' ho' => ih (indent + indentInc) o' ms' ho') f

end

end Nbuf
