import Nbuf.Schema.FieldAccess
import Nbuf.Text.DocRefs

set_option autoImplicit false

/-! # Clients that fill in messages

A client creates messages on a builder and gives values to their fields, in any order: lists get
one more element each time, other fields are set. `Given` is what it has given so far, and
`Client.Rel` ties it to the document that the builder holds.
-/

namespace Nbuf

open Run ByteMem Cover

/-! ## What is given -/

/-- A value for a field. A number of kind `float` is given by its bits, as a signed number. -/
inductive Val where
  | num (v : Int)
  | bit (v : Bool)
  | str (s : Text)
  | msg (m : Nat)
  deriving DecidableEq

/-- A message with the values that were given to its fields: a list keeps all of them in order,
any other field the last one. -/
structure Given where
  type : Nat
  vals : FieldDesc → List Val

/-- A message whose fields were given no values. -/
def Given.blank (type : Nat) : Given := ⟨type, fun _ => []⟩

/-- A field is given a value. -/
def Given.give (G : Given) (f : FieldDesc) (x : Val) : Given :=
  { G with vals := Function.update G.vals f (if f.list = true then G.vals f ++ [x] else [x]) }

/-- What a client does with the field of a message: it appends to lists, and sets other fields. -/
inductive Op where
  | create (type : Nat)
  | num (m : Nat) (f : FieldDesc) (v : Int)
  | bit (m : Nat) (f : FieldDesc) (v : Bool)
  | str (m : Nat) (f : FieldDesc) (s : Text) (len : Nat)
  | msg (m : Nat) (f : FieldDesc)

/-- The string that `nbuf_put_str` is given. -/
def givenStr (s : Text) (len : Nat) : Text := s.take ((strLength s len).getD 0)

/-- Messages are known by their numbers, in the order in which they are made. -/
def Op.give (gs : List Given) : Op → List Given
  | .create type => gs ++ [Given.blank type]
  | .num m f v => gs.modify m fun G => G.give f (.num v)
  | .bit m f v => gs.modify m fun G => G.give f (.bit v)
  | .str m f s len => gs.modify m fun G => G.give f (.str (givenStr s len))
  | .msg m f => (gs.modify m fun G => G.give f (.msg gs.length)) ++ [Given.blank f.tag1]

/-- All that a client has given. -/
def given (ops : List Op) : List Given := ops.foldl Op.give []

/-! ## The client -/

/-- A builder and the handles of the messages on it, with the buffers they are in. -/
structure Client where
  pool : Pool
  msgs : List (Nat × Obj)
  clock : Nat

/-- `nbuf_ref_put_int`, or `nbuf_ref_put_float` with the number that has the given bits. -/
def refPutNum (b : Buffer) (ref : Ref) (v : Int) : Option Buffer :=
  if ref.kind = .float then refPutFloat b ref fun _ => toU64 v else refPutInt b ref v

/-- One call, or the two calls of an append. -/
def Client.step (alloc : Nat → Realloc) (schema : Schema) (s : Client) : Op → Option Client
  | .create type => do
      let (p, o) ← s.pool.create (alloc s.clock) 1 (schema.msgType type).ssize
        (schema.msgType type).psize
      pure ⟨p, s.msgs ++ [(s.pool.buffercount, o)], s.clock + 2⟩
  | .num m f v => do
      let (i, o) ← s.msgs[m]?
      let (p, j, ref) ← s.pool.fieldRef (alloc s.clock) schema i o f
      let p ← p.onBuf j fun b => refPutNum b ref v
      pure ⟨p, s.msgs, s.clock + 2⟩
  | .bit m f v => do
      let (i, o) ← s.msgs[m]?
      let (p, j, ref) ← s.pool.fieldRef (alloc s.clock) schema i o f
      let p ← p.onBuf j fun b => refPutBit b ref v
      pure ⟨p, s.msgs, s.clock + 2⟩
  | .str m f str len => do
      let (i, o) ← s.msgs[m]?
      let (p, j, ref) ← s.pool.fieldRef (alloc s.clock) schema i o f
      let p ← p.refPutStr (alloc (s.clock + 1)) j ref str len
      pure ⟨p, s.msgs, s.clock + 2⟩
  | .msg m f => do
      let (i, o) ← s.msgs[m]?
      let (p, j, ref) ← s.pool.fieldRef (alloc s.clock) schema i o f
      pure ⟨p, s.msgs ++ [(j, ref.o)], s.clock + 2⟩

/-- The client, together with what it has given. -/
def Client.stepBoth (alloc : Nat → Realloc) (schema : Schema) (s : Client × List Given) (op : Op) :
    Option (Client × List Given) :=
  (s.1.step alloc schema op).map fun c => (c, op.give s.2)

/-! ## Calls that may be made -/

/-- The values of a field. -/
def valuesOf (gs : List Given) (m : Nat) (f : FieldDesc) : List Val :=
  (gs[m]?).elim [] fun G => G.vals f

/-- A number that the getter of the field can return: nonnegative for a `UINT` that is narrower
than the `int64_t` that is given, and signed for all others. -/
def FieldDesc.FitsNum (f : FieldDesc) (v : Int) : Prop :=
  if f.kind = .uint ∧ f.width < 8 then 0 ≤ v ∧ v < 256 ^ f.width
  else -(256 ^ f.width : Int) ≤ 2 * v ∧ 2 * v < 256 ^ f.width

/-- Is a new object made for the field? -/
def newObject (gs : List Given) (m : Nat) (f : FieldDesc) : Nat :=
  if (f.list = true ∨ f.kind = .ptr) ∧ valuesOf gs m f = [] then 1 else 0

/-- The field of an existing message. After the call there are at most `2 ^ 31` objects, a list has
fewer than `2 ^ 32 - 1` elements, and fewer than `2 ^ 32 - 7` if its elements have no bytes. -/
structure Client.MayGive (schema : Schema) (s : Client) (gs : List Given) (m : Nat) (f : FieldDesc)
    (more : Nat) : Prop where
  field : ∃ G ∈ gs[m]?, f ∈ (schema.msgType G.type).fields
  length : f.list = true → (valuesOf gs m f).length + 1 < 2 ^ 32 - 1
  bits : f.list = true → getSize schema f.kind f.tag1 = (0, 0) →
    (valuesOf gs m f).length + 1 < 2 ^ 32 - 7
  objects : s.pool.buffercount + newObject gs m f + more ≤ 2 ^ 31

/-- The buffer of the object that a string of `n` bytes hangs on is as long as the buffer of the
string has to be: metadata, header, string and NUL. For a list it is the buffer of the list with
its new element, for a field the one of the message. -/
def Client.StrRoom (s : Client) (gs : List Given) (m : Nat) (f : FieldDesc) (n : Nat) : Prop :=
  if f.list = true then 24 + n + 1 ≤ metaSize + blockBytes (0, 1) ((valuesOf gs m f).length + 1)
  else ∃ x ∈ s.msgs[m]?, ∃ b ∈ s.pool.getbuffer x.1, 24 + n + 1 ≤ b.len

/-- The calls of a client that knows its schema. -/
def Client.Ok (schema : Schema) (s : Client × List Given) : Op → Prop
  | .create type => type < schema.msgTypes.length ∧ s.1.pool.buffercount + 1 ≤ 2 ^ 31
  | .num m f v => s.1.MayGive schema s.2 m f 0 ∧ f.IsNum ∧ f.FitsNum v
  | .bit m f _ => s.1.MayGive schema s.2 m f 0 ∧ f.kind = .bool ∧ f.list = false
  | .str m f str len => s.1.MayGive schema s.2 m f 1 ∧ f.kind = .str ∧
      ∃ n ∈ strLength str len, n ≤ str.length ∧ n + 1 < 2 ^ 32 ∧ s.1.StrRoom s.2 m f n
  | .msg m f => s.1.MayGive schema s.2 m f 0 ∧ f.kind = .ptr ∧
      (f.list = true ∨ valuesOf s.2 m f = [])

instance (f : FieldDesc) : Decidable f.IsNum :=
  inferInstanceAs (Decidable (f.kind ≠ .bool ∧ f.kind ≠ .str ∧ f.kind ≠ .ptr))

instance (f : FieldDesc) (v : Int) : Decidable (f.FitsNum v) :=
  inferInstanceAs (Decidable (if f.kind = .uint ∧ f.width < 8 then 0 ≤ v ∧ v < 256 ^ f.width
    else -(256 ^ f.width : Int) ≤ 2 * v ∧ 2 * v < 256 ^ f.width))

instance (schema : Schema) (s : Client) (gs : List Given) (m : Nat) (f : FieldDesc) (more : Nat) :
    Decidable (s.MayGive schema gs m f more) :=
  decidable_of_iff ((∃ G ∈ gs[m]?, f ∈ (schema.msgType G.type).fields) ∧
      (f.list = true → (valuesOf gs m f).length + 1 < 2 ^ 32 - 1) ∧
      (f.list = true → getSize schema f.kind f.tag1 = (0, 0) →
        (valuesOf gs m f).length + 1 < 2 ^ 32 - 7) ∧
      s.pool.buffercount + newObject gs m f + more ≤ 2 ^ 31)
    ⟨fun h => ⟨h.1, h.2.1, h.2.2.1, h.2.2.2⟩, fun h => ⟨h.field, h.length, h.bits, h.objects⟩⟩

instance (s : Client) (gs : List Given) (m : Nat) (f : FieldDesc) (n : Nat) :
    Decidable (s.StrRoom gs m f n) :=
  inferInstanceAs (Decidable (if f.list = true
    then 24 + n + 1 ≤ metaSize + blockBytes (0, 1) ((valuesOf gs m f).length + 1)
    else ∃ x ∈ s.msgs[m]?, ∃ b ∈ s.pool.getbuffer x.1, 24 + n + 1 ≤ b.len))

instance (schema : Schema) (s : Client × List Given) : (op : Op) → Decidable (Client.Ok schema s op)
  | .create type => inferInstanceAs (Decidable (type < schema.msgTypes.length ∧
      s.1.pool.buffercount + 1 ≤ 2 ^ 31))
  | .num m f v => inferInstanceAs (Decidable (s.1.MayGive schema s.2 m f 0 ∧ f.IsNum ∧ f.FitsNum v))
  | .bit m f _ => inferInstanceAs (Decidable (s.1.MayGive schema s.2 m f 0 ∧ f.kind = .bool ∧
      f.list = false))
  | .str m f str len => inferInstanceAs (Decidable (s.1.MayGive schema s.2 m f 1 ∧ f.kind = .str ∧
      ∃ n ∈ strLength str len, n ≤ str.length ∧ n + 1 < 2 ^ 32 ∧ s.1.StrRoom s.2 m f n))
  | .msg m f => inferInstanceAs (Decidable (s.1.MayGive schema s.2 m f 0 ∧ f.kind = .ptr ∧
      (f.list = true ∨ valuesOf s.2 m f = [])))

/-! ## Messages of a document -/

/-- A value as it is stored. -/
def Val.item (f : FieldDesc) : Val → Item
  | .num v => .num (toU64 v % 256 ^ f.width)
  | .bit v => .bit v
  | .str s => .str s
  | .msg m => .msg m

/-- The number in the scalar part: zero when nothing was given. -/
def numOf : List Val → Int
  | [.num v] => v
  | _ => 0

def bitOf : List Val → Bool
  | [.bit v] => v
  | _ => false

/-- The string of a field: empty when nothing was given. -/
def strOf : List Val → Text
  | [.str s] => s
  | _ => []

/-- The message of the document holds the values that were given. -/
structure Given.Holds (schema : Schema) (G : Given) (M : DocMsg) : Prop where
  type : M.type = G.type
  item : ∀ f ∈ (schema.msgType G.type).fields, f.inPointers = true →
    M.vals f = (G.vals f).map (Val.item f)
  num : ∀ f ∈ (schema.msgType G.type).fields, f.IsScalar →
    M.scal.load f.tag0 f.width = toU64 (numOf (G.vals f)) % 256 ^ f.width
  bit : ∀ f ∈ (schema.msgType G.type).fields, f.IsBit →
    M.scal.bit (f.tag0 / 8) (f.tag0 % 8) = bitOf (G.vals f)
  fits : ∀ f v, .num v ∈ G.vals f → f.FitsNum v

theorem Given.holds_blank (schema : Schema) (type : Nat) :
    (Given.blank type).Holds schema (DocMsg.new type) where
  type := rfl
  item := fun _ _ _ => rfl
  num := by
    intro f _ _
    have h0 : (DocMsg.new type).scal.load f.tag0 f.width = 0 := load_eq_zero fun _ _ => rfl
    rw [h0]
    show 0 = toU64 0 % _
    simp [toU64]
  bit := by
    intro f _ _
    show ByteMem.bit (fun _ => 0) _ _ = false
    simp [ByteMem.bit]
  fits := fun f v hv => absurd hv (by simp [Given.blank])

/-- A store changes the bits of its bytes only. -/
theorem bit_store_ne (m : ByteMem) (off sz v : Nat) (p j : Nat) (hj : j < 8)
    (hno : ¬ (⟨8 * off, 8 * sz⟩ : Range).Has (8 * p + j)) : (m.store off sz v).bit p j = m.bit p j := by
  rw [bit_store _ _ _ _ _ hj, if_neg]
  rintro ⟨h1, h2⟩
  exact hno ⟨by simp only; omega, by simp only; omega⟩

theorem bit_putBit_ne (m : ByteMem) (tag0 : Nat) (v : Bool) (p j : Nat) (hj : j < 8)
    (hno : ¬ (⟨tag0, 1⟩ : Range).Has (8 * p + j)) :
    (m.putBit (tag0 / 8) (tag0 % 8) v).bit p j = m.bit p j := by
  rw [bit_putBit _ _ (Nat.mod_lt _ (by decide)), if_neg]
  rintro ⟨rfl, rfl⟩
  exact hno ⟨by simp only; omega, by simp only; omega⟩

/-- A change of the bits of one field keeps the others. -/
theorem scalar_keeps {ms : MsgType} (hms : ms.SoundLayout) {f f' : FieldDesc}
    (hf : ms.ScalarField f) (hf' : ms.ScalarField f') (hne : f' ≠ f) {m m' : ByteMem} {s : Range}
    (hs : f.bits = some s) (hm : ∀ p j, j < 8 → ¬ s.Has (8 * p + j) → m'.bit p j = m.bit p j) :
    (f'.kind ≠ .bool → load m' f'.tag0 f'.width = load m f'.tag0 f'.width) ∧
      (f'.kind = .bool → bit m' (f'.tag0 / 8) (f'.tag0 % 8) = bit m (f'.tag0 / 8) (f'.tag0 % 8)) := by
  have hdisj := fun s' hs' i hi hi' => hms.bits_disjoint hf hf' hne.symm s hs s' hs' i hi hi'
  constructor
  · intro hb
    refine load_congr fun p h1 h2 => eq_of_bit fun j hj => hm p j hj fun hi => ?_
    refine hdisj _ (FieldDesc.bits_scalar hf'.2 hb) _ hi ?_
    simp only [Range.Has]
    omega
  · intro hb
    refine hm _ _ (Nat.mod_lt _ (by decide)) fun hi => ?_
    refine hdisj _ (FieldDesc.bits_bool hf'.2 hb) _ hi ?_
    simp only [Range.Has]
    omega

section

variable {schema : Schema} {G : Given} {M : DocMsg} {f : FieldDesc}

/-- A number is given to a field in the scalar part. -/
theorem Given.Holds.num_field (h : G.Holds schema M) (hms : (schema.msgType G.type).SoundLayout)
    (hf : f ∈ (schema.msgType G.type).fields) (hs : f.IsScalar) {v : Int} (hv : f.FitsNum v) :
    (G.give f (.num v)).Holds schema { M with scal := M.scal.store f.tag0 f.width (toU64 v) } := by
  have hlist : f.list = false := by
    have hin := hs.1
    simp only [FieldDesc.inPointers, Bool.or_eq_false_iff] at hin
    exact hin.1.1
  have hself : (G.give f (.num v)).vals f = [.num v] := by
    show Function.update G.vals f _ f = _
    rw [Function.update_self, if_neg (by rw [hlist]; decide)]
  have hother : ∀ f', f' ≠ f → (G.give f (.num v)).vals f' = G.vals f' :=
    fun f' hne => Function.update_of_ne hne _ _
  have hkeep := fun f' (hf' : (schema.msgType G.type).ScalarField f') hne =>
    scalar_keeps hms (f := f) ⟨hf, hs.1⟩ hf' hne (FieldDesc.bits_scalar hs.1 hs.2)
      (bit_store_ne M.scal f.tag0 f.width (toU64 v))
  constructor
  case type => exact h.type
  case item =>
    intro f' hf' hin
    rw [hother f' (by rintro rfl; rw [hs.1] at hin; cases hin)]
    exact h.item f' hf' hin
  case num =>
    intro f' hf' hs'
    by_cases heq : f' = f
    · subst heq
      rw [hself, load_store]
      rfl
    · rw [hother f' heq, (hkeep f' ⟨hf', hs'.1⟩ heq).1 hs'.2]
      exact h.num f' hf' hs'
  case bit =>
    intro f' hf' hb
    have hne : f' ≠ f := by
      rintro rfl
      exact hs.2 hb.2
    rw [hother f' hne, (hkeep f' ⟨hf', hb.1⟩ hne).2 hb.2]
    exact h.bit f' hf' hb
  case fits =>
    intro f' w hw
    by_cases heq : f' = f
    · subst heq
      rw [hself, List.mem_singleton, Val.num.injEq] at hw
      rw [hw]
      exact hv
    · rw [hother f' heq] at hw
      exact h.fits f' w hw

/-- A boolean is given to a field in the scalar part. -/
theorem Given.Holds.bit_field (h : G.Holds schema M) (hms : (schema.msgType G.type).SoundLayout)
    (hf : f ∈ (schema.msgType G.type).fields) (hs : f.IsBit) (hlist : f.list = false) (v : Bool) :
    (G.give f (.bit v)).Holds schema
      { M with scal := M.scal.putBit (f.tag0 / 8) (f.tag0 % 8) v } := by
  have hself : (G.give f (.bit v)).vals f = [.bit v] := by
    show Function.update G.vals f _ f = _
    rw [Function.update_self, if_neg (by rw [hlist]; decide)]
  have hother : ∀ f', f' ≠ f → (G.give f (.bit v)).vals f' = G.vals f' :=
    fun f' hne => Function.update_of_ne hne _ _
  have hmod : f.tag0 % 8 < 8 := Nat.mod_lt _ (by decide)
  have hkeep := fun f' (hf' : (schema.msgType G.type).ScalarField f') hne =>
    scalar_keeps hms (f := f) ⟨hf, hs.1⟩ hf' hne (FieldDesc.bits_bool hs.1 hs.2)
      (bit_putBit_ne M.scal f.tag0 v)
  constructor
  case type => exact h.type
  case item =>
    intro f' hf' hin
    rw [hother f' (by rintro rfl; rw [hs.1] at hin; cases hin)]
    exact h.item f' hf' hin
  case num =>
    intro f' hf' hs'
    have hne : f' ≠ f := by
      rintro rfl
      exact hs'.2 hs.2
    rw [hother f' hne, (hkeep f' ⟨hf', hs'.1⟩ hne).1 hs'.2]
    exact h.num f' hf' hs'
  case bit =>
    intro f' hf' hb
    by_cases heq : f' = f
    · subst heq
      rw [hself, bit_putBit _ _ hmod, if_pos ⟨rfl, rfl⟩]
      rfl
    · rw [hother f' heq, (hkeep f' ⟨hf', hb.1⟩ heq).2 hb.2]
      exact h.bit f' hf' hb
  case fits =>
    intro f' w hw
    by_cases heq : f' = f
    · subst heq
      rw [hself, List.mem_singleton] at hw
      cases hw
    · rw [hother f' heq] at hw
      exact h.fits f' w hw

/-- A list gets one more value, or the string or submessage of a field is given. -/
theorem Given.Holds.give_ptr (h : G.Holds schema M) (hin : f.inPointers = true) {x : Val}
    (hx : ∀ v, x = .num v → f.FitsNum v) {l : List Item}
    (hl : l = ((G.give f x).vals f).map (Val.item f)) :
    (G.give f x).Holds schema { M with vals := Function.update M.vals f l } := by
  have hother : ∀ f', f' ≠ f → (G.give f x).vals f' = G.vals f' :=
    fun f' hne => Function.update_of_ne hne _ _
  constructor
  case type => exact h.type
  case item =>
    intro f' hf' hin'
    show Function.update M.vals f l f' = _
    by_cases heq : f' = f
    · subst heq
      rw [Function.update_self, hl]
    · rw [Function.update_of_ne heq, hother f' heq]
      exact h.item f' hf' hin'
  case num =>
    intro f' hf' hs'
    rw [hother f' (by rintro rfl; rw [hs'.1] at hin; cases hin)]
    exact h.num f' hf' hs'
  case bit =>
    intro f' hf' hb
    rw [hother f' (by rintro rfl; rw [hb.1] at hin; cases hin)]
    exact h.bit f' hf' hb
  case fits =>
    intro f' w hw
    by_cases heq : f' = f
    · subst heq
      have hw' : Val.num w ∈ if f'.list = true then G.vals f' ++ [x] else [x] := by
        have hself : (G.give f' x).vals f' = _ := Function.update_self _ _ _
        rwa [← hself]
      split_ifs at hw' with hlist
      · rcases List.mem_append.mp hw' with hold | hnew
        · exact h.fits f' w hold
        · exact hx w (List.mem_singleton.mp hnew).symm
      · exact hx w (List.mem_singleton.mp hw').symm
    · rw [hother f' heq] at hw
      exact h.fits f' w hw

/-- A list gets one more value. -/
theorem Given.Holds.push (h : G.Holds schema M) (hf : f ∈ (schema.msgType G.type).fields)
    (hl : f.list = true) {x : Val} (hx : ∀ v, x = .num v → f.FitsNum v) :
    (G.give f x).Holds schema (M.push f (x.item f)) := by
  have hin : f.inPointers = true := by simp [FieldDesc.inPointers, hl]
  refine h.give_ptr hin hx ?_
  rw [h.item f hf hin]
  show _ = (Function.update G.vals f _ f).map _
  rw [Function.update_self, if_pos hl, List.map_append]
  rfl

/-- The string or submessage of a field is given. -/
theorem Given.Holds.setOnly (h : G.Holds schema M) (hin : f.inPointers = true)
    (hl : f.list = false) {x : Val} (hx : ∀ v, x = .num v → f.FitsNum v) :
    (G.give f x).Holds schema (M.setOnly f (x.item f)) := by
  refine h.give_ptr hin hx ?_
  show _ = (Function.update G.vals f _ f).map _
  rw [Function.update_self, if_neg (by rw [hl]; decide)]
  rfl

/-- The number of a field fits, also when none was given. -/
theorem Given.Holds.fits_numOf (h : G.Holds schema M) (f : FieldDesc) :
    f.FitsNum (numOf (G.vals f)) := by
  have hzero : f.FitsNum 0 := by
    unfold FieldDesc.FitsNum
    have hpos : (0 : Int) < 256 ^ f.width := by positivity
    split_ifs <;> omega
  unfold numOf
  split
  · rename_i x hx
    exact h.fits f x (by rw [hx]; exact List.mem_singleton_self _)
  · exact hzero

end

end Nbuf
