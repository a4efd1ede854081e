import Nbuf.Schema.Compiled
import Nbuf.Text.Print

set_option autoImplicit false

/-! # Generated getters and reflection (`nbufc/b2h.c`, `include/libnbuf.h`)

`gengetter` writes a C getter for each field: it goes to element `i` of a list at once. The printer
reaches the same element by reflection, one `nbuf_ref_advance` after the other. Both find the same
value, except for an enumeration: the getter sign-extends its 16 bits, while `genenums` and the
printer take them as a `uint16_t`.
-/

namespace Nbuf

/-! ## Values -/

/-- What an access to a field finds. The value of an enumeration is the number of its constant; a
message is known by the fields of its handle that its accessors use, a floating-point number by its
bits. -/
inductive FieldValue where
  | bool (v : Bool)
  | int (v : Int)
  | uint (v : Nat)
  | enum (v : Nat)
  | float (v : Int)
  | str (s : Text)
  | msg (base ssize psize : Nat)
  deriving DecidableEq

/-- The handle of a message as a value. -/
def Obj.msgValue (r : Obj) : FieldValue := .msg r.base r.ssize r.psize

/-! ## The generated getter -/

/-- Conversion of an `int64_t` to `int8_t`, …, `int64_t`, by the bytes of the type. -/
def toIntN (sz : Nat) (v : Int) : Int := v.bmod (256 ^ sz)

/-- Conversion of an `int64_t` to `uint8_t`, …, `uint64_t`. -/
def toUintN (sz : Nat) (v : Int) : Nat := (v % 256 ^ sz).toNat

/-- Conversion of an `int64_t` to an enumeration: its constants are not negative, and its type is
`unsigned int`. -/
def toEnum (v : Int) : Nat := (v % 2 ^ 32).toNat

/-- The object `o.o` that the value is taken from: the message itself, or element `i` of a list. -/
def getterObj (b : Buffer) (o : Obj) (fld : FieldDesc) (i : Nat) : Option Obj :=
  if fld.list = true then do
    let list ← getPtr b o fld.tag0
    pure (getElem list i)
  else some o

/-- The offset that `gengetter` writes behind the object. -/
def getterTag0 (fld : FieldDesc) (i : Nat) : Nat :=
  if fld.list = true then (if fld.kind = .bool then i % 8 else 0) else fld.tag0

/-- The value that a getter takes from an object, in the type the getter is declared with. -/
def getterValue (b : Buffer) (fld : FieldDesc) (oo : Obj) (tag0 : Nat) : Option FieldValue :=
  match fld.kind with
  | .bool => (getBit b oo tag0).map .bool
  | .int => (getInt b oo tag0 fld.tag1).map fun v => .int (toIntN fld.tag1 v)
  | .uint => (getInt b oo tag0 fld.tag1).map fun v => .uint (toUintN fld.tag1 v)
  | .enum => (getInt b oo tag0 2).map fun v => .enum (toEnum v)
  | .str => do
      let s ← getStr b oo tag0
      (s.bytes b).map .str
  | .ptr =>
      if fld.list = true then some oo.msgValue else (getPtr b oo tag0).map Obj.msgValue
  | .float => (getInt b oo tag0 fld.tag1).map .float

/-- The getter that `gengetter` writes for a field. A getter of a list takes the index `i`. -/
def getter (b : Buffer) (o : Obj) (fld : FieldDesc) (i : Nat) : Option FieldValue := do
  let oo ← getterObj b o fld i
  getterValue b fld oo (getterTag0 fld i)

/-! ## The reflection path -/

/-- `i` steps of `nbuf_ref_advance`: `none` at the end of the list. -/
def advance : Nat → Ref → Option Ref
  | 0, ref => some ref
  | n + 1, ref => do
      let ref ← advance n ref
      refAdvance ref 1

/-- The reference to the element `i` that the loop of `do_print` is at. -/
def elemRef (b : Buffer) (o : Obj) (fld : FieldDesc) (i : Nat) : Option Ref :=
  let ref := getRef o fld
  if ref.list = true ∨ ref.kind = .ptr then do
    let ref ← refGetPtr b ref
    if ref.list = true then advance i ref else pure ref
  else some ref

/-- The value of a reference, as `do_print` takes it. -/
def refValue (b : Buffer) (ref : Ref) : Option FieldValue :=
  match ref.kind with
  | .bool => (refGetBit b ref).map .bool
  | .int => (refGetInt b ref).map .int
  | .uint => (refGetInt b ref).map fun v => .uint (toU64 v)
  | .enum => (refGetInt b ref).map fun v => .enum (toU64 v % 2 ^ 16)
  | .str => (refGetStr b ref).map .str
  | .ptr => some ref.o.msgValue
  | .float => (refGetFloat b ref).map .float

/-- The value of a field, or of element `i` of a list, by reflection. -/
def reflected (b : Buffer) (o : Obj) (fld : FieldDesc) (i : Nat) : Option FieldValue := do
  let ref ← elemRef b o fld i
  refValue b ref

/-! ## Advancing -/

/-- A handle at element `i` of a list: what `nbuf_ref_advance` computes, all at once. -/
def Obj.skip (r : Obj) (i : Nat) : Obj :=
  Obj.ofFields (sizeT (r.base + i * r.elemsz)) (r.nelem - i) r.ssize r.psize

theorem Obj.ofFields_self (r : Obj) : Obj.ofFields r.base r.nelem r.ssize r.psize = r :=
  Obj.ext rfl (Obj.ofFields_nelem r.nelem_lt) (Obj.ofFields_ssize r.ssize_lt)
    (Obj.ofFields_psize r.psize_lt)

theorem sizeT_add_left (m n : Nat) : sizeT (sizeT m + n) = sizeT (m + n) := Nat.mod_add_mod _ _ _

theorem sizeT_add_right (m n : Nat) : sizeT (m + sizeT n) = sizeT (m + n) := Nat.add_mod_mod _ _ _

/-- **Advancing in a list of bytes or words** is adding up element sizes. -/
theorem advance_elems {ref : Ref} (hkind : ref.kind ≠ .bool) (hbase : ref.o.base < 2 ^ 64) {i : Nat}
    (hi : i < ref.o.nelem) : advance i ref = some { ref with o := ref.o.skip i } := by
  have hn := ref.o.nelem_lt
  induction i with
  | zero =>
      have hskip : ref.o.skip 0 = ref.o := by
        unfold Obj.skip
        rw [Nat.zero_mul, Nat.add_zero, sizeT_of_lt hbase, Nat.sub_zero, Obj.ofFields_self]
      rw [hskip]
      rfl
  | succ i ih =>
      have hsize : (ref.o.skip i).elemsz = ref.o.elemsz := by
        rw [Obj.elemsz_eq, ref.o.elemsz_eq]
        unfold Obj.skip
        rw [Obj.ofFields_ssize ref.o.ssize_lt, Obj.ofFields_psize ref.o.psize_lt]
      have hnelem : (ref.o.skip i).nelem = ref.o.nelem - i := Obj.ofFields_nelem (by omega)
      have hpos : (ref.o.skip i).base + 1 * (ref.o.skip i).elemsz
          = sizeT (ref.o.base + i * ref.o.elemsz) + ref.o.elemsz := by
        rw [hsize, Nat.one_mul]
        rfl
      rw [advance, ih (by omega)]
      simp only [Option.bind_eq_bind, Option.bind_some]
      unfold refAdvance
      rw [if_neg (by rw [hnelem]; omega), if_neg hkind]
      simp only [hpos, hnelem, sizeT_add_left]
      have hsum : ref.o.base + i * ref.o.elemsz + ref.o.elemsz
          = ref.o.base + (i + 1) * ref.o.elemsz := by ring
      have hss : (ref.o.skip i).ssize = ref.o.ssize := Obj.ofFields_ssize ref.o.ssize_lt
      have hps : (ref.o.skip i).psize = ref.o.psize := Obj.ofFields_psize ref.o.psize_lt
      rw [hsum, hss, hps, show ref.o.nelem - i - 1 = ref.o.nelem - (i + 1) by omega]
      rfl

/-- A handle at the byte of bit `i` of a list. -/
def Obj.skipBits (r : Obj) (i : Nat) : Obj :=
  Obj.ofFields (sizeT (r.base + i / 8)) (r.nelem - i) r.ssize r.psize

/-- **Advancing in a list of bits** carries the bit number into the position. -/
theorem advance_bits {ref : Ref} (hkind : ref.kind = .bool) (h0 : ref.tag0 = 0)
    (hbase : ref.o.base < 2 ^ 64) {i : Nat} (hi : i < ref.o.nelem) :
    advance i ref = some { ref with o := ref.o.skipBits i, tag0 := i % 8 } := by
  have hn := ref.o.nelem_lt
  induction i with
  | zero =>
      have hskip : ref.o.skipBits 0 = ref.o := by
        unfold Obj.skipBits
        rw [Nat.zero_div, Nat.add_zero, sizeT_of_lt hbase, Nat.sub_zero, Obj.ofFields_self]
      rw [hskip, Nat.zero_mod]
      cases ref
      cases h0
      rfl
  | succ i ih =>
      have hnelem : (ref.o.skipBits i).nelem = ref.o.nelem - i := Obj.ofFields_nelem (by omega)
      have hss : (ref.o.skipBits i).ssize = ref.o.ssize := Obj.ofFields_ssize ref.o.ssize_lt
      have hps : (ref.o.skipBits i).psize = ref.o.psize := Obj.ofFields_psize ref.o.psize_lt
      have hpos : (ref.o.skipBits i).base = sizeT (ref.o.base + i / 8) := rfl
      rw [advance, ih (by omega)]
      simp only [Option.bind_eq_bind, Option.bind_some]
      unfold refAdvance
      rw [if_neg (by rw [hnelem]; omega), if_pos hkind]
      simp only [hpos, hnelem, hss, hps, sizeT_add_left]
      have hcarry : ref.o.base + i / 8 + (i % 8 + 1) / 8 = ref.o.base + (i + 1) / 8 := by omega
      have hbit : (i % 8 + 1) % 8 = (i + 1) % 8 := by omega
      rw [hcarry, hbit, show ref.o.nelem - i - 1 = ref.o.nelem - (i + 1) by omega]
      rfl

/-! ## Both paths reach one element -/

theorem Obj.Same.msgValue {r r' : Obj} (h : r.Same r') : r.msgValue = r'.msgValue := by
  rw [Obj.msgValue, Obj.msgValue, h.base, h.ssize, h.psize]

theorem objInit_base_lt {b : Buffer} {rr r : Obj} {base : Nat} (hrr : rr.base < 2 ^ 64)
    (h : objInit b rr base = some r) : r.base < 2 ^ 64 := by
  unfold objInit at h
  split_ifs at h with hchk
  · cases h
    exact hrr
  · simp only [Option.bind_eq_bind, Option.bind_eq_some_iff] at h
    obtain ⟨hdr, -, h⟩ := h
    have hbase : (hdrObj (sizeT (base + 8)) hdr).base < 2 ^ 64 := sizeT_lt _
    have hnull : Obj.null.base < 2 ^ 64 := by decide
    split_ifs at h <;> cases h <;> first | exact hbase | exact hnull

theorem getPtr_base_lt {b : Buffer} {o r : Obj} {i : Nat} (h : getPtr b o i = some r) :
    r.base < 2 ^ 64 := by
  have hnull : Obj.null.base < 2 ^ 64 := by decide
  unfold getPtr at h
  simp only [Option.bind_eq_bind, Option.bind_eq_some_iff] at h
  obtain ⟨rel, -, h⟩ := h
  split_ifs at h
  · exact objInit_base_lt hnull h
  · cases h
    exact hnull
  · cases h
    exact hnull

/-- Element `i` exists, in a list whose elements have the shape that the schema prescribes. -/
def Indexed (b : Buffer) (o : Obj) (fld : FieldDesc) (i : Nat) : Prop :=
  fld.list = true → ∃ list, getPtr b o fld.tag0 = some list ∧ i < list.nelem ∧
    (list.elemsz = 0 ↔ fld.kind = .bool)

/-- Element `i` of a list of bytes or words, reached from the handle of the list. -/
theorem Obj.skip_same {list : Obj} {i : Nat} (hi : i < list.nelem) (h0 : list.elemsz ≠ 0) :
    (list.skip i).Same (getElem list i) := by
  constructor
  case base =>
    rw [getElem, if_pos hi, if_neg h0]
    exact (sizeT_add_right _ _).symm
  case ssize =>
    rw [getElem_ssize hi, Obj.width, if_neg h0]
    exact Obj.ofFields_ssize list.ssize_lt
  case psize =>
    rw [getElem_psize hi]
    exact Obj.ofFields_psize list.psize_lt

/-- **The reflection path ends at the element of the getter**, with the bit of a bool list in the
offset. -/
theorem elemRef_list {b : Buffer} {o list : Obj} {fld : FieldDesc} {i : Nat}
    (hlist : fld.list = true) (hptr : getPtr b o fld.tag0 = some list) (hi : i < list.nelem)
    (hshape : list.elemsz = 0 ↔ fld.kind = .bool) :
    ∃ ref, elemRef b o fld i = some ref ∧ ref.kind = fld.kind ∧ ref.tag1 = fld.tag1 ∧
      ref.tag0 = (if fld.kind = .bool then i % 8 else 0) ∧ ref.o.Same (getElem list i) := by
  have hbase := getPtr_base_lt hptr
  unfold elemRef
  simp only [getRef, hlist, true_or, if_true, refGetPtr, hptr, Option.bind_eq_bind,
    assertC_pos, Option.bind_some]
  by_cases hbool : fld.kind = .bool
  · simp only [if_pos hbool]
    have hn : (Obj.ofFields list.base list.nelem 1 list.psize).nelem = list.nelem :=
      Obj.ofFields_nelem list.nelem_lt
    refine ⟨_, advance_bits hbool rfl hbase (by rw [hn]; exact hi), rfl, rfl, rfl, ?_⟩
    constructor
    case base => rw [getElem, if_pos hi, if_pos (hshape.mpr hbool)]; rfl
    case ssize => rw [getElem_ssize hi, Obj.width, if_pos (hshape.mpr hbool)]; rfl
    case psize =>
      rw [getElem_psize hi]
      unfold Obj.skipBits
      rw [Obj.ofFields_psize (Obj.psize_lt _), Obj.ofFields_psize list.psize_lt]
  · simp only [if_neg hbool]
    have h0 : list.elemsz ≠ 0 := fun h => hbool (hshape.mp h)
    exact ⟨_, advance_elems hbool hbase hi, rfl, rfl, rfl, Obj.skip_same hi h0⟩

/-! ## Values agree -/

/-- What `nbuf_get_int` returns has the range of its width. -/
theorem getInt_bmod {b : Buffer} {r : Obj} {k sz : Nat} {v : Int}
    (h : getInt b r k sz = some v) : v.bmod (256 ^ sz) = v := by
  unfold getInt at h
  rw [assertC_bind_eq_some] at h
  have h := h.2
  split_ifs at h
  · rw [readIntSafe, assertC_bind_eq_some] at h
    have h := h.2
    rw [readIntUnsafe, assertC_bind_eq_some, assertC_bind_eq_some] at h
    cases h.2.2
    exact Int.bmod_bmod
  · cases h
    exact Int.zero_bmod

/-- The mask of `nbuf_ref_get_int` cuts a number to the width of an unsigned field. -/
theorem toU64_masked {sz : Nat} (hsz : scalarSize sz = true) (v : Int) :
    toU64 (((toU64 v % 256 ^ sz : Nat) : Int).bmod (2 ^ 64)) = toUintN sz v := by
  have hdvd : (256 : Int) ^ sz ∣ 2 ^ 64 := by
    simp only [scalarSize, Bool.or_eq_true, beq_iff_eq] at hsz
    rcases hsz with ((rfl | rfl) | rfl) | rfl <;> decide
  have hint : ((toU64 v : Nat) : Int) = v % 2 ^ 64 :=
    Int.toNat_of_nonneg (Int.emod_nonneg _ (by decide))
  have hlt : toU64 v % 256 ^ sz < 256 ^ 8 := by
    have h1 : toU64 v % 256 ^ sz ≤ toU64 v := Nat.mod_le _ _
    have h2 : toU64 v < 2 ^ 64 := by
      have := Int.emod_lt_of_pos v (b := 2 ^ 64) (by decide)
      omega
    omega
  have hmask : toU64 (((toU64 v % 256 ^ sz : Nat) : Int).bmod (2 ^ 64)) = toU64 v % 256 ^ sz :=
    toU64_bmod_eight hlt
  rw [hmask, toUintN]
  have hcast : ((toU64 v % 256 ^ sz : Nat) : Int) = v % 256 ^ sz := by
    push_cast
    rw [hint, Int.emod_emod_of_dvd _ hdvd]
  rw [← hcast, Int.toNat_natCast]

/-- The 16 bits of an enumeration at `k` are present, and the highest one is set. -/
def HighEnum (b : Buffer) (r : Obj) (k : Nat) : Prop :=
  (getInt b r k 2).isSome ∧ sizeT (k + 2) ≤ r.ssize ∧ 2 ^ 15 ≤ b.mem.load (sizeT (r.base + k)) 2

theorem bmod_two_neg_iff {n : Nat} (hn : n < 256 ^ 2) :
    (n : Int).bmod (256 ^ 2) < 0 ↔ 2 ^ 15 ≤ n := by
  have hmod : (n : Int) % ((256 ^ 2 : Nat) : Int) = n := by omega
  rw [Int.bmod_def, hmod]
  omega

/-- The sign of the number that `nbuf_get_int` returns is its highest bit. -/
theorem getInt_neg_iff {b : Buffer} {r : Obj} {k : Nat} {v : Int} (h : getInt b r k 2 = some v) :
    v < 0 ↔ HighEnum b r k := by
  unfold HighEnum
  rw [h]
  unfold getInt at h
  rw [assertC_bind_eq_some] at h
  have h := h.2
  split_ifs at h with hin
  · rw [readIntSafe, assertC_bind_eq_some] at h
    have h := h.2
    rw [readIntUnsafe, assertC_bind_eq_some, assertC_bind_eq_some] at h
    rw [← Option.some.inj h.2.2, bmod_two_neg_iff (ByteMem.load_lt _ _ _)]
    exact ⟨fun hhigh => ⟨rfl, hin, hhigh⟩, fun hall => hall.2.2⟩
  · cases h
    exact ⟨fun hneg => absurd hneg (by decide), fun hall => absurd hall.2.1 hin⟩

/-- The constant the getter returns is the number that is printed, unless the number is taken for
a negative one. -/
theorem toEnum_eq_iff {b : Buffer} {r : Obj} {k : Nat} {v : Int} (h : getInt b r k 2 = some v) :
    toEnum v = toU64 v % 2 ^ 16 ↔ ¬ HighEnum b r k := by
  rw [← getInt_neg_iff h]
  have hrange := getInt_bmod h
  have hlo := Int.le_bmod (x := v) (m := 256 ^ 2) (by decide)
  have hhi := Int.bmod_lt (x := v) (m := 256 ^ 2) (by decide)
  rw [hrange] at hlo hhi
  rw [toEnum, toU64]
  omega

/-- `ref` stands for the field `fld` at the object and offset that the getter uses. -/
structure SamePlace (fld : FieldDesc) (oo : Obj) (tag0 : Nat) (ref : Ref) : Prop where
  kind : ref.kind = fld.kind
  tag1 : ref.tag1 = fld.tag1
  tag0 : ref.tag0 = tag0
  obj : ref.o.Same oo

section

variable {b : Buffer} {fld : FieldDesc} {oo : Obj} {tag0 : Nat} {ref : Ref}

theorem SamePlace.refGetInt_signed (h : SamePlace fld oo tag0 ref) (hk : fld.kind = .int) :
    refGetInt b ref = getInt b oo tag0 fld.tag1 := by
  unfold refGetInt Ref.sz
  rw [h.kind, h.tag1, h.tag0, h.obj.getInt, hk]
  simp

theorem SamePlace.refGetInt_unsigned (h : SamePlace fld oo tag0 ref) (hk : fld.kind = .uint) :
    refGetInt b ref = (getInt b oo tag0 fld.tag1).map fun v =>
      ((toU64 v % 256 ^ fld.tag1 : Nat) : Int).bmod (2 ^ 64) := by
  unfold refGetInt Ref.sz
  rw [h.kind, h.tag1, h.tag0, h.obj.getInt, hk]
  simp [Option.map_eq_bind]

theorem SamePlace.refGetInt_enum (h : SamePlace fld oo tag0 ref) (hk : fld.kind = .enum) :
    refGetInt b ref = getInt b oo tag0 2 := by
  unfold refGetInt Ref.sz
  rw [h.kind, h.tag0, h.obj.getInt, hk]
  simp

/-- **Values agree** at one place of a message, except for a high number of an enumeration. -/
theorem SamePlace.getterValue_iff (h : SamePlace fld oo tag0 ref) (hwidth : fld.HasWidth)
    (hptr : fld.kind = .ptr → fld.list = true) :
    getterValue b fld oo tag0 = refValue b ref ↔ ¬ (fld.kind = .enum ∧ HighEnum b oo tag0) := by
  unfold getterValue refValue
  rw [h.kind]
  cases hk : fld.kind with
  | bool => simp [refGetBit, h.kind, hk, h.tag0, h.obj.getBit]
  | int =>
      simp only [h.refGetInt_signed hk, reduceCtorEq, false_and, not_false_iff, iff_true]
      refine Option.map_congr fun v hv => ?_
      rw [toIntN, getInt_bmod hv]
  | uint =>
      simp only [h.refGetInt_unsigned hk, Option.map_map, reduceCtorEq, false_and, not_false_iff,
        iff_true]
      refine Option.map_congr fun v _ => ?_
      rw [Function.comp_apply, toU64_masked (hwidth.number (.inr hk))]
  | enum =>
      simp only [h.refGetInt_enum hk, true_and]
      cases hv : getInt b oo tag0 2 with
      | none =>
          have hlow : ¬ HighEnum b oo tag0 := fun hhigh => by simp [HighEnum, hv] at hhigh
          exact ⟨fun _ => hlow, fun _ => rfl⟩
      | some v =>
          rw [← toEnum_eq_iff hv]
          simp
  | str => simp [refGetStr, h.kind, hk, h.tag0, h.obj.getStr, Option.map_bind]
  | ptr => simp [hptr hk, h.obj.msgValue]
  | float => simp [refGetFloat, h.kind, hk, h.tag1, h.tag0, h.obj.getInt, hwidth.float hk]

end

/-! ## Compiled schemas -/

/-- **Getters agree with reflection exactly below `32768`.** For every field of a compiled message
and for every handle and index, the generated getter finds the value that reflection finds, unless
the field is an enumeration whose stored number has its highest bit set. -/
theorem getter_agrees_iff {schema : T2b.SchemaDesc} {types : List T2b.LookupEntry}
    (hlook : T2b.makelookup schema = some types) {out : List MsgType}
    (hout : T2b.outmsgs types schema.msgs = some out) {ms : MsgType} (hms : ms ∈ out)
    {fld : FieldDesc} (hfld : fld ∈ ms.fields) {b : Buffer} {o : Obj} {i : Nat}
    (hidx : Indexed b o fld i) :
    getter b o fld i = reflected b o fld i ↔
      ¬ (fld.kind = .enum ∧
        ∃ oo, getterObj b o fld i = some oo ∧ HighEnum b oo (getterTag0 fld i)) := by
  have hwidth := T2b.outmsgs_hasWidth hlook hout hms hfld
  unfold getter reflected
  cases hlist : fld.list with
  | true =>
      obtain ⟨list, hptr, hi, hshape⟩ := hidx hlist
      obtain ⟨ref, href, hk, h1, h0, hsame⟩ := elemRef_list hlist hptr hi hshape
      have hobj : getterObj b o fld i = some (getElem list i) := by
        simp [getterObj, hlist, hptr]
      have htag : getterTag0 fld i = if fld.kind = .bool then i % 8 else 0 := if_pos hlist
      have hplace : SamePlace fld (getElem list i) (getterTag0 fld i) ref :=
        ⟨hk, h1, by rw [h0, htag], hsame⟩
      simp only [hobj, href, Option.bind_eq_bind, Option.bind_some, Option.some.injEq,
        exists_eq_left']
      exact hplace.getterValue_iff hwidth fun _ => hlist
  | false =>
      have hobj : getterObj b o fld i = some o := by simp [getterObj, hlist]
      have htag : getterTag0 fld i = fld.tag0 := by simp [getterTag0, hlist]
      simp only [hobj, htag, Option.bind_eq_bind, Option.bind_some, Option.some.injEq,
        exists_eq_left']
      by_cases hptr : fld.kind = .ptr
      · cases hget : getPtr b o fld.tag0 with
        | none => simp [getterValue, elemRef, getRef, refGetPtr, hptr, hlist, hget]
        | some r => simp [getterValue, elemRef, getRef, refGetPtr, refValue, hptr, hlist, hget]
      · have href : elemRef b o fld i = some (getRef o fld) := by
          simp [elemRef, getRef, hlist, hptr]
        have hplace : SamePlace fld o fld.tag0 (getRef o fld) := ⟨rfl, rfl, rfl, .refl o⟩
        rw [href, Option.bind_some]
        exact hplace.getterValue_iff hwidth fun h => absurd h hptr

/-- An enumeration with a constant `32768`, and a message with a field of it. -/
def highSchema : T2b.SchemaDesc :=
  ⟨none, [⟨asc "E", [⟨asc "HIGH", 32768⟩]⟩], [⟨asc "M", [⟨asc "e", asc "E", false⟩]⟩]⟩

/-- The types of this schema. -/
def highTypes : List T2b.LookupEntry := (T2b.allTypes highSchema).insertionSort T2b.lookupLe

/-- The field as it is compiled. -/
def highField : FieldDesc := ⟨asc "e", .enum, false, 0, 0⟩

theorem highSchema_accepted : T2b.makelookup highSchema = some highTypes ∧
    T2b.outmsgs highTypes highSchema.msgs = some [⟨asc "M", [highField], 2, 0⟩] := by
  decide

/-- A buffer with one such message, whose enumeration is stored as the given bytes. -/
def enumBuffer (lo hi : UInt8) : Buffer :=
  ⟨ByteMem.ofList [1, 0, 0, 0, 2, 0, 0, 0, lo, hi], 10, 0⟩

/-- The handle of this message. -/
def enumHandle : Obj := Obj.ofFields 8 1 2 0

theorem low_constant_agrees :
    getter (enumBuffer 255 127) enumHandle highField 0 = some (.enum 32767) ∧
    reflected (enumBuffer 255 127) enumHandle highField 0 = some (.enum 32767) := by
  obtain ⟨hlook, hout⟩ := highSchema_accepted
  have hindexed : Indexed (enumBuffer 255 127) enumHandle highField 0 := fun h => by cases h
  have hlow : ¬ (highField.kind = .enum ∧ ∃ oo,
      getterObj (enumBuffer 255 127) enumHandle highField 0 = some oo ∧
        HighEnum (enumBuffer 255 127) oo (getterTag0 highField 0)) := by
    rintro ⟨-, oo, hoo, -, -, hhigh⟩
    cases hoo
    exact absurd hhigh (by decide)
  have hagree := (getter_agrees_iff hlook hout (List.mem_singleton_self _)
    (List.mem_singleton_self _) hindexed).mpr hlow
  have hgetter : getter (enumBuffer 255 127) enumHandle highField 0 = some (.enum 32767) := by
    decide +kernel
  exact ⟨hgetter, by rw [← hagree, hgetter]⟩

/-- The constant `32768` is found as `4294934528` by the getter and as `32768` by reflection. -/
theorem high_constant_differs :
    T2b.makelookup highSchema = some highTypes ∧
    T2b.outmsgs highTypes highSchema.msgs = some [⟨asc "M", [highField], 2, 0⟩] ∧
    getter (enumBuffer 0 128) enumHandle highField 0 = some (.enum 4294934528) ∧
    reflected (enumBuffer 0 128) enumHandle highField 0 = some (.enum 32768) := by
  decide +kernel

end Nbuf
