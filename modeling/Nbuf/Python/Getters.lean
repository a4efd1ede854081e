import Nbuf.Python.Obj
import Nbuf.Schema.Compiled
import Nbuf.Schema.Evolution
import Nbuf.Wire.RoundTrip

set_option autoImplicit false

/-! # Getters in Python and in C (`python/b2py.py`, `nbufc/b2h.c`)

The generated getters of a field that is no list. Both find the field through the counts of the
wire header. Where the wire message is too short for the field, the C getters return a default; the
Python getters raise `IndexError`. A Python getter also refuses a number that is no member of its
enumeration and a string that is not UTF-8.
-/

namespace Nbuf.Py

open ByteMem

/-! ## The getters -/

/-- `bytes.decode('utf-8')` -/
def decode (v : List UInt8) : Except Err String :=
  match String.fromUTF8? ⟨v.toArray⟩ with
  | some s => .ok s
  | none => .error .unicodeDecodeError

/-- `struct.unpack_from` of `nelem - 1` bytes: a negative count is no format. -/
def Bytes.unpackStr (buf : Bytes) (offset nelem : Nat) : Except Err (List UInt8) :=
  if nelem = 0 ∨ buf.len < offset + (nelem - 1) then .error .structError
  else .ok (buf.mem.toList offset (nelem - 1))

/-- `get_str` -/
def Obj.getStr (buf : Bytes) (o : Obj) (idx : Nat) : Except Err String := do
  match ← o.getObj buf idx with
  | none => pure ""
  | some s => do
      assertPy (s.ssize = 1 ∧ s.psize = 0)
      let v ← buf.unpackStr s.base s.nelem
      decode v

/-- The call of an `IntEnum` class: only the value of a member has one. -/
def enumMember (etype : EnumType) (v : Int) : Except Err Int :=
  if etype.values.any fun d => (d.value : Int) == v then .ok v else .error .valueError

/-- What a getter returns. A Python string is given by its encoding. -/
inductive Value where
  | int (v : Int)
  | bool (v : Bool)
  | str (bytes : List UInt8)
  deriving DecidableEq

/-- The getter that `outgetter` prints for a field that is no list. Floats and messages are left
out. -/
def getter (schema : Schema) (buf : Bytes) (o : Obj) (f : FieldDesc) : Option (Except Err Value) :=
  match f.kind with
  | .str => some ((o.getStr buf f.tag0).map fun s => .str s.toUTF8.data.toList)
  | .bool => some ((o.getBool buf f.tag0).map .bool)
  | .enum => some do
      let v ← o.getInt buf f.tag0 2 true
      (enumMember (schema.enumType f.tag1) v).map .int
  | .int => some ((o.getInt buf f.tag0 f.tag1 false).map .int)
  | .uint => some ((o.getInt buf f.tag0 f.tag1 true).map .int)
  | .float => none
  | .ptr => none

/-- The fields that are read: no lists, floats or messages. -/
def Plain (f : FieldDesc) : Prop := f.list = false ∧ f.kind ≠ .float ∧ f.kind ≠ .ptr

/-- The bytes of a C buffer as a `bytearray`. -/
def ofBuffer (b : Buffer) : Bytes := ⟨b.mem, b.len⟩

/-- The object that `from_buf` makes of the header of object `i`. -/
def wholeObj (h : Heap) (i : Nat) (c : Cell) : Obj := ⟨h.offs i + 8, c.nelem, c.ssize, c.psize⟩

/-- Handles of one message in C and Python: an object, which is its first element, or element `k`
of a list. -/
def IsMessage (h : Heap) (i : Nat) (c : Cell) (k : Nat) (r : Nbuf.Obj) (o : Obj) : Prop :=
  k < c.nelem ∧ ((k = 0 ∧ r = h.handle i c ∧ o = wholeObj h i c) ∨
    (r = getElem (h.handle i c) k ∧ (wholeObj h i c).getitem k = .ok o))

/-- The field lies in the part of the wire message that its header gives. -/
def Present (c : Cell) (f : FieldDesc) : Prop :=
  if f.kind = .str then f.tag0 < c.psize
  else if f.kind = .bool then f.tag0 / 8 < c.ssize
  else f.tag0 + f.width ≤ c.ssize

/-- **What Python can read** of element `k`: the field is there, a number is aligned, an enumeration
has a member for it, and a string slot is empty or leads to a string in UTF-8. -/
structure Readable (schema : Schema) (h : Heap) (c : Cell) (k : Nat) (f : FieldDesc) : Prop where
  present : Present c f
  aligned : f.IsScalar → f.width ∣ k * c.stride
  member : f.kind = .enum →
    ∃ d ∈ (schema.enumType f.tag1).values, d.value = (c.scal k).load f.tag0 2
  text : f.kind = .str → ∀ t, c.ptr k f.tag0 = some t → ∃ ct str, h[t]? = some ct ∧
    ct.IsStr str ∧ ByteArray.IsValidUTF8 ⟨str.toArray⟩

/-! ## Numbers -/

section

variable {h : Heap} {b : Buffer} {i : Nat} {c : Cell} {k : Nat} {r : Nbuf.Obj} {o : Obj}

theorem IsMessage.counts (hm : IsMessage h i c k r o) : o.ssize = c.ssize ∧ o.psize = c.psize := by
  obtain ⟨hk, ⟨-, -, rfl⟩ | ⟨-, hget⟩⟩ := hm
  · exact ⟨rfl, rfl⟩
  · have hk : ¬ k ≥ (wholeObj h i c).nelem := Nat.not_le.mpr hk
    rw [Obj.getitem, if_neg hk] at hget
    cases hget
    exact ⟨rfl, rfl⟩

theorem IsMessage.base_eq (hm : IsMessage h i c k r o) (hne : ¬ (c.ssize = 0 ∧ c.psize = 0)) :
    o.base = c.rowPos (h.offs i) k := by
  have helemsz : (wholeObj h i c).elemsz = c.stride := by
    rw [c.stride_eq, c.width_eq, if_neg hne]
    show max (c.ssize + 4 * c.psize) 1 = _
    omega
  rw [c.rowPos_eq]
  obtain ⟨hk, ⟨rfl, -, rfl⟩ | ⟨-, hget⟩⟩ := hm
  · rw [Nat.zero_mul]
    rfl
  · have hk : ¬ k ≥ (wholeObj h i c).nelem := Nat.not_le.mpr hk
    rw [Obj.getitem, if_neg hk, helemsz] at hget
    cases hget
    rfl

theorem IsMessage.same (hm : IsMessage h i c k r o) (hb : h.Holds b) (hc : h[i]? = some c)
    (hne : ¬ (c.ssize = 0 ∧ c.psize = 0)) : r.Same (getElem (h.handle i c) k) := by
  obtain ⟨hk, ⟨rfl, rfl, -⟩ | ⟨rfl, -⟩⟩ := hm
  · have h0 : (h.handle i c).elemsz ≠ 0 := fun h0 =>
      hne ((h.handle i c).elemsz_eq_zero_iff.mp h0)
    have hrows := hb.rows_le hc
    have hlt := hb.len_lt
    refine ⟨?_, ?_, ?_⟩
    · rw [getElem_base hk (by omega), Obj.row, if_neg h0, Nat.zero_mul, Nat.add_zero]
    · rw [getElem_ssize hk, Obj.width, if_neg h0]
    · rw [getElem_psize hk]
  · exact Nbuf.Obj.Same.refl _

/-- The header of an object, read in Python. -/
theorem fromBuf_offs (hb : h.Holds b) (hc : h[i]? = some c) :
    fromBuf (ofBuffer b) (h.offs i) = .ok (wholeObj h i c) := by
  have hle := c.le_blockSize
  have hend := hb.block_le hc
  have hin : h.offs i + 8 ≤ (ofBuffer b).len := by
    show _ ≤ b.len
    omega
  exact fromBuf_of_load c.nelem_lt c.ssize_lt hin (hb.rep i c hc).hdr

/-- **Following a pointer in Python.** -/
theorem IsMessage.getObj (hm : IsMessage h i c k r o) (hb : h.Holds b) (hnear : h.Near)
    (hc : h[i]? = some c) {idx : Nat} (hidx : idx < c.psize) :
    (c.ptr k idx = none → o.getObj (ofBuffer b) idx = .ok none) ∧
      ∀ t ct, c.ptr k idx = some t → h[t]? = some ct →
        o.getObj (ofBuffer b) idx = .ok (some (wholeObj h t ct)) := by
  have hne : ¬ (c.ssize = 0 ∧ c.psize = 0) := fun h0 => by omega
  have hwidth : c.width = c.ssize := by rw [c.width_eq, if_neg hne]
  have hrow : k < c.rows := by
    have := Shape.row_lt_rows hm.1
    rwa [c.row_eq hne] at this
  have hinside := c.rowPos_inside (h.offs i) hrow
  have hslotin := c.slotPos_inside (h.offs i) k hidx
  have hle := c.le_blockSize
  have hend := hb.block_le hc
  obtain ⟨hss, hps⟩ := hm.counts
  have hslot : o.base + (o.ssize + 4 * idx) = h.slotPos i c k idx := by
    rw [hm.base_eq hne, hss]
    show _ = c.rowPos (h.offs i) k + c.width + idx * 4
    omega
  have hslot' : h.slotPos i c k idx = c.slotPos (h.offs i) k idx := rfl
  have hidx' : idx < o.psize := hps ▸ hidx
  have hword := (hb.rep i c hc).slot k hrow idx hidx
  have hfit : h.slotPos i c k idx + 4 ≤ (ofBuffer b).len := by
    show _ ≤ b.len
    omega
  constructor
  · intro hp
    have hzero : h.relWord i c k idx = 0 := by
      unfold Heap.relWord
      rw [hp]
    have hint : (ofBuffer b).unpackInt (h.slotPos i c k idx) 4 false = .ok 0 := by
      have hload : (ofBuffer b).mem.load (h.slotPos i c k idx) 4 = 0 := hword.trans hzero
      rw [Bytes.unpackInt, Bytes.unpack, if_pos hfit, hload, ok_bind, if_neg Bool.false_ne_true,
        Int.natCast_zero, Int.zero_bmod]
      rfl
    have hptr : o.objPtr (ofBuffer b) idx = .ok none := by
      rw [Obj.objPtr, Obj.ptrPtr_of_lt hidx', ok_bind, hslot, hint]
      rfl
    rw [Obj.getObj, hptr]
    rfl
  · intro t ct hp hct
    obtain ⟨hit, ht⟩ := hb.forward i c hc k hrow idx hidx t hp
    have hbefore := Heap.offs_add_le hc hit
    have hendt := hb.block_le hct
    have hnear' := hnear i c hc k hrow idx hidx t hp
    have hdvd := h.dvd_slotPos i k hidx
    have hdvdt := h.dvd_offs t
    have hrel : h.relWord i c k idx = (h.offs t - h.slotPos i c k idx) / 4 := by
      unfold Heap.relWord
      rw [hp]
      exact Nat.mod_eq_of_lt (by omega)
    have hload : (ofBuffer b).mem.load (o.base + (o.ssize + 4 * idx)) 4
        = (h.offs t - h.slotPos i c k idx) / 4 := by
      rw [hslot, ← hrel]
      exact hword
    have hrange : 0 < (h.offs t - h.slotPos i c k idx) / 4 ∧
        (h.offs t - h.slotPos i c k idx) / 4 < 2 ^ 31 ∧
        h.slotPos i c k idx + 4 * ((h.offs t - h.slotPos i c k idx) / 4) = h.offs t := by
      omega
    have hget := Obj.getObj_of_load hidx' (by rw [hslot]; exact hfit) hrange.1 hrange.2.1 hload
    rw [hget, hslot, hrange.2.2, fromBuf_offs hb hct]
    rfl

/-- The bytes of a vector of bytes before its last one. -/
def strBytes (ct : Cell) : List UInt8 := (List.range (ct.nelem - 1)).map fun j => ct.scal j 0

end

/-- The string fields of the version a message was written under lead to strings. -/
def StringsTyped (ms : MsgType) (h : Heap) (c : Cell) (k : Nat) : Prop :=
  ∀ g ∈ ms.fields, g.kind = .str → g.list = false → ∀ t, c.ptr k g.tag0 = some t →
    ∃ ct str, h[t]? = some ct ∧ ct.IsStr str

theorem strBytes_eq {ct : Cell} {str : List UInt8} (hstr : ct.IsStr str) : strBytes ct = str := by
  apply List.ext_getElem
  · rw [strBytes, List.length_map, List.length_range, hstr.nelem_eq, Nat.add_sub_cancel]
  · intro j hj hj'
    have hbyte := hstr.scal_eq j hj'
    simp [strBytes, hbyte, List.getD, hj']

/-- **A message of the same or an earlier version**: alignment and the types of the strings can be
relied on, so Python reads a field that is there, unless the number is no member of the enumeration
or the string is not UTF-8. -/
theorem readable_evolved_iff {ms ms' : MsgType} (hev : ms.Evolves ms') {f : FieldDesc}
    (hf : f ∈ ms'.fields) (hlist : f.list = false) {schema : Schema} {h : Heap} {c : Cell} {k : Nat}
    (hss : c.ssize = ms.ssize) (hps : c.psize = ms.psize) (htyped : StringsTyped ms h c k) :
    Readable schema h c k f ↔ Present c f ∧
      (f.kind = .enum → ∃ d ∈ (schema.enumType f.tag1).values, d.value = (c.scal k).load f.tag0 2) ∧
      (f.kind = .str → ∀ t ct, c.ptr k f.tag0 = some t → h[t]? = some ct →
        ByteArray.IsValidUTF8 ⟨(strBytes ct).toArray⟩) := by
  constructor
  · intro hread
    refine ⟨hread.present, hread.member, fun hk t ct ht hct => ?_⟩
    obtain ⟨ct', str, hct', hstr, hvalid⟩ := hread.text hk t ht
    cases hct.symm.trans hct'
    rwa [strBytes_eq hstr]
  · rintro ⟨hpresent, hmember, htext⟩
    refine ⟨hpresent, fun hs => ?_, hmember, fun hk t ht => ?_⟩
    · have hstr : f.kind ≠ .str := fun hk => by
        have := hs.1
        simp [FieldDesc.inPointers, hk] at this
      have hin : f.tag0 + f.width ≤ c.ssize := by
        rwa [Present, if_neg hstr, if_neg hs.2] at hpresent
      have hw := hev.soundLayout.2.width f hf hs
      have hpos : 0 < f.width := by
        have := scalarSize_cases hw
        omega
      have hstride : c.stride = ms.ssize + 4 * ms.psize := by
        rw [c.stride_eq, c.width_eq, if_neg (by omega), hss, hps]
        omega
      rw [hstride]
      exact Dvd.dvd.mul_left (hev.stride_dvd hf hs (hss ▸ hin)) k
    · have hin : f.tag0 < ms.psize := by
        rwa [Present, if_pos hk, hps] at hpresent
      obtain ⟨g, hg, hplace⟩ := hev.old_slot hf (by simp [FieldDesc.inPointers, hk]) hin
      obtain ⟨ct, str, hct, hstr⟩ := htyped g hg (hplace.kind_eq.trans hk)
        (hplace.list_eq.trans hlist) t (by rw [hplace.tag0_eq]; exact ht)
      refine ⟨ct, str, hct, hstr, ?_⟩
      have hvalid := htext hk t ct ht hct
      rwa [strBytes_eq hstr] at hvalid

end Nbuf.Py
