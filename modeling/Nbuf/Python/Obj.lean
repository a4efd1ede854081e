import Mathlib.Data.Nat.Bitwise
import Nbuf.Wire.Reader

set_option autoImplicit false

/-! # The Python library (`python/nbuf.py`)

`obj` is the Python form of a handle: a position in a `bytearray` with the counts of a header.
Its integers are unbounded. An operation returns its value or the exception that it raises; the
bytes are an argument, and an operation that writes returns them, too. The host is little-endian,
so the native formats of `struct` are those of the wire. Indices and offsets are not negative: the
generated code passes constants. Floating point numbers are left out.
-/

namespace Nbuf.Py

/-! ## Exceptions and bytes -/

inductive Err where
  | indexError
  | valueError
  | assertionError
  | structError
  | unicodeDecodeError
  deriving DecidableEq

/-- `assert` -/
def assertPy (p : Prop) [Decidable p] : Except Err Unit :=
  if p then .ok () else .error .assertionError

@[simp] theorem pure_eq_ok {α : Type} (a : α) : (pure a : Except Err α) = .ok a := rfl

@[simp] theorem ok_bind {α β : Type} (a : α) (f : α → Except Err β) :
    ((.ok a : Except Err α) >>= f) = f a := rfl

@[simp] theorem error_bind {α β : Type} (e : Err) (f : α → Except Err β) :
    ((.error e : Except Err α) >>= f) = .error e := rfl

theorem bind_eq_ok {α β : Type} {x : Except Err α} {f : α → Except Err β} {b : β} :
    (x >>= f) = .ok b ↔ ∃ a, x = .ok a ∧ f a = .ok b := by
  cases x with
  | ok a => simp
  | error e => simp

/-- `bytearray`: the first `len` bytes of a block. -/
structure Bytes where
  mem : ByteMem
  len : Nat

/-- `bytearray()` -/
def Bytes.empty : Bytes := ⟨fun _ => 0, 0⟩

def Bytes.toList (buf : Bytes) : List UInt8 := buf.mem.toList 0 buf.len

/-- `buf.extend(bytes(n))` -/
def Bytes.extend (buf : Bytes) (n : Nat) : Bytes := ⟨buf.mem.fill buf.len n 0, buf.len + n⟩

/-- `struct.unpack_from` of an unsigned number of `size` bytes. -/
def Bytes.unpack (buf : Bytes) (offset size : Nat) : Except Err Nat :=
  if offset + size ≤ buf.len then .ok (buf.mem.load offset size) else .error .structError

/-- `struct.unpack_from` of a number of `size` bytes. -/
def Bytes.unpackInt (buf : Bytes) (offset size : Nat) (unsigned : Bool) : Except Err Int := do
  let v ← buf.unpack offset size
  pure (if unsigned then (v : Int) else (v : Int).bmod (256 ^ size))

/-- The numbers that `struct` packs into `size` bytes. -/
def InRange (size : Nat) (unsigned : Bool) (v : Int) : Prop :=
  if unsigned then 0 ≤ v ∧ v < 256 ^ size else -(256 ^ size / 2) ≤ v ∧ v < 256 ^ size / 2

instance (size : Nat) (unsigned : Bool) (v : Int) : Decidable (InRange size unsigned v) :=
  inferInstanceAs (Decidable (if unsigned then 0 ≤ v ∧ v < 256 ^ size
    else -(256 ^ size / 2) ≤ v ∧ v < 256 ^ size / 2))

/-- `struct.pack_into` of a number into `size` bytes. -/
def Bytes.pack (buf : Bytes) (offset size : Nat) (unsigned : Bool) (v : Int) : Except Err Bytes :=
  if InRange size unsigned v ∧ offset + size ≤ buf.len then
    .ok { buf with mem := buf.mem.store offset size (v % 256 ^ size).toNat }
  else .error .structError

/-- `struct.pack_into` of a byte string -/
def Bytes.packStr (buf : Bytes) (offset : Nat) (v : List UInt8) : Except Err Bytes :=
  if offset + v.length ≤ buf.len then
    .ok { buf with mem := buf.mem.copy offset (ByteMem.ofList v) 0 v.length }
  else .error .structError

/-- `struct.pack_into` with the format `IHH` -/
def Bytes.packHdr (buf : Bytes) (base nelem ssize psize : Nat) : Except Err Bytes := do
  let buf ← buf.pack base 4 true nelem
  let buf ← buf.pack (base + 4) 2 true ssize
  buf.pack (base + 6) 2 true psize

/-! ## Objects -/

/-- `class obj` -/
structure Obj where
  base : Nat
  nelem : Nat
  ssize : Nat
  psize : Nat
  deriving DecidableEq

namespace Obj

variable (o : Obj)

/-- `_elemsz` -/
def elemsz : Nat := max (o.ssize + 4 * o.psize) 1

/-- `__getitem__` of `obj` -/
def getitem (i : Nat) : Except Err Obj :=
  if i ≥ o.nelem then .error .indexError
  else .ok ⟨o.base + i * o.elemsz, 1, o.ssize, o.psize⟩

end Obj

/-- `from_buf` -/
def fromBuf (buf : Bytes) (base : Nat) : Except Err Obj := do
  let nelem ← buf.unpack base 4
  let ssize ← buf.unpack (base + 4) 2
  let psize ← buf.unpack (base + 6) 2
  pure ⟨base + 8, nelem, ssize, psize⟩

/-- The bytes that `new` appends, header included. -/
def newSize (nelem ssize psize : Nat) : Nat :=
  let elemsz := ssize + 4 * psize
  let totalsz := 8 + if elemsz > 0 then elemsz * nelem else (nelem + 7) >>> 3
  ((totalsz + 7) >>> 3) <<< 3

/-- `new`. A call without a buffer makes an empty one. -/
def new (buf : Bytes) (nelem ssize psize : Nat) : Except Err (Bytes × Obj) := do
  let base := buf.len
  let buf ← (buf.extend (newSize nelem ssize psize)).packHdr base nelem ssize psize
  pure (buf, ⟨base + 8, nelem, ssize, psize⟩)

namespace Obj

variable (buf : Bytes) (o : Obj)

/-! ## Scalars -/

/-- `_scalar_ptr` -/
def scalarPtr (offs size : Nat) : Except Err Nat := do
  if offs + size > o.ssize then .error .indexError
  else do
    let ptr := o.base + offs
    assertPy (ptr % size = 0)
    pure ptr

/-- `_int_fmt`: only the sizes of a C integer have a format. -/
def intFmt (size : Nat) : Except Err Unit :=
  if size = 1 ∨ size = 2 ∨ size = 4 ∨ size = 8 then .ok () else .error .valueError

/-- `get_int` -/
def getInt (offs size : Nat) (unsigned : Bool) : Except Err Int := do
  intFmt size
  let ptr ← o.scalarPtr offs size
  buf.unpackInt ptr size unsigned

/-- `put_int` -/
def putInt (offs size : Nat) (unsigned : Bool) (v : Int) : Except Err Bytes := do
  intFmt size
  let ptr ← o.scalarPtr offs size
  buf.pack ptr size unsigned v

/-- `get_bool` -/
def getBool (bitoffs : Nat) : Except Err Bool := do
  let i := bitoffs >>> 3
  let j := bitoffs &&& 7
  let x ← o.getInt buf i 1 true
  pure (x.toNat &&& (1 <<< j) ≠ 0)

/-- `put_bool` -/
def putBool (bitoffs : Nat) (v : Bool) : Except Err Bytes := do
  let i := bitoffs >>> 3
  let j := bitoffs &&& 7
  let x ← o.getInt buf i 1 true
  let x := if v then x.toNat ||| (1 <<< j) else x.toNat.ldiff (1 <<< j)
  o.putInt buf i 1 true x

/-! ## Pointers and strings -/

/-- `_ptr_ptr` -/
def ptrPtr (idx : Nat) : Except Err Nat :=
  if idx ≥ o.psize then .error .indexError else .ok (o.base + (o.ssize + 4 * idx))

/-- `_obj_ptr` -/
def objPtr (idx : Nat) : Except Err (Option Nat) := do
  let ptr ← o.ptrPtr idx
  let rel ← buf.unpackInt ptr 4 false
  if rel < 0 then .error .valueError
  else if rel = 0 then pure none
  else pure (some (ptr + 4 * rel.toNat))

/-- `get_obj`, with `none` for the default. -/
def getObj (idx : Nat) : Except Err (Option Obj) := do
  match ← o.objPtr buf idx with
  | none => pure none
  | some ptr => (fromBuf buf ptr).map some

/-- `put_obj` -/
def putObj (idx : Nat) (v : Obj) : Except Err Bytes := do
  let ptr ← o.ptrPtr idx
  let rel : Int := ((v.base : Int) - 8 - ptr) / 4
  if rel ≤ 0 then .error .valueError
  else buf.pack ptr 4 false rel

/-- `put_str` of an encoded string -/
def putStr (idx : Nat) (v : List UInt8) : Except Err (Bytes × Obj) := do
  let (buf, s) ← new buf (v.length + 1) 1 0
  let buf ← buf.packStr s.base v
  let buf ← o.putObj buf idx s
  pure (buf, s)

end Obj

/-! ## What they compute -/

theorem InRange.unsigned {size v : Nat} (h : v < 256 ^ size) : InRange size true v := by
  rw [InRange, if_pos rfl]
  exact ⟨Int.natCast_nonneg v, by exact_mod_cast h⟩

theorem Bytes.pack_of_le {buf : Bytes} {offset size : Nat} {unsigned : Bool} {v : Int}
    (hv : InRange size unsigned v) (h : offset + size ≤ buf.len) :
    buf.pack offset size unsigned v
      = .ok { buf with mem := buf.mem.store offset size (v % 256 ^ size).toNat } :=
  if_pos ⟨hv, h⟩

theorem Bytes.pack_ok {buf buf' : Bytes} {offset size : Nat} {unsigned : Bool} {v : Int}
    (h : buf.pack offset size unsigned v = .ok buf') :
    InRange size unsigned v ∧ offset + size ≤ buf.len ∧
      buf' = { buf with mem := buf.mem.store offset size (v % 256 ^ size).toNat } := by
  rw [Bytes.pack] at h
  split at h
  · next hc => exact ⟨hc.1, hc.2, (Except.ok.inj h).symm⟩
  · cases h

/-- An unsigned number is stored as it is. -/
theorem Bytes.pack_nat {buf : Bytes} {offset size v : Nat} (hv : v < 256 ^ size)
    (h : offset + size ≤ buf.len) :
    buf.pack offset size true v = .ok { buf with mem := buf.mem.store offset size v } := by
  have hcast : (v : Int) % 256 ^ size = ((v % 256 ^ size : Nat) : Int) := by push_cast; rfl
  rw [Bytes.pack_of_le (InRange.unsigned hv) h, hcast, Int.toNat_natCast, Nat.mod_eq_of_lt hv]

/-- The three numbers of a header are its word. -/
theorem store_hdrWord (m : ByteMem) (base : Nat) {nelem ssize psize : Nat} (hn : nelem < 2 ^ 32)
    (hs : ssize < 2 ^ 16) :
    ((m.store base 4 nelem).store (base + 4) 2 ssize).store (base + 6) 2 psize
      = m.store base 8 (hdrWord nelem ssize psize) := by
  have h1 : hdrWord nelem ssize psize % 256 ^ 4 = nelem := by rw [hdrWord]; omega
  have h2 : hdrWord nelem ssize psize / 256 ^ 4 % 256 ^ 2 = ssize := by rw [hdrWord]; omega
  have h3 : hdrWord nelem ssize psize / 256 ^ 6 = psize := by rw [hdrWord]; omega
  generalize hdrWord nelem ssize psize = hdr at h1 h2 h3
  calc ((m.store base 4 nelem).store (base + 4) 2 ssize).store (base + 6) 2 psize
      = ((m.store base 4 hdr).store (base + 4) 2 (hdr / 256 ^ 4)).store (base + 6) 2
          (hdr / 256 ^ 6) := by
        rw [← ByteMem.store_mod m base 4 hdr, h1,
          ← ByteMem.store_mod _ (base + 4) 2 (hdr / 256 ^ 4), h2, h3]
    _ = (m.store base 6 hdr).store (base + 6) 2 (hdr / 256 ^ 6) := by
        rw [← ByteMem.store_add m base 4 2]
    _ = m.store base 8 hdr := (ByteMem.store_add m base 6 2 hdr).symm

theorem Bytes.packHdr_of_le {buf : Bytes} {base nelem ssize psize : Nat} (hn : nelem < 2 ^ 32)
    (hs : ssize < 2 ^ 16) (hp : psize < 2 ^ 16) (h : base + 8 ≤ buf.len) :
    buf.packHdr base nelem ssize psize
      = .ok { buf with mem := buf.mem.store base 8 (hdrWord nelem ssize psize) } := by
  have hn' : nelem < 256 ^ 4 := Nat.lt_of_lt_of_le hn (by decide)
  have hs' : ssize < 256 ^ 2 := Nat.lt_of_lt_of_le hs (by decide)
  have hp' : psize < 256 ^ 2 := Nat.lt_of_lt_of_le hp (by decide)
  rw [Bytes.packHdr, Bytes.pack_nat hn' (by omega), ok_bind,
    Bytes.pack_nat hs' (by show base + 4 + 2 ≤ buf.len; omega), ok_bind,
    Bytes.pack_nat hp' (by show base + 6 + 2 ≤ buf.len; omega), store_hdrWord buf.mem base hn hs]

theorem InRange.unsigned_lt {size v : Nat} (h : InRange size true v) : v < 256 ^ size := by
  rw [InRange, if_pos rfl] at h
  exact_mod_cast h.2

/-- A header that was packed has counts of the sizes of its fields. -/
theorem Bytes.packHdr_ok {buf buf' : Bytes} {base nelem ssize psize : Nat}
    (h : buf.packHdr base nelem ssize psize = .ok buf') :
    nelem < 2 ^ 32 ∧ ssize < 2 ^ 16 ∧ psize < 2 ^ 16 := by
  obtain ⟨buf₁, h1, h⟩ := bind_eq_ok.mp h
  obtain ⟨buf₂, h2, h3⟩ := bind_eq_ok.mp h
  have hn := (Bytes.pack_ok h1).1.unsigned_lt
  have hs := (Bytes.pack_ok h2).1.unsigned_lt
  have hp := (Bytes.pack_ok h3).1.unsigned_lt
  exact ⟨by omega, by omega, by omega⟩

/-- The header at `base`, read back. -/
theorem fromBuf_of_load {buf : Bytes} {base nelem ssize psize : Nat} (hn : nelem < 2 ^ 32)
    (hs : ssize < 2 ^ 16) (h : base + 8 ≤ buf.len)
    (hload : buf.mem.load base 8 = hdrWord nelem ssize psize) :
    fromBuf buf base = .ok ⟨base + 8, nelem, ssize, psize⟩ := by
  have h1 : buf.mem.load base 8 = buf.mem.load base 4 + 256 ^ 4 * buf.mem.load (base + 4) 4 :=
    buf.mem.load_add base 4 4
  have h2 : buf.mem.load (base + 4) 4
      = buf.mem.load (base + 4) 2 + 256 ^ 2 * buf.mem.load (base + 6) 2 :=
    buf.mem.load_add (base + 4) 2 2
  have hlt := buf.mem.load_lt base 4
  have hlt' := buf.mem.load_lt (base + 4) 2
  rw [hload, hdrWord] at h1
  have hword : buf.mem.load base 4 = nelem ∧ buf.mem.load (base + 4) 2 = ssize ∧
      buf.mem.load (base + 6) 2 = psize := by omega
  obtain ⟨e1, e2, e3⟩ := hword
  unfold fromBuf Bytes.unpack
  rw [if_pos (by omega), if_pos (by omega), if_pos (by omega), e1, e2, e3]
  rfl

/-! ## Fields in range -/

theorem Obj.intFmt_of_scalarSize {size : Nat} (h : scalarSize size = true) :
    Obj.intFmt size = .ok () := by
  simp only [scalarSize, Bool.or_eq_true, beq_iff_eq, or_assoc] at h
  exact if_pos h

theorem Obj.scalarPtr_of_le {o : Obj} {offs size : Nat} (h : offs + size ≤ o.ssize)
    (hdvd : size ∣ o.base + offs) : o.scalarPtr offs size = .ok (o.base + offs) := by
  rw [Obj.scalarPtr, if_neg (Nat.not_lt.mpr h)]
  simp only [assertPy, Nat.mod_eq_zero_of_dvd hdvd, if_true, ok_bind]
  rfl

/-- A field behind the scalar part of the wire object is an `IndexError`. -/
theorem Obj.scalarPtr_of_lt {o : Obj} {offs size : Nat} (h : o.ssize < offs + size) :
    o.scalarPtr offs size = .error .indexError := if_pos h

theorem Obj.getInt_of_le {buf : Bytes} {o : Obj} {offs size : Nat} {unsigned : Bool}
    (hsize : scalarSize size = true) (h : offs + size ≤ o.ssize) (hdvd : size ∣ o.base + offs) :
    o.getInt buf offs size unsigned = buf.unpackInt (o.base + offs) size unsigned := by
  rw [Obj.getInt, Obj.intFmt_of_scalarSize hsize, ok_bind, Obj.scalarPtr_of_le h hdvd, ok_bind]

theorem Obj.putInt_of_le {buf : Bytes} {o : Obj} {offs size : Nat} {unsigned : Bool} {v : Int}
    (hsize : scalarSize size = true) (h : offs + size ≤ o.ssize) (hdvd : size ∣ o.base + offs)
    (hv : InRange size unsigned v) (hin : o.base + offs + size ≤ buf.len) :
    o.putInt buf offs size unsigned v = .ok
      { buf with mem := buf.mem.store (o.base + offs) size (v % 256 ^ size).toNat } := by
  rw [Obj.putInt, Obj.intFmt_of_scalarSize hsize, ok_bind, Obj.scalarPtr_of_le h hdvd, ok_bind,
    Bytes.pack_of_le hv hin]

/-- The byte that `get_bool` and `put_bool` read. -/
theorem Obj.getInt_byte {buf : Bytes} {o : Obj} {i : Nat} (h : i < o.ssize)
    (hin : o.base + i < buf.len) :
    o.getInt buf i 1 true = .ok ((buf.mem (o.base + i)).toNat : Int) := by
  have hin' : o.base + i + 1 ≤ buf.len := hin
  rw [Obj.getInt_of_le rfl h (one_dvd _), Bytes.unpackInt, Bytes.unpack, if_pos hin', ok_bind,
    ByteMem.load_one]
  rfl

theorem and_seven (n : Nat) : n &&& 7 = n % 8 := Nat.and_two_pow_sub_one_eq_mod n 3

theorem shiftRight_three (n : Nat) : n >>> 3 = n / 8 := Nat.shiftRight_eq_div_pow n 3

/-- The byte that `put_bool` computes -/
theorem testBit_byte (x j : Nat) (v : Bool) (i : Nat) :
    (if v then x ||| (1 <<< j) else x.ldiff (1 <<< j)).testBit i
      = if i = j then v else x.testBit i := by
  have hone : (1 <<< j : Nat).testBit i = decide (i = j) := by
    rw [Nat.one_shiftLeft, Nat.testBit_two_pow]
    simp [eq_comm]
  cases v with
  | true =>
      rw [if_pos rfl, Nat.testBit_or, hone]
      by_cases hij : i = j <;> simp [hij]
  | false =>
      rw [if_neg Bool.false_ne_true, Nat.testBit_ldiff, hone]
      by_cases hij : i = j <;> simp [hij]

/-- **A bit is put in its byte** as the C writer does it. -/
theorem Obj.putBool_of_lt {buf : Bytes} {o : Obj} {bitoffs : Nat} (v : Bool)
    (h : bitoffs / 8 < o.ssize) (hin : o.base + bitoffs / 8 < buf.len) :
    o.putBool buf bitoffs v
      = .ok { buf with mem := buf.mem.putBit (o.base + bitoffs / 8) (bitoffs % 8) v } := by
  generalize hk : o.base + bitoffs / 8 = k at hin
  have hx := (buf.mem k).toNat_lt
  have hj : bitoffs % 8 < 8 := Nat.mod_lt _ (by decide)
  have hbits := testBit_byte (buf.mem k).toNat (bitoffs % 8) v
  generalize hbyte : (if v then (buf.mem k).toNat ||| (1 <<< (bitoffs % 8))
    else (buf.mem k).toNat.ldiff (1 <<< (bitoffs % 8))) = byte at hbits
  have hlt : byte < 2 ^ 8 := by
    apply Nat.lt_pow_two_of_testBit
    intro i hi
    rw [hbits, if_neg (by omega)]
    exact Nat.testBit_lt_two_pow (Nat.lt_of_lt_of_le hx (Nat.pow_le_pow_right (by decide) hi))
  have hmem : buf.mem.store k 1 byte = buf.mem.putBit k (bitoffs % 8) v := by
    apply ByteMem.ext_bit
    intro p i hi
    rw [ByteMem.bit_store _ _ _ _ _ hi, ByteMem.bit_putBit _ _ hj]
    by_cases hp : p = k
    · subst hp
      rw [if_pos (by omega), Nat.sub_self, Nat.mul_zero, Nat.zero_add, hbits]
      simp [ByteMem.bit]
    · rw [if_neg (by omega), if_neg (by simp [hp])]
  rw [Obj.putBool]
  simp only [shiftRight_three, and_seven]
  rw [Obj.getInt_byte h (hk ▸ hin), ok_bind, Int.toNat_natCast, hk, hbyte,
    Obj.putInt_of_le rfl h (one_dvd _) (InRange.unsigned hlt) (hk ▸ hin), hk, ← hmem]
  have hcast : ((byte : Int) % 256 ^ 1).toNat = byte := by omega
  rw [hcast]

/-! ## New objects -/

theorem newSize_ge (nelem ssize psize : Nat) : 8 ≤ newSize nelem ssize psize := by
  unfold newSize
  simp only [Nat.shiftRight_eq_div_pow, Nat.shiftLeft_eq]
  omega

/-- **What `new` does**: it clears the bytes it appends and packs the header. -/
theorem new_of_lt {buf : Bytes} {nelem ssize psize : Nat} (hn : nelem < 2 ^ 32)
    (hs : ssize < 2 ^ 16) (hp : psize < 2 ^ 16) :
    new buf nelem ssize psize = .ok
      (⟨(buf.mem.fill buf.len (newSize nelem ssize psize) 0).store buf.len 8
          (hdrWord nelem ssize psize), buf.len + newSize nelem ssize psize⟩,
        ⟨buf.len + 8, nelem, ssize, psize⟩) := by
  have hge := newSize_ge nelem ssize psize
  have hin : buf.len + 8 ≤ (buf.extend (newSize nelem ssize psize)).len :=
    Nat.add_le_add_left hge _
  rw [new, Bytes.packHdr_of_le hn hs hp hin]
  rfl

theorem new_ok {buf buf' : Bytes} {o : Obj} {nelem ssize psize : Nat}
    (h : new buf nelem ssize psize = .ok (buf', o)) :
    nelem < 2 ^ 32 ∧ ssize < 2 ^ 16 ∧ psize < 2 ^ 16 := by
  obtain ⟨buf₁, h, -⟩ := bind_eq_ok.mp h
  exact Bytes.packHdr_ok h

/-! ## Pointers -/

theorem Obj.ptrPtr_of_lt {o : Obj} {idx : Nat} (h : idx < o.psize) :
    o.ptrPtr idx = .ok (o.base + (o.ssize + 4 * idx)) := if_neg (Nat.not_le.mpr h)

theorem Obj.ptrPtr_ok {o : Obj} {idx ptr : Nat} (h : o.ptrPtr idx = .ok ptr) :
    idx < o.psize ∧ ptr = o.base + (o.ssize + 4 * idx) := by
  by_cases hlt : idx < o.psize
  · rw [Obj.ptrPtr_of_lt hlt] at h
    exact ⟨hlt, (Except.ok.inj h).symm⟩
  · rw [Obj.ptrPtr, if_pos (Nat.not_lt.mp hlt)] at h
    cases h

/-- **A pointer is put** as the distance in words from its slot to the header of the object. -/
theorem Obj.putObj_of_lt {buf : Bytes} {o v : Obj} {idx : Nat} (hidx : idx < o.psize)
    (hlt : o.base + (o.ssize + 4 * idx) < v.base - 8)
    (hdvd : 4 ∣ v.base - 8 - (o.base + (o.ssize + 4 * idx))) (hbase : v.base < 2 ^ 33)
    (hin : o.base + (o.ssize + 4 * idx) + 4 ≤ buf.len) :
    o.putObj buf idx v = .ok { buf with
      mem := buf.mem.store (o.base + (o.ssize + 4 * idx)) 4
        ((v.base - 8 - (o.base + (o.ssize + 4 * idx))) / 4) } := by
  rw [Obj.putObj, Obj.ptrPtr_of_lt hidx, ok_bind]
  generalize o.base + (o.ssize + 4 * idx) = ptr at *
  have hrel : ((v.base : Int) - 8 - ptr) / 4 = ((v.base - 8 - ptr) / 4 : Nat) := by omega
  have hpos : 0 < (v.base - 8 - ptr) / 4 := by omega
  simp only [hrel]
  generalize hr : (v.base - 8 - ptr) / 4 = r at *
  have hrange : InRange 4 false r := by
    rw [InRange, if_neg Bool.false_ne_true]
    omega
  have hmod : ((r : Int) % 256 ^ 4).toNat = r := by omega
  rw [if_neg (by omega), Bytes.pack_of_le hrange hin, hmod]

/-- What `put_obj` does when it succeeds. -/
theorem Obj.putObj_ok {buf buf' : Bytes} {o v : Obj} {idx : Nat} (h : o.putObj buf idx v = .ok buf') :
    ∃ rel : Nat, 0 < rel ∧ rel < 2 ^ 31 ∧ idx < o.psize ∧
      (rel : Int) = ((v.base : Int) - 8 - (o.base + (o.ssize + 4 * idx) : Nat)) / 4 ∧
      o.base + (o.ssize + 4 * idx) + 4 ≤ buf.len ∧
      buf' = { buf with mem := buf.mem.store (o.base + (o.ssize + 4 * idx)) 4 rel } := by
  obtain ⟨ptr, hptr, h⟩ := bind_eq_ok.mp h
  obtain ⟨hidx, rfl⟩ := Obj.ptrPtr_ok hptr
  generalize hrel : ((v.base : Int) - 8 - (o.base + (o.ssize + 4 * idx) : Nat)) / 4 = rel at h
  by_cases hpos : rel ≤ 0
  · simp [hpos] at h
  · simp only [hpos, if_false] at h
    obtain ⟨hrange, hin, rfl⟩ := Bytes.pack_ok h
    simp only [InRange, Bool.false_eq_true, if_false] at hrange
    refine ⟨rel.toNat, by omega, by omega, hidx, by omega, hin, ?_⟩
    have hmod : rel % 256 ^ 4 = rel := by omega
    rw [hmod]

/-- What `get_obj` finds behind a pointer. -/
theorem Obj.getObj_of_load {buf : Bytes} {o : Obj} {idx rel : Nat} (hidx : idx < o.psize)
    (hin : o.base + (o.ssize + 4 * idx) + 4 ≤ buf.len) (hrel : 0 < rel) (hlt : rel < 2 ^ 31)
    (hload : buf.mem.load (o.base + (o.ssize + 4 * idx)) 4 = rel) :
    o.getObj buf idx = (fromBuf buf (o.base + (o.ssize + 4 * idx) + 4 * rel)).map some := by
  have hint : buf.unpackInt (o.base + (o.ssize + 4 * idx)) 4 false = .ok (rel : Int) := by
    have hbmod : (rel : Int).bmod (256 ^ 4) = rel := by
      rw [Int.bmod_eq_of_le] <;> omega
    rw [Bytes.unpackInt, Bytes.unpack, if_pos hin, hload, ok_bind, if_neg Bool.false_ne_true, hbmod]
    rfl
  have hptr : o.objPtr buf idx = .ok (some (o.base + (o.ssize + 4 * idx) + 4 * rel)) := by
    rw [Obj.objPtr, Obj.ptrPtr_of_lt hidx, ok_bind, hint, ok_bind]
    rw [if_neg (by omega), if_neg (by omega), Int.toNat_natCast]
    rfl
  rw [Obj.getObj, hptr]
  rfl

end Nbuf.Py
