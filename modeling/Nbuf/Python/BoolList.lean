import Nbuf.Lib.Run
import Nbuf.Python.Obj

set_option autoImplicit false

/-! # Lists of bools in Python (`python/nbuf.py`)

A vector of bits has `ssize = psize = 0`. `bool_list` takes an element of eight bits as an `obj` of
one element and reads a bit of its first byte with `get_bool`, whose bounds check compares with the
`ssize` of that object, which is still `0`: no access passes it.
-/

namespace Nbuf.Py

/-! ## The class and the generated methods -/

/-- `__getitem__` of `bool_list` -/
def BoolList.getitem (buf : Bytes) (l : Obj) (i : Nat) : Except Err Bool := do
  (← l.getitem (i >>> 3)).getBool buf (i &&& 7)

/-- `__setitem__` of `bool_list` -/
def BoolList.setitem (buf : Bytes) (l : Obj) (i : Nat) (v : Bool) : Except Err Bytes := do
  (← l.getitem (i >>> 3)).putBool buf (i &&& 7) v

/-- Iteration asks for the elements in order until there is an `IndexError`. The fuel bounds the
number of elements. -/
def BoolList.iterFrom (buf : Bytes) (l : Obj) : Nat → Nat → Except Err (List Bool)
  | 0, _ => .ok []
  | fuel + 1, i =>
      match BoolList.getitem buf l i with
      | .ok v => (BoolList.iterFrom buf l fuel (i + 1)).map (v :: ·)
      | .error .indexError => .ok []
      | .error e => .error e

/-- `list(l)`: `__getitem__` fails from index `8 * nelem` on. -/
def BoolList.iter (buf : Bytes) (l : Obj) : Except Err (List Bool) :=
  BoolList.iterFrom buf l (8 * l.nelem + 1) 0

/-- The generated `init_` method of a list of bools -/
def initBools (buf : Bytes) (m : Obj) (tag0 n : Nat) : Except Err (Bytes × Obj) := do
  let (buf, o) ← new buf n 0 0
  let buf ← m.putObj buf tag0 o
  pure (buf, o)

/-- The generated getter of a list of bools, with `none` for the default `[]` -/
def boolsOf (buf : Bytes) (m : Obj) (tag0 : Nat) : Except Err (Option Obj) := m.getObj buf tag0

/-! ## What a list promises -/

/-- The assignments `l[i] = v` in order. -/
def assign (l : Obj) (buf : Bytes) : List (Nat × Bool) → Except Err Bytes
  | [] => .ok buf
  | (i, v) :: rest => do assign l (← BoolList.setitem buf l i v) rest

/-- The last value that is assigned to element `i`, `False` if there is none. -/
def lastOf (assigns : List (Nat × Bool)) (i : Nat) : Bool :=
  ((assigns.reverse.find? fun a => a.1 = i).map Prod.snd).getD false

/-- The bit that the C reader sees: `nbuf_get_elem(i)`, then `nbuf_get_bit(i % 8)`. -/
def cBit (buf : Bytes) (l : Obj) (i : Nat) : Option Bool :=
  getBit ⟨buf.mem, buf.len, 0⟩ (getElem (Nbuf.Obj.ofFields l.base l.nelem l.ssize l.psize) i) (i % 8)

/-- `l` is a list of `n` bools that are `False` and can be assigned: after every sequence of
assignments each element has its last value, for Python and for C, and iteration yields `n`
values. -/
def IsBoolList (buf : Bytes) (l : Obj) (n : Nat) : Prop :=
  l.nelem = n ∧ ∀ assigns : List (Nat × Bool), (∀ a ∈ assigns, a.1 < n) →
    ∃ buf', assign l buf assigns = .ok buf' ∧
      (∀ i < n, BoolList.getitem buf' l i = .ok (lastOf assigns i) ∧
        cBit buf' l i = some (lastOf assigns i)) ∧
      ∃ vs, BoolList.iter buf' l = .ok vs ∧ vs.length = n

/-! ## What happens -/

/-- **No access passes**: an element in range raises `IndexError`. -/
theorem BoolList.getitem_of_ssize {buf : Bytes} {l : Obj} (h0 : l.ssize = 0) (i : Nat) :
    BoolList.getitem buf l i = .error .indexError := by
  rw [BoolList.getitem, Obj.getitem]
  by_cases hi : i >>> 3 ≥ l.nelem
  · rw [if_pos hi]
    rfl
  · rw [if_neg hi, ok_bind, Obj.getBool, Obj.getInt, Obj.scalarPtr_of_lt (by simp only; omega)]
    rfl

theorem BoolList.setitem_of_ssize {buf : Bytes} {l : Obj} (h0 : l.ssize = 0) (i : Nat) (v : Bool) :
    BoolList.setitem buf l i v = .error .indexError := by
  rw [BoolList.setitem, Obj.getitem]
  by_cases hi : i >>> 3 ≥ l.nelem
  · rw [if_pos hi]
    rfl
  · rw [if_neg hi, ok_bind, Obj.putBool, Obj.getInt, Obj.scalarPtr_of_lt (by simp only; omega)]
    rfl

/-- An iteration ends at once, so a list of any length looks empty. -/
theorem BoolList.iter_of_ssize {buf : Bytes} {l : Obj} (h0 : l.ssize = 0) :
    BoolList.iter buf l = .ok [] := by
  rw [BoolList.iter, BoolList.iterFrom, BoolList.getitem_of_ssize h0]

/-- What an `init_` method does when it succeeds. -/
theorem initBools_ok {buf buf' : Bytes} {m o : Obj} {tag0 n : Nat}
    (h : initBools buf m tag0 n = .ok (buf', o)) :
    n < 2 ^ 32 ∧ o = ⟨buf.len + 8, n, 0, 0⟩ ∧ m.putObj
      ⟨(buf.mem.fill buf.len (newSize n 0 0) 0).store buf.len 8 (hdrWord n 0 0),
        buf.len + newSize n 0 0⟩ tag0 o = .ok buf' := by
  obtain ⟨⟨buf₁, o₁⟩, hnew, h⟩ := bind_eq_ok.mp h
  obtain ⟨buf₂, hput, h⟩ := bind_eq_ok.mp h
  obtain ⟨rfl, rfl⟩ := Prod.mk.inj (Except.ok.inj h)
  have hn := (new_ok hnew).1
  rw [new_of_lt hn (by decide) (by decide)] at hnew
  obtain ⟨hbuf, hobj⟩ := Prod.mk.inj (Except.ok.inj hnew)
  refine ⟨hn, hobj.symm, ?_⟩
  rw [hbuf]
  exact hput

/-- The getter finds the list that the `init_` method made. -/
theorem boolsOf_initBools {buf buf' : Bytes} {m o : Obj} {tag0 n : Nat}
    (hslot : 4 ∣ buf.len - (m.base + (m.ssize + 4 * tag0)))
    (h : initBools buf m tag0 n = .ok (buf', o)) : boolsOf buf' m tag0 = .ok (some o) ∧
      o.nelem = n ∧ o.ssize = 0 := by
  obtain ⟨hn, hobj, hput⟩ := initBools_ok h
  subst hobj
  refine ⟨?_, rfl, rfl⟩
  have hsize := newSize_ge n 0 0
  generalize newSize n 0 0 = size at *
  obtain ⟨rel, hpos, hlt, hidx, hrel, hin, hbuf⟩ := Obj.putObj_ok hput
  generalize hptr : m.base + (m.ssize + 4 * tag0) = ptr at *
  simp only at hrel hin hbuf
  -- The pointer leads to the end of the old bytes, where the header of the list is.
  have hend : ptr + 4 * rel = buf.len := by omega
  have hword : (buf'.mem.load buf.len 8) = hdrWord n 0 0 := by
    rw [hbuf, ByteMem.load_store_disjoint _ (by omega), ByteMem.load_store]
    exact Nat.mod_eq_of_lt (hdrWord_lt hn (by decide) (by decide))
  have hload : buf'.mem.load ptr 4 = rel := by
    rw [hbuf, ByteMem.load_store]
    omega
  have hlen : buf'.len = buf.len + size := by rw [hbuf]
  have hget := @Obj.getObj_of_load buf' _ _ _ hidx (by omega) hpos hlt (by rw [hptr, hload])
  rw [boolsOf, hget, hptr, hend, fromBuf_of_load hn (by decide) (by omega) hword]
  rfl

/-- **A generated list of bools works exactly if it is empty.** The slot of the field is a whole
number of words before the end of the bytes, as in every buffer that `new` builds. -/
theorem bool_list_iff {buf buf' : Bytes} {m o : Obj} {tag0 n : Nat}
    (hslot : 4 ∣ buf.len - (m.base + (m.ssize + 4 * tag0)))
    (h : initBools buf m tag0 n = .ok (buf', o)) :
    ∃ l, boolsOf buf' m tag0 = .ok (some l) ∧ (IsBoolList buf' l n ↔ n = 0) := by
  obtain ⟨hget, hn, h0⟩ := boolsOf_initBools hslot h
  refine ⟨o, hget, fun hlist => ?_, ?_⟩
  · by_contra hpos
    obtain ⟨-, hassign⟩ := hlist
    obtain ⟨buf₁, -, -, vs, hvs, hlen⟩ := hassign [] (by simp)
    rw [BoolList.iter_of_ssize h0] at hvs
    cases hvs
    exact hpos hlen.symm
  · rintro rfl
    refine ⟨hn, fun assigns hassigns => ?_⟩
    have hnil : assigns = [] := by
      cases assigns with
      | nil => rfl
      | cons a rest => exact absurd (hassigns a (by simp)) (Nat.not_lt_zero _)
    subst hnil
    exact ⟨buf', rfl, fun i hi => absurd hi (Nat.not_lt_zero i), [], BoolList.iter_of_ssize h0, rfl⟩

/-- A message of one slot in a new buffer -/
def slotMsg : Bytes × Obj :=
  (⟨(Bytes.empty.mem.fill 0 16 0).store 0 8 (hdrWord 1 0 1), 16⟩, ⟨8, 1, 0, 1⟩)

/-- A list of three bools: reading or assigning one raises `IndexError`, and it looks empty. -/
theorem bool_list_broken : new Bytes.empty 1 0 1 = .ok slotMsg ∧
    ∃ buf l, initBools slotMsg.1 slotMsg.2 0 3 = .ok (buf, l) ∧
      boolsOf buf slotMsg.2 0 = .ok (some l) ∧
      BoolList.getitem buf l 0 = .error .indexError ∧
      BoolList.setitem buf l 0 true = .error .indexError ∧
      BoolList.iter buf l = .ok [] ∧ ¬ IsBoolList buf l 3 := by
  have hinit : ∃ buf l, initBools slotMsg.1 slotMsg.2 0 3 = .ok (buf, l) := ⟨_, _, rfl⟩
  obtain ⟨buf, l, hinit⟩ := hinit
  obtain ⟨hget, -, h0⟩ := boolsOf_initBools (by decide) hinit
  refine ⟨new_of_lt (by decide) (by decide) (by decide), buf, l, hinit, hget,
    BoolList.getitem_of_ssize h0 0, BoolList.setitem_of_ssize h0 0 true,
    BoolList.iter_of_ssize h0, ?_⟩
  rintro ⟨-, hassign⟩
  obtain ⟨buf', -, hread, -⟩ := hassign [] (by simp)
  have hfirst := (hread 0 (by decide)).1
  rw [BoolList.getitem_of_ssize h0] at hfirst
  cases hfirst

theorem bool_list_iff_slotMsg : ∃ buf l, initBools slotMsg.1 slotMsg.2 0 0 = .ok (buf, l) ∧
    ∃ l', boolsOf buf slotMsg.2 0 = .ok (some l') ∧ (IsBoolList buf l' 0 ↔ 0 = 0) := by
  have hinit : ∃ buf l, initBools slotMsg.1 slotMsg.2 0 0 = .ok (buf, l) := ⟨_, _, rfl⟩
  obtain ⟨buf, l, hinit⟩ := hinit
  exact ⟨buf, l, hinit, bool_list_iff (by decide) hinit⟩

end Nbuf.Py
