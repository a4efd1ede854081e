import Nbuf.Lib.Offsets
import Nbuf.Lib.Run
import Nbuf.Wire.Cell

set_option autoImplicit false

/-! # The object heap

What a client of the writer builds is a list of objects that refer to each other by number. The
writer calls act on this list; the plain writer and the builder are two representations of it.
Objects are numbered in the order in which they are created.
-/

namespace Nbuf

open Align Offsets ByteMem

abbrev Heap := List Cell

namespace Heap

/-! ## Offsets -/

def sizes (h : Heap) : List Nat := h.map fun c => c.blockSize

/-- Where object `i` stands when the objects are laid out one behind the other. -/
def offs (h : Heap) (i : Nat) : Nat := offset h.sizes i

/-- The bytes of all objects. -/
def total (h : Heap) : Nat := h.sizes.sum

theorem sizes_getElem? {h : Heap} {i : Nat} {c : Cell} (hc : h[i]? = some c) :
    h.sizes[i]? = some c.blockSize := by
  unfold sizes
  rw [List.getElem?_map, hc]
  rfl

theorem length_sizes (h : Heap) : h.sizes.length = h.length := List.length_map _

theorem offs_length (h : Heap) : h.offs h.length = h.total := by
  rw [offs, ← h.length_sizes, offset_length, total]

theorem offs_succ {h : Heap} {i : Nat} {c : Cell} (hc : h[i]? = some c) :
    h.offs (i + 1) = h.offs i + c.blockSize := offset_succ (sizes_getElem? hc)

theorem offs_add_le {h : Heap} {i j : Nat} {c : Cell} (hc : h[i]? = some c) (hij : i < j) :
    h.offs i + c.blockSize ≤ h.offs j := offset_add_le (sizes_getElem? hc) hij

theorem offs_add_le_total {h : Heap} {i : Nat} {c : Cell} (hc : h[i]? = some c) :
    h.offs i + c.blockSize ≤ h.total := offset_add_le_sum (sizes_getElem? hc)

theorem dvd_offs (h : Heap) (i : Nat) : 8 ∣ h.offs i := by
  refine dvd_offset (fun n hn => ?_) i
  obtain ⟨c, -, rfl⟩ := List.mem_map.mp hn
  exact c.dvd_blockSize

theorem dvd_total (h : Heap) : 8 ∣ h.total := by
  rw [← h.offs_length]
  exact h.dvd_offs _

theorem offs_append (h more : Heap) {i : Nat} (hi : i ≤ h.length) :
    (h ++ more).offs i = h.offs i := by
  unfold offs sizes
  rw [List.map_append, offset_append _ _ (by rwa [List.length_map])]

theorem total_append (h more : Heap) : (h ++ more).total = h.total + more.total := by
  simp [total, sizes]

theorem total_cons (c : Cell) (h : Heap) : total (c :: h) = c.blockSize + total h := by
  simp [total, sizes]

theorem total_singleton (c : Cell) : total [c] = c.blockSize := by simp [total, sizes]

/-- Every object takes up a header at least. -/
theorem length_le_total (h : Heap) : 8 * h.length ≤ h.total := by
  induction h with
  | nil => exact Nat.le_refl _
  | cons c h ih =>
      have hle := c.le_blockSize
      rw [total_cons, List.length_cons]
      omega

/-- Every byte belongs to an object. -/
theorem exists_block {h : Heap} {p : Nat} (hp : p < h.total) :
    ∃ i c, h[i]? = some c ∧ h.offs i ≤ p ∧ p < h.offs i + c.blockSize := by
  obtain ⟨i, n, hn, h1, h2⟩ := exists_of_lt_sum hp
  unfold sizes at hn
  rw [List.getElem?_map] at hn
  obtain ⟨c, hc, rfl⟩ := Option.map_eq_some_iff.mp hn
  exact ⟨i, c, hc, h1, h2⟩

/-- An update that keeps the shapes keeps the sizes. -/
theorem sizes_modify (h : Heap) (i : Nat) {f : Cell → Cell}
    (hf : ∀ c, (f c).blockSize = c.blockSize) : sizes (h.modify i f) = h.sizes := by
  unfold sizes
  apply List.ext_getElem?
  intro j
  rw [List.getElem?_map, List.getElem?_map, List.getElem?_modify]
  by_cases hij : i = j
  · cases h[j]? with
    | none => simp
    | some c => simp [hij, hf]
  · simp [hij]

/-! ## Pointers -/

/-- The position of a pointer slot of object `i`. -/
def slotPos (h : Heap) (i : Nat) (c : Cell) (row s : Nat) : Nat := c.slotPos (h.offs i) row s

/-- The word of a pointer: the distance of the target from the slot in words, cut to 32 bits. -/
def relWord (h : Heap) (i : Nat) (c : Cell) (row s : Nat) : Nat :=
  match c.ptr row s with
  | none => 0
  | some t => (h.offs t - h.slotPos i c row s) / 4 % 2 ^ 32

/-- Pointers lead to objects created later. -/
def Forward (h : Heap) : Prop :=
  ∀ (i : Nat) (c : Cell), h[i]? = some c → ∀ row, row < c.rows → ∀ s, s < c.psize →
    ∀ t, c.ptr row s = some t → i < t ∧ t < h.length

/-- The bytes of `m` are the objects of the heap, one behind the other. -/
def Rep (m : ByteMem) (h : Heap) : Prop :=
  ∀ (i : Nat) (c : Cell), h[i]? = some c → Block m (h.offs i) c (h.relWord i c)

/-! ## Updates -/

section

variable {h : Heap} {i : Nat} {c : Cell}

/-- An update of one object whose pointers all lead forward. -/
theorem Forward.modify (hfwd : h.Forward) {f : Cell → Cell}
    (hptr : ∀ c, h[i]? = some c → ∀ row, row < (f c).rows → ∀ x, x < (f c).psize → ∀ t,
      (f c).ptr row x = some t → i < t ∧ t < h.length) : Forward (h.modify i f) := by
  intro j cj hj row hrow x hx t ht
  rw [List.length_modify]
  by_cases hij : i = j
  · subst hij
    obtain ⟨c0, hc0, rfl⟩ : ∃ c0, h[i]? = some c0 ∧ f c0 = cj := by
      rw [List.getElem?_modify_eq] at hj
      exact Option.map_eq_some_iff.mp hj
    exact hptr c0 hc0 row hrow x hx t ht
  · rw [List.getElem?_modify_ne _ _ hij] at hj
    exact hfwd j cj hj row hrow x hx t ht

/-- Updates of scalar bytes keep the pointers. -/
theorem Forward.modify_scal (hfwd : h.Forward) {f : Cell → Cell}
    (hf : ∀ c, (f c).toShape = c.toShape) (hp : ∀ c, (f c).ptr = c.ptr) :
    Forward (h.modify i f) := by
  refine hfwd.modify fun c hc row hrow x hx t ht => ?_
  rw [hp] at ht
  rw [hf] at hrow hx
  exact hfwd i c hc row hrow x hx t ht

theorem Forward.modify_ptr (hfwd : h.Forward) {k x t : Nat} (hit : i < t)
    (ht : t < h.length) : Forward (h.modify i fun c => c.putPtr (c.row k) x t) := by
  refine hfwd.modify fun c hc row hrow x' hx' t' ht' => ?_
  unfold Cell.putPtr at ht'
  dsimp only at ht'
  by_cases hr : row = c.row k
  · subst hr
    rw [Function.update_self] at ht'
    by_cases hxx : x' = x
    · subst hxx
      rw [Function.update_self, Option.some.injEq] at ht'
      omega
    · rw [Function.update_of_ne hxx] at ht'
      exact hfwd i c hc _ hrow x' hx' t' ht'
  · rw [Function.update_of_ne hr] at ht'
    exact hfwd i c hc row hrow x' hx' t' ht'

theorem Forward.append (hfwd : h.Forward) (hc : ∀ row s, c.ptr row s = none) :
    Forward (h ++ [c]) := by
  intro j cj hj row hrow x hx t ht
  rw [List.length_append]
  rcases Nat.lt_trichotomy j h.length with hlt | rfl | hgt
  · rw [List.getElem?_append_left hlt] at hj
    obtain ⟨h1, h2⟩ := hfwd j cj hj row hrow x hx t ht
    exact ⟨h1, by omega⟩
  · rw [List.getElem?_concat_length, Option.some.injEq] at hj
    rw [← hj, hc] at ht
    cases ht
  · rw [List.getElem?_eq_none (by simp; omega)] at hj
    cases hj

end

theorem relWord_append {h : Heap} (more : Heap) (hf : h.Forward) {i : Nat} {c : Cell}
    (hc : h[i]? = some c) {row s : Nat} (hrow : row < c.rows) (hs : s < c.psize) :
    (h ++ more).relWord i c row s = h.relWord i c row s := by
  have hi : i < h.length := (List.getElem?_eq_some_iff.mp hc).1
  unfold relWord slotPos
  cases hp : c.ptr row s with
  | none => rfl
  | some t =>
      have ht := (hf i c hc row hrow s hs t hp).2
      dsimp only
      rw [h.offs_append more (Nat.le_of_lt hi), h.offs_append more (Nat.le_of_lt ht)]

/-- A new object behind the others. -/
theorem Rep.append {h : Heap} {m m' : ByteMem} (hr : h.Rep m) (hf : h.Forward)
    (hm : ∀ p, p < h.total → m' p = m p) {c : Cell} (hb : Block m' h.total c (fun _ _ => 0))
    (hc : ∀ row s, c.ptr row s = none) : (h ++ [c]).Rep m' := by
  intro i ci hi
  rcases Nat.lt_trichotomy i h.length with hlt | rfl | hgt
  · rw [List.getElem?_append_left hlt] at hi
    have hend := offs_add_le_total hi
    rw [h.offs_append [c] (Nat.le_of_lt hlt)]
    exact ((hr i ci hi).congr fun p _ h2 => hm p (by omega)).congr_words
      fun row hrow s hs => relWord_append [c] hf hi hrow hs
  · rw [List.getElem?_concat_length, Option.some.injEq] at hi
    subst hi
    rw [h.offs_append [c] (Nat.le_refl _), h.offs_length]
    refine hb.congr_words fun row _ s _ => ?_
    unfold relWord
    rw [hc]
  · rw [List.getElem?_eq_none (by simp; omega)] at hi
    cases hi

theorem offs_modify (h : Heap) (i : Nat) {f : Cell → Cell} (hf : ∀ c, (f c).toShape = c.toShape)
    (j : Nat) : offs (h.modify i f) j = h.offs j := by
  unfold offs
  rw [sizes_modify h i fun c => by rw [hf]]

theorem total_modify (h : Heap) (i : Nat) {f : Cell → Cell}
    (hf : ∀ c, (f c).toShape = c.toShape) : total (h.modify i f) = h.total := by
  unfold total
  rw [sizes_modify h i fun c => by rw [hf]]

theorem total_le_modify {h : Heap} {i : Nat} {c : Cell} (hc : h[i]? = some c) {f : Cell → Cell}
    (hf : c.blockSize ≤ (f c).blockSize) : h.total ≤ total (h.modify i f) := by
  induction h generalizing i with
  | nil => cases hc
  | cons c0 h ih =>
      cases i with
      | zero =>
          obtain rfl : c0 = c := Option.some.inj hc
          rw [List.modify_zero_cons, total_cons, total_cons]
          exact Nat.add_le_add_right hf _
      | succ i =>
          rw [List.modify_succ_cons, total_cons, total_cons]
          exact Nat.add_le_add_left (ih hc) _

theorem getElem?_modify_self {h : Heap} {i : Nat} {c : Cell} (hc : h[i]? = some c)
    (f : Cell → Cell) : (h.modify i f)[i]? = some (f c) := by
  rw [List.getElem?_modify_eq, hc]
  rfl

/-- An update of one object that keeps its shape. -/
theorem Rep.modify {h : Heap} {m m' : ByteMem} (hr : h.Rep m) {i : Nat} {c : Cell}
    (hc : h[i]? = some c) {f : Cell → Cell} (hf : ∀ c, (f c).toShape = c.toShape)
    (hm : ∀ p, (p < h.offs i ∨ h.offs i + c.blockSize ≤ p) → m' p = m p)
    (hb : Block m' (h.offs i) (f c) (h.relWord i (f c))) : Heap.Rep m' (h.modify i f) := by
  have hword : ∀ j cj, Heap.relWord (h.modify i f) j cj = h.relWord j cj := by
    intro j cj
    funext row s
    unfold relWord slotPos
    cases cj.ptr row s with
    | none => rfl
    | some t => simp only [offs_modify h i hf]
  intro j cj hj
  rw [offs_modify h i hf, hword]
  by_cases hij : i = j
  · subst hij
    rw [getElem?_modify_self hc, Option.some.injEq] at hj
    exact hj ▸ hb
  · rw [List.getElem?_modify_ne _ _ hij] at hj
    refine (hr j cj hj).congr fun p h1 h2 => hm p ?_
    -- the blocks of `i` and `j` are apart
    rcases Nat.lt_or_gt_of_ne hij with hlt | hgt
    · have := offs_add_le hc hlt
      omega
    · have := offs_add_le hj hgt
      omega

/-- The words depend on the shape and the pointers of the object. -/
theorem relWord_congr (h : Heap) (i : Nat) {c c' : Cell} (hsh : c'.toShape = c.toShape)
    (hp : c'.ptr = c.ptr) : h.relWord i c' = h.relWord i c := by
  funext row s
  unfold relWord slotPos
  rw [hp, hsh]

/-- The words of an object after a pointer is put. -/
theorem relWord_putPtr (h : Heap) (i : Nat) (c : Cell) (row s t : Nat) :
    h.relWord i (c.putPtr row s t) = Function.update (h.relWord i c) row
      (Function.update (h.relWord i c row) s ((h.offs t - h.slotPos i c row s) / 4 % 2 ^ 32)) := by
  funext row' s'
  unfold relWord Cell.putPtr
  dsimp only
  by_cases hr : row' = row
  · subst hr
    rw [Function.update_self, Function.update_self]
    by_cases hss : s' = s
    · subst hss
      rw [Function.update_self, Function.update_self]
      rfl
    · rw [Function.update_of_ne hss, Function.update_of_ne hss]
      rfl
  · rw [Function.update_of_ne hr, Function.update_of_ne hr]
    rfl

/-- A slot lies in the block of its object. -/
theorem slotPos_inside (h : Heap) (i : Nat) {c : Cell} {row x : Nat} (hrow : row < c.rows)
    (hx : x < c.psize) : h.offs i + 8 ≤ h.slotPos i c row x ∧
      h.slotPos i c row x + 4 ≤ h.offs i + c.blockSize := by
  have hpos := c.rowPos_inside (h.offs i) hrow
  have hin := c.slotPos_inside (h.offs i) row hx
  have hle := c.le_blockSize
  unfold slotPos
  omega

/-- A slot stands before every object that is created later. -/
theorem slotPos_lt_offs {h : Heap} {i t : Nat} {c : Cell} (hc : h[i]? = some c) {row x : Nat}
    (hrow : row < c.rows) (hx : x < c.psize) (hit : i < t) :
    h.slotPos i c row x + 4 ≤ h.offs t :=
  (h.slotPos_inside i hrow hx).2.trans (offs_add_le hc hit)

/-- Slots stand at multiples of four. -/
theorem dvd_slotPos (h : Heap) (i : Nat) {c : Cell} (row : Nat) {x : Nat} (hx : x < c.psize) :
    4 ∣ h.slotPos i c row x := by
  have hoffs := Nat.dvd_trans (show 4 ∣ 8 by decide) (h.dvd_offs i)
  have hwidth := Shape.width_aligned (Nat.lt_of_le_of_lt (Nat.zero_le x) hx)
  have hstride : 4 ∣ c.stride := by
    rw [c.stride_eq]
    omega
  have hrow : 4 ∣ row * c.stride := Dvd.dvd.mul_left hstride row
  unfold slotPos Shape.slotPos
  rw [c.rowPos_eq]
  omega

/-! ## Handles

A client keeps a handle for each object, made from its shape and its offset. -/

/-- The list has a handle for each object. -/
def Handles {α : Type} (f : Shape → Nat → α) (objs : List α) (h : Heap) : Prop :=
  ∀ i : Nat, objs[i]? = h[i]?.map fun (c : Cell) => f c.toShape (h.offs i)

section

variable {α : Type} {f : Shape → Nat → α} {objs : List α} {h : Heap}

theorem Handles.length_eq (hobjs : h.Handles f objs) : objs.length = h.length := by
  apply Nat.le_antisymm
  · have hnone := hobjs h.length
    rw [List.getElem?_eq_none (Nat.le_refl _)] at hnone
    exact List.getElem?_eq_none_iff.mp hnone
  · have hnone := hobjs objs.length
    rw [List.getElem?_eq_none (Nat.le_refl objs.length)] at hnone
    exact List.getElem?_eq_none_iff.mp (Option.map_eq_none_iff.mp hnone.symm)

theorem Handles.get (hobjs : h.Handles f objs) {i : Nat} {c : Cell} (hc : h[i]? = some c) :
    objs[i]? = some (f c.toShape (h.offs i)) := by
  rw [hobjs i, hc]
  rfl

theorem Handles.append (hobjs : h.Handles f objs) (c : Cell) :
    Handles f (objs ++ [f c.toShape h.total]) (h ++ [c]) := by
  intro i
  rcases Nat.lt_trichotomy i h.length with hlt | rfl | hgt
  · rw [List.getElem?_append_left hlt, List.getElem?_append_left (by rwa [hobjs.length_eq]),
      hobjs i, h.offs_append _ (Nat.le_of_lt hlt)]
  · rw [List.getElem?_concat_length, ← hobjs.length_eq, List.getElem?_concat_length,
      hobjs.length_eq, h.offs_append _ (Nat.le_refl _), h.offs_length]
    rfl
  · have hlength := hobjs.length_eq
    rw [List.getElem?_eq_none (by simp; omega), List.getElem?_eq_none (by simp; omega)]
    rfl

/-- Handles are not affected by updates that keep the shape. -/
theorem Handles.modify (hobjs : h.Handles f objs) (i : Nat) {g : Cell → Cell}
    (hg : ∀ c, (g c).toShape = c.toShape) : Handles f objs (h.modify i g) := by
  intro j
  rw [hobjs j, offs_modify h i hg, List.getElem?_modify]
  cases h[j]? with
  | none => rfl
  | some cj =>
      by_cases hij : i = j
      · simp [hij, hg]
      · simp [hij]

end

theorem modify_last (h : Heap) (c : Cell) (f : Cell → Cell) :
    (h ++ [c]).modify h.length f = h ++ [f c] := by
  simp [List.modify_eq_take_cons_drop]

end Heap

/-! ## Calls -/

/-- A writer call on object `i`, through the handle of its element `k`. -/
inductive Call where
  | create (sh : Shape)
  | putInt (i k off sz v : Nat)
  | putBit (i k off : Nat) (v : Bool)
  | putPtr (i k s t : Nat)
  | putStr (i k s : Nat) (str : List UInt8) (len : Nat)

namespace Call

/-- The call keeps to the interface: element and slot exist, a number has an aligned offset and, if
it fits, a valid width, a pointer leads to an object created later, and the block of a string is
long enough. -/
def Valid (h : Heap) : Call → Prop
  | create _ => True
  | putInt i k off sz _ => ∃ c, h[i]? = some c ∧ k < c.nelem ∧
      (off + sz ≤ c.width → scalarSize sz = true) ∧ sz ≠ 0 ∧ sz ∣ off ∧ off < 2 ^ 64
  | putBit i k off _ => ∃ c, h[i]? = some c ∧ k < c.nelem ∧ off < 2 ^ 64
  | putPtr i k s t => ∃ c, h[i]? = some c ∧ k < c.nelem ∧ s < c.psize ∧ i < t ∧ t < h.length
  | putStr i k s str len => ∃ c, h[i]? = some c ∧ k < c.nelem ∧ s < c.psize ∧
      ∃ n, strLength str len = some n ∧ n ≤ str.length ∧
        (n + 1 < 2 ^ 32 ∨ (n + 1) % 2 ^ 32 = 0 ∧ n + 1 < 2 ^ 64)

/-- The end of a number does not wrap around. -/
def NoWrap : Call → Prop
  | putInt _ _ off sz _ => off + sz < 2 ^ 64
  | _ => True

def Ok (h : Heap) (c : Call) : Prop := c.Valid h ∧ c.NoWrap

/-- What a call does to the heap. A length whose `uint32_t` count is `0` leaves an empty object
that nothing leads to. -/
def apply (h : Heap) : Call → Heap
  | create sh => h ++ [Cell.new sh]
  | putInt i k off sz v => h.modify i fun c => c.setInt k off sz v
  | putBit i k off v => h.modify i fun c => c.setBit k off v
  | putPtr i k s t => h.modify i fun c => c.putPtr (c.row k) s t
  | putStr i k s str len =>
      let n := (strLength str len).getD 0
      if (n + 1) % 2 ^ 32 = 0 then h ++ [Cell.new (strShape n)]
      else (h ++ [strCell (str.take n)]).modify i fun c => c.putPtr (c.row k) s h.length

/-- The call as a step: every call has an effect. -/
def step (h : Heap) (c : Call) : Option Heap := some (c.apply h)

instance (h : Heap) : (c : Call) → Decidable (c.Valid h)
  | create _ => isTrue trivial
  | putInt i k off sz _ => inferInstanceAs (Decidable (∃ c ∈ h[i]?, k < c.nelem ∧
      (off + sz ≤ c.width → scalarSize sz = true) ∧ sz ≠ 0 ∧ sz ∣ off ∧ off < 2 ^ 64))
  | putBit i k off _ => inferInstanceAs (Decidable (∃ c ∈ h[i]?, k < c.nelem ∧ off < 2 ^ 64))
  | putPtr i k s t => inferInstanceAs (Decidable (∃ c ∈ h[i]?, k < c.nelem ∧ s < c.psize ∧
      i < t ∧ t < h.length))
  | putStr i k s str len => inferInstanceAs (Decidable (∃ c ∈ h[i]?, k < c.nelem ∧ s < c.psize ∧
      ∃ n ∈ strLength str len, n ≤ str.length ∧
        (n + 1 < 2 ^ 32 ∨ (n + 1) % 2 ^ 32 = 0 ∧ n + 1 < 2 ^ 64)))

instance : (c : Call) → Decidable c.NoWrap
  | create _ => isTrue trivial
  | putInt _ _ off sz _ => inferInstanceAs (Decidable (off + sz < 2 ^ 64))
  | putBit _ _ _ _ => isTrue trivial
  | putPtr _ _ _ _ => isTrue trivial
  | putStr _ _ _ _ _ => isTrue trivial

instance (h : Heap) (c : Call) : Decidable (c.Ok h) :=
  inferInstanceAs (Decidable (c.Valid h ∧ c.NoWrap))

theorem apply_putStr (h : Heap) (i k s : Nat) {str : List UInt8} {len n : Nat}
    (hlen : strLength str len = some n) : apply h (putStr i k s str len)
      = if (n + 1) % 2 ^ 32 = 0 then h ++ [Cell.new (strShape n)]
        else (h ++ [strCell (str.take n)]).modify i fun c => c.putPtr (c.row k) s h.length := by
  unfold apply
  simp only [hlen, Option.getD_some]

theorem total_putPtr (h : Heap) (i k s t : Nat) :
    Heap.total (h.modify i fun c => c.putPtr (c.row k) s t) = h.total :=
  Heap.total_modify h i fun _ => rfl

theorem total_apply_putStr (h : Heap) {i k s : Nat} {str : List UInt8} {len n : Nat}
    (hlen : strLength str len = some n) (hn : n ≤ str.length) :
    (apply h (putStr i k s str len)).total = h.total + (strShape n).blockSize := by
  have hcell := strCell_take_toShape hn
  rw [apply_putStr h i k s hlen]
  split_ifs
  · rw [Heap.total_append, Heap.total_singleton]
    rfl
  · rw [total_putPtr, Heap.total_append, Heap.total_singleton, hcell]

/-- Calls do not shrink the heap. -/
theorem total_le_apply (call : Call) (h : Heap) : h.total ≤ (call.apply h).total := by
  cases call with
  | create sh =>
      show h.total ≤ Heap.total (h ++ _)
      rw [Heap.total_append]
      exact Nat.le_add_right _ _
  | putInt i k off sz v =>
      exact Nat.le_of_eq (Heap.total_modify h i fun c => c.setInt_toShape k off sz v).symm
  | putBit i k off v =>
      exact Nat.le_of_eq (Heap.total_modify h i fun c => c.setBit_toShape k off v).symm
  | putPtr i k s t => exact Nat.le_of_eq (total_putPtr h i k s t).symm
  | putStr i k s str len =>
      unfold apply
      dsimp only
      split_ifs
      · rw [Heap.total_append]
        exact Nat.le_add_right _ _
      · rw [total_putPtr, Heap.total_append]
        exact Nat.le_add_right _ _

theorem total_le_run {h h' : Heap} {calls : List Call} (hrun : Run.run step h calls = some h') :
    h.total ≤ h'.total :=
  Run.run_preserves (fun t => h.total ≤ t.total)
    (fun t call t' hle ht => by
      cases ht
      exact Nat.le_trans hle (call.total_le_apply t)) (Nat.le_refl _) hrun

end Call

/-- The objects that calls leave. -/
def build (calls : List Call) : Heap := calls.foldl Call.apply []

theorem run_step_eq (h : Heap) (calls : List Call) :
    Run.run Call.step h calls = some (calls.foldl Call.apply h) := by
  induction calls generalizing h with
  | nil => rfl
  | cons c calls ih => exact ih (c.apply h)

/-! ## Resizing -/

/-- A call that a builder allows: a writer call, or `nbuf_resize` of object `i`. -/
inductive Edit where
  | call (c : Call)
  | resize (i n : Nat)

namespace Edit

/-- Vectors only grow, up to what a header can tell. -/
def Ok (h : Heap) : Edit → Prop
  | call c => c.Ok h
  | resize i n => ∃ c, h[i]? = some c ∧ c.nelem ≤ n ∧ c.CanHave n

instance (h : Heap) : (e : Edit) → Decidable (e.Ok h)
  | call c => inferInstanceAs (Decidable (c.Ok h))
  | resize i n => inferInstanceAs (Decidable (∃ c ∈ h[i]?, c.nelem ≤ n ∧ c.CanHave n))

def apply (h : Heap) : Edit → Heap
  | call c => c.apply h
  | resize i n => h.modify i fun c => c.setNelem n

def step (h : Heap) (e : Edit) : Option Heap := some (e.apply h)

theorem total_le_resize {h : Heap} {i n : Nat} (hok : (resize i n).Ok h) :
    h.total ≤ ((resize i n).apply h).total := by
  obtain ⟨c, hc, hle, hn⟩ := hok
  exact Heap.total_le_modify hc (by
    rw [Cell.setNelem_eq hn]
    exact c.toShape.blockSize_le_withNelem hn hle)

/-- Edits do not shrink the heap. -/
theorem total_le_apply {h : Heap} {e : Edit} (hok : e.Ok h) : h.total ≤ (e.apply h).total := by
  cases e with
  | call c => exact c.total_le_apply h
  | resize i n => exact total_le_resize hok

/-- Objects are never removed. -/
theorem length_le_apply (h : Heap) (e : Edit) : h.length ≤ (e.apply h).length := by
  cases e with
  | resize i n => exact Nat.le_of_eq (List.length_modify _ _ _).symm
  | call c =>
      cases c with
      | create sh => exact (List.prefix_append h _).length_le
      | putInt i k off sz v => exact Nat.le_of_eq (List.length_modify _ _ _).symm
      | putBit i k off v => exact Nat.le_of_eq (List.length_modify _ _ _).symm
      | putPtr i k s t => exact Nat.le_of_eq (List.length_modify _ _ _).symm
      | putStr i k s str len =>
          show h.length ≤ (Call.apply h (.putStr i k s str len)).length
          unfold Call.apply
          dsimp only
          split_ifs
          · exact (List.prefix_append h _).length_le
          · rw [List.length_modify]
            exact (List.prefix_append h _).length_le

theorem length_le_run {h h' : Heap} {edits : List Edit} (hrun : Run.run step h edits = some h') :
    h.length ≤ h'.length :=
  Run.run_preserves (fun t => h.length ≤ t.length)
    (fun t e t' hle ht => by
      cases ht
      exact Nat.le_trans hle (e.length_le_apply t)) (Nat.le_refl _) hrun

end Edit

/-- The objects that edits leave. -/
def buildEdits (edits : List Edit) : Heap := edits.foldl Edit.apply []

theorem run_edits_eq (h : Heap) (edits : List Edit) :
    Run.run Edit.step h edits = some (edits.foldl Edit.apply h) := by
  induction edits generalizing h with
  | nil => rfl
  | cons e edits ih => exact ih (e.apply h)

theorem foldl_call (h : Heap) (calls : List Call) :
    (calls.map Edit.call).foldl Edit.apply h = calls.foldl Call.apply h := by
  rw [List.foldl_map]
  rfl

theorem allSteps_call {h : Heap} {calls : List Call}
    (hok : Run.AllSteps Call.step Call.Ok h calls) :
    Run.AllSteps Edit.step Edit.Ok h (calls.map Edit.call) := by
  induction calls generalizing h with
  | nil => trivial
  | cons c calls ih =>
      refine ⟨hok.1, fun h' hh => ih ?_⟩
      cases hh
      exact hok.2 _ rfl

end Nbuf
