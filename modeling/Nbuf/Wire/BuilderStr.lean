import Nbuf.Wire.BuilderHeap

set_option autoImplicit false

/-! # Strings read back from a builder

`nbuf_get_str` checks the position of the last byte of the string against the buffer of the handle.
In a builder the string is in another buffer than the handle, so a short object cannot show a long
string.
-/

namespace Nbuf

open Run ByteMem

/-- `nbuf_get_str` on a builder, with the buffer that the returned pointer points into. -/
def Pool.getStr (p : Pool) (i : Nat) (r : Obj) (x : Nat) : Option (Nat × StrRef) := do
  let (j, rr) ← p.getPtr i r x
  if rr.nelem > 0 then do
    -- the buffer of `r`, not the buffer of `rr`
    let b ← p.getbuffer i
    assertC (boundsCheck b (sizeT (rr.base + rr.nelem - 1)) 1 = true)
    pure (j, ⟨some rr.base, rr.nelem - 1⟩)
  else pure (j, ⟨none, 0⟩)

/-- The getter returns the string `s` and its length. -/
def Pool.ReadsStr (p : Pool) (i : Nat) (r : Obj) (x : Nat) (s : List UInt8) : Prop :=
  ∃ j ref b, p.getStr i r x = some (j, ref) ∧ ref.len = s.length ∧ p.getbuffer j = some b ∧
    ref.bytes b = some s

/-- The edit rewrites neither the slot `x` of element `k` of object `i` nor object `t`. -/
def Edit.Leaves (i k x t : Nat) : Edit → Prop
  | .call (.create _) => True
  | .call (.putInt j _ _ _ _) => j ≠ t
  | .call (.putBit j _ _ _) => j ≠ t
  | .call (.putPtr j k' x' _) => (j, k', x') ≠ (i, k, x)
  | .call (.putStr j k' x' _ _) => (j, k', x') ≠ (i, k, x)
  | .resize j _ => j ≠ t

instance (i k x t : Nat) : (e : Edit) → Decidable (e.Leaves i k x t)
  | .call (.create _) => isTrue trivial
  | .call (.putInt j _ _ _ _) => inferInstanceAs (Decidable (j ≠ t))
  | .call (.putBit j _ _ _) => inferInstanceAs (Decidable (j ≠ t))
  | .call (.putPtr j k' x' _) => inferInstanceAs (Decidable ((j, k', x') ≠ (i, k, x)))
  | .call (.putStr j k' x' _ _) => inferInstanceAs (Decidable ((j, k', x') ≠ (i, k, x)))
  | .resize j _ => inferInstanceAs (Decidable (j ≠ t))

/-! ## The string stays -/

/-- The slot of an element leads to object `t`. With pointers, elements are their own rows. -/
def Cell.Leads (c : Cell) (k x t : Nat) : Prop :=
  k < c.nelem ∧ x < c.psize ∧ c.ptr k x = some t

/-- The slot `x` of element `k` of object `i` leads to object `t`, which is the string `s`. -/
structure StrAt (h : Heap) (i k x t : Nat) (s : List UInt8) : Prop where
  str : h[t]? = some (strCell s)
  slot : ∃ c : Cell, h[i]? = some c ∧ c.Leads k x t

section

variable {h : Heap} {i k x t : Nat} {s : List UInt8}

theorem StrAt.append (hs : StrAt h i k x t s) (c : Cell) : StrAt (h ++ [c]) i k x t s := by
  obtain ⟨ci, hci, hleads⟩ := hs.slot
  constructor
  · rw [List.getElem?_append_left (List.getElem?_eq_some_iff.mp hs.str).1, hs.str]
  · exact ⟨ci, by rw [List.getElem?_append_left (List.getElem?_eq_some_iff.mp hci).1, hci], hleads⟩

/-- An update of another object than the string, after which the slot still leads to the string. -/
theorem StrAt.modify (hs : StrAt h i k x t s) {j : Nat} {f : Cell → Cell} (hj : j ≠ t)
    (hf : ∀ c : Cell, h[j]? = some c → j = i → c.Leads k x t → (f c).Leads k x t) :
    StrAt (h.modify j f) i k x t s := by
  obtain ⟨ci, hci, hleads⟩ := hs.slot
  constructor
  · rw [List.getElem?_modify_ne _ _ hj, hs.str]
  · by_cases hji : j = i
    · subst hji
      exact ⟨f ci, Heap.getElem?_modify_self hci f, hf ci hci rfl hleads⟩
    · exact ⟨ci, by rw [List.getElem?_modify_ne _ _ hji, hci], hleads⟩

theorem Cell.Leads.congr {c c' : Cell} (hc : c.Leads k x t) (hsh : c'.toShape = c.toShape)
    (hptr : c'.ptr = c.ptr) : c'.Leads k x t := by
  unfold Cell.Leads
  rw [hsh, hptr]
  exact hc

/-- Another slot is put. -/
theorem Cell.Leads.putPtr {c : Cell} (hc : c.Leads k x t) {k' x' : Nat} (t' : Nat)
    (hne : (k', x') ≠ (k, x)) : (c.putPtr (c.row k') x' t').Leads k x t := by
  obtain ⟨hk, hx, hptr⟩ := hc
  refine ⟨hk, hx, ?_⟩
  rw [c.row_of_psize hx]
  show Function.update c.ptr k' (Function.update (c.ptr k') x' (some t')) k x = some t
  by_cases hkk : k = k'
  · subst hkk
    have hxx : x ≠ x' := fun heq => hne (by rw [heq])
    rw [Function.update_self, Function.update_of_ne hxx, hptr]
  · rw [Function.update_of_ne hkk, hptr]

/-- The vector grows. -/
theorem Cell.Leads.setNelem {c : Cell} (hc : c.Leads k x t) {n : Nat} (hn : c.CanHave n)
    (hle : c.nelem ≤ n) : (c.setNelem n).Leads k x t := by
  obtain ⟨hk, hx, hptr⟩ := hc
  rw [Cell.setNelem_eq hn]
  refine ⟨Nat.lt_of_lt_of_le hk hle, hx, ?_⟩
  have hrow : k < c.rows := by
    have := Shape.row_lt_rows hk
    rwa [c.row_of_psize hx] at this
  show (if k < c.rows then c.ptr k else fun _ => none) x = some t
  rw [if_pos hrow, hptr]

/-- **One edit** that leaves slot and string. -/
theorem StrAt.edit (hs : StrAt h i k x t s) {e : Edit} (hok : e.Ok h) (hl : e.Leaves i k x t) :
    StrAt (e.apply h) i k x t s := by
  -- a string has no pointers
  have hnostr : ∀ {j x' : Nat} {c : Cell}, h[j]? = some c → x' < c.psize → j ≠ t := by
    rintro j x' c hc hx' rfl
    rw [hs.str, Option.some.injEq] at hc
    subst hc
    exact absurd hx' (Nat.not_lt_zero x')
  cases e with
  | resize j n =>
      obtain ⟨c, hc, hle, hn⟩ := hok
      refine hs.modify hl fun c' hc' _ hleads => ?_
      obtain rfl : c = c' := Option.some.inj (hc.symm.trans hc')
      exact hleads.setNelem hn hle
  | call call =>
      cases call with
      | create sh => exact hs.append _
      | putInt j k' off sz v =>
          exact hs.modify hl fun c _ _ hleads => hleads.congr (c.setInt_toShape ..) (c.setInt_ptr ..)
      | putBit j k' off v =>
          exact hs.modify hl fun c _ _ hleads => hleads.congr (c.setBit_toShape ..) (c.setBit_ptr ..)
      | putPtr j k' x' t' =>
          obtain ⟨⟨c, hc, -, hx', -⟩, -⟩ := hok
          refine hs.modify (hnostr hc hx') ?_
          rintro c' - rfl hleads
          exact hleads.putPtr t' fun heq => hl (by rw [heq])
      | putStr j k' x' str len =>
          obtain ⟨⟨c, hc, -, hx', n, hn, -⟩, -⟩ := hok
          show StrAt (Call.apply h (.putStr j k' x' str len)) i k x t s
          rw [Call.apply_putStr h j k' x' hn]
          split_ifs
          · exact hs.append _
          · refine (hs.append _).modify (hnostr hc hx') ?_
            rintro c' - rfl hleads
            exact hleads.putPtr _ fun heq => hl (by rw [heq])

/-- **All edits** that leave slot and string. -/
theorem StrAt.run (hs : StrAt h i k x t s) {edits : List Edit}
    (hok : AllSteps Edit.step Edit.Ok h edits) (hl : ∀ e ∈ edits, e.Leaves i k x t) {h' : Heap}
    (hrun : Run.run Edit.step h edits = some h') : StrAt h' i k x t s :=
  run_preserves_of_allSteps (fun g => StrAt g i k x t s)
    (fun g e g' hg hstep hg' => by
      cases hg'
      exact hg.edit hstep.1 hstep.2) hs (hok.and_forall hl) hrun

/-- The string is there after `nbuf_put_str`. -/
theorem strAt_putStr {len n : Nat} {str : List UInt8}
    (hok : Edit.Ok h (.call (.putStr i k x str len))) (hn : strLength str len = some n)
    (hshort : n + 1 < 2 ^ 32) :
    StrAt (Edit.apply h (.call (.putStr i k x str len))) i k x h.length (str.take n) ∧
      n ≤ str.length := by
  obtain ⟨⟨c, hc, hk, hx, n', hn', hstr, -⟩, -⟩ := hok
  obtain rfl : n = n' := Option.some.inj (hn.symm.trans hn')
  refine ⟨?_, hstr⟩
  have hi : i < h.length := (List.getElem?_eq_some_iff.mp hc).1
  have hci : (h ++ [strCell (str.take n)])[i]? = some c := by
    rw [List.getElem?_append_left hi, hc]
  show StrAt (Call.apply h (.putStr i k x str len)) i k x h.length (str.take n)
  rw [Call.apply_putStr h i k x hn, if_neg (by omega)]
  constructor
  · rw [List.getElem?_modify_ne _ _ (Nat.ne_of_lt hi), List.getElem?_concat_length]
  · refine ⟨_, Heap.getElem?_modify_self hci _, hk, hx, ?_⟩
    rw [c.row_of_psize hx]
    show Function.update c.ptr k (Function.update (c.ptr k) x (some h.length)) k x = some h.length
    rw [Function.update_self, Function.update_self]

/-! ## Reading it -/

/-- **`nbuf_get_str` on a builder** shows a string exactly when its id is a positive `int32_t` and
the buffer of the handle is long enough for the string. -/
theorem Pool.Rep.readsStr_iff {p : Pool} (hp : p.Rep h) (hs : StrAt h i k x t s)
    (hshort : s.length + 1 < 2 ^ 32) : ∃ c b, h[i]? = some c ∧ p.getbuffer i = some b ∧
      (p.ReadsStr i (getElem c.handle k) x s ↔ t < 2 ^ 31 ∧ 24 + s.length + 1 ≤ b.len) := by
  obtain ⟨c, hc, hk, hx, hptr⟩ := hs.slot
  obtain ⟨b, hb, hbuf⟩ := hp.obj i c hc
  obtain ⟨bt, hbt, hbuft⟩ := hp.obj t _ hs.str
  have hlt := hbuf.len_lt
  have hget := hp.getPtr_some hc hk hx (by rwa [c.row_of_psize hx]) hs.str
  have hnelem : (strCell s).handle.nelem = s.length + 1 := strShape_nelem hshort
  have hbase : (strCell s).handle.base = 24 := rfl
  refine ⟨c, b, hc, hb, ?_⟩
  by_cases hsmall : t < 2 ^ 31
  · rw [if_pos hsmall] at hget
    have hpos : sizeT (24 + (s.length + 1) - 1) = 24 + s.length := by
      rw [sizeT_of_lt (by omega)]
      omega
    have heq : p.getStr i (getElem c.handle k) x
        = (assertC (boundsCheck b (24 + s.length) 1 = true)).map fun _ =>
            (t, ⟨some 24, s.length⟩) := by
      unfold Pool.getStr Pool.getbuffer
      simp only [hget, Option.bind_eq_bind, Option.bind_some, hnelem, hbase, hb, hpos]
      rw [if_pos (Nat.succ_pos _)]
      cases assertC (boundsCheck b (24 + s.length) 1 = true) <;> rfl
    have hbytes : StrRef.bytes bt ⟨some 24, s.length⟩ = some s :=
      hbuft.block.readBytes (Nat.le_of_eq hbuft.len_eq.symm) (strCell_isStr hshort)
    have hchk : boundsCheck b (24 + s.length) 1 = true ↔ 24 + s.length + 1 ≤ b.len :=
      boundsCheck_of_len_lt hlt (by decide)
    unfold Pool.ReadsStr
    rw [heq]
    constructor
    · rintro ⟨j, ref, bj, hread, -⟩
      refine ⟨hsmall, hchk.mp ?_⟩
      by_contra hno
      rw [assertC_neg hno] at hread
      cases hread
    · rintro ⟨-, hin⟩
      rw [assertC_pos (hchk.mpr hin)]
      exact ⟨t, _, bt, rfl, rfl, hbt, hbytes⟩
  · rw [if_neg hsmall] at hget
    have hnone : p.getStr i (getElem c.handle k) x = none := by
      unfold Pool.getStr
      rw [hget]
      rfl
    refine iff_of_false ?_ fun hand => hsmall hand.1
    rintro ⟨j, ref, bj, hread, -⟩
    rw [hnone] at hread
    cases hread

end

/-- **Strings on a builder.** After any edits, `nbuf_put_str` and any edits that leave the slot and
the string alone, `nbuf_get_str` shows the string if and only if fewer than `2 ^ 31` objects
were there before it, and the buffer of the handle reaches as far as the buffer of the string has
to: metadata, header, string and NUL. -/
theorem builder_getStr_iff {alloc : Nat → Realloc} (ha : ∀ n, (alloc n).Total) {addr : Nat}
    (haddr : addr < 2 ^ 64) {before after : List Edit} {i k x len n : Nat} {str : List UInt8}
    (hok : AllSteps Edit.step Edit.Ok [] (before ++ .call (.putStr i k x str len) :: after))
    (hn : strLength str len = some n) (hshort : n < 2 ^ 32 - 1)
    (hl : ∀ e ∈ after, e.Leaves i k x (buildEdits before).length)
    (hcount : (buildEdits (before ++ .call (.putStr i k x str len) :: after)).length < 2 ^ 32) :
    ∃ s r b, run (Build.step alloc) ⟨initBuilder addr haddr, [], 0⟩
        (before ++ .call (.putStr i k x str len) :: after) = some s ∧
      s.objs[i]? = some r ∧ s.pool.getbuffer i = some b ∧
      (s.pool.ReadsStr i (getElem r k) x (str.take n) ↔
        (buildEdits before).length < 2 ^ 31 ∧ 24 + n + 1 ≤ b.len) := by
  have hrun := run_edits_eq [] (before ++ .call (.putStr i k x str len) :: after)
  have hrun' : run Edit.step [] (before ++ .call (.putStr i k x str len) :: after)
      = some (buildEdits (before ++ .call (.putStr i k x str len) :: after)) := hrun
  obtain ⟨s, hs, hrel⟩ := (Build.rel_init addr haddr).run_of_length ha hok hrun' hcount
  rw [run_append_of_eq (run_edits_eq [] before)] at hrun'
  have hmid := hok.append_right (run_edits_eq [] before)
  obtain ⟨hat, hstr⟩ := strAt_putStr hmid.1 hn (by omega)
  have hend := hat.run (hmid.2 _ rfl) hl hrun'
  have hlen : (str.take n).length = n := by rw [List.length_take, Nat.min_eq_left hstr]
  obtain ⟨c, b, hc, hb, hiff⟩ := hrel.rep.readsStr_iff hend (by omega)
  rw [hlen] at hiff
  exact ⟨s, c.handle, b, hs, hrel.obj hc, hb, hiff⟩

/-- A message with one string field, in which the string is put; then the builder goes on. -/
def shortMessage (str : List UInt8) : List Edit :=
  [.call (.create (.ofCounts 1 0 1 (Eq.refl true)))] ++
    .call (.putStr 0 0 0 str str.length) ::
    [.call (.create (.ofCounts 3 8 0 (Eq.refl true)))]

theorem shortMessage_reads : ∃ s r b,
    run (Build.step granting) ⟨initBuilder 4096 (by decide), [], 0⟩ (shortMessage [104, 105, 33])
      = some s ∧ s.objs[0]? = some r ∧ s.pool.getbuffer 0 = some b ∧
    (s.pool.ReadsStr 0 (getElem r 0) 0 [104, 105, 33] ↔
      (buildEdits [.call (.create (.ofCounts 1 0 1 (Eq.refl true)))]).length < 2 ^ 31 ∧ 24 + 3 + 1 ≤ b.len) := by
  have halloc : ∀ n, Realloc.Total (granting n) := fun _ _ => rfl
  exact builder_getStr_iff halloc (by decide) (show AllSteps Edit.step Edit.Ok []
    (shortMessage [104, 105, 33]) by decide) (show strLength [104, 105, 33] 3 = some 3 by decide)
    (by decide) (by decide) (by decide)

/-- **A string of eight bytes cannot be read back** from a message with one pointer: the message
takes up 32 bytes in its buffer, and the string 33 in its own. -/
theorem shortMessage_assert : ∃ s r, run (Build.step granting) ⟨initBuilder 4096 (by decide), [], 0⟩
      (shortMessage [49, 50, 51, 52, 53, 54, 55, 56]) = some s ∧ s.objs[0]? = some r ∧
    s.pool.getStr 0 (getElem r 0) 0 = none := by
  have hrun : ((run (Build.step granting) ⟨initBuilder 4096 (by decide), [], 0⟩
      (shortMessage [49, 50, 51, 52, 53, 54, 55, 56])).bind fun s => s.objs[0]?.map fun r =>
        s.pool.getStr 0 (getElem r 0) 0) = some none := by decide +kernel
  obtain ⟨s, hs, hget⟩ := Option.bind_eq_some_iff.mp hrun
  obtain ⟨r, hr, hstr⟩ := Option.map_eq_some_iff.mp hget
  exact ⟨s, r, hs, hr, hstr⟩

end Nbuf
