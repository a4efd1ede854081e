import Nbuf.Text.ClientStep
import Nbuf.Wire.BuilderStr

set_option autoImplicit false

/-! # Appending loses nothing

After any calls of a client, in any order and on any of its messages, every field reads as what
was given to it: a list has as many elements as were appended, in their order.
-/

namespace Nbuf

open Run ByteMem

/-! ## Reading a builder -/

/-- `nbuf_ref_get_int`, or the bits of `nbuf_ref_get_float`. -/
def refGetNum (b : Buffer) (ref : Ref) : Option Int :=
  if ref.kind = .float then refGetFloat b ref else refGetInt b ref

/-- An element of a list reads as the value. A message reads as the object that its own handle
accesses; nothing is accessed through the handle of a message without fields. -/
def Client.ReadsElem (schema : Schema) (s : Client) (j : Nat) (elem : Obj) (f : FieldDesc) :
    Val → Prop
  | .num v => ∃ b, s.pool.getbuffer j = some b ∧
      refGetNum b ⟨elem, f.kind, false, 0, f.tag1⟩ = some v
  | .bit _ => False
  | .str t => s.pool.ReadsStr j elem 0 t
  | .msg m => ∃ o, s.msgs[m]? = some (j, o) ∧
      (getSize schema f.kind f.tag1 ≠ (0, 0) → o.Same elem)

/-- The field of a message reads as the values that were given to it. -/
def Client.ReadsField (schema : Schema) (s : Client) (i : Nat) (o : Obj) (f : FieldDesc)
    (l : List Val) : Prop :=
  if f.list = true ∨ f.kind = .ptr then
    ∃ j list, s.pool.getPtr i o f.tag0 = some (j, list) ∧ list.nelem = l.length ∧
      ∀ n x, l[n]? = some x → s.ReadsElem schema j (getElem list n) f x
  else if f.kind = .str then s.pool.ReadsStr i o f.tag0 (strOf l)
  else ∃ b, s.pool.getbuffer i = some b ∧
    if f.kind = .bool then refGetBit b (getRef o f) = some (bitOf l)
    else refGetNum b (getRef o f) = some (numOf l)

/-- Every field of every message reads as what was given, lists of booleans left out. -/
def Client.Reads (schema : Schema) (s : Client) (gs : List Given) : Prop :=
  s.msgs.length = gs.length ∧ ∀ (m : Nat) (G : Given) (i : Nat) (o : Obj), gs[m]? = some G →
    s.msgs[m]? = some (i, o) → ∀ f ∈ (schema.msgType G.type).fields,
      ¬ (f.list = true ∧ f.kind = .bool) → s.ReadsField schema i o f (G.vals f)

/-! ## Numbers -/

/-- How a getter shows a number. -/
def FieldDesc.shown (f : FieldDesc) (x : Nat) : Int :=
  if f.kind = .uint then (x : Int).bmod (2 ^ 64) else (x : Int).bmod (256 ^ f.width)

/-- A number that fits is shown as it was given. -/
theorem FieldDesc.FitsNum.shown_eq {f : FieldDesc} {v : Int} (h : f.FitsNum v)
    (hw : scalarSize f.width = true) : f.shown (toU64 v % 256 ^ f.width) = v := by
  have hv := Int.toNat_of_nonneg (Int.emod_nonneg v (show (2 ^ 64 : Int) ≠ 0 by decide))
  unfold FitsNum at h
  unfold FieldDesc.shown toU64
  simp only [scalarSize, Bool.or_eq_true, beq_iff_eq] at hw
  rcases hw with ((hw | hw) | hw) | hw
  all_goals
    rw [hw] at h ⊢
    by_cases hk : f.kind = .uint
    · simp only [hk, true_and, if_true] at h ⊢
      norm_num at h ⊢
      rw [Int.bmod_def]
      omega
    · simp only [hk, false_and, if_false] at h ⊢
      norm_num at h ⊢
      rw [Int.bmod_def]
      omega

/-- The getters of numbers. -/
theorem refGetNum_eq {f : FieldDesc} (hw : f.HasWidth) (hnum : f.IsNum) {b : Buffer} {ref : Ref}
    (hkind : ref.kind = f.kind) (htag : ref.tag1 = f.tag1) {x : Nat} (hx : x < 256 ^ f.width)
    (hget : getInt b ref.o ref.tag0 f.width = some ((x : Int).bmod (256 ^ f.width))) :
    refGetNum b ref = some (f.shown x) := by
  have hscalar := hw.width hnum
  unfold refGetNum FieldDesc.shown
  by_cases hfloat : f.kind = .float
  · have hwidth : f.width = f.tag1 := if_neg (by simp [hfloat])
    rw [if_pos (hkind.trans hfloat), if_neg (by simp [hfloat]), refGetFloat,
      assertC_pos (hkind.trans hfloat), assertC_pos (by rw [htag]; exact hw.float hfloat), htag,
      ← hwidth]
    exact hget
  · have hint : ref.kind = .int ∨ ref.kind = .uint ∨ ref.kind = .enum := by
      rw [hkind]
      exact hnum.int_of_not_float hfloat
    have hsz : ref.sz = f.width := by
      unfold Ref.sz FieldDesc.width
      rw [hkind, htag]
    rw [if_neg (by rw [hkind]; exact hfloat), refGetInt, assertC_pos hint, hsz]
    simp only [Option.bind_eq_bind, Option.bind_some, hget, hkind]
    split_ifs
    · rw [toU64_bmod hx hscalar]
      rfl
    · rfl

section

variable {h : Heap} {p : Pool} {i k : Nat} {c : Cell}

theorem Pool.Rep.getInt (hp : p.Rep h) (hc : h[i]? = some c) {off sz : Nat} (hk : k < c.nelem)
    (hsz : scalarSize sz = true) (hdvd : sz ∣ off) (hoff : off + sz ≤ c.width) :
    ∃ b, p.getbuffer i = some b ∧ Nbuf.getInt b (getElem c.handle k) off sz
      = some (((c.scal (c.row k)).load off sz : Int).bmod (256 ^ sz)) := by
  obtain ⟨b, hb, hbuf⟩ := hp.obj i c hc
  exact ⟨b, hb, hbuf.block.getInt (Nat.le_of_eq hbuf.len_eq.symm) hbuf.len_lt hk hsz hdvd hoff⟩

theorem Pool.Rep.getBit (hp : p.Rep h) (hc : h[i]? = some c) {off : Nat} (hk : k < c.nelem)
    (hoff : off / 8 < c.width) : ∃ b, p.getbuffer i = some b ∧
      Nbuf.getBit b (getElem c.handle k) off = some ((c.scal (c.row k)).bit (off / 8) (off % 8)) := by
  obtain ⟨b, hb, hbuf⟩ := hp.obj i c hc
  refine ⟨b, hb, ?_⟩
  have hscal := hbuf.block.scal _ (Shape.row_lt_rows hk) _ hoff
  have hw := hbuf.writable
  rw [getBit_elem hw.rows_fit hw.len_lt hk hoff]
  unfold ByteMem.bit
  rw [← hscal]
  rfl

end

/-! ## Fields -/

section

variable {schema : Schema} {s : Client × List Given} {v : View} {d : Doc} {m i k : Nat} {o : Obj}
  {c : Cell} {f : FieldDesc} {G : Given} {M : DocMsg}

/-- A string that a slot leads to. -/
theorem Client.Rel.readsStr (h : Client.Rel schema s v d) (hc : v.heap[i]? = some c)
    (hk : k < c.nelem) {x : Nat} (hx : x < c.psize) (ho : o.Same (getElem c.handle k)) {t : Text}
    (ht : v.TextAt strRoom c k x t) : s.1.pool.ReadsStr i o x t := by
  have hrow := c.row_of_psize hx k
  have hsame : s.1.pool.ReadsStr i o x t = s.1.pool.ReadsStr i (getElem c.handle k) x t := by
    unfold Pool.ReadsStr Pool.getStr
    simp only [Pool.getPtr_same ho]
  rw [hsame]
  unfold View.TextAt at ht
  cases hptr : c.ptr k x with
  | none =>
      rw [hptr] at ht
      subst ht
      have hget := h.rep.getPtr_none hc hk hx (by rw [hrow]; exact hptr)
      obtain ⟨b, hb, -⟩ := h.rep.obj i c hc
      refine ⟨i, ⟨none, 0⟩, b, ?_, rfl, hb, rfl⟩
      unfold Pool.getStr
      rw [hget]
      rfl
  | some t' =>
      rw [hptr] at ht
      obtain ⟨hcell, -, hshort, hroom⟩ := ht
      have hat : StrAt v.heap i k x t' t := ⟨hcell, c, hc, hk, hx, hptr⟩
      obtain ⟨c', b, hc', hb, hiff⟩ := h.rep.readsStr_iff hat hshort
      obtain rfl : c = c' := Option.some.inj (hc.symm.trans hc')
      obtain ⟨b', hb', hbuf⟩ := h.rep.obj i c hc
      obtain rfl : b = b' := Option.some.inj (hb.symm.trans hb')
      have hlt := (List.getElem?_eq_some_iff.mp hcell).1
      have hobj := h.objects
      rw [← h.shows.objects] at hobj
      refine hiff.mpr ⟨by omega, ?_⟩
      rw [hbuf.len_eq]
      exact hroom

/-- An element of a list that is not one of booleans. -/
theorem Client.Rel.readsElem (h : Client.Rel schema s v d) {t : Nat} {ct : Cell} {l : List Item}
    (hl : v.ListAt strRoom schema t ct f l) (hw : f.HasWidth) (hk : f.kind ≠ .bool) {n : Nat}
    {x : Val} (hx : l[n]? = some (x.item f)) (hfit : ∀ y, x = .num y → f.FitsNum y) :
    s.1.ReadsElem schema t (getElem ct.handle n) f x := by
  have hn : n < ct.nelem := by
    rw [hl.length]
    exact (List.getElem?_eq_some_iff.mp hx).1
  have hitem := hl.item n _ hx
  have hsize := hl.size
  cases x with
  | bit y => exact absurd hitem.1 hk
  | num y =>
      obtain ⟨h1, h2, h3, hload⟩ := hitem
      have hnum : f.IsNum := ⟨h1, h2, h3⟩
      have hscalar := hw.width hnum
      have hpos := scalarSize_bounds hscalar
      rw [getSize_num hw hnum, Prod.mk.injEq] at hsize
      have hne : ¬ (ct.ssize = 0 ∧ ct.psize = 0) := by omega
      obtain ⟨b, hb, hget⟩ := h.rep.getInt hl.cell hn hscalar (Nat.dvd_zero _)
        (show 0 + f.width ≤ ct.width by rw [ct.width_eq, if_neg hne]; omega)
      rw [ct.row_eq hne, hload] at hget
      refine ⟨b, hb, ?_⟩
      rw [refGetNum_eq hw hnum rfl rfl (Nat.mod_lt _ (Nat.pow_pos (by decide))) hget,
        (hfit y rfl).shown_eq hscalar]
  | str y =>
      obtain ⟨hk, htext⟩ := hitem
      rw [getSize_str hk, Prod.mk.injEq] at hsize
      exact h.readsStr hl.cell hn (by omega) (.refl _) htext
  | msg m' =>
      obtain ⟨-, hpl⟩ := hitem
      have hm' : m' < s.1.msgs.length := by
        rw [h.handles, ← h.shows.places_length]
        exact (List.getElem?_eq_some_iff.mp hpl).1
      obtain ⟨⟨i', o'⟩, ho'⟩ : ∃ y, s.1.msgs[m']? = some y := ⟨_, List.getElem?_eq_getElem hm'⟩
      obtain ⟨k', c', hpl', hc', -, hsame⟩ := h.isMsg m' i' o' ho'
      rw [hpl, Option.some.injEq, Prod.mk.injEq] at hpl'
      obtain ⟨rfl, rfl⟩ := hpl'
      obtain rfl : ct = c' := Option.some.inj (hl.cell.symm.trans hc')
      refine ⟨o', ho', fun hne => hsame fun h0 => hne ?_⟩
      rw [hsize, h0.1, h0.2]

/-- A field with elements. -/
theorem Client.Rel.readsList (h : Client.Rel schema s v d) (hs : schema.Sound)
    (hat : v.MsgAt strRoom schema i k c M) (ho : ¬ (c.ssize = 0 ∧ c.psize = 0) →
      o.Same (getElem c.handle k)) (hh : G.Holds schema M)
    (hf : f ∈ (schema.msgType M.type).fields) (hlist : f.list = true ∨ f.kind = .ptr)
    (hk : f.kind ≠ .bool) : ∃ j list, s.1.pool.getPtr i o f.tag0 = some (j, list) ∧
      list.nelem = (G.vals f).length ∧ ∀ n x, (G.vals f)[n]? = some x →
        s.1.ReadsElem schema j (getElem list n) f x := by
  have hin := inPointers_of_list hlist
  have hx := hat.slot_lt hs hf hin
  have hrow := c.row_of_psize hx k
  have hitems := hh.item f (by rwa [hh.type] at hf) hin
  have hw := hs.width _ (schema.msgType_mem hat.type) f hf
  rw [Pool.getPtr_same (ho (by omega))]
  cases ht : c.ptr k f.tag0 with
  | none =>
      have h0 : G.vals f = [] := by
        rw [hat.vals_nil hf hlist ht] at hitems
        exact List.map_eq_nil_iff.mp hitems.symm
      refine ⟨i, Obj.null, h.rep.getPtr_none hat.cell hat.inside hx (by rw [hrow]; exact ht), ?_, ?_⟩
      · rw [h0]
        rfl
      · intro n x hx'
        rw [h0] at hx'
        cases hx'
  | some t =>
      obtain ⟨-, ct, hl⟩ := hat.list hf hlist ht
      have hlt := (List.getElem?_eq_some_iff.mp hl.cell).1
      have hobj := h.objects
      rw [← h.shows.objects] at hobj
      have hget := h.rep.getPtr_some hat.cell hat.inside hx (by rw [hrow]; exact ht) hl.cell
      rw [if_pos (by omega)] at hget
      refine ⟨t, ct.handle, hget, ?_, fun n x hx' => ?_⟩
      · show ct.nelem = _
        rw [hl.length, hitems, List.length_map]
      · refine h.readsElem hl hw hk ?_ fun y hy => hh.fits f y ?_
        · rw [hitems, List.getElem?_map, hx']
          rfl
        · rw [← hy]
          exact List.mem_of_getElem? hx'

/-- A string field. -/
theorem Client.Rel.readsText (h : Client.Rel schema s v d) (hs : schema.Sound)
    (hat : v.MsgAt strRoom schema i k c M) (ho : ¬ (c.ssize = 0 ∧ c.psize = 0) →
      o.Same (getElem c.handle k)) (hh : G.Holds schema M)
    (hf : f ∈ (schema.msgType M.type).fields) (hlist : ¬ (f.list = true ∨ f.kind = .ptr))
    (hk : f.kind = .str) : s.1.pool.ReadsStr i o f.tag0 (strOf (G.vals f)) := by
  have hin : f.inPointers = true := by simp [FieldDesc.inPointers, hk]
  have hx := hat.slot_lt hs hf hin
  have hitems := hh.item f (by rwa [hh.type] at hf) hin
  have hfield := hat.field f hf
  unfold View.FieldAt at hfield
  rw [if_neg hlist, if_pos hk] at hfield
  have htext : v.TextAt strRoom c k f.tag0 (strOf (G.vals f)) := by
    rcases hfield with ⟨hl, hnone⟩ | ⟨t, hl, ht⟩
    · rw [hl] at hitems
      rw [List.map_eq_nil_iff.mp hitems.symm]
      unfold View.TextAt
      rw [hnone]
      rfl
    · rw [hl] at hitems
      obtain ⟨x, hx, hxs⟩ := List.map_eq_singleton_iff.mp hitems.symm
      cases x <;> cases hxs
      rw [hx]
      exact ht
  exact h.readsStr hat.cell hat.inside hx (ho (by omega)) htext

/-- A boolean in the scalar part. -/
theorem Client.Rel.readsBit (h : Client.Rel schema s v d) (hs : schema.Sound)
    (hat : v.MsgAt strRoom schema i k c M) (ho : ¬ (c.ssize = 0 ∧ c.psize = 0) →
      o.Same (getElem c.handle k)) (hh : G.Holds schema M)
    (hf : f ∈ (schema.msgType M.type).fields) (hb : f.IsBit) :
    ∃ b, s.1.pool.getbuffer i = some b ∧ refGetBit b (getRef o f) = some (bitOf (G.vals f)) := by
  have hlay := hs.layout _ (schema.msgType_mem hat.type)
  have hbit := hlay.bit_inside f hf hb
  have hne : ¬ (c.ssize = 0 ∧ c.psize = 0) := by
    rw [hat.ssize]
    omega
  obtain ⟨b, hbuf, hget⟩ := h.rep.getBit hat.cell hat.inside
    (show f.tag0 / 8 < c.width by rw [c.width_eq, if_neg hne, hat.ssize]; omega)
  refine ⟨b, hbuf, ?_⟩
  have hscal : (c.scal k).bit (f.tag0 / 8) (f.tag0 % 8)
      = M.scal.bit (f.tag0 / 8) (f.tag0 % 8) := by
    unfold ByteMem.bit
    rw [hat.scal _ (by rw [hat.ssize]; omega)]
  have hkind : (getRef o f).kind = .bool := hb.2
  calc refGetBit b (getRef o f) = Nbuf.getBit b o f.tag0 := by rw [refGetBit, assertC_pos hkind]; rfl
    _ = Nbuf.getBit b (getElem c.handle k) f.tag0 := (ho hne).getBit b _
    _ = some ((c.scal k).bit (f.tag0 / 8) (f.tag0 % 8)) := by rw [hget, c.row_eq hne]
    _ = some (bitOf (G.vals f)) := by rw [hscal, hh.bit f (by rwa [hh.type] at hf) hb]

/-- A number in the scalar part. -/
theorem Client.Rel.readsNum (h : Client.Rel schema s v d) (hs : schema.Sound)
    (hat : v.MsgAt strRoom schema i k c M) (ho : ¬ (c.ssize = 0 ∧ c.psize = 0) →
      o.Same (getElem c.handle k)) (hh : G.Holds schema M)
    (hf : f ∈ (schema.msgType M.type).fields) (hnum : f.IsNum) (hscalar : f.IsScalar) :
    ∃ b, s.1.pool.getbuffer i = some b ∧ refGetNum b (getRef o f) = some (numOf (G.vals f)) := by
  have hlay := hs.layout _ (schema.msgType_mem hat.type)
  have hinside := hlay.inside f hf hscalar
  have hw := hs.width _ (schema.msgType_mem hat.type) f hf
  have hwidth := hw.width hnum
  have hpos := scalarSize_bounds hwidth
  have hne : ¬ (c.ssize = 0 ∧ c.psize = 0) := by
    rw [hat.ssize]
    omega
  obtain ⟨b, hbuf, hget⟩ := h.rep.getInt hat.cell hat.inside hwidth (hlay.aligned f hf hscalar)
    (show f.tag0 + f.width ≤ c.width by rw [c.width_eq, if_neg hne, hat.ssize]; exact hinside)
  have hload : (c.scal k).load f.tag0 f.width = toU64 (numOf (G.vals f)) % 256 ^ f.width := by
    rw [← hh.num f (by rwa [hh.type] at hf) hscalar]
    exact load_congr fun p _ hp => hat.scal p (by rw [hat.ssize]; omega)
  rw [c.row_eq hne, hload, ← (ho hne).getInt] at hget
  refine ⟨b, hbuf, ?_⟩
  rw [refGetNum_eq hw hnum rfl rfl (Nat.mod_lt _ (Nat.pow_pos (by decide))) hget,
    (hh.fits_numOf f).shown_eq hwidth]

/-- **Every field reads as what was given.** -/
theorem Client.Rel.reads (h : Client.Rel schema s v d) (hs : schema.Sound) :
    s.1.Reads schema s.2 := by
  refine ⟨h.handles.trans h.length.symm, fun m G i o hG ho f hf hbits => ?_⟩
  have hlt : m < d.msgs.length := by
    rw [← h.length]
    exact (List.getElem?_eq_some_iff.mp hG).1
  have hM : d.msgs[m]? = some d.msgs[m] := List.getElem?_eq_getElem hlt
  have hh := h.holds m _ G hM hG
  obtain ⟨k, c, -, hat, hsame⟩ := (h.isMsg m i o ho).msgAt h.shows hM
  rw [← hh.type] at hf
  unfold Client.ReadsField
  by_cases hlist : f.list = true ∨ f.kind = .ptr
  · rw [if_pos hlist]
    refine h.readsList hs hat hsame hh hf hlist fun hb => ?_
    rcases hlist with hl | hp
    · exact hbits ⟨hl, hb⟩
    · rw [hb] at hp
      cases hp
  · rw [if_neg hlist]
    by_cases hk : f.kind = .str
    · rw [if_pos hk]
      exact h.readsText hs hat hsame hh hf hlist hk
    · rw [if_neg hk]
      rw [not_or] at hlist
      have hin : f.inPointers = false := by simp [FieldDesc.inPointers, hlist.1, hlist.2, hk]
      by_cases hb : f.kind = .bool
      · simp only [if_pos hb]
        exact h.readsBit hs hat hsame hh hf ⟨hin, hb⟩
      · simp only [if_neg hb]
        exact h.readsNum hs hat hsame hh hf ⟨hb, hk, hlist.2⟩ ⟨hin, hb⟩

end

/-! ## Interleaved appends -/

/-- **Appends in any order lose nothing.** A client of a compiled schema creates messages on a
builder, appends to their lists and sets their other fields, in any order and at any depth. As long
as every call is one that may be made, all of them succeed, and afterwards every field of every
message reads as what was given to it: a list has as many elements as were appended, in order. -/
theorem appends_read_back {desc : T2b.SchemaDesc} {schema : Schema}
    (hschema : T2b.t2b desc = some schema) (hfits : T2b.Fits desc) {alloc : Nat → Realloc}
    (ha : ∀ n, (alloc n).Total) {addr : Nat} (haddr : addr < 2 ^ 64) {ops : List Op}
    (hok : AllSteps (Client.stepBoth alloc schema) (Client.Ok schema) (Client.init addr haddr, []) ops) :
    ∃ s, run (Client.stepBoth alloc schema) (Client.init addr haddr, []) ops = some (s, given ops) ∧
      s.Reads schema (given ops) := by
  have hs := T2b.t2b_sound hschema hfits
  obtain ⟨⟨s, gs⟩, hrun, v, d, hrel⟩ := Client.inv_run hs ha haddr hok
  have hgiven : gs = given ops := run_given hrun
  rw [hgiven] at hrun hrel
  exact ⟨s, hrun, hrel.reads hs⟩

/-- A tree of nodes with a number, and with lists of numbers, strings and nodes. -/
def treeDesc : T2b.SchemaDesc :=
  ⟨none, [], [⟨asc "Node", [⟨asc "id", asc "int32", false⟩, ⟨asc "nums", asc "int16", true⟩,
    ⟨asc "tags", asc "string", true⟩, ⟨asc "kids", asc "Node", true⟩]⟩]⟩

def idField : FieldDesc := ⟨asc "id", .int, false, 0, 4⟩

def numsField : FieldDesc := ⟨asc "nums", .int, true, 0, 2⟩

def tagsField : FieldDesc := ⟨asc "tags", .str, true, 1, 1⟩

def kidsField : FieldDesc := ⟨asc "kids", .ptr, true, 2, 0⟩

/-- The schema as it is compiled. -/
def treeSchema : Schema :=
  ⟨[], [], [⟨asc "Node", [idField, numsField, tagsField, kidsField], 4, 3⟩]⟩

/-- Appends to the lists of a node and of its first child, one in the middle of the other. -/
def treeOps : List Op :=
  [.create 0, .num 0 numsField 5, .msg 0 kidsField, .str 0 tagsField (asc "ab") 2,
    .num 0 numsField (-3), .num 1 numsField 9, .msg 0 kidsField, .num 1 idField 7,
    .str 1 tagsField (asc "x") 1, .num 0 numsField 11]

theorem treeOps_read_back : ∃ s, run (Client.stepBoth granting treeSchema)
      (Client.init 4096 (by decide), []) treeOps = some (s, given treeOps) ∧
    s.Reads treeSchema (given treeOps) :=
  appends_read_back (show T2b.t2b treeDesc = some treeSchema by decide +kernel)
    (show T2b.Fits treeDesc by decide +kernel) (fun _ _ => rfl) (by decide)
    (show AllSteps (Client.stepBoth granting treeSchema) (Client.Ok treeSchema)
      (Client.init 4096 (by decide), []) treeOps by decide +kernel)

/-- A node with one string. -/
def tagOps : List Op := [.create 0, .str 0 tagsField (asc "12345678") 8]

/-- **A string of eight bytes that is appended to an empty list cannot be read back**: the list
takes up 32 bytes in its buffer, and the string 33 in its own. -/
theorem appended_string_lost : T2b.t2b treeDesc = some treeSchema ∧ ∃ s i o j list,
    run (Client.stepBoth granting treeSchema) (Client.init 4096 (by decide), []) tagOps
      = some (s, given tagOps) ∧
    s.msgs[0]? = some (i, o) ∧ s.pool.getPtr i o tagsField.tag0 = some (j, list) ∧
    list.nelem = 1 ∧ s.pool.getStr j (getElem list 0) 0 = none := by
  have hall : ((run (Client.stepBoth granting treeSchema) (Client.init 4096 (by decide), []) tagOps).bind
      fun s => s.1.msgs[0]?.bind fun x => (s.1.pool.getPtr x.1 x.2 tagsField.tag0).map fun y =>
        (y.2.nelem, s.1.pool.getStr y.1 (getElem y.2 0) 0)) = some (1, none) := by decide +kernel
  refine ⟨by decide +kernel, ?_⟩
  obtain ⟨⟨s, gs⟩, hrun, hall⟩ := Option.bind_eq_some_iff.mp hall
  obtain ⟨⟨i, o⟩, hmsg, hall⟩ := Option.bind_eq_some_iff.mp hall
  obtain ⟨⟨j, list⟩, hget, hall⟩ := Option.map_eq_some_iff.mp hall
  rw [Prod.mk.injEq] at hall
  have hgiven : gs = given tagOps := run_given hrun
  exact ⟨s, i, o, j, list, hgiven ▸ hrun, hmsg, hget, hall.1, hall.2⟩

end Nbuf
