import Nbuf.Text.Accepts
import Nbuf.Text.Getters
import Nbuf.Text.Kept
import Nbuf.Wire.RoundTrip

set_option autoImplicit false

/-! # Reading back what a document keeps

A serialized buffer that holds a document is read by reflection: from the handle of a message each
of its fields is reached, and found to have the value that the document keeps.
-/

namespace Nbuf

open ByteMem

/-! ## Handles -/

/-- A handle stands for its first element, unless the elements are bits. -/
theorem Obj.same_getElem {r : Obj} (hn : 0 < r.nelem) (h0 : r.elemsz ≠ 0) (hbase : r.base < 2 ^ 64) :
    r.Same (getElem r 0) := by
  constructor
  case base =>
    rw [getElem, if_pos hn, if_neg h0, Nat.zero_mul]
    show r.base = sizeT (r.base + sizeT 0)
    rw [show sizeT 0 = 0 from rfl, Nat.add_zero, sizeT_of_lt hbase]
  case ssize => rw [getElem_ssize hn, Obj.width, if_neg h0]
  case psize => rw [getElem_psize hn]

/-- The reflection path to a submessage. Nothing is accessed through the handle of a message without
fields. -/
theorem elemRef_ptr {b : Buffer} {o list : Obj} {fld : FieldDesc} {i : Nat} (hk : fld.kind = .ptr)
    (hptr : getPtr b o fld.tag0 = some list)
    (hi : (if fld.list = true then i else 0) < list.nelem) : ∃ ref, elemRef b o fld i = some ref ∧
      (list.elemsz ≠ 0 → ref.o.Same (getElem list (if fld.list = true then i else 0))) := by
  have hbase := getPtr_base_lt hptr
  have hbits : ¬ fld.kind = .bool := by simp [hk]
  unfold elemRef
  cases hlist : fld.list with
  | true =>
      simp only [hlist, if_true] at hi
      simp only [getRef, hlist, true_or, if_true, refGetPtr, hptr, Option.bind_eq_bind, assertC_pos,
        Option.bind_some, if_neg hbits]
      exact ⟨_, advance_elems hbits hbase hi, Obj.skip_same hi⟩
  | false =>
      simp only [hlist, Bool.false_eq_true, if_false] at hi
      simp only [getRef, hk, hlist, or_true, if_true, refGetPtr, hptr, Option.bind_eq_bind,
        assertC_pos, Option.bind_some, reduceCtorEq, if_false, Bool.false_eq_true]
      exact ⟨_, rfl, fun h0 => Obj.same_getElem hi h0 hbase⟩

/-! ## Buffers -/

/-- The buffer holds the heap of the document, and no pointer is too long. -/
structure View.Stores (w : View) (schema : Schema) (d : Doc) (b : Buffer) : Prop where
  sound : schema.Sound
  holds : w.heap.Holds b
  shows : w.Shows View.Room.any schema d
  near : w.heap.total ≤ 2 ^ 33

/-- `o` is a handle of message `m` in the buffer. -/
def View.Opens (w : View) (m : Nat) (o : Obj) : Prop :=
  ∃ i k c, w.places[m]? = some (i, k) ∧ w.heap[i]? = some c ∧ k < c.nelem ∧
    (¬ (c.ssize = 0 ∧ c.psize = 0) → o.Same (getElem (w.heap.handle i c) k))

namespace View.Stores

variable {w : View} {schema : Schema} {d : Doc} {b : Buffer} {m k : Nat} {o : Obj} {M : DocMsg}
  {f : FieldDesc}

theorem handle_base_lt (h : w.Stores schema d b) {i : Nat} {c : Cell} (hc : w.heap[i]? = some c) :
    (w.heap.handle i c).base < 2 ^ 64 := by
  have hend := h.holds.block_le hc
  have hlt := h.holds.len_lt
  have hle := c.le_blockSize
  show w.heap.offs i + 8 < _
  omega

/-- **The root** of the buffer is message `0`, if it lies there. -/
theorem root (h : w.Stores schema d b) (hM : d.msgs[0]? = some M) (hpl : w.places[0]? = some (0, 0)) :
    ∃ o, objInit b Obj.null 0 = some o ∧ w.Opens 0 o := by
  obtain ⟨c, hat⟩ := h.shows.msgAt hM hpl
  refine ⟨w.heap.handle 0 c, ?_, 0, 0, c, hpl, hat.cell, hat.inside, fun h0 => ?_⟩
  · rw [← h.holds.objInit hat.cell Obj.null]
    rfl
  · exact Obj.same_getElem hat.inside (fun hz => h0 ((Obj.elemsz_eq_zero_iff _).mp hz))
      (h.handle_base_lt hat.cell)

/-- The root lies in the buffer. -/
theorem root_fits (h : w.Stores schema d b) (hM : d.msgs[0]? = some M)
    (hpl : w.places[0]? = some (0, 0)) (ho : objInit b Obj.null 0 = some o) :
    o.base + o.elemsz ≤ b.len := by
  obtain ⟨c, hat⟩ := h.shows.msgAt hM hpl
  have hinit : objInit b Obj.null 0 = some (w.heap.handle 0 c) := h.holds.objInit hat.cell Obj.null
  rw [hinit, Option.some.injEq] at ho
  subst ho
  have hrows := h.holds.rows_le hat.cell
  have hpos : 0 < (w.heap.handle 0 c).nelem := hat.inside
  by_cases h0 : (w.heap.handle 0 c).elemsz = 0
  · omega
  · rw [Obj.rows, if_neg h0, Obj.stride_eq h0] at hrows
    have hle := Nat.le_mul_of_pos_left (w.heap.handle 0 c).elemsz hpos
    omega

/-- The message that a handle stands for. -/
theorem msgAt (h : w.Stores schema d b) (ho : w.Opens m o) (hM : d.msgs[m]? = some M) :
    ∃ i k c, w.MsgAt View.Room.any schema i k c M ∧
      (¬ (c.ssize = 0 ∧ c.psize = 0) → o.Same (getElem (w.heap.handle i c) k)) := by
  obtain ⟨i, k, c, hpl, hc, -, hsame⟩ := ho
  obtain ⟨c', hat⟩ := h.shows.msgAt hM hpl
  rw [hat.cell, Option.some.injEq] at hc
  subst hc
  exact ⟨i, k, _, hat, hsame⟩

/-- The list of a field, or its submessage. -/
theorem list (h : w.Stores schema d b) (ho : w.Opens m o) (hM : d.msgs[m]? = some M)
    (hf : f ∈ (schema.msgType M.type).fields) (hlist : f.list = true ∨ f.kind = .ptr) :
    ∃ l, getPtr b o f.tag0 = some l ∧ l.nelem = (M.vals f).length ∧ (M.vals f ≠ [] → ∃ t ct,
      l = w.heap.handle t ct ∧ w.ListAt View.Room.any schema t ct f (M.vals f)) := by
  obtain ⟨i, k, c, hat, hsame⟩ := h.msgAt ho hM
  have hx := hat.slot_lt h.sound hf (inPointers_of_list hlist)
  have hrow := c.row_of_psize hx k
  have hget := h.holds.getPtr hat.cell hat.inside hx fun t ht =>
    h.holds.near h.near hat.cell (Shape.row_lt_rows hat.inside) hx ht
  rw [← (hsame (by omega)).getPtr, hrow] at hget
  cases ht : c.ptr k f.tag0 with
  | none =>
      rw [hat.vals_nil hf hlist ht]
      rw [ht] at hget
      exact ⟨Obj.null, hget, rfl, fun hne => absurd rfl hne⟩
  | some t =>
      obtain ⟨-, ct, hl⟩ := hat.list hf hlist ht
      rw [ht, Heap.target_some hl.cell] at hget
      exact ⟨_, hget, hl.length, fun _ => ⟨t, ct, rfl, hl⟩⟩

/-! ## Values -/

/-- **A number that is kept** is found. -/
theorem num (h : w.Stores schema d b) (ho : w.Opens m o) (hM : d.msgs[m]? = some M)
    (hf : f ∈ (schema.msgType M.type).fields) (hnum : f.IsNum) {v : Int}
    (hkept : M.Keeps f k (.num v)) : ∃ ref, elemRef b o f k = some ref ∧ ref.kind = f.kind ∧
      ref.tag1 = f.tag1 ∧ getInt b ref.o ref.tag0 f.width
        = some (((toU64 v % 256 ^ f.width : Nat) : Int).bmod (256 ^ f.width)) := by
  obtain ⟨i, j, c, hat, hsame⟩ := h.msgAt ho hM
  have hmem := schema.msgType_mem hat.type
  have hw := h.sound.width _ hmem f hf
  have hwidth := hw.width hnum
  have hpos := scalarSize_bounds hwidth
  unfold DocMsg.Keeps at hkept
  by_cases hl : f.list = true
  · rw [if_pos hl] at hkept
    obtain ⟨list, hptr, -, hlist⟩ := h.list ho hM hf (Or.inl hl)
    obtain ⟨t, ct, rfl, hat'⟩ := hlist (by rintro h0; rw [h0] at hkept; cases hkept)
    obtain ⟨-, -, -, hload⟩ := hat'.item k _ hkept
    have hsize := hat'.size
    rw [getSize_num hw hnum, Prod.mk.injEq] at hsize
    have hne : ¬ (ct.ssize = 0 ∧ ct.psize = 0) := by omega
    have hn : k < ct.nelem := by
      rw [hat'.length]
      exact (List.getElem?_eq_some_iff.mp hkept).1
    obtain ⟨ref, href, hkind, htag1, htag0, hsame'⟩ := elemRef_list hl hptr hn
      ⟨fun hz => absurd ((Obj.elemsz_eq_zero_iff _).mp hz) hne, fun hb => absurd hb hnum.1⟩
    refine ⟨ref, href, hkind, htag1, ?_⟩
    rw [htag0, if_neg hnum.1, hsame'.getInt, h.holds.getInt hat'.cell hn hwidth (Nat.dvd_zero _)
      (by rw [ct.width_eq, if_neg hne]; omega), ct.row_eq hne, hload]
  · rw [if_neg hl] at hkept
    have hin : f.inPointers = false := by simp [FieldDesc.inPointers, hl, hnum.2.1, hnum.2.2]
    have hlay := h.sound.layout _ hmem
    have hinside := hlay.inside f hf ⟨hin, hnum.1⟩
    have hne : ¬ (c.ssize = 0 ∧ c.psize = 0) := by
      rw [hat.ssize]
      omega
    refine ⟨getRef o f, ?_, rfl, rfl, ?_⟩
    · unfold elemRef
      simp [getRef, hl, hnum.2.2]
    · have hload : (c.scal j).load f.tag0 f.width = toU64 v % 256 ^ f.width := by
        rw [← hkept]
        exact load_congr fun p _ hp => hat.scal p (by rw [hat.ssize]; omega)
      show getInt b o f.tag0 f.width = _
      rw [(hsame hne).getInt, h.holds.getInt hat.cell hat.inside hwidth
        (hlay.aligned f hf ⟨hin, hnum.1⟩) (by rw [c.width_eq, if_neg hne, hat.ssize]; exact hinside),
        c.row_eq hne, hload]

/-- **A boolean of a list** is found at its element. -/
theorem bit (h : w.Stores schema d b) (ho : w.Opens m o) (hM : d.msgs[m]? = some M)
    (hf : f ∈ (schema.msgType M.type).fields) (hl : f.list = true) (hk : f.kind = .bool) :
    ∃ list, getPtr b o f.tag0 = some list ∧ list.nelem = (M.vals f).length ∧
      ∀ i v, (M.vals f)[i]? = some (.bit v) → getBit b (getElem list i) (i % 8) = some v := by
  obtain ⟨_, _, _, hat, -⟩ := h.msgAt ho hM
  have hw := h.sound.width _ (schema.msgType_mem hat.type) f hf
  obtain ⟨list, hptr, hlen, hlist⟩ := h.list ho hM hf (Or.inl hl)
  refine ⟨list, hptr, hlen, fun i v hv => ?_⟩
  obtain ⟨t, ct, rfl, hat'⟩ := hlist (by rintro h0; rw [h0] at hv; cases hv)
  have hn : i < ct.nelem := by
    rw [hat'.length]
    exact (List.getElem?_eq_some_iff.mp hv).1
  have hsize := hat'.size
  rw [getSize_bool hw hk, Prod.mk.injEq] at hsize
  have hbits : ct.ssize = 0 ∧ ct.psize = 0 := ⟨hsize.1.symm, hsize.2.symm⟩
  have hbyte : i % 8 / 8 = 0 := by omega
  rw [h.holds.getBit hat'.cell hn (by rw [ct.width_eq, if_pos hbits]; omega),
    ct.row_bits hbits.1 hbits.2, hbyte, Nat.mod_mod]
  exact congrArg some (hat'.item i _ hv).2

/-- **A submessage that is kept** is found. -/
theorem sub (h : w.Stores schema d b) (ho : w.Opens m o) (hM : d.msgs[m]? = some M)
    (hf : f ∈ (schema.msgType M.type).fields) (hk : f.kind = .ptr) {m' : Nat}
    (hkept : M.Keeps f k (.msg m')) : ∃ ref, elemRef b o f k = some ref ∧ w.Opens m' ref.o := by
  have hget : (M.vals f)[if f.list = true then k else 0]? = some (.msg m') := by
    unfold DocMsg.Keeps at hkept
    by_cases hl : f.list = true
    · rw [if_pos hl] at hkept ⊢
      exact hkept
    · rw [if_neg hl] at hkept ⊢
      rw [show M.vals f = [.msg m'] from hkept]
      rfl
  obtain ⟨list, hptr, hlen, hlist⟩ := h.list ho hM hf (Or.inr hk)
  obtain ⟨t, ct, rfl, hat⟩ := hlist (by rintro h0; rw [h0] at hget; cases hget)
  have hn : (if f.list = true then k else 0) < ct.nelem := by
    rw [hat.length]
    exact (List.getElem?_eq_some_iff.mp hget).1
  obtain ⟨ref, href, hsame⟩ := elemRef_ptr hk hptr hn
  obtain ⟨-, hpl⟩ := hat.item _ _ hget
  refine ⟨ref, href, t, _, ct, hpl, hat.cell, hn, fun h0 => hsame fun hz => ?_⟩
  exact h0 ((Obj.elemsz_eq_zero_iff _).mp hz)

end View.Stores

/-! ## Parsed texts -/

/-- **A text that is derived** is parsed, and the buffer holds the document that it fills in. -/
theorem Spells.parse_doc {schema : Schema} {ofInt : Int → Int × Int} {alloc : Nat → Realloc}
    (hs : schema.Sound) (ha : ∀ n, (alloc n).Total) {addr : Nat} (haddr : addr < 2 ^ 64) {type : Nat}
    (htype : type < schema.msgTypes.length) {toks : List Token}
    (hbound : TextBounded schema ofInt type toks)
    (hnear : (textDoc schema ofInt type toks).bytes ≤ 2 ^ 33) {T : Fields}
    (hT : Spells schema Token.IsText type [] toks T) : ∃ (r : Parsed) (b : Buffer) (o : Obj) (w : View)
      (M : DocMsg),
      nbufParse alloc schema ofInt addr haddr (schema.msgType type) toks = .done r ∧ r.ok = true ∧
      r.buf = some b ∧ objInit b Obj.null 0 = some o ∧ o.base + o.elemsz ≤ b.len ∧
      w.Stores schema (T.fill schema ofInt 0 (Draft.start schema type)).doc b ∧ w.Opens 0 o ∧
      (T.fill schema ofInt 0 (Draft.start schema type)).doc.msgs[0]? = some M ∧ M.type = type := by
  have hlen : 0 < (Draft.start schema type).doc.msgs.length := Nat.zero_lt_one
  have hreads := hT.reads ofInt hlen (Draft.seen_start type) (k := []) (Or.inl rfl)
  rw [List.append_nil] at hreads
  have hdoc := hreads.textDoc_eq
  obtain ⟨r, b, w, hr, hok, hbuf, hholds, hshows, hpl⟩ := nbufParse_spec hs ha haddr htype hreads
    (hdoc ▸ hbound.doc) (hdoc ▸ hbound.bytes) hbound.short
  have hstart : (Draft.start schema type).doc.msgs[0]? = some (DocMsg.new type) := rfl
  obtain ⟨M, hM, hMtype, -⟩ := hreads.le.msg 0 _ hstart
  have hstores : w.Stores schema (T.fill schema ofInt 0 (Draft.start schema type)).doc b := by
    refine ⟨hs, hholds, hshows, ?_⟩
    rw [hshows.bytes, ← hdoc]
    exact hnear
  obtain ⟨o, ho, hopens⟩ := hstores.root hM hpl
  exact ⟨r, b, o, w, M, hr, hok.mpr ⟨rfl, rfl⟩, hbuf, ho, hstores.root_fits hM hpl ho, hstores,
    hopens, hM, hMtype⟩

/-- What the text spells is kept in the document. -/
theorem Spells.parse {schema : Schema} {ofInt : Int → Int × Int} {alloc : Nat → Realloc}
    (hs : schema.Sound) (ha : ∀ n, (alloc n).Total) {addr : Nat} (haddr : addr < 2 ^ 64) {type : Nat}
    (htype : type < schema.msgTypes.length) {toks : List Token}
    (hbound : TextBounded schema ofInt type toks)
    (hnear : (textDoc schema ofInt type toks).bytes ≤ 2 ^ 33) {T : Fields}
    (hT : Spells schema Token.IsText type [] toks T) : ∃ (r : Parsed) (b : Buffer) (o : Obj) (w : View)
      (d : Doc) (M : DocMsg),
      nbufParse alloc schema ofInt addr haddr (schema.msgType type) toks = .done r ∧ r.ok = true ∧
      r.buf = some b ∧ objInit b Obj.null 0 = some o ∧ w.Stores schema d b ∧ w.Opens 0 o ∧
      d.msgs[0]? = some M ∧ M.type = type ∧ T.Kept schema ofInt d 0 [] := by
  have hstart : (Draft.start schema type).doc.msgs[0]? = some (DocMsg.new type) := rfl
  obtain ⟨r, b, o, w, M, hr, hok, hbuf, hroot, -, hstores, hopens, hM, hMtype⟩ :=
    hT.parse_doc hs ha haddr htype hbound hnear
  exact ⟨r, b, o, w, _, M, hr, hok, hbuf, hroot, hstores, hopens, hM, hMtype,
    hT.kept hs hstart rfl htype (Draft.seen_start type) fun _ _ => rfl⟩

end Nbuf
