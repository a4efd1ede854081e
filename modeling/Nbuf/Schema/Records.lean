import Nbuf.Schema.Evolution
import Nbuf.Wire.RoundTrip

set_option autoImplicit false

/-! # Messages as records

What the generated accessors make of a vector of messages: each field of each element holds the
value last put into it, and a field that was never set holds its default. The bytes behind it are
those of a heap; all bits and slots that no field has stay zero. A reader with another version of
the schema finds the fields that both versions have, and the defaults of the others.
-/

namespace Nbuf

open Run ByteMem Cover

/-! ## Records -/

/-- A vector of messages: the value last put into each scalar field of an element, and the object
that each list, string or submessage leads to. -/
structure Records where
  type : MsgType
  nelem : Nat
  val : Nat → FieldDesc → Nat
  ref : Nat → FieldDesc → Option Nat

namespace Records

/-- `nbuf_create` for `n` messages -/
def new (type : MsgType) (n : Nat) : Records := ⟨type, n, fun _ _ => 0, fun _ _ => none⟩

def set (m : Records) (k : Nat) (f : FieldDesc) (v : Nat) : Records :=
  { m with val := Function.update m.val k (Function.update (m.val k) f v) }

def setRef (m : Records) (k : Nat) (f : FieldDesc) (t : Nat) : Records :=
  { m with ref := Function.update m.ref k (Function.update (m.ref k) f (some t)) }

end Records

/-- What an object is for: messages, a string, or the data of another list. -/
inductive RecItem where
  | msgs (m : Records)
  | str (s : List UInt8)
  | data

def RecItem.onMsgs (g : Records → Records) : RecItem → RecItem
  | msgs m => msgs (g m)
  | str s => str s
  | data => data

/-! ## The bits of a row -/

/-- The bits of a row that hold a scalar field. -/
def FieldDesc.span (f : FieldDesc) : Range :=
  if f.kind = .bool then ⟨f.tag0, 1⟩ else ⟨8 * f.tag0, 8 * f.width⟩

/-- What a value leaves in them. -/
def FieldDesc.bitOf (f : FieldDesc) (v p j : Nat) : Bool :=
  if f.kind = .bool then decide (v ≠ 0) else v.testBit (8 * (p - f.tag0) + j)

/-- The setter of a scalar field, on an object. -/
def Cell.setField (c : Cell) (k : Nat) (f : FieldDesc) (v : Nat) : Cell :=
  if f.kind = .bool then c.setBit k f.tag0 (decide (v ≠ 0)) else c.setInt k f.tag0 f.width v

theorem FieldDesc.bits_eq_span {f : FieldDesc} (hin : f.inPointers = false) :
    f.bits = some f.span := by
  unfold FieldDesc.bits FieldDesc.span
  rw [if_neg (by simp [hin])]
  split_ifs <;> rfl

@[simp] theorem Cell.setField_toShape (c : Cell) (k : Nat) (f : FieldDesc) (v : Nat) :
    (c.setField k f v).toShape = c.toShape := by
  unfold Cell.setField
  split_ifs
  · exact c.setBit_toShape k _ _
  · exact c.setInt_toShape k _ _ v

theorem Cell.setField_ptr (c : Cell) (k : Nat) (f : FieldDesc) (v : Nat) :
    (c.setField k f v).ptr = c.ptr := by
  unfold Cell.setField
  split_ifs
  · exact c.setBit_ptr k _ _
  · exact c.setInt_ptr k _ _ v

/-- A setter sets the bits of its field in one row. -/
theorem Cell.setField_bit {c : Cell} {f : FieldDesc} (hf : f.FitsIn c.width) (k v row p : Nat)
    {j : Nat} (hj : j < 8) : bit ((c.setField k f v).scal row) p j
      = if row = c.row k ∧ f.span.Has (8 * p + j) then f.bitOf v p j else bit (c.scal row) p j := by
  unfold Cell.setField FieldDesc.span FieldDesc.bitOf
  by_cases hb : f.kind = .bool
  · simp only [if_pos hb]
    unfold Cell.setBit
    rw [if_pos (hf.bit hb)]
    unfold Cell.putBit
    dsimp only
    by_cases hrow : row = c.row k
    · subst hrow
      rw [Function.update_self, bit_putBit _ _ (Nat.mod_lt _ (by decide))]
      have hiff : (p = f.tag0 / 8 ∧ j = f.tag0 % 8) ↔ (⟨f.tag0, 1⟩ : Range).Has (8 * p + j) := by
        simp only [Range.Has]
        omega
      simp only [hiff, true_and]
    · rw [Function.update_of_ne hrow, if_neg (by tauto)]
  · simp only [if_neg hb]
    unfold Cell.setInt
    rw [if_pos (hf.number hb).2.2]
    unfold Cell.putInt
    dsimp only
    by_cases hrow : row = c.row k
    · subst hrow
      rw [Function.update_self, bit_store _ _ _ _ _ hj]
      have hiff : (f.tag0 ≤ p ∧ p < f.tag0 + f.width)
          ↔ (⟨8 * f.tag0, 8 * f.width⟩ : Range).Has (8 * p + j) := by
        simp only [Range.Has]
        omega
      simp only [hiff, true_and]
    · rw [Function.update_of_ne hrow, if_neg (by tauto)]

/-! ## Records on an object -/

/-- The object holds the records: every field its value, and nothing else any bit or pointer. -/
structure Records.Rel (m : Records) (c : Cell) : Prop where
  sound : m.type.SoundLayout
  nelem : c.nelem = m.nelem
  ssize : c.ssize = m.type.ssize
  psize : c.psize = m.type.psize
  held : ∀ k < m.nelem, ∀ f, m.type.ScalarField f → ∀ p j, j < 8 → f.span.Has (8 * p + j) →
    bit (c.scal (c.row k)) p j = f.bitOf (m.val k f) p j
  free : ∀ k < m.nelem, ∀ p j, j < 8 →
    (∀ f, m.type.ScalarField f → ¬ f.span.Has (8 * p + j)) → bit (c.scal (c.row k)) p j = false
  refs : ∀ k < m.nelem, ∀ f ∈ m.type.fields, f.inPointers = true →
    c.ptr (c.row k) f.tag0 = m.ref k f

section

variable {m : Records} {c : Cell} {f : FieldDesc} {k : Nat}

/-- A message with a scalar field has bytes of its own for each element. -/
theorem Records.Rel.row_eq (h : m.Rel c) (hf : m.type.ScalarField f) (k : Nat) :
    c.width = m.type.ssize ∧ c.row k = k := by
  have hpos : 0 < m.type.ssize := by
    by_cases hb : f.kind = .bool
    · have := h.sound.bit_inside f hf.1 ⟨hf.2, hb⟩
      omega
    · have hwidth := h.sound.width f hf.1 ⟨hf.2, hb⟩
      have hin := h.sound.inside f hf.1 ⟨hf.2, hb⟩
      by_contra h0
      rw [show f.width = 0 by omega] at hwidth
      cases hwidth
  have hne : ¬ (c.ssize = 0 ∧ c.psize = 0) := by
    rw [h.ssize]
    omega
  exact ⟨by rw [c.width_eq, if_neg hne, h.ssize], c.row_eq hne k⟩

theorem Records.Rel.fitsIn (h : m.Rel c) (hf : m.type.ScalarField f) : f.FitsIn c.width := by
  rw [(h.row_eq hf 0).1]
  exact h.sound.fitsIn hf

/-- Two fields of a message have no bit in common. -/
theorem span_apart {ms : MsgType} (hms : ms.SoundLayout) {f g : FieldDesc}
    (hf : ms.ScalarField f) (hg : ms.ScalarField g) (hne : f ≠ g) {i : Nat} (hi : f.span.Has i) :
    ¬ g.span.Has i :=
  hms.bits_disjoint hf hg hne _ (FieldDesc.bits_eq_span hf.2) _ (FieldDesc.bits_eq_span hg.2) i hi

/-- New messages are zero. -/
theorem Records.rel_new {ms : MsgType} (hms : ms.SoundLayout) {sh : Shape}
    (hs : sh.ssize = ms.ssize) (hp : sh.psize = ms.psize) : (Records.new ms sh.nelem).Rel (Cell.new sh) where
  sound := hms
  nelem := rfl
  ssize := hs
  psize := hp
  held := fun k _ f _ p j hj _ => by
    show Nat.testBit (0 : UInt8).toNat j = f.bitOf 0 p j
    unfold FieldDesc.bitOf
    split_ifs <;> simp
  free := fun k _ p j _ _ => by
    show Nat.testBit (0 : UInt8).toNat j = false
    simp
  refs := fun _ _ _ _ _ => rfl

/-- **Setting a field** sets the field of the record. -/
theorem Records.Rel.set (h : m.Rel c) (hf : m.type.ScalarField f) (v : Nat) :
    (m.set k f v).Rel (c.setField k f v) := by
  have hshape := c.setField_toShape k f v
  have hrow : ∀ k', (c.setField k f v).row k' = k' := fun k' => by
    rw [hshape, (h.row_eq hf k').2]
  have hbit := fun row p j (hj : j < 8) => Cell.setField_bit (h.fitsIn hf) k v row p hj
  have hrowk := (h.row_eq hf k).2
  refine ⟨h.sound, ?_, ?_, ?_, ?_, ?_, ?_⟩
  · rw [hshape]
    exact h.nelem
  · rw [hshape]
    exact h.ssize
  · rw [hshape]
    exact h.psize
  · intro k' hk' g hg p j hj hi
    have hold := h.held k' hk' g hg p j hj hi
    rw [(h.row_eq hf k').2] at hold
    rw [hrow, hbit _ _ _ hj, hrowk, hold]
    show _ = g.bitOf (Function.update m.val k (Function.update (m.val k) f v) k' g) p j
    by_cases hk : k' = k
    · subst hk
      rw [Function.update_self]
      by_cases hgf : g = f
      · subst hgf
        rw [Function.update_self, if_pos ⟨rfl, hi⟩]
      · rw [Function.update_of_ne hgf,
          if_neg fun hboth => span_apart h.sound hg hf hgf hi hboth.2]
    · rw [Function.update_of_ne hk, if_neg fun hboth => hk hboth.1]
  · intro k' hk' p j hj hnone
    have hold := h.free k' hk' p j hj hnone
    rw [(h.row_eq hf k').2] at hold
    rw [hrow, hbit _ _ _ hj, if_neg fun hboth => hnone f hf hboth.2]
    exact hold
  · intro k' hk' g hg hin
    have hold := h.refs k' hk' g hg hin
    rw [(h.row_eq hf k').2] at hold
    rw [hrow, c.setField_ptr k f v]
    exact hold

/-- A field in the pointer part has a slot of its own. -/
theorem slot_lt {ms : MsgType} (hms : ms.SoundLayout) {f : FieldDesc} (hf : f ∈ ms.fields)
    (hin : f.inPointers = true) : f.tag0 < ms.psize := by
  have hmem : f.tag0 ∈ (ms.fields.filter FieldDesc.inPointers).map FieldDesc.tag0 :=
    List.mem_map_of_mem (List.mem_filter.mpr ⟨hf, hin⟩)
  rw [hms.slots] at hmem
  exact List.mem_range.mp hmem

theorem slot_inj {ms : MsgType} (hms : ms.SoundLayout) {f g : FieldDesc} (hf : f ∈ ms.fields)
    (hfin : f.inPointers = true) (hg : g ∈ ms.fields) (hgin : g.inPointers = true)
    (heq : f.tag0 = g.tag0) : f = g := by
  have hnodup : ((ms.fields.filter FieldDesc.inPointers).map FieldDesc.tag0).Nodup := by
    rw [hms.slots]
    exact List.nodup_range
  exact List.inj_on_of_nodup_map hnodup (List.mem_filter.mpr ⟨hf, hfin⟩)
    (List.mem_filter.mpr ⟨hg, hgin⟩) heq

/-- **Setting a reference** sets the reference of the record. -/
theorem Records.Rel.setRef (h : m.Rel c) (hf : f ∈ m.type.fields) (hin : f.inPointers = true)
    (t : Nat) : (m.setRef k f t).Rel (c.putPtr (c.row k) f.tag0 t) := by
  have hps : f.tag0 < c.psize := h.psize ▸ slot_lt h.sound hf hin
  have hrow : ∀ k', c.row k' = k' := fun k' => c.row_of_psize hps k'
  refine ⟨h.sound, h.nelem, h.ssize, h.psize, h.held, h.free, ?_⟩
  intro k' hk' g hg hgin
  have hold := h.refs k' hk' g hg hgin
  show (Function.update c.ptr (c.row k) (Function.update (c.ptr (c.row k)) f.tag0 (some t)))
      (c.row k') g.tag0 = Function.update m.ref k (Function.update (m.ref k) f (some t)) k' g
  rw [hrow] at hold
  rw [hrow, hrow]
  by_cases hk : k' = k
  · subst hk
    rw [Function.update_self, Function.update_self]
    by_cases hgf : g = f
    · subst hgf
      rw [Function.update_self, Function.update_self]
    · have hslot : g.tag0 ≠ f.tag0 := fun heq => hgf (slot_inj h.sound hg hgin hf hin heq)
      rw [Function.update_of_ne hgf, Function.update_of_ne hslot, hold]
  · rw [Function.update_of_ne hk, Function.update_of_ne hk, hold]

/-! ## What the getters find -/

variable {h : Heap} {b : Buffer} {i : Nat}

/-- The bits of a row in the buffer. -/
theorem Heap.Holds.bit_eq (hb : h.Holds b) (hc : h[i]? = some c) (hk : k < c.nelem) {q j : Nat}
    (hq : q < c.width) :
    bit b.mem ((h.handle i c).rowPos (c.row k) + q) j = bit (c.scal (c.row k)) q j := by
  have hbyte := (hb.rep i c hc).scal _ (Shape.row_lt_rows hk) q hq
  unfold bit
  rw [← hbyte]
  rfl

/-- The bits of the buffer that hold a field are those of its row. -/
theorem fieldRange_iff {r : Obj} {row p j : Nat} (hj : j < 8) :
    (fieldRange r row f).Has (8 * p + j) ↔
      ∃ q, p = r.rowPos row + q ∧ f.span.Has (8 * q + j) := by
  unfold fieldRange FieldDesc.span
  constructor
  · intro hi
    refine ⟨p - r.rowPos row, ?_⟩
    split_ifs at hi ⊢ <;> simp only [Range.Has] at hi ⊢ <;> omega
  · rintro ⟨q, rfl, hq⟩
    split_ifs at hq ⊢ <;> simp only [Range.Has] at hq ⊢ <;> omega

/-- A field inside a row whose bits are those of the value `v` is read as `v`. -/
theorem Heap.Holds.getField (hb : h.Holds b) (hc : h[i]? = some c) (hk : k < c.nelem)
    (hf : f.FitsIn c.width) {v : Nat} (hbits : ∀ p j, j < 8 → f.span.Has (8 * p + j) →
      bit (c.scal (c.row k)) p j = f.bitOf v p j) :
    Nbuf.getField b (h.handle i c) k f = some (f.held v) := by
  refine getField_of_bits (hb.rows_le hc) hb.len_lt hk hf fun p j hj hp => ?_
  obtain ⟨q, rfl, hq⟩ := (fieldRange_iff hj).mp hp
  have hin : q < c.width := by
    unfold FieldDesc.span at hq
    by_cases hbool : f.kind = .bool
    · have := hf.bit hbool
      simp only [if_pos hbool, Range.Has] at hq
      omega
    · have := (hf.number hbool).2.2
      simp only [if_neg hbool, Range.Has] at hq
      omega
  have hrow : (h.handle i c).row k = c.row k := rfl
  rw [hrow, hb.bit_eq hc hk hin, hbits q j hj hq]
  unfold FieldDesc.bitOf writtenBit
  rw [show (h.handle i c).rowPos (c.row k) + q - ((h.handle i c).rowPos (c.row k) + f.tag0)
    = q - f.tag0 by omega]

/-- **A field of the record** is read as it was set. -/
theorem Records.Rel.getField (hm : m.Rel c) (hb : h.Holds b) (hc : h[i]? = some c)
    (hk : k < m.nelem) (hf : m.type.ScalarField f) :
    Nbuf.getField b (h.handle i c) k f = some (f.held (m.val k f)) :=
  hb.getField hc (by rw [hm.nelem]; exact hk) (hm.fitsIn hf)
    fun p j hj hi => hm.held k hk f hf p j hj hi

/-- **A field that the record does not have** is read as its default, inside its bytes and behind
them. -/
theorem Records.Rel.getField_default (hm : m.Rel c) (hb : h.Holds b) (hc : h[i]? = some c)
    (hk : k < m.nelem) {ms' : MsgType} (hms' : ms'.SoundLayout) (hf : ms'.ScalarField f)
    (hnew : ∀ g, m.type.ScalarField g → BitsDisjoint g f) :
    Nbuf.getField b (h.handle i c) k f = some 0 := by
  have hk' : k < c.nelem := by rw [hm.nelem]; exact hk
  have hfits := hms'.fitsIn hf
  have hsmall := hms'.ssize_lt
  have hnone : ∀ {n}, f.span.Has n → ∀ g, m.type.ScalarField g → ¬ g.span.Has n := by
    intro n hn g hg hgn
    exact hnew g hg _ (FieldDesc.bits_eq_span hg.2) _ (FieldDesc.bits_eq_span hf.2) n hgn hn
  have hzero : ∀ p j, j < 8 → f.span.Has (8 * p + j) →
      bit (c.scal (c.row k)) p j = f.bitOf 0 p j := by
    intro p j hj hi
    rw [hm.free k hk p j hj (hnone hi)]
    unfold FieldDesc.bitOf
    split_ifs <;> simp
  have hheld : f.held 0 = 0 := by
    unfold FieldDesc.held
    split_ifs <;> simp_all
  by_cases hin : f.FitsIn c.width
  · rw [hb.getField hc hk' hin hzero, hheld]
  · unfold Nbuf.getField
    by_cases hbool : f.kind = .bool
    · have hout : c.width ≤ f.tag0 / 8 := by
        by_contra hlt
        exact hin ⟨fun hne => absurd hbool hne, fun _ => Nat.not_le.mp hlt⟩
      have hle := hfits.bit hbool
      rw [if_pos hbool, getBit_elem_out (r := h.handle i c) hk' hout (by omega)]
      rfl
    · obtain ⟨hsz, hdvd, hle⟩ := hfits.number hbool
      have hout : c.width < f.tag0 + f.width := by
        by_contra hlt
        exact hin ⟨fun _ => ⟨hsz, hdvd, Nat.not_lt.mp hlt⟩, fun hb => absurd hb hbool⟩
      have hpos : f.width ≠ 0 := by
        intro h0
        rw [h0] at hsz
        cases hsz
      rw [if_neg hbool, getInt_elem_out (r := h.handle i c) hk' hpos hdvd hout (by omega)]

/-- Fields at the same place are read alike. -/
theorem FieldDesc.SamePlace.getField_eq {g : FieldDesc} (hfg : g.SamePlace f)
    (hin : f.inPointers = false) (b : Buffer) (r : Obj) (k : Nat) :
    Nbuf.getField b r k f = Nbuf.getField b r k g := by
  have hw := hfg.width_eq (hfg.inPointers_eq.trans hin)
  unfold Nbuf.getField
  rw [hfg.kind_eq, hfg.tag0_eq, hw]

theorem FieldDesc.SamePlace.held_eq {g : FieldDesc} (hfg : g.SamePlace f)
    (hin : f.inPointers = false) (v : Nat) : f.held v = g.held v := by
  have hw := hfg.width_eq (hfg.inPointers_eq.trans hin)
  unfold FieldDesc.held
  rw [hfg.kind_eq, hw]

end

/-! ## Writing records -/

/-- What a client of the generated code has written: the objects, and what each is for. -/
structure Written where
  heap : Heap
  items : List RecItem

/-- A call of the generated code. -/
inductive RecCall where
  | newMsgs (type : MsgType) (sh : Shape)
  | set (i k : Nat) (f : FieldDesc) (v : Nat)
  | setRef (i k : Nat) (f : FieldDesc) (t : Nat)
  | setStr (i k : Nat) (f : FieldDesc) (str : List UInt8) (len : Nat)
  | other (c : Call)

/-- The object that a call puts something into. -/
def Call.target : Call → Option Nat
  | create _ => none
  | putInt i _ _ _ _ => some i
  | putBit i _ _ _ => some i
  | putPtr i _ _ _ => some i
  | putStr i _ _ _ _ => some i

/-- What the item of the object becomes that a call creates. -/
def Call.item : Call → List RecItem
  | create _ => [.data]
  | putStr _ _ _ str len =>
      let n := (strLength str len).getD 0
      [if n + 1 < 2 ^ 32 then .str (str.take n) else .data]
  | _ => []

namespace RecCall

/-- The call of the writer that is behind it: `new_`, `_init_` and `_set_`. -/
def toCall : RecCall → Call
  | newMsgs _ sh => .create sh
  | set i k f v =>
      if f.kind = .bool then .putBit i k f.tag0 (decide (v ≠ 0)) else .putInt i k f.tag0 f.width v
  | setRef i k f t => .putPtr i k f.tag0 t
  | setStr i k f str len => .putStr i k f.tag0 str len
  | other c => c

/-- What the call does to the items. -/
def items (l : List RecItem) : RecCall → List RecItem
  | newMsgs type sh => l ++ [.msgs (.new type sh.nelem)]
  | set i k f v => l.modify i (RecItem.onMsgs fun m => m.set k f v)
  | setRef i k f t => l.modify i (RecItem.onMsgs fun m => m.setRef k f t)
  | setStr i k f str len => (l ++ [RecItem.str (str.take ((strLength str len).getD 0))]).modify i
      (RecItem.onMsgs fun m => m.setRef k f l.length)
  | other c => l ++ c.item

/-- The call is one that the generated code of these messages makes: the field is one of the
message, a scalar or a pointer, and what it leads to exists. -/
def Ok (w : Written) : RecCall → Prop
  | newMsgs type sh => LaidOut type ∧ sh.ssize = type.ssize ∧ sh.psize = type.psize
  | set i k f _ => ∃ m, w.items[i]? = some (.msgs m) ∧ k < m.nelem ∧ m.type.ScalarField f
  | setRef i k f t => ∃ m, w.items[i]? = some (.msgs m) ∧ k < m.nelem ∧ f ∈ m.type.fields ∧
      f.inPointers = true ∧ i < t ∧ t < w.items.length
  | setStr i k f str len => ∃ m, w.items[i]? = some (.msgs m) ∧ k < m.nelem ∧ f ∈ m.type.fields ∧
      f.inPointers = true ∧ ∃ n, strLength str len = some n ∧ n ≤ str.length ∧ n + 1 < 2 ^ 32
  | other c => c.Ok w.heap ∧ ∀ i, c.target = some i → w.items[i]? = some .data

def step (w : Written) (c : RecCall) : Option Written :=
  some ⟨c.toCall.apply w.heap, c.items w.items⟩

end RecCall

/-- The object is what the item says. -/
def RecItem.Rel : RecItem → Cell → Prop
  | msgs m, c => m.Rel c
  | str s, c => c = strCell s ∧ s.length + 1 < 2 ^ 32
  | data, _ => True

/-- Every object is what its item says. -/
structure Written.Rel (w : Written) : Prop where
  length_eq : w.items.length = w.heap.length
  rel : ∀ (i : Nat) (it : RecItem) (c : Cell), w.items[i]? = some it → w.heap[i]? = some c →
    it.Rel c

section

variable {w : Written} {i k t : Nat} {f : FieldDesc} {m : Records}

/-- A new object behind the others. -/
theorem Written.Rel.append (hw : w.Rel) {it : RecItem} {c : Cell} (hrel : it.Rel c) :
    Written.Rel ⟨w.heap ++ [c], w.items ++ [it]⟩ where
  length_eq := by simp [hw.length_eq]
  rel := fun j it' c' hit hc => by
    rcases Nat.lt_trichotomy j w.heap.length with hlt | rfl | hgt
    · rw [List.getElem?_append_left (by rw [hw.length_eq]; exact hlt)] at hit
      rw [List.getElem?_append_left hlt] at hc
      exact hw.rel j it' c' hit hc
    · rw [List.getElem?_concat_length, Option.some.injEq] at hc
      rw [← hw.length_eq, List.getElem?_concat_length, Option.some.injEq] at hit
      rw [← hit, ← hc]
      exact hrel
    · rw [List.getElem?_eq_none (by rw [List.length_append]; exact hgt)] at hc
      cases hc

/-- An object that changes together with its item. -/
theorem Written.Rel.modify (hw : w.Rel) {fc : Cell → Cell} {fi : RecItem → RecItem}
    (hrel : ∀ it c, w.items[i]? = some it → w.heap[i]? = some c → (fi it).Rel (fc c)) :
    Written.Rel ⟨w.heap.modify i fc, w.items.modify i fi⟩ where
  length_eq := by simp [hw.length_eq]
  rel := fun j it c hit hc => by
    dsimp only at hit hc
    rw [List.getElem?_modify, Option.map_eq_map, Option.map_eq_some_iff] at hit hc
    obtain ⟨it', hit', rfl⟩ := hit
    obtain ⟨c', hc', rfl⟩ := hc
    by_cases hij : i = j
    · subst hij
      simp only [if_true]
      exact hrel it' c' hit' hc'
    · simp only [if_neg hij]
      exact hw.rel j it' c' hit' hc'

/-- The data of a list may change in any way. -/
theorem Written.Rel.modify_data (hw : w.Rel) (hdata : w.items[i]? = some .data)
    (fc : Cell → Cell) : Written.Rel ⟨w.heap.modify i fc, w.items⟩ where
  length_eq := by simp [hw.length_eq]
  rel := fun j it c hit hc => by
    dsimp only at hit hc
    rw [List.getElem?_modify, Option.map_eq_map, Option.map_eq_some_iff] at hc
    obtain ⟨c', hc', rfl⟩ := hc
    by_cases hij : i = j
    · subst hij
      obtain rfl := Option.some.inj (hdata.symm.trans hit)
      trivial
    · simp only [if_neg hij]
      exact hw.rel j it c' hit hc'

/-- The object of the messages. -/
theorem Written.Rel.cell (hw : w.Rel) (hm : w.items[i]? = some (.msgs m)) :
    ∃ c, w.heap[i]? = some c ∧ m.Rel c := by
  have hi := (List.getElem?_eq_some_iff.mp hm).1
  rw [hw.length_eq] at hi
  exact ⟨w.heap[i], List.getElem?_eq_getElem hi, hw.rel i _ _ hm (List.getElem?_eq_getElem hi)⟩

/-- The call of a setter, and what it does. -/
theorem RecCall.toCall_set (h : Heap) (i k : Nat) (f : FieldDesc) (v : Nat) :
    (RecCall.set i k f v).toCall.apply h = h.modify i fun c => c.setField k f v := by
  rw [RecCall.toCall]
  unfold Cell.setField
  split_ifs <;> rfl

/-- Every call of the generated code keeps to the interface of the writer. -/
theorem RecCall.Ok.toCall (hw : w.Rel) {call : RecCall} (hok : call.Ok w) :
    call.toCall.Ok w.heap := by
  cases call with
  | newMsgs type sh => exact ⟨trivial, trivial⟩
  | set i k f v =>
      obtain ⟨m, hm, hk, hf⟩ := hok
      obtain ⟨c, hc, hrel⟩ := hw.cell hm
      have hfits := hrel.fitsIn hf
      have hk' : k < c.nelem := by rw [hrel.nelem]; exact hk
      have hwidth := c.width_lt
      rw [RecCall.toCall]
      by_cases hbool : f.kind = .bool
      · have hin := hfits.bit hbool
        rw [if_pos hbool]
        exact ⟨⟨c, hc, hk', by omega⟩, trivial⟩
      · obtain ⟨hsz, hdvd, hle⟩ := hfits.number hbool
        have hpos : f.width ≠ 0 := by
          intro h0
          rw [h0] at hsz
          cases hsz
        rw [if_neg hbool]
        exact ⟨⟨c, hc, hk', fun _ => hsz, hpos, hdvd, by omega⟩,
          show f.tag0 + f.width < 2 ^ 64 by omega⟩
  | setRef i k f t =>
      obtain ⟨m, hm, hk, hf, hin, hit, ht⟩ := hok
      obtain ⟨c, hc, hrel⟩ := hw.cell hm
      have hslot := slot_lt hrel.sound hf hin
      rw [hw.length_eq] at ht
      exact ⟨⟨c, hc, by rw [hrel.nelem]; exact hk, by rw [hrel.psize]; exact hslot, hit, ht⟩,
        trivial⟩
  | setStr i k f str len =>
      obtain ⟨m, hm, hk, hf, hin, n, hn, hstr, hlt⟩ := hok
      obtain ⟨c, hc, hrel⟩ := hw.cell hm
      have hslot := slot_lt hrel.sound hf hin
      exact ⟨⟨c, hc, by rw [hrel.nelem]; exact hk, by rw [hrel.psize]; exact hslot, n, hn, hstr,
        Or.inl hlt⟩, trivial⟩
  | other c => exact hok.1

/-- **One call** keeps every object what its item says. -/
theorem Written.Rel.step (hw : w.Rel) {call : RecCall} (hok : call.Ok w) :
    Written.Rel ⟨call.toCall.apply w.heap, call.items w.items⟩ := by
  cases call with
  | newMsgs type sh =>
      obtain ⟨hlaid, hs, hp⟩ := hok
      exact hw.append (Records.rel_new hlaid.soundLayout hs hp)
  | set i k f v =>
      obtain ⟨m, hm, hk, hf⟩ := hok
      rw [RecCall.toCall_set]
      refine hw.modify fun it c hit hc => ?_
      obtain rfl := Option.some.inj (hm.symm.trans hit)
      have hrel : m.Rel c := hw.rel i _ c hm hc
      exact hrel.set hf v
  | setRef i k f t =>
      obtain ⟨m, hm, hk, hf, hin, -, -⟩ := hok
      refine hw.modify fun it c hit hc => ?_
      obtain rfl := Option.some.inj (hm.symm.trans hit)
      have hrel : m.Rel c := hw.rel i _ c hm hc
      exact hrel.setRef hf hin t
  | setStr i k f str len =>
      obtain ⟨m, hm, hk, hf, hin, n, hn, hstr, hlt⟩ := hok
      have happend : Written.Rel ⟨w.heap ++ [strCell (str.take n)],
          w.items ++ [RecItem.str (str.take n)]⟩ :=
        hw.append ⟨rfl, by rw [List.length_take]; omega⟩
      have hi := (List.getElem?_eq_some_iff.mp hm).1
      have happly := Call.apply_putStr w.heap i k f.tag0 hn
      rw [if_neg (by omega)] at happly
      show Written.Rel ⟨Call.apply w.heap (.putStr i k f.tag0 str len), _⟩
      rw [happly, RecCall.items, hn, Option.getD_some, hw.length_eq]
      refine happend.modify fun it c hit hc => ?_
      rw [List.getElem?_append_left hi] at hit
      rw [List.getElem?_append_left (by rw [← hw.length_eq]; exact hi)] at hc
      obtain rfl := Option.some.inj (hm.symm.trans hit)
      have hrel : m.Rel c := hw.rel i _ c hm hc
      exact hrel.setRef hf hin w.heap.length
  | other c =>
      obtain ⟨⟨hvalid, -⟩, hdata⟩ := hok
      cases c with
      | create sh => exact hw.append (show RecItem.Rel .data _ from trivial)
      | putInt j k off sz v =>
          show Written.Rel ⟨_, w.items ++ []⟩
          rw [List.append_nil]
          exact hw.modify_data (hdata j rfl) _
      | putBit j k off v =>
          show Written.Rel ⟨_, w.items ++ []⟩
          rw [List.append_nil]
          exact hw.modify_data (hdata j rfl) _
      | putPtr j k x t =>
          show Written.Rel ⟨_, w.items ++ []⟩
          rw [List.append_nil]
          exact hw.modify_data (hdata j rfl) _
      | putStr j k x str len =>
          obtain ⟨c, hc, hk, hx, n, hn, hstr, hlt⟩ := hvalid
          have hj := (List.getElem?_eq_some_iff.mp (hdata j rfl)).1
          show Written.Rel ⟨Call.apply w.heap (.putStr j k x str len), w.items ++
            [if (strLength str len).getD 0 + 1 < 2 ^ 32
              then RecItem.str (str.take ((strLength str len).getD 0)) else RecItem.data]⟩
          rw [Call.apply_putStr w.heap j k x hn, hn, Option.getD_some]
          rcases hlt with hlt | ⟨hzero, -⟩
          · rw [if_neg (by omega), if_pos hlt]
            have happend : Written.Rel ⟨w.heap ++ [strCell (str.take n)],
                w.items ++ [RecItem.str (str.take n)]⟩ :=
              hw.append ⟨rfl, by rw [List.length_take]; omega⟩
            refine happend.modify_data ?_ _
            rw [List.getElem?_append_left hj, hdata j rfl]
          · rw [if_pos hzero, if_neg (by omega)]
            exact hw.append (show RecItem.Rel .data _ from trivial)

end

/-- **A run** of the generated code is a run of the writer, and keeps every object what its item
says. -/
theorem Written.Rel.run {w : Written} (hw : w.Rel) {calls : List RecCall}
    (hok : AllSteps RecCall.step RecCall.Ok w calls) {w' : Written}
    (hrun : Run.run RecCall.step w calls = some w') : w'.Rel ∧
      AllSteps Call.step Call.Ok w.heap (calls.map RecCall.toCall) ∧
      Run.run Call.step w.heap (calls.map RecCall.toCall) = some w'.heap := by
  induction calls generalizing w with
  | nil =>
      obtain rfl := Option.some.inj hrun
      exact ⟨hw, trivial, rfl⟩
  | cons call calls ih =>
      obtain ⟨hcall, hrest⟩ := hok
      obtain ⟨hrel, hoks, hruns⟩ := ih (hw.step hcall) (hrest _ rfl) hrun
      refine ⟨hrel, ⟨hcall.toCall hw, fun h' hstep => ?_⟩, hruns⟩
      obtain rfl := Option.some.inj hstep
      exact hoks

/-! ## Two versions of a message -/

/-- One of the versions has more fields behind those of the other. -/
def MsgType.Versions (ms ms' : MsgType) : Prop := ms.Evolves ms' ∨ ms'.Evolves ms

/-- What the fields of the writer's message `ms` and of the reader's message `ms'` have to do with
each other: those with one number are at one place, and a field that only the reader has is on no
bit and in no slot of the writer's message. -/
structure MsgType.Corresponds (ms ms' : MsgType) : Prop where
  sound : ms'.SoundLayout
  common : ∀ (j : Nat) (g f : FieldDesc), ms.fields[j]? = some g → ms'.fields[j]? = some f →
    g.SamePlace f
  bits : ∀ (j : Nat) (f : FieldDesc), ms'.fields[j]? = some f → ms.fields[j]? = none →
    ∀ g ∈ ms.fields, BitsDisjoint g f
  slot : ∀ (j : Nat) (f : FieldDesc), ms'.fields[j]? = some f → ms.fields[j]? = none →
    f.inPointers = true → ms.psize ≤ f.tag0

theorem samePlace_getElem? {fields old : List FieldDesc}
    (hold : List.Forall₂ FieldDesc.SamePlace fields old) {j : Nat} {g f : FieldDesc}
    (hg : fields[j]? = some g) (hf : old[j]? = some f) : g.SamePlace f := by
  obtain ⟨hj, rfl⟩ := List.getElem?_eq_some_iff.mp hg
  obtain ⟨hj', rfl⟩ := List.getElem?_eq_some_iff.mp hf
  exact (List.forall₂_iff_get.mp hold).2 j hj hj'

theorem MsgType.Versions.corresponds {ms ms' : MsgType} (h : ms.Versions ms') :
    ms.Corresponds ms' := by
  rcases h with h | h
  · -- the reader's version is the later one
    obtain ⟨hsound, hsound'⟩ := h.soundLayout
    obtain ⟨old, new, hfields, hold⟩ := h.extends
    have hlen := hold.length_eq
    have hnew : ∀ (j : Nat) (f : FieldDesc), ms'.fields[j]? = some f → ms.fields[j]? = none →
        f ∈ new := by
      intro j f hf hnone
      rw [hfields, List.getElem?_append_right (by
        have := List.getElem?_eq_none_iff.mp hnone
        omega)] at hf
      exact List.mem_of_getElem? hf
    refine ⟨hsound', fun j g f hg hf => ?_, fun j f hf hnone g hg => ?_,
      fun j f hf hnone hin => ?_⟩
    · have hj := (List.getElem?_eq_some_iff.mp hg).1
      rw [hfields, List.getElem?_append_left (by omega)] at hf
      exact samePlace_getElem? hold hg hf
    · exact new_bits_disjoint hsound' hfields hold hg (hnew j f hf hnone)
    · exact new_slot_ge hsound hsound' hfields hold (hnew j f hf hnone) hin
  · -- the reader's version is the earlier one
    obtain ⟨hsound, -⟩ := h.soundLayout
    obtain ⟨old, new, hfields, hold⟩ := h.extends
    have hlen := hold.length_eq
    have hsome : ∀ (j : Nat) (f : FieldDesc), ms'.fields[j]? = some f → j < old.length ∧
        ms.fields[j]? = old[j]? := by
      intro j f hf
      have hj := (List.getElem?_eq_some_iff.mp hf).1
      exact ⟨by omega, by rw [hfields, List.getElem?_append_left (by omega)]⟩
    have hnever : ∀ (j : Nat) (f : FieldDesc), ms'.fields[j]? = some f → ms.fields[j]? ≠ none := by
      intro j f hf hnone
      obtain ⟨hj, heq⟩ := hsome j f hf
      rw [heq] at hnone
      have := List.getElem?_eq_none_iff.mp hnone
      omega
    refine ⟨hsound, fun j g f hg hf => ?_, fun j f hf hnone => absurd hnone (hnever j f hf),
      fun j f hf hnone => absurd hnone (hnever j f hf)⟩
    obtain ⟨-, heq⟩ := hsome j f hf
    obtain ⟨hkind, hlist, htag, hwidth⟩ := samePlace_getElem? hold hf (heq ▸ hg)
    have hin : g.inPointers = f.inPointers := by
      unfold FieldDesc.inPointers
      rw [hkind, hlist]
    exact ⟨hkind.symm, hlist.symm, htag.symm, fun h => (hwidth (hin ▸ h)).symm⟩

/-- The object that field `j` of element `k` leads to, as its writer knows. -/
def Records.refAt (m : Records) (k j : Nat) : Option Nat := (m.type.fields[j]?).bind (m.ref k)

/-- The getters of the message `rt` find in the vector `r` what was written into `m`: in a field
that the writer has the value, object or string that it put there last, in any other `0` and
nothing. -/
structure Records.ReadAs (m : Records) (b : Buffer) (objs : List Obj) (items : List RecItem)
    (r : Obj) (rt : MsgType) : Prop where
  scalar : ∀ k < m.nelem, ∀ (j : Nat) (f : FieldDesc), rt.fields[j]? = some f →
    f.inPointers = false → getField b r k f = some (match m.type.fields[j]? with
      | some g => f.held (m.val k g)
      | none => 0)
  ptr : ∀ k < m.nelem, ∀ (j : Nat) (f : FieldDesc), rt.fields[j]? = some f →
    f.inPointers = true → getPtr b (getElem r k) f.tag0 = some (match m.refAt k j with
      | some t => (objs[t]?).getD Obj.null
      | none => Obj.null)
  str : ∀ k < m.nelem, ∀ (j : Nat) (f : FieldDesc), rt.fields[j]? = some f →
    f.inPointers = true → ∀ s, (match m.refAt k j with
      | some t => items[t]? = some (.str s)
      | none => s = []) → ReadsStr b (getElem r k) f.tag0 s

section

variable {h : Heap} {b : Buffer} {i : Nat} {c : Cell} {m : Records} {ms' : MsgType}

/-- The slot of a field holds the reference, and a field that is not the writer's has no slot. -/
theorem Records.Rel.slot_cases (hm : m.Rel c) (hrt : m.type.Corresponds ms') {k j : Nat}
    (hk : k < m.nelem) {f : FieldDesc} (hf : ms'.fields[j]? = some f) (hin : f.inPointers = true) :
    (f.tag0 < c.psize ∧ c.ptr (c.row k) f.tag0 = m.refAt k j) ∨
      (c.psize ≤ f.tag0 ∧ m.refAt k j = none) := by
  unfold Records.refAt
  cases hg : m.type.fields[j]? with
  | none => exact Or.inr ⟨by rw [hm.psize]; exact hrt.slot j f hf hg hin, rfl⟩
  | some g =>
      have hplace := hrt.common j g f hg hf
      have hgmem := List.mem_of_getElem? hg
      have hgin : g.inPointers = true := hplace.inPointers_eq.trans hin
      refine Or.inl ⟨?_, ?_⟩
      · rw [hm.psize, ← hplace.tag0_eq]
        exact slot_lt hm.sound hgmem hgin
      · rw [← hplace.tag0_eq]
        exact hm.refs k hk g hgmem hgin

/-- A scalar field, read by a version of the message. -/
theorem Records.Rel.getField_version (hm : m.Rel c) (hb : h.Holds b) (hc : h[i]? = some c)
    (hrt : m.type.Corresponds ms') {k j : Nat} (hk : k < m.nelem) {f : FieldDesc}
    (hf : ms'.fields[j]? = some f) (hin : f.inPointers = false) :
    Nbuf.getField b (h.handle i c) k f = some (match m.type.fields[j]? with
      | some g => f.held (m.val k g)
      | none => 0) := by
  cases hg : m.type.fields[j]? with
  | none =>
      exact hm.getField_default hb hc hk hrt.sound ⟨List.mem_of_getElem? hf, hin⟩
        fun g hg' => hrt.bits j f hf hg g hg'.1
  | some g =>
      have hplace := hrt.common j g f hg hf
      have hgin : g.inPointers = false := hplace.inPointers_eq.trans hin
      rw [hplace.getField_eq hin, hm.getField hb hc hk ⟨List.mem_of_getElem? hg, hgin⟩]
      simp only [hplace.held_eq hin]

/-- A slot that the writer's message does not have is read as null. -/
theorem getPtr_beyond {r : Obj} {k x : Nat} (hk : k < r.nelem) (hx : r.psize ≤ x) :
    Nbuf.getPtr b (getElem r k) x = some Obj.null :=
  getPtr_of_ge (by rw [getElem_psize hk]; exact hx)

theorem readsStr_null {r : Obj} {x : Nat} (hget : Nbuf.getPtr b r x = some Obj.null) :
    ReadsStr b r x [] := by
  refine ⟨⟨none, 0⟩, ?_, rfl, rfl⟩
  unfold Nbuf.getStr
  rw [hget]
  rfl

end

/-- **Two versions of a schema.** However a client of the generated code writes messages, the bytes
are read by the code of an earlier or a later version of their schema: every field that both
versions have gives what was put into it last, and a field that only the reader has gives its
default, also where it lies in the padding of the earlier version. -/
theorem records_across_versions {alloc : Nat → Realloc} (ha : ∀ n, (alloc n).Total) {b : Buffer}
    (h0 : b.len = 0) (hcap : b.cap < 2 ^ 64) {calls : List RecCall}
    (hok : AllSteps RecCall.step RecCall.Ok ⟨[], []⟩ calls) {w : Written}
    (hrun : run RecCall.step ⟨[], []⟩ calls = some w) (htot : w.heap.total ≤ 2 ^ 33) :
    ∃ s, run (Plain.step alloc) ⟨b, []⟩ (calls.map RecCall.toCall) = some s ∧
      ∀ block : ByteBlock, block.data = s.buf.bytes →
        (∀ r, s.objs[0]? = some r → objInit (initRead block) Obj.null 0 = some r) ∧
        ∀ (i : Nat) (m : Records), w.items[i]? = some (.msgs m) → ∃ r, s.objs[i]? = some r ∧
          ∀ rt, m.type.Versions rt → m.ReadAs (initRead block) s.objs w.items r rt := by
  have hempty : Written.Rel ⟨[], []⟩ := ⟨rfl, fun i it c hit _ => by simp at hit⟩
  obtain ⟨hw, hoks, hruns⟩ := hempty.run hok hrun
  have hbuild : build (calls.map RecCall.toCall) = w.heap := by
    rw [run_step_eq, Option.some.injEq] at hruns
    exact hruns
  obtain ⟨s, hs, hrel⟩ := plain_run ha h0 hcap hoks (by rw [hbuild]; omega)
  rw [hbuild] at hrel
  refine ⟨s, hs, fun block hblock => ?_⟩
  have hb := (hrel.holds (by omega)).initRead hblock
  have htarget : ∀ t, w.heap.target t = match t with
      | some t => (s.objs[t]?).getD Obj.null
      | none => Obj.null := by
    intro t
    cases t with
    | none => rfl
    | some t =>
        show (w.heap[t]?.map (w.heap.handle t)).getD Obj.null = (s.objs[t]?).getD Obj.null
        rw [hrel.objs_eq]
        rfl
  refine ⟨fun r hr => ?_, fun i m hm => ?_⟩
  · rw [hrel.objs_eq, Option.map_eq_some_iff] at hr
    obtain ⟨c, hc, rfl⟩ := hr
    exact hb.objInit hc Obj.null
  · obtain ⟨c, hc, hmc⟩ := hw.cell hm
    refine ⟨w.heap.handle i c, hrel.obj hc, fun rt hrt => ?_⟩
    have hcor := hrt.corresponds
    have hk' : ∀ {k}, k < m.nelem → k < c.nelem := fun hk => by rw [hmc.nelem]; exact hk
    have hptr : ∀ k < m.nelem, ∀ (j : Nat) (f : FieldDesc), rt.fields[j]? = some f →
        f.inPointers = true → getPtr (initRead block) (getElem (w.heap.handle i c) k) f.tag0
          = some (w.heap.target (m.refAt k j)) := by
      intro k hk j f hf hin
      rcases hmc.slot_cases hcor hk hf hin with ⟨hx, href⟩ | ⟨hx, hnone⟩
      · rw [← href]
        exact hb.getPtr hc (hk' hk) hx fun t ht =>
          hb.near htot hc (Shape.row_lt_rows (hk' hk)) hx ht
      · rw [hnone]
        exact getPtr_beyond (r := w.heap.handle i c) (hk' hk) hx
    refine ⟨fun k hk j f hf hin => hmc.getField_version hb hc hcor hk hf hin,
      fun k hk j f hf hin => ?_, fun k hk j f hf hin str hstr => ?_⟩
    · rw [hptr k hk j f hf hin, htarget]
    · cases href : m.refAt k j with
      | none =>
          rw [href] at hstr
          subst hstr
          refine readsStr_null ?_
          rw [hptr k hk j f hf hin, href]
          rfl
      | some t =>
          rw [href] at hstr
          rcases hmc.slot_cases hcor hk hf hin with ⟨hx, hslot⟩ | ⟨-, hnone⟩
          · have ht : c.ptr (c.row k) f.tag0 = some t := hslot.trans href
            have hlt := (List.getElem?_eq_some_iff.mp hstr).1
            rw [hw.length_eq] at hlt
            have hct := List.getElem?_eq_getElem hlt
            obtain ⟨hcell, hlen⟩ := hw.rel t _ _ hstr hct
            rw [hcell] at hct
            exact hb.getStr hc (hk' hk) hx ht hct
              (hb.near htot hc (Shape.row_lt_rows (hk' hk)) hx ht) (strCell_isStr hlen)
          · rw [hnone] at href
            cases href

/-- The message of `packedSchema` before its last two fields were added. -/
def unpackedMsg : T2b.MsgType :=
  ⟨asc "M", [⟨asc "a", asc "bool", false⟩, ⟨asc "b", asc "int64", false⟩]⟩

def unpackedType : MsgType :=
  ⟨asc "M", [⟨asc "a", .bool, false, 0, 0⟩, ⟨asc "b", .int, false, 8, 8⟩], 16, 0⟩

def unpackedSchema : T2b.SchemaDesc := ⟨none, [], [unpackedMsg]⟩

theorem unpackedType_evolves : unpackedType.Evolves T2b.packedType :=
  ⟨(T2b.allTypes unpackedSchema).insertionSort T2b.lookupLe,
    (T2b.allTypes T2b.packedSchema).insertionSort T2b.lookupLe, unpackedMsg, T2b.packedMsg,
    T2b.packedMsg.flds.drop 2,
    ⟨unpackedSchema, [unpackedType], [], [], by decide, by decide, rfl, by decide, rfl⟩,
    ⟨T2b.packedSchema, [T2b.packedType], [], [], by decide, by decide, rfl, by decide, rfl⟩,
    rfl, by unfold T2b.SameTypes; decide⟩

/-- Two messages, of which the second gets a number. -/
def unpackedCalls : List RecCall :=
  [.newMsgs unpackedType (.ofCounts 2 16 0 (Eq.refl true)),
    .set 0 1 ⟨asc "b", .int, false, 8, 8⟩ 7]

theorem unpackedCalls_ok : AllSteps RecCall.step RecCall.Ok ⟨[], []⟩ unpackedCalls := by
  have hlaid : LaidOut unpackedType :=
    ⟨unpackedSchema, (T2b.allTypes unpackedSchema).insertionSort T2b.lookupLe, [unpackedType], [],
      [], unpackedMsg, by decide, by decide, rfl, by decide, rfl⟩
  refine ⟨⟨hlaid, rfl, rfl⟩, fun w hw => ⟨?_, fun _ _ => trivial⟩⟩
  obtain rfl := Option.some.inj hw
  exact ⟨_, rfl, by decide, by decide, rfl⟩

/-- The later version reads the number in the second message, and `0` in the field that lies in
the padding of the first version. -/
theorem unpacked_read_packed : ∃ s, run (Plain.step granting) ⟨initWrite (fun _ => 170) 0, []⟩
      (unpackedCalls.map RecCall.toCall) = some s ∧
    ∀ block : ByteBlock, block.data = s.buf.bytes → ∃ r, s.objs[0]? = some r ∧
      getField (initRead block) r 1 ⟨asc "b", .int, false, 8, 8⟩ = some 7 ∧
      getField (initRead block) r 1 ⟨asc "d", .uint, false, 2, 2⟩ = some 0 := by
  have hgrant : ∀ n, Realloc.Total (granting n) := fun _ _ => rfl
  obtain ⟨s, hs, hall⟩ := records_across_versions hgrant
    (show (initWrite (fun _ => 170) 0).len = 0 from rfl) (by decide) unpackedCalls_ok rfl
    (by decide)
  refine ⟨s, hs, fun block hblock => ?_⟩
  obtain ⟨r, hr, hread⟩ := (hall block hblock).2 0 _ rfl
  have hread := hread _ (Or.inl unpackedType_evolves)
  have hold := hread.scalar 1 (by decide) 1 _ rfl rfl
  have hnew := hread.scalar 1 (by decide) 3 _ rfl rfl
  exact ⟨r, hr, hold.trans (by decide +kernel), hnew.trans (by decide +kernel)⟩

end Nbuf
