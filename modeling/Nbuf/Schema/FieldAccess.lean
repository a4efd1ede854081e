import Nbuf.Lib.Run
import Nbuf.Schema.LayoutSound
import Nbuf.Wire.Writer

set_option autoImplicit false

/-! # Fields of messages in a buffer

The accessors of a field use the offset its layout assigned. Lifted from one message to the
elements of a vector in a buffer, the layout gives every scalar and bool field of every element
bits of its own. A write changes exactly these, so writes to different fields do not interfere.
-/

namespace Nbuf

open Run Cover ByteMem

/-! ## Accessors -/

/-- The setter of a field in the scalar part, on element `k` of a vector. -/
def putField (b : Buffer) (r : Obj) (k : Nat) (f : FieldDesc) (v : Nat) : Option Buffer :=
  if f.kind = .bool then putBit b (getElem r k) f.tag0 (decide (v ≠ 0))
  else putInt b (getElem r k) f.tag0 f.width v

/-- The getter of a field in the scalar part. -/
def getField (b : Buffer) (r : Obj) (k : Nat) (f : FieldDesc) : Option Int :=
  if f.kind = .bool then (getBit b (getElem r k) f.tag0).map fun v => if v then 1 else 0
  else getInt b (getElem r k) f.tag0 f.width

/-- A value as a field holds it: a bool is `0` or `1`, a number is cut to its width and
sign-extended. -/
def FieldDesc.held (f : FieldDesc) (v : Nat) : Int :=
  if f.kind = .bool then if v ≠ 0 then 1 else 0 else (v : Int).bmod (256 ^ f.width)

/-- A layout that `outmsgs` gives to a message of an accepted schema whose sizes fit 16 bits. -/
def LaidOut (ms : MsgType) : Prop :=
  ∃ schema types out pre post m, T2b.makelookup schema = some types ∧
    T2b.outmsgs types schema.msgs = some out ∧ schema.msgs = pre ++ m :: post ∧
    T2b.FitsAfter types pre m ∧ out[pre.length]? = some ms

theorem LaidOut.soundLayout {ms : MsgType} (h : LaidOut ms) : ms.SoundLayout := by
  obtain ⟨schema, types, out, pre, post, m, hlook, hout, hm, hfits, hms⟩ := h
  obtain ⟨ms', hms', -, -, hsound, -⟩ :=
    T2b.outmsgs_soundLayout hlook hout pre post m hm hfits
  rw [hms, Option.some.injEq] at hms'
  exact hms' ▸ hsound

/-! ## Bits of one field -/

/-- A field that lies in the scalar part of a message. -/
def MsgType.ScalarField (ms : MsgType) (f : FieldDesc) : Prop :=
  f ∈ ms.fields ∧ f.inPointers = false

theorem FieldDesc.bits_bool {f : FieldDesc} (hin : f.inPointers = false) (hb : f.kind = .bool) :
    f.bits = some ⟨f.tag0, 1⟩ := by
  rw [FieldDesc.bits, if_neg (by simp [hin]), if_pos hb]

theorem FieldDesc.bits_scalar {f : FieldDesc} (hin : f.inPointers = false) (hb : f.kind ≠ .bool) :
    f.bits = some ⟨8 * f.tag0, 8 * f.width⟩ := by
  rw [FieldDesc.bits, if_neg (by simp [hin]), if_neg hb]

/-- The bits of the buffer that hold a field of element `k`. -/
def fieldRange (r : Obj) (k : Nat) (f : FieldDesc) : Range :=
  if f.kind = .bool then ⟨8 * r.rowPos k + f.tag0, 1⟩
  else ⟨8 * (r.rowPos k + f.tag0), 8 * f.width⟩

/-- What a write leaves in its own bits. -/
def writtenBit (r : Obj) (k : Nat) (f : FieldDesc) (v p j : Nat) : Bool :=
  if f.kind = .bool then decide (v ≠ 0) else v.testBit (8 * (p - (r.rowPos k + f.tag0)) + j)

/-- The field lies inside a scalar part of `n` bytes. -/
structure FieldDesc.FitsIn (f : FieldDesc) (n : Nat) : Prop where
  number : f.kind ≠ .bool → scalarSize f.width = true ∧ f.width ∣ f.tag0 ∧ f.tag0 + f.width ≤ n
  bit : f.kind = .bool → f.tag0 / 8 < n

theorem MsgType.SoundLayout.fitsIn {ms : MsgType} (hms : ms.SoundLayout) {f : FieldDesc}
    (hf : ms.ScalarField f) : f.FitsIn ms.ssize where
  number := fun hb =>
    ⟨hms.width f hf.1 ⟨hf.2, hb⟩, hms.aligned f hf.1 ⟨hf.2, hb⟩, hms.inside f hf.1 ⟨hf.2, hb⟩⟩
  bit := fun hb => by
    have := hms.bit_inside f hf.1 ⟨hf.2, hb⟩
    omega

/-- **Reading a field** whose bits are those that a write of `v` leaves. -/
theorem getField_of_bits {b : Buffer} {r : Obj} (hrows : r.base + r.rows * r.stride ≤ b.len)
    (hlen : b.len < 2 ^ 63) {k v : Nat} (hk : k < r.nelem) {f : FieldDesc} (hf : f.FitsIn r.width)
    (hbits : ∀ p j, j < 8 → (fieldRange r (r.row k) f).Has (8 * p + j) →
      bit b.mem p j = writtenBit r (r.row k) f v p j) :
    getField b r k f = some (f.held v) := by
  unfold fieldRange writtenBit at hbits
  unfold getField FieldDesc.held
  by_cases hb : f.kind = .bool
  · simp only [if_pos hb] at hbits ⊢
    rw [getBit_elem hrows hlen hk (hf.bit hb),
      hbits _ _ (Nat.mod_lt _ (by decide)) (by simp only [Range.Has]; omega)]
    simp only [Option.map_some, decide_eq_true_eq]
  · obtain ⟨hsz, hdvd, hin⟩ := hf.number hb
    simp only [if_neg hb] at hbits ⊢
    -- the bytes are those that a store of `v` would leave
    have hload : load b.mem (r.rowPos (r.row k) + f.tag0) f.width = v % 256 ^ f.width := by
      rw [← load_store b.mem (r.rowPos (r.row k) + f.tag0) f.width v]
      refine load_congr fun p h1 h2 => eq_of_bit fun j hj => ?_
      rw [bit_store _ _ _ _ _ hj, if_pos ⟨h1, h2⟩]
      exact hbits p j hj (by simp only [Range.Has]; omega)
    rw [getInt_elem hrows hlen hk hsz hdvd hin, hload, Int.natCast_emod, Int.emod_bmod]

/-- A vector of messages of a type, in a buffer that can be written. -/
structure VectorOf (ms : MsgType) (b : Buffer) (r : Obj) : Prop where
  ssize_eq : r.ssize = ms.ssize
  psize_eq : r.psize = ms.psize
  writable : r.Writable b

section

variable {ms : MsgType} {b : Buffer} {r : Obj} {f : FieldDesc} {k : Nat}

theorem ScalarField.range_inside (hms : ms.SoundLayout) (hf : ms.ScalarField f) {i : Nat}
    (hi : (fieldRange r k f).Has i) :
    8 * r.rowPos k ≤ i ∧ i < 8 * r.rowPos k + 8 * ms.ssize := by
  unfold fieldRange at hi
  by_cases hb : f.kind = .bool
  · have := hms.bit_inside f hf.1 ⟨hf.2, hb⟩
    simp only [if_pos hb, Range.Has] at hi
    omega
  · have := hms.inside f hf.1 ⟨hf.2, hb⟩
    simp only [if_neg hb, Range.Has] at hi
    omega

/-- A message with a field in the scalar part has a scalar part. -/
theorem VectorOf.elemsz_pos (h : VectorOf ms b r) (hms : ms.SoundLayout) (hf : ms.ScalarField f) :
    r.elemsz ≠ 0 ∧ 0 < ms.ssize := by
  have hpos : 0 < ms.ssize := by
    by_cases hb : f.kind = .bool
    · have := hms.bit_inside f hf.1 ⟨hf.2, hb⟩
      omega
    · have hin := hms.inside f hf.1 ⟨hf.2, hb⟩
      have hw := hms.width f hf.1 ⟨hf.2, hb⟩
      rcases Nat.eq_zero_or_pos f.width with h0 | hpos
      · rw [h0] at hw
        exact absurd hw (by decide)
      · omega
  refine ⟨?_, hpos⟩
  rw [r.elemsz_eq, h.ssize_eq]
  omega

theorem VectorOf.width_eq (h : VectorOf ms b r) (hms : ms.SoundLayout) (hf : ms.ScalarField f) :
    r.width = ms.ssize ∧ r.row k = k := by
  have hne := (h.elemsz_pos hms hf).1
  exact ⟨by rw [Obj.width, if_neg hne, h.ssize_eq], by rw [Obj.row, if_neg hne]⟩

/-- **A write sets exactly the bits of its field.** -/
theorem VectorOf.putField_bits (h : VectorOf ms b r) (hms : ms.SoundLayout)
    (hf : ms.ScalarField f) (hk : k < r.nelem) (v : Nat) :
    ∃ m, putField b r k f v = some { b with mem := m } ∧ ∀ p j, j < 8 →
      bit m p j = if (fieldRange r k f).Has (8 * p + j) then writtenBit r k f v p j
        else bit b.mem p j := by
  obtain ⟨hwidth, hrow⟩ := h.width_eq (k := k) hms hf
  unfold putField fieldRange writtenBit
  by_cases hb : f.kind = .bool
  · have hin := hms.bit_inside f hf.1 ⟨hf.2, hb⟩
    simp only [if_pos hb]
    refine ⟨_, h.writable.putBit _ hk (by omega), fun p j hj => ?_⟩
    rw [hrow, bit_putBit _ _ (Nat.mod_lt _ (by decide))]
    have hiff : (p = r.rowPos k + f.tag0 / 8 ∧ j = f.tag0 % 8)
        ↔ (⟨8 * r.rowPos k + f.tag0, 1⟩ : Range).Has (8 * p + j) := by
      simp only [Range.Has]
      omega
    simp only [hiff]
  · have hs : f.IsScalar := ⟨hf.2, hb⟩
    simp only [if_neg hb]
    have hfit := hms.inside f hf.1 hs
    refine ⟨_, h.writable.putInt v hk (hms.width f hf.1 hs) (hms.aligned f hf.1 hs) (by omega),
      fun p j hj => ?_⟩
    rw [hrow, bit_store _ _ _ _ _ hj]
    have hiff : (r.rowPos k + f.tag0 ≤ p ∧ p < r.rowPos k + f.tag0 + f.width)
        ↔ (⟨8 * (r.rowPos k + f.tag0), 8 * f.width⟩ : Range).Has (8 * p + j) := by
      simp only [Range.Has]
      omega
    simp only [hiff]

/-- What a getter computes. -/
theorem VectorOf.getField_eq (h : VectorOf ms b r) (hms : ms.SoundLayout) (hf : ms.ScalarField f)
    (hk : k < r.nelem) : getField b r k f
      = some (if f.kind = .bool then
          if bit b.mem (r.rowPos k + f.tag0 / 8) (f.tag0 % 8) then 1 else 0
        else ((load b.mem (r.rowPos k + f.tag0) f.width : Nat) : Int).bmod (256 ^ f.width)) := by
  obtain ⟨hwidth, hrow⟩ := h.width_eq (k := k) hms hf
  unfold getField
  by_cases hb : f.kind = .bool
  · have hin := hms.bit_inside f hf.1 ⟨hf.2, hb⟩
    rw [if_pos hb, if_pos hb, getBit_elem h.writable.rows_fit h.writable.len_lt hk (by omega), hrow]
    rfl
  · have hs : f.IsScalar := ⟨hf.2, hb⟩
    have hfit := hms.inside f hf.1 hs
    rw [if_neg hb, if_neg hb, getInt_elem h.writable.rows_fit h.writable.len_lt hk
      (hms.width f hf.1 hs) (hms.aligned f hf.1 hs) (by omega), hrow]

/-- A getter looks at the bits of its field only. -/
theorem VectorOf.getField_congr {m : ByteMem} (h : VectorOf ms b r)
    (h' : VectorOf ms { b with mem := m } r) (hms : ms.SoundLayout) (hf : ms.ScalarField f)
    (hk : k < r.nelem)
    (hbits : ∀ p j, j < 8 → (fieldRange r k f).Has (8 * p + j) → bit m p j = bit b.mem p j) :
    getField { b with mem := m } r k f = getField b r k f := by
  rw [h.getField_eq hms hf hk, h'.getField_eq hms hf hk]
  unfold fieldRange at hbits
  by_cases hb : f.kind = .bool
  · simp only [if_pos hb] at hbits ⊢
    rw [hbits _ _ (Nat.mod_lt _ (by decide)) (by simp only [Range.Has]; omega)]
  · simp only [if_neg hb] at hbits ⊢
    rw [load_congr fun p h1 h2 => eq_of_bit fun j hj =>
      hbits p j hj (by simp only [Range.Has]; omega)]

end

/-! ## Different fields -/

/-- The bits of two fields, where they have any, are disjoint. -/
def BitsDisjoint (f f' : FieldDesc) : Prop :=
  ∀ s, f.bits = some s → ∀ s', f'.bits = some s' → s.Disjoint s'

instance : Std.Symm BitsDisjoint := ⟨fun _ _ h s hs s' hs' => (h s' hs' s hs).symm⟩

/-- Two different fields of a message share no bit. -/
theorem MsgType.SoundLayout.bits_disjoint {ms : MsgType} (hms : ms.SoundLayout)
    {f f' : FieldDesc} (hf : ms.ScalarField f) (hf' : ms.ScalarField f') (hne : f ≠ f') :
    BitsDisjoint f f' := by
  have hpair : ms.fields.Pairwise BitsDisjoint := List.pairwise_filterMap.mp hms.disjoint
  exact hpair.forall hf.1 hf'.1 hne

/-- **Different fields, or fields of different elements, share no bit of the buffer.** -/
theorem fieldRange_disjoint {ms : MsgType} (hms : ms.SoundLayout) {r : Obj}
    (hssize : r.ssize = ms.ssize) {k k' : Nat} {f f' : FieldDesc} (hf : ms.ScalarField f)
    (hf' : ms.ScalarField f') (hne : (k, f) ≠ (k', f')) :
    (fieldRange r k f).Disjoint (fieldRange r k' f') := by
  intro i hi hi'
  have hin := ScalarField.range_inside hms hf hi
  have hin' := ScalarField.range_inside hms hf' hi'
  have hst : ms.ssize ≤ r.stride := by
    have h1 : r.ssize ≤ r.width := by
      unfold Obj.width
      have := r.elemsz_eq
      split_ifs <;> omega
    have h2 := width_le_stride r
    omega
  have hkk : k = k' := by
    by_contra hkne
    have hapart := r.rowPos_apart hkne
    omega
  subst hkk
  have hff : f ≠ f' := fun h => hne (by rw [h])
  have hrel : ∀ g : FieldDesc, ms.ScalarField g → (fieldRange r k g).Has i →
      ∃ s, g.bits = some s ∧ s.Has (i - 8 * r.rowPos k) := by
    intro g hg hgi
    unfold fieldRange at hgi
    by_cases hb : g.kind = .bool
    · refine ⟨_, FieldDesc.bits_bool hg.2 hb, ?_⟩
      simp only [if_pos hb, Range.Has] at hgi ⊢
      omega
    · refine ⟨_, FieldDesc.bits_scalar hg.2 hb, ?_⟩
      simp only [if_neg hb, Range.Has] at hgi ⊢
      omega
  obtain ⟨s, hs, hsi⟩ := hrel f hf hi
  obtain ⟨s', hs', hsi'⟩ := hrel f' hf' hi'
  exact hms.bits_disjoint hf hf' hff s hs s' hs' _ hsi hsi'

/-! ## Independence -/

/-- The value `v` for a field of element `elem`. -/
structure FieldWrite where
  elem : Nat
  field : FieldDesc
  value : Nat

/-- One write to a field of a vector. -/
def applyWrite (r : Obj) (b : Buffer) (w : FieldWrite) : Option Buffer :=
  putField b r w.elem w.field w.value

/-- The write goes to a field that the elements of the vector have. -/
def FieldWrite.Targets (ms : MsgType) (r : Obj) (w : FieldWrite) : Prop :=
  w.elem < r.nelem ∧ ms.ScalarField w.field

/-- The writes go to different fields, or to different elements. -/
def FieldWrite.Apart (w w' : FieldWrite) : Prop := (w.elem, w.field) ≠ (w'.elem, w'.field)

section

variable {ms : MsgType} {b : Buffer} {r : Obj}

theorem VectorOf.with_mem (h : VectorOf ms b r) (m : ByteMem) :
    VectorOf ms { b with mem := m } r :=
  ⟨h.ssize_eq, h.psize_eq, h.writable.rows_fit, h.writable.len_le_cap, h.writable.len_lt⟩

/-- A write is read back. -/
theorem VectorOf.getField_self {m : ByteMem} (h : VectorOf ms b r) (hms : ms.SoundLayout)
    {f : FieldDesc} (hf : ms.ScalarField f) {k : Nat} (hk : k < r.nelem) {v : Nat}
    (hm : ∀ p j, j < 8 → (fieldRange r k f).Has (8 * p + j) →
      bit m p j = writtenBit r k f v p j) :
    getField { b with mem := m } r k f = some (f.held v) := by
  obtain ⟨hwidth, hrow⟩ := h.width_eq (k := k) hms hf
  have hfits : f.FitsIn r.width := by
    rw [hwidth]
    exact hms.fitsIn hf
  have hw := (h.with_mem m).writable
  refine getField_of_bits hw.rows_fit hw.len_lt hk hfits ?_
  rw [hrow]
  exact hm

/-- A write leaves the pointer slots alone. -/
theorem VectorOf.getRelPtr_congr {m : ByteMem} (h : VectorOf ms b r) (hms : ms.SoundLayout)
    {f : FieldDesc} (hf : ms.ScalarField f) {k : Nat}
    (hm : ∀ p, (∀ j, j < 8 → ¬ (fieldRange r k f).Has (8 * p + j)) → m p = b.mem p)
    (k' i : Nat) :
    getRelPtr { b with mem := m } (getElem r k') i = getRelPtr b (getElem r k') i := by
  by_cases hk' : k' < r.nelem
  · by_cases hi : i < r.psize
    · have hrow := Obj.rowPos_inside (Obj.row_lt_rows hk')
      have hinside := r.slotPos_inside k' hi
      obtain ⟨hwidth, hrk⟩ := h.width_eq (k := k') hms hf
      have hfit := h.writable.rows_fit
      have hlen := h.writable.len_lt
      have hslot := Obj.slot_elem (show r.base + r.rows * r.stride < 2 ^ 64 by omega) hk' hi
      rw [hrk] at hrow hinside
      have hread : ∀ b1 : Buffer, b1.len = b.len →
          readIntSafe b1 ((getElem r k').slot i) 4
            = some ((b1.mem.load ((getElem r k').slot i) 4 : Int).bmod (256 ^ 4)) :=
        fun b1 hb1 => readIntSafe_of_le rfl (by omega) (by omega)
      have hsame : load m ((getElem r k').slot i) 4 = load b.mem ((getElem r k').slot i) 4 := by
        refine load_congr fun p h1 h2 => hm p fun j _ hhas => ?_
        have hin := ScalarField.range_inside hms hf hhas
        have hst := width_le_stride r
        by_cases hkk : k = k'
        · subst hkk
          omega
        · have hapart := r.rowPos_apart hkk
          omega
      have hread1 := hread { b with mem := m } rfl
      dsimp only at hread1
      unfold getRelPtr
      rw [getElem_psize hk', if_neg (by omega), if_neg (by omega), hread1, hread b rfl, hsame]
    · have hge : (getElem r k').psize ≤ i := by
        rw [getElem_psize hk']
        omega
      rw [getRelPtr_of_ge hge, getRelPtr_of_ge hge]
  · rw [getElem_of_ge (by omega), getRelPtr_of_ge (Nat.zero_le i), getRelPtr_of_ge (Nat.zero_le i)]

theorem VectorOf.applyWrite (h : VectorOf ms b r) {b' : Buffer} {w : FieldWrite}
    (hw : Nbuf.applyWrite r b w = some b') : VectorOf ms b' r := by
  have hmem : ∃ m, b' = { b with mem := m } := by
    unfold Nbuf.applyWrite putField at hw
    split_ifs at hw
    · exact putBit_mem hw
    · exact putInt_mem hw
  obtain ⟨m, rfl⟩ := hmem
  exact h.with_mem m

theorem VectorOf.applyWrite_comm (h : VectorOf ms b r) (hms : ms.SoundLayout) {w w' : FieldWrite}
    (hw : w.Targets ms r) (hw' : w'.Targets ms r) (hne : w.Apart w') :
    ((Nbuf.applyWrite r b w).bind fun b' => Nbuf.applyWrite r b' w')
      = (Nbuf.applyWrite r b w').bind fun b' => Nbuf.applyWrite r b' w := by
  unfold Nbuf.applyWrite
  obtain ⟨m1, h1, hm1⟩ := h.putField_bits hms hw.2 hw.1 w.value
  obtain ⟨m2, h2, hm2⟩ := h.putField_bits hms hw'.2 hw'.1 w'.value
  obtain ⟨m12, h12, hm12⟩ := (h.with_mem m1).putField_bits hms hw'.2 hw'.1 w'.value
  obtain ⟨m21, h21, hm21⟩ := (h.with_mem m2).putField_bits hms hw.2 hw.1 w.value
  rw [h1, h2, Option.bind_some, Option.bind_some, h12, h21]
  have hmem : m12 = m21 := by
    refine ext_bit fun p j hj => ?_
    have hdisj := fieldRange_disjoint hms h.ssize_eq hw.2 hw'.2 hne (8 * p + j)
    rw [hm12 p j hj, hm21 p j hj, hm1 p j hj, hm2 p j hj]
    by_cases hp : (fieldRange r w.elem w.field).Has (8 * p + j)
    · rw [if_neg (hdisj hp), if_pos hp, if_pos hp]
    · rw [if_neg hp, if_neg hp]
  rw [hmem]

end

/-- **Field independence.** In a vector of messages with a layout that `outmsgs` made, a write to a
field of an element is read back and changes no bit of the buffer but those of the field: no
other field, no pointer slot, nothing outside. Hence writes to different fields can be made in
any order. -/
theorem field_writes_independent {ms : MsgType} (hlaid : LaidOut ms) {b : Buffer} {r : Obj}
    (h : VectorOf ms b r) :
    (∀ k f v, k < r.nelem → ms.ScalarField f → ∃ b', putField b r k f v = some b' ∧
      VectorOf ms b' r ∧ b'.len = b.len ∧ b'.cap = b.cap ∧
      getField b' r k f = some (f.held v) ∧
      (∀ k' f', k' < r.nelem → ms.ScalarField f' → (k, f) ≠ (k', f') →
        getField b' r k' f' = getField b r k' f') ∧
      (∀ k' i, getRelPtr b' (getElem r k') i = getRelPtr b (getElem r k') i) ∧
      (∀ p, (p < r.base ∨ r.base + r.rows * r.stride ≤ p) → b'.mem p = b.mem p) ∧
      ∀ p j, j < 8 → ¬ (fieldRange r k f).Has (8 * p + j) → b'.mem.bit p j = b.mem.bit p j) ∧
    ∀ ws ws' : List FieldWrite, ws.Perm ws' → (∀ w ∈ ws, w.Targets ms r) →
      ws.Pairwise FieldWrite.Apart →
      ∃ b', run (applyWrite r) b ws = some b' ∧ run (applyWrite r) b ws' = some b' := by
  have hms := hlaid.soundLayout
  constructor
  · intro k f v hk hf
    obtain ⟨m, hput, hm⟩ := h.putField_bits hms hf hk v
    have hbyte : ∀ p, (∀ j, j < 8 → ¬ (fieldRange r k f).Has (8 * p + j)) → m p = b.mem p :=
      fun p hp => eq_of_bit fun j hj => by rw [hm p j hj, if_neg (hp j hj)]
    refine ⟨{ b with mem := m }, hput, h.with_mem m, rfl, rfl, ?_, ?_, ?_, ?_, ?_⟩
    · exact h.getField_self hms hf hk fun p j hj hhas => by rw [hm p j hj, if_pos hhas]
    · intro k' f' hk' hf' hne
      refine h.getField_congr (h.with_mem m) hms hf' hk' fun p j hj hhas => ?_
      have hdisj := fieldRange_disjoint hms h.ssize_eq hf hf' hne
      rw [hm p j hj, if_neg fun hhas' => hdisj _ hhas' hhas]
    · exact fun k' i => h.getRelPtr_congr hms hf hbyte k' i
    · intro p hp
      refine hbyte p fun j _ hhas => ?_
      have hin := ScalarField.range_inside hms hf hhas
      have hrow := Obj.rowPos_inside (Obj.row_lt_rows hk)
      obtain ⟨hwidth, hrk⟩ := h.width_eq (k := k) hms hf
      have hst := width_le_stride r
      rw [hrk] at hrow
      omega
    · exact fun p j hj hno => by rw [hm p j hj, if_neg hno]
  · intro ws ws' hperm htarget hapart
    let Ok (w w' : FieldWrite) : Prop := w.Targets ms r ∧ w'.Targets ms r ∧ w.Apart w'
    have hok : ws.Pairwise Ok := by
      rw [List.pairwise_iff_forall_sublist]
      intro w w' hsub
      have hmem := hsub.subset
      exact ⟨htarget w (hmem (by simp)), htarget w' (hmem (by simp)),
        List.pairwise_iff_forall_sublist.mp hapart hsub⟩
    have hrun : run (applyWrite r) b ws = run (applyWrite r) b ws' := by
      refine run_perm (fun b => VectorOf ms b r) (fun w w' hw => ?_)
        (fun s w s' hs hstep => hs.applyWrite hstep) (fun s w w' hs hw => ?_) hperm hok h
      · exact ⟨hw.2.1, hw.1, fun heq => hw.2.2 heq.symm⟩
      · exact hs.applyWrite_comm hms hw.1 hw.2.1 hw.2.2
    have hstep : ∀ s (w : FieldWrite), VectorOf ms s r → w.Targets ms r →
        ∃ s', applyWrite r s w = some s' ∧ VectorOf ms s' r := by
      intro s w hs hw
      obtain ⟨m, hput, -⟩ := hs.putField_bits hms hw.2 hw.1 w.value
      exact ⟨_, hput, hs.with_mem m⟩
    obtain ⟨b', hb', -⟩ := run_invariant hstep h (allSteps_of_forall (fun w hw _ => htarget w hw) b)
    exact ⟨b', hb', hrun ▸ hb'⟩

/-- In a vector of two such messages, `70000` is put into a field of 16 bits. -/
theorem packed_write_independent : ∃ b', putField ⟨fun _ => 0, 40, 64⟩ (Obj.ofFields 8 2 16 0) 1
      ⟨asc "d", .uint, false, 2, 2⟩ 70000 = some b' ∧
    getField b' (Obj.ofFields 8 2 16 0) 1 ⟨asc "d", .uint, false, 2, 2⟩ = some 4464 := by
  have hlaid : LaidOut T2b.packedType :=
    ⟨T2b.packedSchema, (T2b.allTypes T2b.packedSchema).insertionSort T2b.lookupLe,
      [T2b.packedType], [], [], T2b.packedMsg, by decide, by decide, rfl, by decide, rfl⟩
  have hvec : VectorOf T2b.packedType ⟨fun _ => 0, 40, 64⟩ (Obj.ofFields 8 2 16 0) :=
    ⟨rfl, rfl, by decide, by decide, by decide⟩
  obtain ⟨b', hput, -, -, -, hget, -⟩ := (field_writes_independent hlaid hvec).1 1
    ⟨asc "d", .uint, false, 2, 2⟩ 70000 (by decide) ⟨by decide, rfl⟩
  have hheld : FieldDesc.held ⟨asc "d", .uint, false, 2, 2⟩ 70000 = 4464 := by decide
  exact ⟨b', hput, hheld ▸ hget⟩

end Nbuf
