import Nbuf.Lib.Cover
import Nbuf.Schema.Layout
import Nbuf.Wire.Buffer

set_option autoImplicit false

/-! # Layouts are sound

The invariant of the layout loop counts, for every bit of the scalar part, the fields and the
free ranges that contain it: there is never more than one, and none beyond the end. Padding
spaces and the partly filled byte of bools are the free ranges.
-/

namespace Nbuf

open Align Run Cover

/-! ## Fields of a compiled message -/

/-- A list, string or message field lies in the pointer part. -/
def FieldDesc.inPointers (f : FieldDesc) : Bool := f.list || f.kind == .str || f.kind == .ptr

/-- The width of a scalar field in bytes. -/
def FieldDesc.width (f : FieldDesc) : Nat := if f.kind = .enum then 2 else f.tag1

/-- A field in the scalar part that is not a bool. -/
def FieldDesc.IsScalar (f : FieldDesc) : Prop := f.inPointers = false ∧ f.kind ≠ .bool

/-- A field that is one bit of the scalar part. -/
def FieldDesc.IsBit (f : FieldDesc) : Prop := f.inPointers = false ∧ f.kind = .bool

/-- The bits of the scalar part that a field occupies. -/
def FieldDesc.bits (f : FieldDesc) : Option Range :=
  if f.inPointers = true then none
  else if f.kind = .bool then some ⟨f.tag0, 1⟩
  else some ⟨8 * f.tag0, 8 * f.width⟩

/-- What a layout promises. -/
structure MsgType.SoundLayout (ms : MsgType) : Prop where
  ssize_lt : ms.ssize < 2 ^ 16
  psize_lt : ms.psize < 2 ^ 16
  width : ∀ f ∈ ms.fields, f.IsScalar → scalarSize f.width = true
  aligned : ∀ f ∈ ms.fields, f.IsScalar → f.width ∣ f.tag0
  inside : ∀ f ∈ ms.fields, f.IsScalar → f.tag0 + f.width ≤ ms.ssize
  bit_inside : ∀ f ∈ ms.fields, f.IsBit → f.tag0 < 8 * ms.ssize
  disjoint : (ms.fields.filterMap FieldDesc.bits).Pairwise Range.Disjoint
  slots : (ms.fields.filter FieldDesc.inPointers).map FieldDesc.tag0 = List.range ms.psize
  stride : ∀ f ∈ ms.fields, f.IsScalar → f.width ∣ ms.ssize + 4 * ms.psize
  stride_word : 0 < ms.psize → 4 ∣ ms.ssize + 4 * ms.psize

namespace T2b

/-! ## Free ranges -/

/-- The bits of a padding space. -/
def PaddingSpace.bits (p : PaddingSpace) : Range := ⟨8 * p.offset, 8 * p.size⟩

/-- The rest of the byte that holds the last bools. -/
def Pads.openByte (pads : Pads) : List Range :=
  if pads.bitOffs % 8 ≠ 0 then [⟨pads.bitOffs, 8 - pads.bitOffs % 8⟩] else []

/-- Everything that may still be given to a field. -/
def Pads.free (pads : Pads) : List Range := pads.spaces.map PaddingSpace.bits ++ pads.openByte

/-- The bits of a field of the given size at the given offset. -/
def fieldBits (size offset : Nat) : Range :=
  if size = 0 then ⟨offset, 1⟩ else ⟨8 * offset, 8 * size⟩

theorem fit_spec {p : PaddingSpace} {size offset : Nat} (hsize : 0 < size)
    (h : p.fit size = some offset) :
    size ∣ offset ∧ p.offset ≤ offset ∧ offset + size ≤ p.offset + p.size := by
  unfold PaddingSpace.fit at h
  simp only at h
  split_ifs at h with hfit
  cases h
  have hle := le_roundUp hsize p.offset
  exact ⟨dvd_roundUp _ _, hle, by omega⟩

/-- Splitting a space leaves the rest of it, and nothing else. -/
theorem cover_rest {p : PaddingSpace} {size offset : Nat} (hsize : 0 < size)
    (h1 : p.offset ≤ offset) (h2 : offset + size ≤ p.offset + p.size) (i : Nat) :
    cover ((p.rest offset size).map PaddingSpace.bits) i + (fieldBits size offset).count i
      = p.bits.count i := by
  have hbits : fieldBits size offset = ⟨8 * offset, 8 * size⟩ := if_neg (by omega)
  have hall := Range.count_cases (8 * p.offset) (8 * p.size) i
  have htaken := Range.count_cases (8 * offset) (8 * size) i
  unfold PaddingSpace.rest
  dsimp only
  rw [hbits]
  by_cases hpad : offset - p.offset = 0
  · rw [if_neg (by omega)]
    by_cases hmore : p.size > size
    · have hrest := Range.count_cases (8 * (p.offset + size)) (8 * (p.size - size)) i
      rw [if_pos hmore]
      simp only [List.map_cons, List.map_nil, cover_cons, cover_nil, PaddingSpace.bits]
      omega
    · rw [if_neg hmore]
      simp only [List.map_nil, cover_nil, PaddingSpace.bits]
      omega
  · have hfront := Range.count_cases (8 * p.offset) (8 * (offset - p.offset)) i
    rw [if_pos hpad]
    by_cases hremain : p.size - (offset - p.offset) - size = 0
    · rw [if_neg (by omega)]
      simp only [List.map_cons, List.map_nil, cover_cons, cover_nil, PaddingSpace.bits]
      omega
    · have hrest := Range.count_cases (8 * (p.offset + (offset - p.offset) + size))
        (8 * (p.size - (offset - p.offset) - size)) i
      rw [if_pos hremain]
      simp only [List.map_cons, List.map_nil, cover_cons, cover_nil, PaddingSpace.bits]
      omega

theorem firstFit_spec {size : Nat} {spaces pre post : List PaddingSpace} {p : PaddingSpace}
    {offset : Nat} (h : firstFit size spaces = some (pre, p, offset, post)) :
    spaces = pre ++ p :: post ∧ p.fit size = some offset := by
  induction spaces generalizing pre with
  | nil => cases h
  | cons q spaces ih =>
      rw [firstFit] at h
      cases hq : q.fit size with
      | some o =>
          rw [hq] at h
          cases h
          exact ⟨rfl, hq⟩
      | none =>
          rw [hq] at h
          obtain ⟨⟨pre', p', o', post'⟩, hrec, heq⟩ := Option.map_eq_some_iff.mp h
          cases heq
          obtain ⟨rfl, hfit⟩ := ih hrec
          exact ⟨rfl, hfit⟩

/-- The bytes taken from a padding space are no longer free, and all others still are. -/
theorem take_spec {pads pads' : Pads} {size offset : Nat} (hsize : 0 < size)
    (h : pads.take size = some (offset, pads')) :
    size ∣ offset ∧ pads'.bitOffs = pads.bitOffs ∧
      ∀ i, cover (pads'.spaces.map PaddingSpace.bits) i + (fieldBits size offset).count i
        = cover (pads.spaces.map PaddingSpace.bits) i := by
  obtain ⟨⟨pre, p, o, post⟩, hfirst, heq⟩ := Option.map_eq_some_iff.mp h
  cases heq
  obtain ⟨hspaces, hfit⟩ := firstFit_spec hfirst
  obtain ⟨hdvd, h1, h2⟩ := fit_spec hsize hfit
  refine ⟨hdvd, rfl, fun i => ?_⟩
  have hrest := cover_rest hsize h1 h2 i
  rw [hspaces]
  simp only [List.map_append, List.map_cons, cover_append, cover_cons]
  omega

/-- The open byte counts its bits from `bitOffs` on. -/
theorem openByte_cases (pads : Pads) (i : Nat) :
    (pads.bitOffs ≤ i ∧ i < roundUp pads.bitOffs 8 ∧ cover pads.openByte i = 1) ∨
      ((i < pads.bitOffs ∨ roundUp pads.bitOffs 8 ≤ i) ∧ cover pads.openByte i = 0) := by
  have hup : roundUp pads.bitOffs 8 = (pads.bitOffs + 7) / 8 * 8 := rfl
  unfold Pads.openByte
  by_cases h : pads.bitOffs % 8 = 0
  · rw [if_neg (by omega), cover_nil]
    omega
  · rw [if_pos h, cover_cons, cover_nil]
    have := Range.count_cases pads.bitOffs (8 - pads.bitOffs % 8) i
    omega

/-- **`find_padding_space` gives out free bits only**, and keeps all others. -/
theorem findPaddingSpace_spec {pads pads' : Pads} {size offset : Nat}
    (h : findPaddingSpace pads size = some (offset, pads')) :
    (0 < size → size ∣ offset) ∧
      ∀ i, cover pads'.free i + (fieldBits size offset).count i = cover pads.free i := by
  unfold findPaddingSpace at h
  by_cases h0 : size = 0
  · rw [if_pos h0] at h
    have hbits : fieldBits size offset = ⟨offset, 1⟩ := if_pos h0
    have hup (n : Nat) : roundUp n 8 = (n + 7) / 8 * 8 := rfl
    refine ⟨fun hpos => by omega, fun i => ?_⟩
    have hold := openByte_cases pads i
    have hnew := openByte_cases pads' i
    have hone := Range.count_cases offset 1 i
    unfold Pads.free
    rw [cover_append, cover_append, hbits]
    rw [hup] at hold hnew
    by_cases hopen : pads.bitOffs % 8 = 0
    · -- a byte is taken from a padding space and opened
      rw [if_neg (by omega)] at h
      obtain ⟨⟨o, pads1⟩, htake, heq⟩ := Option.map_eq_some_iff.mp h
      cases heq
      obtain ⟨-, -, hcov⟩ := take_spec Nat.one_pos htake
      have hi := hcov i
      have hbyte := Range.count_cases (8 * o) (8 * 1) i
      have hfield : fieldBits 1 o = ⟨8 * o, 8 * 1⟩ := rfl
      rw [hfield] at hi
      simp only at hnew ⊢
      omega
    · -- the next bit of the open byte
      rw [if_pos hopen] at h
      cases h
      simp only at hnew ⊢
      omega
  · rw [if_neg h0] at h
    obtain ⟨hdvd, hbit, hcov⟩ := take_spec (Nat.pos_of_ne_zero h0) h
    refine ⟨fun _ => hdvd, fun i => ?_⟩
    have hi := hcov i
    have hopen : pads'.openByte = pads.openByte := by rw [Pads.openByte, hbit, Pads.openByte]
    unfold Pads.free
    rw [cover_append, cover_append, hopen]
    omega

theorem cover_add_le (pads : Pads) (offset size i : Nat) :
    cover (pads.add offset size).free i
      ≤ cover pads.free i + (⟨8 * offset, 8 * size⟩ : Range).count i := by
  have hsub := cover_sublist ((List.take_sublist pads.link pads.spaces).map PaddingSpace.bits) i
  unfold Pads.free Pads.add
  simp only [List.map_append, List.map_cons, List.map_nil, cover_append, cover_cons, cover_nil,
    Pads.openByte, PaddingSpace.bits]
  omega

/-- The size of the scalar part after `calculate_offset`. -/
theorem calculateOffset_ssize (ssize : Nat) (pads : Pads) (size : Nat) (h : ssize < 2 ^ 16) :
    (calculateOffset ssize pads size).2.1 = (ssize + growth ssize pads size) % 2 ^ 16 := by
  unfold calculateOffset growth
  cases findPaddingSpace pads size with
  | some x => exact (Nat.mod_eq_of_lt h).symm
  | none =>
      simp only
      split_ifs <;> rfl

/-- `c` covers each bit at most once, and none from `8 * ssize` on. -/
def CoveredOnce (c : Nat → Nat) (ssize : Nat) : Prop :=
  ∀ i, c i ≤ 1 ∧ (8 * ssize ≤ i → c i = 0)

/-- **One field**: `calculate_offset` covers no bit twice and stays inside the new size. `c` counts
the fields that are already there. -/
theorem calculateOffset_spec {ssize ssize' offset size : Nat} {pads pads' : Pads} {c : Nat → Nat}
    (h : calculateOffset ssize pads size = (offset, ssize', pads'))
    (hfit : ssize + growth ssize pads size < 2 ^ 16)
    (hcov : CoveredOnce (fun i => c i + cover pads.free i) ssize) :
    ssize' < 2 ^ 16 ∧ (0 < size → size ∣ offset) ∧
      CoveredOnce (fun i => c i + (fieldBits size offset).count i + cover pads'.free i) ssize' := by
  have hss : ssize' = ssize + growth ssize pads size := by
    have := calculateOffset_ssize ssize pads size (by omega)
    rwa [h, Nat.mod_eq_of_lt hfit] at this
  refine ⟨by omega, ?_⟩
  unfold calculateOffset at h
  unfold growth at hss
  unfold CoveredOnce at hcov ⊢
  simp only at hcov ⊢
  cases hfind : findPaddingSpace pads size with
  | some x =>
      rw [hfind] at h hss
      obtain ⟨o, pads1⟩ := x
      cases h
      obtain ⟨hdvd, hfree⟩ := findPaddingSpace_spec hfind
      refine ⟨hdvd, fun i => ?_⟩
      have h1 := hcov i
      have h2 := hfree i
      omega
  | none =>
      rw [hfind] at h hss
      simp only at h hss
      by_cases h0 : size = 0
      · -- a new byte of bools at the end
        rw [if_pos h0] at h hss
        cases h
        refine ⟨fun hpos => by omega, fun i => ?_⟩
        have hbits : fieldBits size (8 * ssize) = ⟨8 * ssize, 1⟩ := if_pos h0
        have hi := hcov i
        have hnew := openByte_cases { pads with bitOffs := 8 * ssize + 1 } i
        have hone := Range.count_cases (8 * ssize) 1 i
        have hup (n : Nat) : roundUp n 8 = (n + 7) / 8 * 8 := rfl
        rw [hup] at hnew
        rw [hss, hbits]
        unfold Pads.free at hi ⊢
        rw [cover_append] at hi ⊢
        simp only at hnew ⊢
        omega
      · rw [if_neg h0] at h hss
        have hpos : 0 < size := Nat.pos_of_ne_zero h0
        have hbits : fieldBits size offset = ⟨8 * offset, 8 * size⟩ := if_neg h0
        have hle := le_roundUp hpos ssize
        have hoff : offset = roundUp ssize size := by cases h; rfl
        have hpads : ∀ i, cover pads'.free i
            ≤ cover pads.free i + (⟨8 * ssize, 8 * (offset - ssize)⟩ : Range).count i := by
          intro i
          cases h
          by_cases hpad : roundUp ssize size - ssize > 0
          · rw [if_pos hpad]
            exact cover_add_le _ _ _ _
          · rw [if_neg hpad]
            exact Nat.le_add_right _ _
        refine ⟨fun _ => hoff ▸ dvd_roundUp _ _, fun i => ?_⟩
        have h1 := hcov i
        have h2 := hpads i
        have h3 := Range.count_cases (8 * ssize) (8 * (offset - ssize)) i
        have h4 := Range.count_cases (8 * offset) (8 * size) i
        rw [hbits]
        omega

/-! ## The loop over the fields -/

/-- What one round of the loop does. -/
theorem outfield_eq_some {types : List LookupEntry} {st st' : MsgState} {d : FldDesc}
    (h : outfield types st d = some st') : ∃ ent, lookup types d.tname = some ent ∧
      ((inPointers ent d.list = true ∧ st' = { st with
          psize := (st.psize + 1) % 2 ^ 16
          alignment := max st.alignment 4
          fields := st.fields ++ [fieldOf d.name ent d.list st.psize] }) ∨
        (inPointers ent d.list = false ∧ ∃ offset ssize pads,
          calculateOffset st.ssize st.pads ent.size = (offset, ssize, pads) ∧ st' = { st with
            ssize := ssize
            alignment := max st.alignment ent.size
            pads := pads
            fields := st.fields ++ [fieldOf d.name ent d.list offset] })) := by
  unfold outfield at h
  simp only [Option.bind_eq_bind, Option.bind_eq_some_iff] at h
  obtain ⟨ent, hent, h⟩ := h
  refine ⟨ent, hent, ?_⟩
  by_cases hin : inPointers ent d.list = true
  · rw [if_pos hin] at h
    exact Or.inl ⟨hin, (Option.some.inj h).symm⟩
  · rw [if_neg hin] at h
    exact Or.inr ⟨Bool.eq_false_iff.mpr hin, _, _, _, rfl, (Option.some.inj h).symm⟩

/-- The values `alignment` takes. -/
def IsAlignment (a : Nat) : Prop := a = 0 ∨ a = 1 ∨ a = 2 ∨ a = 4 ∨ a = 8

/-- A table of types whose entries are as `makelookup` makes them. -/
def WfTypes (types : List LookupEntry) : Prop :=
  ∀ key ent, lookup types key = some ent → ent.Wf

/-- The invariant of the loop over the fields. -/
structure Inv (st : MsgState) : Prop where
  ssize_lt : st.ssize < 2 ^ 16
  psize_lt : st.psize < 2 ^ 16
  align : IsAlignment st.alignment
  covered : CoveredOnce
    (fun i => cover (st.fields.filterMap FieldDesc.bits) i + cover st.pads.free i) st.ssize
  scalar : ∀ f ∈ st.fields, f.IsScalar →
    scalarSize f.width = true ∧ f.width ∣ f.tag0 ∧ f.width ≤ st.alignment
  slots : (st.fields.filter FieldDesc.inPointers).map FieldDesc.tag0 = List.range st.psize
  word : 0 < st.psize → 4 ≤ st.alignment

theorem inv_start {alignment : Nat} (h : IsAlignment alignment) :
    Inv (MsgState.start alignment) where
  ssize_lt := by simp [MsgState.start]
  psize_lt := by simp [MsgState.start]
  align := h
  covered := fun i => by simp [MsgState.start, Pads.clear, Pads.free, Pads.openByte]
  scalar := fun f hf => by simp [MsgState.start] at hf
  slots := rfl
  word := fun h => absurd h (Nat.lt_irrefl 0)

theorem fieldOf_inPointers (name : Text) (ent : LookupEntry) (list : Bool) (tag0 : Nat) :
    (fieldOf name ent list tag0).inPointers = inPointers ent list := rfl

theorem LookupEntry.Wf.size_bool {ent : LookupEntry} (h : ent.Wf) (hk : ent.kind = .bool) :
    ent.size = 0 := by
  simpa [LookupEntry.Wf, hk] using h

theorem LookupEntry.Wf.scalarSize {ent : LookupEntry} {list : Bool} (h : ent.Wf)
    (hin : inPointers ent list = false) (hb : ent.kind ≠ .bool) : scalarSize ent.size = true := by
  unfold inPointers at hin
  unfold LookupEntry.Wf at h
  unfold Nbuf.scalarSize
  cases hk : ent.kind with
  | bool => exact absurd hk hb
  | enum => rw [hk] at h; simp [h]
  | int => rw [hk] at h; simpa [or_assoc] using h
  | uint => rw [hk] at h; simpa [or_assoc] using h
  | float => rw [hk] at h; rcases h with h | h <;> simp [h]
  | str => simp [hk] at hin
  | ptr => simp [hk] at hin

theorem fieldOf_width {ent : LookupEntry} {list : Bool} (h : ent.Wf)
    (hin : inPointers ent list = false) (name : Text) (tag0 : Nat) :
    (fieldOf name ent list tag0).width = ent.size := by
  have hptr : ent.kind ≠ .ptr := by
    intro hk
    simp [inPointers, hk] at hin
  unfold FieldDesc.width fieldOf
  by_cases he : ent.kind = .enum
  · have hsize : ent.size = 2 := by simpa [LookupEntry.Wf, he] using h
    rw [if_pos he, hsize]
  · rw [if_neg he]
    exact if_neg (by simp [he, hptr])

theorem fieldOf_bits {ent : LookupEntry} {list : Bool} (h : ent.Wf)
    (hin : inPointers ent list = false) (name : Text) (tag0 : Nat) :
    (fieldOf name ent list tag0).bits = some (fieldBits ent.size tag0) := by
  have hkind : (fieldOf name ent list tag0).kind = ent.kind := rfl
  unfold FieldDesc.bits
  rw [fieldOf_inPointers, hin, if_neg (by decide), fieldOf_width h hin, hkind]
  by_cases hb : ent.kind = .bool
  · rw [if_pos hb, fieldBits, if_pos (h.size_bool hb)]
    rfl
  · have hsize := h.scalarSize hin hb
    have hne : ent.size ≠ 0 := by
      intro h0
      rw [h0] at hsize
      exact absurd hsize (by decide)
    rw [if_neg hb, fieldBits, if_neg hne]
    rfl

theorem IsAlignment.max {a b : Nat} (ha : IsAlignment a) (hb : IsAlignment b) :
    IsAlignment (max a b) := by
  rcases Nat.le_total a b with hle | hle
  · rwa [Nat.max_eq_right hle]
  · rwa [Nat.max_eq_left hle]

theorem isAlignment_size {ent : LookupEntry} (h : ent.Wf) : IsAlignment ent.size := by
  unfold LookupEntry.Wf at h
  unfold IsAlignment
  cases hk : ent.kind <;> simp only [hk] at h <;> omega

/-- **One round of the loop keeps the invariant.** -/
theorem Inv.outfield {types : List LookupEntry} (htypes : WfTypes types) {st st' : MsgState}
    {d : FldDesc} (hinv : Inv st) (hfit : FieldFits types st d)
    (h : T2b.outfield types st d = some st') : Inv st' := by
  obtain ⟨ent, hent, hcase⟩ := outfield_eq_some h
  have hwf := htypes _ _ hent
  have hfit := hfit ent hent
  rcases hcase with ⟨hin, rfl⟩ | ⟨hin, offset, ssize, pads, hcalc, rfl⟩
  · -- a new pointer slot
    rw [if_pos hin] at hfit
    have hbits : (fieldOf d.name ent d.list st.psize).bits = none := if_pos hin
    have hin' : (fieldOf d.name ent d.list st.psize).inPointers = true := hin
    refine ⟨hinv.ssize_lt, Nat.mod_lt _ (by decide), hinv.align.max (by simp [IsAlignment]), ?_,
      ?_, ?_, fun _ => Nat.le_max_right _ _⟩
    · simp only [List.filterMap_append, List.filterMap_cons_none hbits, List.filterMap_nil,
        List.append_nil]
      exact hinv.covered
    · intro f hf hs
      rcases List.mem_append.mp hf with hf | hf
      · obtain ⟨h1, h2, h3⟩ := hinv.scalar f hf hs
        exact ⟨h1, h2, Nat.le_trans h3 (Nat.le_max_left _ _)⟩
      · rw [List.mem_singleton.mp hf] at hs
        exact absurd hs.1 (by rw [hin']; decide)
    · rw [List.filter_append, List.map_append, hinv.slots, List.filter_cons_of_pos hin',
        Nat.mod_eq_of_lt hfit, List.range_succ]
      rfl
  · -- a place in the scalar part
    rw [if_neg (by simp [hin])] at hfit
    have hbits := fieldOf_bits hwf hin d.name offset
    have hin' : (fieldOf d.name ent d.list offset).inPointers = false := hin
    obtain ⟨hlt, hdvd, hcov⟩ := calculateOffset_spec hcalc hfit hinv.covered
    refine ⟨hlt, hinv.psize_lt, hinv.align.max (isAlignment_size hwf), ?_, ?_, ?_,
      fun hpos => Nat.le_trans (hinv.word hpos) (Nat.le_max_left _ _)⟩
    · simp only [List.filterMap_append, List.filterMap_cons_some hbits, List.filterMap_nil,
        cover_append, cover_cons, cover_nil, Nat.add_zero]
      exact hcov
    · intro f hf hs
      rcases List.mem_append.mp hf with hf | hf
      · obtain ⟨h1, h2, h3⟩ := hinv.scalar f hf hs
        exact ⟨h1, h2, Nat.le_trans h3 (Nat.le_max_left _ _)⟩
      · have hfe : f = fieldOf d.name ent d.list offset := List.mem_singleton.mp hf
        subst hfe
        have hsize := hwf.scalarSize hin hs.2
        rw [fieldOf_width hwf hin]
        refine ⟨hsize, hdvd ?_, Nat.le_max_right _ _⟩
        rcases Nat.eq_zero_or_pos ent.size with h0 | hpos
        · rw [h0] at hsize
          exact absurd hsize (by decide)
        · exact hpos
    · rw [List.filter_append, List.map_append, hinv.slots,
        List.filter_cons_of_neg (by rw [Bool.not_eq_true]; exact hin'), List.filter_nil,
        List.map_nil, List.append_nil]

theorem isAlignment_outfield {types : List LookupEntry} (htypes : WfTypes types)
    {st st' : MsgState} {d : FldDesc} (ha : IsAlignment st.alignment)
    (h : T2b.outfield types st d = some st') : IsAlignment st'.alignment := by
  obtain ⟨ent, hent, ⟨-, rfl⟩ | ⟨-, _, _, _, -, rfl⟩⟩ := outfield_eq_some h
  · exact ha.max (by simp [IsAlignment])
  · exact ha.max (isAlignment_size (htypes _ _ hent))

/-! ## Rounding -/

theorem IsAlignment.dvd {a w : Nat} (ha : IsAlignment a) (hw : scalarSize w = true)
    (hle : w ≤ a) : w ∣ a := by
  simp only [scalarSize, Bool.or_eq_true, beq_iff_eq] at hw
  rcases ha with rfl | rfl | rfl | rfl | rfl <;> rcases hw with ((rfl | rfl) | rfl) | rfl <;> omega

theorem le_roundedSsize (st : MsgState) : st.ssize ≤ roundedSsize st := by
  unfold roundedSsize
  by_cases ha : st.alignment > 1
  · have := le_roundUp (show 0 < st.alignment by omega) (st.ssize + st.psize * 4)
    rw [if_pos ha]
    omega
  · rw [if_neg ha]

/-- The rounded element size is a multiple of everything up to the alignment. -/
theorem dvd_roundedSsize {st : MsgState} (ha : IsAlignment st.alignment) {w : Nat}
    (hw : scalarSize w = true) (hle : w ≤ st.alignment) : w ∣ roundedSsize st + 4 * st.psize := by
  unfold roundedSsize
  by_cases h1 : st.alignment > 1
  · have hup := le_roundUp (show 0 < st.alignment by omega) (st.ssize + st.psize * 4)
    have hdvd : st.alignment ∣ roundUp (st.ssize + st.psize * 4) st.alignment := dvd_roundUp _ _
    rw [if_pos h1]
    rw [show roundUp (st.ssize + st.psize * 4) st.alignment - st.psize * 4 + 4 * st.psize
      = roundUp (st.ssize + st.psize * 4) st.alignment by omega]
    exact Nat.dvd_trans (ha.dvd hw hle) hdvd
  · have hone : w = 1 := by
      simp only [scalarSize, Bool.or_eq_true, beq_iff_eq] at hw
      omega
    rw [hone]
    exact one_dvd _

/-! ## Messages -/

/-- A loop state in the invariant whose rounded size fits makes a sound message. -/
theorem Inv.soundLayout {st : MsgState} (h : Inv st) (hfit : roundedSsize st < 2 ^ 16)
    (name : Text) :
    (⟨name, st.fields, roundedSsize st % 2 ^ 16, st.psize⟩ : Nbuf.MsgType).SoundLayout := by
  have hle := le_roundedSsize st
  have hinside : ∀ f ∈ st.fields, ∀ r, f.bits = some r → ∀ i, r.Has i → i < 8 * st.ssize := by
    intro f hf r hr i hi
    by_contra hout
    have hcov := (h.covered i).2 (by omega)
    simp only [Nat.add_eq_zero_iff] at hcov
    exact cover_eq_zero_iff.mp hcov.1 r (List.mem_filterMap.mpr ⟨f, hf, hr⟩) hi
  rw [Nat.mod_eq_of_lt hfit]
  constructor
  case ssize_lt => exact hfit
  case psize_lt => exact h.psize_lt
  case width => exact fun f hf hs => (h.scalar f hf hs).1
  case aligned => exact fun f hf hs => (h.scalar f hf hs).2.1
  case inside =>
    intro f hf hs
    have hpos : 0 < f.width := by
      rcases Nat.eq_zero_or_pos f.width with h0 | hpos
      · have := (h.scalar f hf hs).1
        rw [h0] at this
        exact absurd this (by decide)
      · exact hpos
    have hbits : f.bits = some ⟨8 * f.tag0, 8 * f.width⟩ := by
      rw [FieldDesc.bits, if_neg (by simp [hs.1]), if_neg hs.2]
    -- its last bit lies inside
    have hlast := hinside f hf _ hbits (8 * f.tag0 + 8 * f.width - 1)
      ⟨by dsimp only; omega, by dsimp only; omega⟩
    show f.tag0 + f.width ≤ roundedSsize st
    omega
  case bit_inside =>
    intro f hf hs
    have hbits : f.bits = some ⟨f.tag0, 1⟩ := by
      rw [FieldDesc.bits, if_neg (by simp [hs.1]), if_pos hs.2]
    have := hinside f hf _ hbits f.tag0 ⟨Nat.le_refl _, Nat.lt_succ_self _⟩
    show f.tag0 < 8 * roundedSsize st
    omega
  case disjoint =>
    show (st.fields.filterMap FieldDesc.bits).Pairwise Range.Disjoint
    refine pairwise_disjoint fun i => ?_
    have := (h.covered i).1
    simp only at this
    omega
  case slots => exact h.slots
  case stride =>
    intro f hf hs
    obtain ⟨hw, -, hle⟩ := h.scalar f hf hs
    exact dvd_roundedSsize h.align hw hle
  case stride_word => exact fun hpos => dvd_roundedSsize h.align rfl (h.word hpos)

/-- The compiled fields are those of the source, in order and with their types resolved. -/
def CompiledFields (types : List LookupEntry) : List FldDesc → List FieldDesc → Prop :=
  List.Forall₂ fun d f => f.name = d.name ∧ f.list = d.list ∧
    ∃ ent, lookup types d.tname = some ent ∧ f.kind = ent.kind ∧ f.tag1 = tagOne ent

theorem run_outfield_fields {types : List LookupEntry} {flds : List FldDesc} {st st' : MsgState}
    (h : run (outfield types) st flds = some st') :
    ∃ fields, st'.fields = st.fields ++ fields ∧ CompiledFields types flds fields := by
  induction flds generalizing st with
  | nil =>
      cases h
      exact ⟨[], (List.append_nil _).symm, List.Forall₂.nil⟩
  | cons d flds ih =>
      rw [run_cons, Option.bind_eq_some_iff] at h
      obtain ⟨st1, hst1, hrest⟩ := h
      obtain ⟨fields, hfields, hcomp⟩ := ih hrest
      have hone : ∃ tag0 ent, lookup types d.tname = some ent ∧
          st1.fields = st.fields ++ [fieldOf d.name ent d.list tag0] := by
        obtain ⟨ent, hent, ⟨-, rfl⟩ | ⟨-, offset, _, _, -, rfl⟩⟩ := outfield_eq_some hst1
        · exact ⟨st.psize, ent, hent, rfl⟩
        · exact ⟨offset, ent, hent, rfl⟩
      obtain ⟨tag0, ent, hent, hst1⟩ := hone
      refine ⟨fieldOf d.name ent d.list tag0 :: fields, ?_, List.Forall₂.cons ?_ hcomp⟩
      · rw [hfields, hst1, List.append_assoc, List.singleton_append]
      · exact ⟨rfl, rfl, ent, hent, rfl, rfl⟩

/-- **The layout of one message**: the fields of the source at sound offsets. -/
theorem run_outfield_sound {types : List LookupEntry} (htypes : WfTypes types) {alignment : Nat}
    (ha : IsAlignment alignment) {m : MsgType} (hfits : MsgFits types alignment m) {st : MsgState}
    (h : run (outfield types) (MsgState.start alignment) m.flds = some st) :
    CompiledFields types m.flds st.fields ∧
      (⟨m.name, st.fields, roundedSsize st % 2 ^ 16, st.psize⟩ : Nbuf.MsgType).SoundLayout := by
  have hinv : Inv st := run_preserves_of_allSteps Inv
    (fun _ _ _ hs hok hstep => hs.outfield htypes hok hstep) (inv_start ha) hfits.1 h
  obtain ⟨fields, hfields, hcomp⟩ := run_outfield_fields h
  refine ⟨?_, hinv.soundLayout (hfits.2 st h) m.name⟩
  rwa [hfields]

/-- What one round of the loop over the messages does. -/
theorem outmsg_eq_some {types : List LookupEntry} {st st' : OutState} {m : MsgType}
    (h : outmsg types st m = some st') : ∃ ms,
      run (outfield types) (MsgState.start st.alignment) m.flds = some ms ∧
      st'.alignment = ms.alignment ∧
      st'.msgs = st.msgs ++ [⟨m.name, ms.fields, roundedSsize ms % 2 ^ 16, ms.psize⟩] := by
  unfold outmsg at h
  simp only [Option.bind_eq_bind, Option.bind_eq_some_iff] at h
  obtain ⟨ms, hms, h⟩ := h
  cases h
  exact ⟨ms, hms, rfl, rfl⟩

theorem isAlignment_outmsg {types : List LookupEntry} (htypes : WfTypes types)
    {st st' : OutState} {m : MsgType} (ha : IsAlignment st.alignment)
    (h : outmsg types st m = some st') : IsAlignment st'.alignment := by
  obtain ⟨ms, hms, halign, -⟩ := outmsg_eq_some h
  rw [halign]
  exact run_preserves (fun st => IsAlignment st.alignment)
    (fun _ _ _ hs hstep => isAlignment_outfield htypes hs hstep) ha hms

/-- Later messages are put behind the earlier ones, one for each. -/
theorem run_outmsg_msgs {types : List LookupEntry} {msgs : List MsgType} {st st' : OutState}
    (h : run (outmsg types) st msgs = some st') :
    ∃ more, st'.msgs = st.msgs ++ more ∧ more.length = msgs.length := by
  induction msgs generalizing st with
  | nil =>
      cases h
      exact ⟨[], (List.append_nil _).symm, rfl⟩
  | cons m msgs ih =>
      rw [run_cons, Option.bind_eq_some_iff] at h
      obtain ⟨st1, hst1, hrest⟩ := h
      obtain ⟨ms, -, -, hmsgs⟩ := outmsg_eq_some hst1
      obtain ⟨more, hmore, hlen⟩ := ih hrest
      exact ⟨⟨m.name, ms.fields, roundedSsize ms % 2 ^ 16, ms.psize⟩ :: more,
        by rw [hmore, hmsgs, List.append_assoc, List.singleton_append],
        by rw [List.length_cons, hlen, List.length_cons]⟩

/-- Where message `m`, which comes after the messages `pre`, stands in the output. -/
theorem outmsgs_msg {types : List LookupEntry} {msgs : List MsgType} {out : List Nbuf.MsgType}
    (hout : outmsgs types msgs = some out) {pre post : List MsgType} {m : MsgType}
    (hm : msgs = pre ++ m :: post) : ∃ st0 st, run (outmsg types) ⟨0, []⟩ pre = some st0 ∧
      run (outfield types) (MsgState.start st0.alignment) m.flds = some st ∧
      out[pre.length]? = some ⟨m.name, st.fields, roundedSsize st % 2 ^ 16, st.psize⟩ := by
  obtain ⟨stEnd, hrun, rfl⟩ := Option.map_eq_some_iff.mp hout
  rw [hm, run_append, Option.bind_eq_some_iff] at hrun
  obtain ⟨st0, hpre, hrun⟩ := hrun
  rw [run_cons, Option.bind_eq_some_iff] at hrun
  obtain ⟨st1, hst1, hpost⟩ := hrun
  obtain ⟨msgs0, hmsgs0, hlen⟩ := run_outmsg_msgs hpre
  obtain ⟨st, hst, -, hmsgs1⟩ := outmsg_eq_some hst1
  obtain ⟨more, hmore, -⟩ := run_outmsg_msgs hpost
  refine ⟨st0, st, hpre, hst, ?_⟩
  rw [hmore, hmsgs1, hmsgs0]
  simp [← hlen]

/-- The sizes of message `m`, which comes after the messages `pre`, stay below `65536`. -/
def FitsAfter (types : List LookupEntry) (pre : List MsgType) (m : MsgType) : Prop :=
  ∀ st, run (outmsg types) ⟨0, []⟩ pre = some st → MsgFits types st.alignment m

/-- **Field layout is sound.** In the output for an accepted schema, every message whose sizes stay
below `65536` has a sound layout of exactly its fields, and in a vector of such messages that
starts at a multiple of 8 every scalar of every element is naturally aligned. -/
theorem outmsgs_soundLayout {schema : SchemaDesc} {types : List LookupEntry}
    (hlook : makelookup schema = some types) {out : List Nbuf.MsgType}
    (hout : outmsgs types schema.msgs = some out) (pre post : List MsgType) (m : MsgType)
    (hm : schema.msgs = pre ++ m :: post) (hfits : FitsAfter types pre m) :
    ∃ ms, out[pre.length]? = some ms ∧ ms.name = m.name ∧ CompiledFields types m.flds ms.fields ∧
      ms.SoundLayout ∧ ∀ base k, 8 ∣ base → ∀ f ∈ ms.fields, f.IsScalar →
        f.width ∣ base + k * (ms.ssize + 4 * ms.psize) + f.tag0 := by
  have htypes : WfTypes types := fun _ _ hent => lookup_wf hlook hent
  obtain ⟨st, ms, hpre, hms, hget⟩ := outmsgs_msg hout hm
  have ha : IsAlignment st.alignment := run_preserves (fun st => IsAlignment st.alignment)
    (fun _ _ _ hs hstep => isAlignment_outmsg htypes hs hstep) (by simp [IsAlignment]) hpre
  obtain ⟨hcomp, hsound⟩ := run_outfield_sound htypes ha (hfits st hpre) hms
  refine ⟨_, hget, rfl, hcomp, hsound, ?_⟩
  intro base k hbase f hf hs
  have hwidth := hsound.width f hf hs
  have h8 : f.width ∣ 8 := by
    simp only [scalarSize, Bool.or_eq_true, beq_iff_eq] at hwidth
    rcases hwidth with ((h | h) | h) | h <;> rw [h] <;> decide
  have hstride := hsound.stride f hf hs
  exact Nat.dvd_add (Nat.dvd_add (Nat.dvd_trans h8 hbase) (Dvd.dvd.mul_left hstride k))
    (hsound.aligned f hf hs)

instance (types : List LookupEntry) (pre : List MsgType) (m : MsgType) :
    Decidable (FitsAfter types pre m) :=
  inferInstanceAs (Decidable (∀ st ∈ run (outmsg types) ⟨0, []⟩ pre, MsgFits types st.alignment m))

/-- A message with a bool, a number of eight bytes, a second bool and a number of two bytes, which
goes into the padding behind the bools. -/
def packedMsg : MsgType :=
  ⟨asc "M", [⟨asc "a", asc "bool", false⟩, ⟨asc "b", asc "int64", false⟩,
    ⟨asc "c", asc "bool", false⟩, ⟨asc "d", asc "uint16", false⟩]⟩

/-- The schema with this message only. -/
def packedSchema : SchemaDesc := ⟨none, [], [packedMsg]⟩

/-- The message as it is compiled. -/
def packedType : Nbuf.MsgType :=
  ⟨asc "M", [⟨asc "a", .bool, false, 0, 0⟩, ⟨asc "b", .int, false, 8, 8⟩,
    ⟨asc "c", .bool, false, 1, 0⟩, ⟨asc "d", .uint, false, 2, 2⟩], 16, 0⟩

theorem packedMsg_soundLayout : ∃ ms : Nbuf.MsgType,
    ms.SoundLayout ∧ ms.fields.map FieldDesc.tag0 = [0, 8, 1, 2] ∧ ms.ssize = 16 := by
  have hlook : makelookup packedSchema
      = some ((allTypes packedSchema).insertionSort lookupLe) := by decide
  have hout : outmsgs ((allTypes packedSchema).insertionSort lookupLe) packedSchema.msgs
      = some [packedType] := by decide
  obtain ⟨ms, hms, -, -, hsound, -⟩ :=
    outmsgs_soundLayout hlook hout [] [] packedMsg rfl (by decide)
  cases hms
  exact ⟨_, hsound, by decide, by decide⟩

end T2b

end Nbuf
