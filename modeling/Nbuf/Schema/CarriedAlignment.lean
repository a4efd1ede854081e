import Nbuf.Schema.Truncation

set_option autoImplicit false

/-! # The alignment carried from message to message

`outmsgs` clears the padding spaces behind each message, and both sizes start from zero, but
`alignment` is declared outside the loop: a message is rounded up with the largest alignment of all
messages so far. The places of its fields do not depend on the messages before it. Its size does,
unless the alignment that is carried over asks for nothing new.
-/

namespace Nbuf

open Align

/-! ## The end of the scalar part -/

/-- Where a field ends in the scalar part, in bytes. -/
def FieldDesc.scalarEnd (f : FieldDesc) : Nat :=
  if f.inPointers = true then 0
  else if f.kind = .bool then f.tag0 / 8 + 1
  else f.tag0 + f.width

/-- Where the last of the fields ends. -/
def scalarEnd (fields : List FieldDesc) : Nat := fields.foldl (fun n f => max n f.scalarEnd) 0

theorem scalarEnd_append (fields : List FieldDesc) (f : FieldDesc) :
    scalarEnd (fields ++ [f]) = max (scalarEnd fields) f.scalarEnd := by simp [scalarEnd]

/-- Two messages have the same sizes and the same places for their fields. -/
def MsgType.SameLayout (ms ms' : MsgType) : Prop :=
  ms.ssize = ms'.ssize ∧ ms.psize = ms'.psize ∧
    ms.fields.map FieldDesc.tag0 = ms'.fields.map FieldDesc.tag0

namespace T2b

open Run

/-! ## Alignments -/

/-- The alignment that a field asks for. A bool asks for none. -/
def fieldAlignment (types : List LookupEntry) (d : FldDesc) : Nat :=
  match lookup types d.tname with
  | some ent => if inPointers ent d.list = true then 4 else ent.size
  | none => 0

/-- The largest alignment that one of the fields asks for. -/
def alignmentOf (types : List LookupEntry) (flds : List FldDesc) : Nat :=
  flds.foldl (fun a d => max a (fieldAlignment types d)) 0

theorem foldl_fieldAlignment (types : List LookupEntry) (flds : List FldDesc) (a : Nat) :
    flds.foldl (fun a d => max a (fieldAlignment types d)) a = max a (alignmentOf types flds) := by
  unfold alignmentOf
  induction flds generalizing a with
  | nil => simp
  | cons d flds ih =>
      simp only [List.foldl_cons]
      rw [ih, ih (max 0 _)]
      omega

theorem isAlignment_alignmentOf {types : List LookupEntry} (htypes : WfTypes types)
    (flds : List FldDesc) : IsAlignment (alignmentOf types flds) := by
  unfold alignmentOf
  have hzero : IsAlignment 0 := by simp [IsAlignment]
  generalize 0 = a at hzero
  induction flds generalizing a with
  | nil => exact hzero
  | cons d flds ih =>
      refine ih (max a (fieldAlignment types d)) (hzero.max ?_)
      unfold fieldAlignment
      cases hent : lookup types d.tname with
      | none => simp [IsAlignment]
      | some ent =>
          simp only
          split_ifs
          · simp [IsAlignment]
          · exact isAlignment_size (htypes _ _ hent)

/-- Two alignments divide each other in the order of their size. -/
theorem max_dvd_max {a b : Nat} (ha : IsAlignment a) (hb : IsAlignment b) (hle : a ≤ b) :
    max 1 a ∣ max 1 b := by
  rcases ha with rfl | rfl | rfl | rfl | rfl <;> rcases hb with rfl | rfl | rfl | rfl | rfl <;>
    first | decide | omega

/-! ## Rounding -/

/-- The sizes that the rule allows for a scalar part with the given end: a vector of such messages
keeps the alignment. -/
def sizesFor (ends psize alignment : Nat) : Set Nat :=
  {s | ends ≤ s ∧ max 1 alignment ∣ s + 4 * psize}

/-- **Rounding** takes the least size that is allowed. -/
theorem isLeast_roundedSsize (st : MsgState) :
    IsLeast (sizesFor st.ssize st.psize st.alignment) (roundedSsize st) := by
  have hle := le_roundedSsize st
  unfold roundedSsize at hle ⊢
  by_cases ha : st.alignment > 1
  · have hup := le_roundUp (show 0 < st.alignment by omega) (st.ssize + st.psize * 4)
    have hdvd := dvd_roundUp (st.ssize + st.psize * 4) st.alignment
    rw [if_pos ha] at hle ⊢
    have hmax : max 1 st.alignment = st.alignment := by omega
    constructor
    · refine ⟨hle, ?_⟩
      rw [hmax]
      rwa [show roundUp (st.ssize + st.psize * 4) st.alignment - st.psize * 4 + 4 * st.psize
        = roundUp (st.ssize + st.psize * 4) st.alignment by omega]
    · rintro s ⟨hs, hdvd'⟩
      rw [hmax] at hdvd'
      have := roundUp_le hdvd' (show st.ssize + st.psize * 4 ≤ s + 4 * st.psize by omega)
      omega
  · have hmax : max 1 st.alignment = 1 := by omega
    rw [if_neg ha]
    exact ⟨⟨Nat.le_refl _, by rw [hmax]; exact one_dvd _⟩, fun s hs => hs.1⟩

/-- It does not matter that the number of pointers is cut to 16 bits. -/
theorem sizesFor_mod {a : Nat} (ha : IsAlignment a) (ends psize : Nat) :
    sizesFor ends (psize % 2 ^ 16) a = sizesFor ends psize a := by
  ext s
  have hword : max 1 a ∣ 4 * 2 ^ 16 * (psize / 2 ^ 16) := by
    refine Dvd.dvd.mul_right ?_ _
    rcases ha with rfl | rfl | rfl | rfl | rfl <;> decide
  have heq : s + 4 * psize = s + 4 * (psize % 2 ^ 16) + 4 * 2 ^ 16 * (psize / 2 ^ 16) := by omega
  show (_ ∧ _ ∣ _) ↔ (_ ∧ _ ∣ _)
  rw [heq, Nat.dvd_add_left hword]

/-- **When a larger alignment changes nothing.** `size` is the size for the alignment `a`, and `r`
the one for the larger of `a` and `b`, which is then cut to 16 bits. -/
theorem cut_eq_iff {ends psize a b size r : Nat} (ha : IsAlignment a) (hb : IsAlignment b)
    (hends : ends < 2 ^ 16) (hsize : IsLeast (sizesFor ends psize a) size)
    (hr : IsLeast (sizesFor ends psize (max b a)) r) :
    r % 2 ^ 16 = size ↔ size < 2 ^ 16 ∧ (b ≤ a ∨ b ∣ size + 4 * psize) := by
  have hab := hb.max ha
  have hle : size ≤ r := hsize.2 ⟨hr.1.1, (max_dvd_max ha hab (Nat.le_max_right _ _)).trans hr.1.2⟩
  -- 8 is the largest alignment
  have hlt : r < ends + 8 := by
    have hdvd : max 1 (max b a) ∣ 8 := by
      rcases hab with h | h | h | h | h <;> rw [h] <;> decide
    have hup := le_roundUp (show 0 < 8 by decide) (ends + 4 * psize)
    have hup' := roundUp_lt (show 0 < 8 by decide) (ends + 4 * psize)
    have := hr.2 ⟨(show ends ≤ roundUp (ends + 4 * psize) 8 - 4 * psize by omega),
      (show _ ∣ roundUp (ends + 4 * psize) 8 - 4 * psize + 4 * psize by
        rw [Nat.sub_add_cancel (by omega)]
        exact hdvd.trans (dvd_roundUp _ _))⟩
    omega
  have hlow : ends ≤ size := hsize.1.1
  constructor
  · intro heq
    have hrs : r = size := by omega
    refine ⟨by omega, ?_⟩
    by_cases hba : b ≤ a
    · exact Or.inl hba
    · have hdvd := hr.1.2
      rw [hrs, show max 1 (max b a) = b by omega] at hdvd
      exact Or.inr hdvd
  · rintro ⟨hsmall, hcase⟩
    have hmem : size ∈ sizesFor ends psize (max b a) := by
      refine ⟨hlow, ?_⟩
      by_cases hba : b ≤ a
      · rw [Nat.max_eq_right hba]
        exact hsize.1.2
      · rw [show max 1 (max b a) = b by omega]
        exact hcase.resolve_left hba
    have hrs := hr.2 hmem
    omega

/-! ## The size of the scalar part is where it ends -/

/-- The free places lie below the size of the scalar part. -/
def Pads.Below (pads : Pads) (ssize : Nat) : Prop :=
  (∀ p ∈ pads.spaces, p.offset + p.size ≤ ssize) ∧ pads.bitOffs ≤ 8 * ssize

/-- Where a scalar of the given size ends. The offset of a bool counts bits. -/
def placeEnd (size offset : Nat) : Nat := if size = 0 then offset / 8 + 1 else offset + size

theorem fieldOf_scalarEnd {ent : LookupEntry} {list : Bool} (h : ent.Wf)
    (hin : inPointers ent list = false) (name : Text) (offset : Nat) :
    (fieldOf name ent list offset).scalarEnd = placeEnd ent.size offset := by
  have hkind : (fieldOf name ent list offset).kind = ent.kind := rfl
  have htag : (fieldOf name ent list offset).tag0 = offset := rfl
  unfold FieldDesc.scalarEnd placeEnd
  rw [fieldOf_inPointers, hin, if_neg (by decide), fieldOf_width h hin, hkind, htag]
  by_cases hb : ent.kind = .bool
  · rw [if_pos hb, if_pos (h.size_bool hb)]
  · have hsize := h.scalarSize hin hb
    rw [if_neg hb, if_neg]
    intro h0
    rw [h0] at hsize
    exact absurd hsize (by decide)

/-- What is left of a padding space lies inside it. -/
theorem rest_below {p q : PaddingSpace} {size offset ssize : Nat} (h1 : p.offset ≤ offset)
    (h2 : offset + size ≤ p.offset + p.size) (hp : p.offset + p.size ≤ ssize)
    (hq : q ∈ p.rest offset size) : q.offset + q.size ≤ ssize := by
  unfold PaddingSpace.rest at hq
  simp only at hq
  split_ifs at hq with hpad hremain hmore
  · rcases List.mem_cons.mp hq with rfl | hq
    · simp only
      omega
    · rw [List.mem_singleton.mp hq]
      simp only
      omega
  · rw [List.mem_singleton.mp hq]
    simp only
    omega
  · rw [List.mem_singleton.mp hq]
    simp only
    omega
  · cases hq

theorem take_below {pads pads' : Pads} {size offset ssize : Nat} (hsize : 0 < size)
    (hbelow : pads.Below ssize) (h : pads.take size = some (offset, pads')) :
    offset + size ≤ ssize ∧ pads'.Below ssize := by
  obtain ⟨⟨pre, p, o, post⟩, hfirst, heq⟩ := Option.map_eq_some_iff.mp h
  cases heq
  obtain ⟨hspaces, hfit⟩ := firstFit_spec hfirst
  obtain ⟨-, h1, h2⟩ := fit_spec hsize hfit
  have hp := hbelow.1 p (by simp [hspaces])
  refine ⟨by omega, fun q hq => ?_, hbelow.2⟩
  simp only [List.mem_append] at hq
  rcases hq with (hq | hq) | hq
  · exact hbelow.1 q (by simp [hspaces, hq])
  · exact rest_below h1 h2 hp hq
  · exact hbelow.1 q (by simp [hspaces, hq])

theorem findPaddingSpace_below {pads pads' : Pads} {size offset ssize : Nat}
    (hbelow : pads.Below ssize) (h : findPaddingSpace pads size = some (offset, pads')) :
    placeEnd size offset ≤ ssize ∧ pads'.Below ssize := by
  unfold findPaddingSpace at h
  unfold placeEnd
  by_cases h0 : size = 0
  · rw [if_pos h0] at h ⊢
    have hbits := hbelow.2
    by_cases hopen : pads.bitOffs % 8 = 0
    · rw [if_neg (by omega)] at h
      obtain ⟨⟨o, pads1⟩, htake, heq⟩ := Option.map_eq_some_iff.mp h
      cases heq
      obtain ⟨hend, hspaces, -⟩ := take_below Nat.one_pos hbelow htake
      exact ⟨by omega, hspaces, (show 8 * o + 1 ≤ 8 * ssize by omega)⟩
    · rw [if_pos hopen] at h
      cases h
      exact ⟨by omega, hbelow.1, (show pads.bitOffs + 1 ≤ 8 * ssize by omega)⟩
  · rw [if_neg h0] at h ⊢
    exact take_below (Nat.pos_of_ne_zero h0) hbelow h

/-- **One field**: the new size is where the scalar part ends then, before it is cut. -/
theorem calculateOffset_end {ssize ssize' offset size : Nat} {pads pads' : Pads}
    (hbelow : pads.Below ssize) (h : calculateOffset ssize pads size = (offset, ssize', pads')) :
    max ssize (placeEnd size offset) = ssize + growth ssize pads size ∧
      pads'.Below (ssize + growth ssize pads size) := by
  unfold calculateOffset at h
  unfold growth
  cases hfind : findPaddingSpace pads size with
  | some x =>
      obtain ⟨o, pads1⟩ := x
      rw [hfind] at h
      cases h
      obtain ⟨hend, hbelow'⟩ := findPaddingSpace_below hbelow hfind
      simp only
      exact ⟨by omega, hbelow'⟩
  | none =>
      rw [hfind] at h
      simp only at h ⊢
      have hspaces : ∀ n, ssize ≤ n → ∀ p ∈ pads.spaces, p.offset + p.size ≤ n := fun n hn p hp =>
        (hbelow.1 p hp).trans hn
      have hbits := hbelow.2
      unfold placeEnd
      by_cases h0 : size = 0
      · -- a new byte of bools at the end
        rw [if_pos h0] at h ⊢
        cases h
        rw [if_pos h0]
        exact ⟨by omega, hspaces _ (by omega), (show 8 * ssize + 1 ≤ 8 * (ssize + 1) by omega)⟩
      · rw [if_neg h0] at h ⊢
        have hle := le_roundUp (Nat.pos_of_ne_zero h0) ssize
        cases h
        rw [if_neg h0]
        refine ⟨by omega, ?_⟩
        by_cases hpad : roundUp ssize size - ssize > 0
        · rw [if_pos hpad]
          refine ⟨fun p hp => ?_, (show pads.bitOffs ≤ _ by omega)⟩
          rcases List.mem_append.mp hp with hp | hp
          · exact hspaces _ (by omega) p (List.mem_of_mem_take hp)
          · rw [List.mem_singleton.mp hp]
            simp only
            omega
        · rw [if_neg hpad]
          exact ⟨hspaces _ (by omega), by omega⟩

/-! ## The loop over the fields -/

/-- The code is in state `st`, after messages of alignment `b`, when the rule is in state `u` on the
message alone. Once the size of the rule has reached `65536`, a field ends there. -/
structure Follows (b : Nat) (u st : MsgState) : Prop where
  align : st.alignment = max b u.alignment
  psize_eq : st.psize = u.psize % 2 ^ 16
  below : u.ssize < 2 ^ 16 → st.ssize = u.ssize ∧ st.pads = u.pads ∧
    scalarEnd st.fields = u.ssize ∧ st.pads.Below u.ssize
  above : 2 ^ 16 ≤ u.ssize → 2 ^ 16 ≤ scalarEnd st.fields

theorem follows_start (b : Nat) : Follows b (MsgState.start 0) (MsgState.start b) where
  align := by simp [MsgState.start]
  psize_eq := rfl
  below := fun _ => ⟨rfl, rfl, rfl, fun p hp => by simp [MsgState.start, Pads.clear] at hp, by
    simp [MsgState.start, Pads.clear]⟩
  above := fun h => absurd h (by decide)

/-- **The code follows the rule** over one field. -/
theorem Follows.step {types : List LookupEntry} (htypes : WfTypes types) {b : Nat}
    {u st st' : MsgState} {d : FldDesc} (h : Follows b u st)
    (hstep : outfield types st d = some st') :
    ∃ u', layoutField types u d = some u' ∧ Follows b u' st' := by
  have halign := h.align
  obtain ⟨ent, hent, hcase⟩ := outfield_eq_some hstep
  unfold layoutField
  simp only [hent, Option.bind_eq_bind, Option.bind_some]
  rcases hcase with ⟨hin, rfl⟩ | ⟨hin, offset, ssize, pads, hcalc, rfl⟩
  · -- a pointer slot: the scalar part stays
    have hend : scalarEnd (st.fields ++ [fieldOf d.name ent d.list st.psize])
        = scalarEnd st.fields := by
      have h0 : (fieldOf d.name ent d.list st.psize).scalarEnd = 0 := if_pos hin
      rw [scalarEnd_append, h0, Nat.max_zero]
    refine ⟨_, if_pos hin, ?_, ?_, fun hlt => ?_, fun hge => ?_⟩
    · show max st.alignment 4 = max b (max u.alignment 4)
      omega
    · show (st.psize + 1) % 2 ^ 16 = (u.psize + 1) % 2 ^ 16
      rw [h.psize_eq, Nat.mod_add_mod]
    · simp only [hend]
      exact h.below hlt
    · simp only [hend]
      exact h.above hge
  · have hend : scalarEnd (st.fields ++ [fieldOf d.name ent d.list offset])
        = max (scalarEnd st.fields) (placeEnd ent.size offset) := by
      rw [scalarEnd_append, fieldOf_scalarEnd (htypes _ _ hent) hin]
    have halign' : max st.alignment ent.size = max b (max u.alignment ent.size) := by omega
    refine ⟨_, if_neg (by simp [hin]), ?_⟩
    by_cases hlt : u.ssize < 2 ^ 16
    · obtain ⟨hssize, hpads, hends, hbelow⟩ := h.below hlt
      rw [hssize] at hcalc
      have hcut := calculateOffset_ssize u.ssize st.pads ent.size hlt
      obtain ⟨hmax, hbelow'⟩ := calculateOffset_end hbelow hcalc
      rw [hcalc] at hcut
      refine ⟨halign', h.psize_eq, fun hlt' => ?_, fun hge' => ?_⟩
      · simp only [← hpads] at hlt' ⊢
        rw [Nat.mod_eq_of_lt hlt'] at hcut
        rw [hend, hends, hmax, hcalc]
        exact ⟨hcut, rfl, rfl, hbelow'⟩
      · simp only [← hpads] at hge' ⊢
        rw [hend, hends, hmax]
        exact hge'
    · -- a size has been cut already
      have hge := h.above (by omega)
      refine ⟨halign', h.psize_eq, fun hlt' => ?_, fun _ => ?_⟩
      · simp only at hlt'
        omega
      · simp only [hend]
        omega

/-- The alignment after a field, in the code and in the rule. -/
theorem outfield_alignment {types : List LookupEntry} {st st' : MsgState} {d : FldDesc}
    (h : outfield types st d = some st') :
    st'.alignment = max st.alignment (fieldAlignment types d) := by
  unfold fieldAlignment
  obtain ⟨ent, hent, ⟨hin, rfl⟩ | ⟨hin, _, _, _, -, rfl⟩⟩ := outfield_eq_some h
  · simp [hent, hin]
  · simp [hent, hin]

theorem layoutField_alignment {types : List LookupEntry} {st st' : MsgState} {d : FldDesc}
    (h : layoutField types st d = some st') :
    st'.alignment = max st.alignment (fieldAlignment types d) := by
  unfold layoutField at h
  simp only [Option.bind_eq_bind, Option.bind_eq_some_iff] at h
  obtain ⟨ent, hent, h⟩ := h
  unfold fieldAlignment
  split_ifs at h with hin
  · cases h
    simp [hent, hin]
  · cases h
    simp [hent, hin]

/-- The alignment after all fields. -/
theorem run_alignment {step : MsgState → FldDesc → Option MsgState} {types : List LookupEntry}
    (hstep : ∀ st d st', step st d = some st' →
      st'.alignment = max st.alignment (fieldAlignment types d))
    {flds : List FldDesc} {st st' : MsgState} (h : run step st flds = some st') :
    st'.alignment = max st.alignment (alignmentOf types flds) := by
  rw [← foldl_fieldAlignment]
  induction flds generalizing st with
  | nil =>
      cases h
      rfl
  | cons d flds ih =>
      rw [run_cons, Option.bind_eq_some_iff] at h
      obtain ⟨st1, hst1, hrest⟩ := h
      rw [ih hrest, hstep _ _ _ hst1, List.foldl_cons]

/-- The alignment that the messages before carry over. -/
theorem run_outmsg_alignment {types : List LookupEntry} {msgs : List MsgType} {st st' : OutState}
    (h : run (outmsg types) st msgs = some st') :
    st'.alignment = max st.alignment (alignmentOf types (msgs.flatMap MsgType.flds)) := by
  rw [← foldl_fieldAlignment]
  induction msgs generalizing st with
  | nil =>
      cases h
      rfl
  | cons m msgs ih =>
      rw [run_cons, Option.bind_eq_some_iff] at h
      obtain ⟨st1, hst1, hrest⟩ := h
      obtain ⟨ms, hms, halign, -⟩ := outmsg_eq_some hst1
      have hone := run_alignment (fun _ _ _ => outfield_alignment) hms
      rw [← foldl_fieldAlignment] at hone
      rw [ih hrest, halign, hone, List.flatMap_cons, List.foldl_append]
      rfl

/-! ## The places do not depend on what comes before

Neither the alignment that is carried over nor the numbers of the types have a say in them. -/

/-- What the layout depends on in a type. -/
def LookupEntry.shape (ent : LookupEntry) : Kind × Nat := (ent.kind, ent.size)

/-- Two tables agree on the types of the fields. -/
def SameTypes (types types' : List LookupEntry) (flds : List FldDesc) : Prop :=
  ∀ d ∈ flds, (lookup types d.tname).map LookupEntry.shape
    = (lookup types' d.tname).map LookupEntry.shape

theorem inPointers_congr {ent ent' : LookupEntry} (h : ent.kind = ent'.kind) (list : Bool) :
    inPointers ent list = inPointers ent' list := by
  unfold inPointers
  rw [h]

theorem fieldAlignment_eq {types types' : List LookupEntry} {d : FldDesc}
    (h : (lookup types d.tname).map LookupEntry.shape
      = (lookup types' d.tname).map LookupEntry.shape) :
    fieldAlignment types d = fieldAlignment types' d := by
  unfold fieldAlignment
  cases hent : lookup types d.tname <;> cases hent' : lookup types' d.tname <;>
    simp only [hent, hent', Option.map_none, Option.map_some, reduceCtorEq, Option.some.injEq,
      LookupEntry.shape, Prod.mk.injEq] at h
  · rfl
  · have hin : ∀ list, inPointers _ list = inPointers _ list := fun list =>
      inPointers_congr h.1 list
    simp only [hin, h.2]

theorem SameTypes.alignmentOf_eq {types types' : List LookupEntry} {flds : List FldDesc}
    (h : SameTypes types types' flds) : alignmentOf types flds = alignmentOf types' flds :=
  List.foldl_ext _ _ _ fun _ d hd => by rw [fieldAlignment_eq (h d hd)]

/-- Two loops over the fields of a message have done the same, up to the alignment that the first
one started with. -/
structure SamePlaces (b : Nat) (st st' : MsgState) : Prop where
  ssize : st.ssize = st'.ssize
  psize : st.psize = st'.psize
  pads : st.pads = st'.pads
  align : st.alignment = max b st'.alignment
  tags : st.fields.map FieldDesc.tag0 = st'.fields.map FieldDesc.tag0

theorem SamePlaces.step {types types' : List LookupEntry} {b : Nat} {st st' u u' : MsgState}
    {d : FldDesc} (h : SamePlaces b st st') (hsame : (lookup types d.tname).map LookupEntry.shape
      = (lookup types' d.tname).map LookupEntry.shape)
    (hu : outfield types st d = some u) (hu' : outfield types' st' d = some u') :
    SamePlaces b u u' := by
  have halign := h.align
  obtain ⟨ent, hent, hcase⟩ := outfield_eq_some hu
  obtain ⟨ent', hent', hcase'⟩ := outfield_eq_some hu'
  simp only [hent, hent', Option.map_some, Option.some.injEq, LookupEntry.shape, Prod.mk.injEq]
    at hsame
  obtain ⟨hkind, hsize⟩ := hsame
  have hin := inPointers_congr hkind d.list
  rcases hcase with ⟨h1, rfl⟩ | ⟨h1, offset, ssize, pads, hcalc, rfl⟩ <;>
    rcases hcase' with ⟨h2, rfl⟩ | ⟨h2, offset', ssize', pads', hcalc', rfl⟩
  · exact ⟨h.ssize, by simp only [h.psize], h.pads, (show max _ _ = _ by simp only; omega),
      by simp [h.tags, h.psize, fieldOf]⟩
  · rw [hin, h2] at h1
    cases h1
  · rw [← hin, h1] at h2
    cases h2
  · rw [h.ssize, h.pads, hsize, hcalc', Prod.mk.injEq, Prod.mk.injEq] at hcalc
    obtain ⟨rfl, rfl, rfl⟩ := hcalc
    exact ⟨rfl, h.psize, rfl, (show max _ _ = _ by simp only [hsize]; omega),
      by simp [h.tags, fieldOf]⟩

theorem SamePlaces.run {types types' : List LookupEntry} {b : Nat} {flds : List FldDesc}
    (hsame : SameTypes types types' flds) {st st' u u' : MsgState} (h : SamePlaces b st st')
    (hu : Run.run (outfield types) st flds = some u)
    (hu' : Run.run (outfield types') st' flds = some u') : SamePlaces b u u' := by
  induction flds generalizing st st' with
  | nil =>
      cases hu
      cases hu'
      exact h
  | cons d flds ih =>
      rw [run_cons, Option.bind_eq_some_iff] at hu hu'
      obtain ⟨v, hv, hu⟩ := hu
      obtain ⟨v', hv', hu'⟩ := hu'
      exact ih (fun e he => hsame e (List.mem_cons_of_mem _ he))
        (h.step (hsame d List.mem_cons_self) hv hv') hu hu'

/-! ## Messages -/

/-- **The layout of a message depends on its own fields only**: it is the one the message has by
itself, and its size is the least that its own alignment allows. -/
structure OwnLayout (types : List LookupEntry) (m : MsgType) (ms : Nbuf.MsgType) : Prop where
  same : ∀ types' own, SameTypes types types' m.flds → outmsgs types' [m] = some [own] →
    ms.SameLayout own
  least : IsLeast (sizesFor (scalarEnd ms.fields) ms.psize (alignmentOf types m.flds)) ms.ssize

/-- **When a layout depends on the messages before.** In the output for an accepted schema, the
layout of a message depends on its own fields only if and only if its size by the layout rule, by
itself, is below `65536` and the largest alignment in the messages before it is not larger than its
own, or divides the bytes of one such message anyway. -/
theorem ownLayout_iff {schema : SchemaDesc} {types : List LookupEntry}
    (hlook : makelookup schema = some types) {out : List Nbuf.MsgType}
    (hout : outmsgs types schema.msgs = some out) (pre post : List MsgType) (m : MsgType)
    (hm : schema.msgs = pre ++ m :: post) :
    ∃ ms size, out[pre.length]? = some ms ∧ layoutSizes types [m] = some [size] ∧
      (OwnLayout types m ms ↔ size < 2 ^ 16 ∧
        (alignmentOf types (pre.flatMap MsgType.flds) ≤ alignmentOf types m.flds ∨
          alignmentOf types (pre.flatMap MsgType.flds) ∣ size + 4 * pointerFields types m)) := by
  have htypes : WfTypes types := fun _ _ hent => lookup_wf hlook hent
  obtain ⟨st0, st, hpre, hst, hget⟩ := outmsgs_msg hout hm
  have hb : st0.alignment = alignmentOf types (pre.flatMap MsgType.flds) := by
    rw [run_outmsg_alignment hpre, Nat.zero_max]
  rw [hb] at hst
  -- the rule on the message alone
  obtain ⟨u, hu, hfollows⟩ := run_simulates (fun _ _ _ _ hR hstep => hR.step htypes hstep)
    (follows_start (alignmentOf types (pre.flatMap MsgType.flds))) hst
  have ha : u.alignment = alignmentOf types m.flds := by
    rw [run_alignment (fun _ _ _ => layoutField_alignment) hu]
    exact Nat.zero_max _
  have hp : u.psize = pointerFields types m := by
    rw [run_layoutField_psize hu]
    exact Nat.zero_add _
  refine ⟨⟨m.name, st.fields, roundedSsize st % 2 ^ 16, st.psize⟩, roundedSsize u, hget, ?_, ?_⟩
  · have hu' : run (layoutField types) (MsgState.start 0) m.flds = some u := hu
    simp [layoutSizes, run_cons, layoutMsg, hu']
  have halign := isAlignment_alignmentOf htypes m.flds
  have halign' := isAlignment_alignmentOf htypes (pre.flatMap MsgType.flds)
  have hsize := isLeast_roundedSsize u
  have hr := isLeast_roundedSsize st
  have hlow : u.ssize ≤ roundedSsize u := le_roundedSsize u
  rw [ha, hp] at hsize
  rw [hfollows.align, hfollows.psize_eq, ha, hp, sizesFor_mod (halign'.max halign)] at hr
  have hsizes : sizesFor (scalarEnd st.fields) st.psize (alignmentOf types m.flds)
      = sizesFor (scalarEnd st.fields) (pointerFields types m) (alignmentOf types m.flds) := by
    rw [hfollows.psize_eq, hp, sizesFor_mod halign]
  constructor
  · intro hown
    have hleast : IsLeast _ (roundedSsize st % 2 ^ 16) := hown.least
    rw [hsizes] at hleast
    have hcut : roundedSsize st % 2 ^ 16 < 2 ^ 16 := Nat.mod_lt _ (by decide)
    have hlt : u.ssize < 2 ^ 16 := by
      by_contra hge
      have hends := hfollows.above (by omega)
      have := hleast.1.1
      omega
    obtain ⟨hssize, -, hends, -⟩ := hfollows.below hlt
    rw [hssize] at hr
    rw [hends] at hleast
    exact (cut_eq_iff halign halign' hlt hsize hr).mp (hleast.unique hsize)
  · intro hcond
    have hlt : u.ssize < 2 ^ 16 := by omega
    obtain ⟨hssize, -, hends, -⟩ := hfollows.below hlt
    rw [hssize] at hr
    have heq := (cut_eq_iff halign halign' hlt hsize hr).mpr hcond
    constructor
    case same =>
      intro types' own hsame hown
      obtain ⟨stOwn, hrunOwn, hown⟩ := Option.map_eq_some_iff.mp hown
      rw [run_cons, Option.bind_eq_some_iff] at hrunOwn
      obtain ⟨st2, hst2, hlast⟩ := hrunOwn
      cases hlast
      obtain ⟨v, hv, -, hmsgs2⟩ := outmsg_eq_some hst2
      rw [hown, List.nil_append, List.cons.injEq] at hmsgs2
      rw [hmsgs2.1]
      have hstart : ∀ b, SamePlaces b (MsgState.start b) (MsgState.start 0) := fun b =>
        ⟨rfl, rfl, rfl, (Nat.max_zero b).symm, rfl⟩
      have hplaces := (hstart _).run hsame hst hv
      refine ⟨?_, hplaces.psize, hplaces.tags⟩
      have hav : v.alignment = alignmentOf types m.flds := by
        rw [run_alignment (fun _ _ _ => outfield_alignment) hv, hsame.alignmentOf_eq]
        exact Nat.zero_max _
      have hsizev := isLeast_roundedSsize v
      rw [hav, ← hplaces.ssize, ← hplaces.psize, hssize, hfollows.psize_eq, hp, sizesFor_mod halign]
        at hsizev
      show roundedSsize st % 2 ^ 16 = roundedSsize v % 2 ^ 16
      rw [heq, hsizev.unique hsize, Nat.mod_eq_of_lt hcond.1]
    case least =>
      show IsLeast _ (roundedSsize st % 2 ^ 16)
      rw [hsizes, hends, heq]
      exact hsize

/-- A message with a bool and one with a number of eight bytes. -/
def narrowMsg : MsgType := ⟨asc "N", [⟨asc "x", asc "bool", false⟩]⟩

def wideMsg : MsgType := ⟨asc "W", [⟨asc "a", asc "int64", false⟩]⟩

def widthsSchema (msgs : List MsgType) : SchemaDesc := ⟨none, [], msgs⟩

/-- The types of a schema. -/
def tableOf (schema : SchemaDesc) : List LookupEntry := (allTypes schema).insertionSort lookupLe

theorem wideMsg_ownLayout : ∃ ms : Nbuf.MsgType, ms.ssize = 8 ∧
    OwnLayout (tableOf (widthsSchema [narrowMsg, wideMsg])) wideMsg ms := by
  have hlook : makelookup (widthsSchema [narrowMsg, wideMsg])
      = some (tableOf (widthsSchema [narrowMsg, wideMsg])) := by decide
  have hout : outmsgs (tableOf (widthsSchema [narrowMsg, wideMsg])) [narrowMsg, wideMsg]
      = some [⟨asc "N", [⟨asc "x", .bool, false, 0, 0⟩], 1, 0⟩,
        ⟨asc "W", [⟨asc "a", .int, false, 0, 8⟩], 8, 0⟩] := by decide
  obtain ⟨ms, size, hms, hsize, hiff⟩ := ownLayout_iff hlook hout [narrowMsg] [] wideMsg rfl
  cases hms
  rw [show layoutSizes (tableOf (widthsSchema [narrowMsg, wideMsg])) [wideMsg] = some [8] by decide,
    Option.some.injEq, List.cons.injEq] at hsize
  exact ⟨_, rfl, hiff.mpr (by rw [← hsize.1]; decide)⟩

/-- **A bool takes eight bytes** behind a message with a number of eight bytes. -/
theorem narrowMsg_layout_carried :
    makelookup (widthsSchema [wideMsg, narrowMsg])
        = some (tableOf (widthsSchema [wideMsg, narrowMsg])) ∧
      ∃ wide narrow : Nbuf.MsgType,
        outmsgs (tableOf (widthsSchema [wideMsg, narrowMsg])) [wideMsg, narrowMsg]
          = some [wide, narrow] ∧ narrow.ssize = 8 ∧
        ¬ OwnLayout (tableOf (widthsSchema [wideMsg, narrowMsg])) narrowMsg narrow := by
  have hown : outmsgs (tableOf (widthsSchema [wideMsg, narrowMsg])) [narrowMsg]
      = some [⟨asc "N", [⟨asc "x", .bool, false, 0, 0⟩], 1, 0⟩] := by decide
  refine ⟨by decide, ⟨asc "W", [⟨asc "a", .int, false, 0, 8⟩], 8, 0⟩,
    ⟨asc "N", [⟨asc "x", .bool, false, 0, 0⟩], 8, 0⟩, by decide, rfl, fun h => ?_⟩
  have hsame := (h.same _ _ (fun _ _ => rfl) hown).1
  exact absurd hsame (by decide)

end T2b

end Nbuf
