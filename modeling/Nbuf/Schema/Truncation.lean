import Nbuf.Schema.FieldAccess

set_option autoImplicit false

/-! # Truncated sizes

`outmsgs` keeps the sizes of a message in two `uint16_t`. The layout rule is the same loop with
unbounded sizes. The sizes of the rule are stored, and the fields kept apart, exactly when both
of them are below `65536`: nothing in the code checks it.
-/

namespace Nbuf

/-! ## Fields that share nothing -/

/-- Two fields share no bit of the scalar part and no pointer slot. -/
def FieldDesc.Apart (f f' : FieldDesc) : Prop :=
  BitsDisjoint f f' ∧ (f.inPointers = true → f'.inPointers = true → f.tag0 ≠ f'.tag0)

/-- No two fields of the message share a byte, a bit or a pointer slot. -/
def MsgType.NoSharing (ms : MsgType) : Prop := ms.fields.Pairwise FieldDesc.Apart

/-- In a sound layout the fields are apart. -/
theorem MsgType.SoundLayout.noSharing {ms : MsgType} (h : ms.SoundLayout) : ms.NoSharing := by
  have hbits : ms.fields.Pairwise BitsDisjoint := by
    have := List.pairwise_filterMap.mp h.disjoint
    exact this.imp fun hff s hs s' hs' => hff s hs s' hs'
  have hslots : ms.fields.Pairwise fun f f' =>
      f.inPointers = true → f'.inPointers = true → f.tag0 ≠ f'.tag0 := by
    have hnodup : ((ms.fields.filter FieldDesc.inPointers).map FieldDesc.tag0).Nodup := by
      rw [h.slots]
      exact List.nodup_range
    exact List.pairwise_filter.mp (List.pairwise_map.mp hnodup)
  exact hbits.and hslots

namespace T2b

open Run

/-! ## The layout rule -/

/-- `outfield` with unbounded sizes. -/
def layoutField (types : List LookupEntry) (st : MsgState) (d : FldDesc) : Option MsgState := do
  let ent ← lookup types d.tname
  if inPointers ent d.list = true then
    pure { st with
      psize := st.psize + 1
      alignment := max st.alignment 4
      fields := st.fields ++ [fieldOf d.name ent d.list st.psize] }
  else
    let (offset, _, pads) := calculateOffset st.ssize st.pads ent.size
    pure { st with
      ssize := st.ssize + growth st.ssize st.pads ent.size
      alignment := max st.alignment ent.size
      pads := pads
      fields := st.fields ++ [fieldOf d.name ent d.list offset] }

/-- The alignment that is carried on, and the sizes of the messages so far. -/
structure LayoutState where
  alignment : Nat
  sizes : List Nat

/-- `outmsg` with unbounded sizes. -/
def layoutMsg (types : List LookupEntry) (st : LayoutState) (m : MsgType) :
    Option LayoutState := do
  let ms ← run (layoutField types) (MsgState.start st.alignment) m.flds
  pure ⟨ms.alignment, st.sizes ++ [roundedSsize ms]⟩

/-- **The layout rule**: the size of the scalar part of each message. -/
def layoutSizes (types : List LookupEntry) (msgs : List MsgType) : Option (List Nat) :=
  (run (layoutMsg types) ⟨0, []⟩ msgs).map LayoutState.sizes

/-- Does the field go into the pointer part? -/
def pointerField (types : List LookupEntry) (d : FldDesc) : Bool :=
  (lookup types d.tname).any fun ent => inPointers ent d.list

/-- The number of pointer fields of a message. -/
def pointerFields (types : List LookupEntry) (m : MsgType) : Nat :=
  m.flds.countP (pointerField types)

/-- What one step of the rule does. -/
theorem layoutField_eq_some {types : List LookupEntry} {st st' : MsgState} {d : FldDesc}
    (h : layoutField types st d = some st') :
    st.ssize ≤ st'.ssize ∧ st'.psize = st.psize + if pointerField types d then 1 else 0 := by
  unfold layoutField at h
  simp only [Option.bind_eq_bind, Option.bind_eq_some_iff] at h
  obtain ⟨ent, hent, h⟩ := h
  have hptr : pointerField types d = inPointers ent d.list := by simp [pointerField, hent]
  rw [hptr]
  by_cases hin : inPointers ent d.list = true
  · rw [if_pos hin] at h
    cases h
    simp [hin]
  · rw [if_neg hin] at h
    cases h
    simp [hin]

/-- The rule counts the pointer fields. -/
theorem run_layoutField_psize {types : List LookupEntry} {flds : List FldDesc} {st st' : MsgState}
    (h : run (layoutField types) st flds = some st') :
    st'.psize = st.psize + flds.countP (pointerField types) := by
  induction flds generalizing st with
  | nil =>
      cases h
      rfl
  | cons d flds ih =>
      rw [run_cons, Option.bind_eq_some_iff] at h
      obtain ⟨st1, hst1, hrest⟩ := h
      have hstep := (layoutField_eq_some hst1).2
      have hcount := ih hrest
      rw [List.countP_cons]
      omega

/-! ## The code follows the rule until a size is cut -/

/-- The code is in state `st` when the rule is in state `u`: as long as no size of the rule has
reached `65536`, they are the same. -/
structure Tracks (u st : MsgState) : Prop where
  alignment_eq : u.alignment = st.alignment
  psize_lt : st.psize < 2 ^ 16
  exact_below : u.ssize < 2 ^ 16 → u.psize < 2 ^ 16 → u = st ∧ Inv st

theorem tracks_start {alignment : Nat} (ha : IsAlignment alignment) :
    Tracks (MsgState.start alignment) (MsgState.start alignment) :=
  ⟨rfl, (inv_start ha).psize_lt, fun _ _ => ⟨rfl, inv_start ha⟩⟩

/-- Where the new sizes fit 16 bits, one step of the code is one step of the rule. -/
theorem layoutField_eq_outfield {types : List LookupEntry} {st u' : MsgState} {d : FldDesc}
    (hinv : Inv st) (h : layoutField types st d = some u') (hs : u'.ssize < 2 ^ 16)
    (hp : u'.psize < 2 ^ 16) : outfield types st d = some u' ∧ FieldFits types st d := by
  unfold layoutField at h
  simp only [Option.bind_eq_bind, Option.bind_eq_some_iff] at h
  obtain ⟨ent, hent, h⟩ := h
  have hssize := calculateOffset_ssize st.ssize st.pads ent.size hinv.ssize_lt
  unfold outfield FieldFits
  simp only [hent, Option.bind_eq_bind, Option.bind_some, Option.some.injEq, forall_eq']
  by_cases hin : inPointers ent d.list = true
  · rw [if_pos hin] at h ⊢
    cases h
    rw [if_pos hin]
    have hp' : st.psize + 1 < 2 ^ 16 := hp
    exact ⟨by rw [Nat.mod_eq_of_lt hp']; rfl, hp'⟩
  · rw [if_neg hin] at h ⊢
    cases h
    rw [if_neg hin]
    have hs' : st.ssize + growth st.ssize st.pads ent.size < 2 ^ 16 := hs
    rw [Nat.mod_eq_of_lt hs'] at hssize
    exact ⟨by rw [← hssize]; rfl, hs'⟩

/-- **The code tracks the rule** over one field. -/
theorem Tracks.step {types : List LookupEntry} (htypes : WfTypes types) {u st st' : MsgState}
    {d : FldDesc} (h : Tracks u st) (hstep : outfield types st d = some st') :
    ∃ u', layoutField types u d = some u' ∧ Tracks u' st' := by
  obtain ⟨ent, hent, hcase⟩ := outfield_eq_some hstep
  have hsome : ∃ u', layoutField types u d = some u' ∧ u'.alignment = st'.alignment := by
    unfold layoutField
    simp only [hent, Option.bind_eq_bind, Option.bind_some]
    rcases hcase with ⟨hin, rfl⟩ | ⟨hin, _, _, _, -, rfl⟩
    · exact ⟨_, if_pos hin, by simp only [h.alignment_eq]⟩
    · exact ⟨_, if_neg (by simp [hin]), by simp only [h.alignment_eq]⟩
  obtain ⟨u', hu', halign⟩ := hsome
  refine ⟨u', hu', ?_⟩
  obtain ⟨hgrow, hcount⟩ := layoutField_eq_some hu'
  constructor
  case alignment_eq => exact halign
  case psize_lt =>
    rcases hcase with ⟨-, rfl⟩ | ⟨-, _, _, _, -, rfl⟩
    · exact Nat.mod_lt _ (by decide)
    · exact h.psize_lt
  case exact_below =>
    intro hs hp
    -- the sizes only grow, so they fitted before the field
    obtain ⟨rfl, hinv⟩ := h.exact_below (by omega) (by omega)
    obtain ⟨heq, hfits⟩ := layoutField_eq_outfield hinv hu' hs hp
    have hsame : u' = st' := Option.some.inj (heq.symm.trans hstep)
    exact ⟨hsame, hinv.outfield htypes hfits hstep⟩

/-! ## Messages -/

/-- Message `m` is stored as `ms`, and the rule gives its scalar part the size `size`. -/
structure Stored (types : List LookupEntry) (m : MsgType) (ms : Nbuf.MsgType) (size : Nat) :
    Prop where
  ssize_lt : ms.ssize < 2 ^ 16
  psize_lt : ms.psize < 2 ^ 16
  exact_below : size < 2 ^ 16 → pointerFields types m < 2 ^ 16 →
    ms.ssize = size ∧ ms.psize = pointerFields types m ∧ ms.NoSharing

/-- One message: the rule gives a size for what the code stores. -/
theorem outmsg_stored {types : List LookupEntry} (htypes : WfTypes types) {st st' : OutState}
    {m : MsgType} (ha : IsAlignment st.alignment) (h : outmsg types st m = some st')
    (sizes : List Nat) :
    ∃ ms size, st'.msgs = st.msgs ++ [ms] ∧ Stored types m ms size ∧
      layoutMsg types ⟨st.alignment, sizes⟩ m = some ⟨st'.alignment, sizes ++ [size]⟩ := by
  obtain ⟨ms, hrun, halign, hmsgs⟩ := outmsg_eq_some h
  obtain ⟨u, hu, htracks⟩ := run_simulates (fun _ _ _ _ hR hstep => hR.step htypes hstep)
    (tracks_start ha) hrun
  have hcount : u.psize = pointerFields types m := by
    rw [run_layoutField_psize hu]
    exact Nat.zero_add _
  refine ⟨_, roundedSsize u, hmsgs, ?_, ?_⟩
  · constructor
    case ssize_lt => exact Nat.mod_lt _ (by decide)
    case psize_lt => exact htracks.psize_lt
    case exact_below =>
      intro hs hp
      have hle := le_roundedSsize u
      obtain ⟨rfl, hinv⟩ := htracks.exact_below (by omega) (by omega)
      exact ⟨Nat.mod_eq_of_lt hs, hcount, (hinv.soundLayout hs m.name).noSharing⟩
  · unfold layoutMsg
    rw [hu, halign, ← htracks.alignment_eq]
    rfl

/-- All messages, by position. -/
theorem run_outmsg_stored {types : List LookupEntry} (htypes : WfTypes types)
    {msgs : List MsgType} {st st' : OutState} (ha : IsAlignment st.alignment)
    (h : run (outmsg types) st msgs = some st') (sizes : List Nat) :
    ∃ (out : List Nbuf.MsgType) (more : List Nat), st'.msgs = st.msgs ++ out ∧
      run (layoutMsg types) ⟨st.alignment, sizes⟩ msgs = some ⟨st'.alignment, sizes ++ more⟩ ∧
      out.length = msgs.length ∧ more.length = msgs.length ∧
      ∀ (i : Nat) (m : MsgType), msgs[i]? = some m →
        ∃ ms size, out[i]? = some ms ∧ more[i]? = some size ∧ Stored types m ms size := by
  induction msgs generalizing st sizes with
  | nil =>
      cases h
      exact ⟨[], [], by simp, by simp, rfl, rfl, fun i m hm => by simp at hm⟩
  | cons m msgs ih =>
      rw [run_cons, Option.bind_eq_some_iff] at h
      obtain ⟨st1, hst1, hrest⟩ := h
      obtain ⟨ms, size, hmsgs, hstored, hlayout⟩ := outmsg_stored htypes ha hst1 sizes
      obtain ⟨out, more, hout, hrun, hlen, hlen', hall⟩ :=
        ih (isAlignment_outmsg htypes ha hst1) hrest (sizes ++ [size])
      refine ⟨ms :: out, size :: more, ?_, ?_, by simp [hlen], by simp [hlen'], ?_⟩
      · rw [hout, hmsgs, List.append_assoc, List.singleton_append]
      · rw [run_cons_of_eq hlayout, hrun, List.append_assoc, List.singleton_append]
      · intro i m' hm'
        cases i with
        | zero =>
            cases hm'
            exact ⟨ms, size, rfl, rfl, hstored⟩
        | succ i => exact hall i m' hm'

/-- **Sizes are cut exactly from `65536` on.** For every accepted schema and every message in it,
the stored sizes are those of the layout rule and no two fields share a byte, a bit or a pointer
slot if and only if the rule's size and the number of pointer fields are below `65536`. -/
theorem sizes_untruncated_iff {schema : SchemaDesc} {types : List LookupEntry}
    (hlook : makelookup schema = some types) {out : List Nbuf.MsgType}
    (hout : outmsgs types schema.msgs = some out) :
    ∃ sizes, layoutSizes types schema.msgs = some sizes ∧
      ∀ (i : Nat) (m : MsgType), schema.msgs[i]? = some m →
        ∃ (ms : Nbuf.MsgType) (size : Nat), out[i]? = some ms ∧ sizes[i]? = some size ∧
          ((ms.ssize = size ∧ ms.psize = pointerFields types m ∧ ms.NoSharing) ↔
            size < 2 ^ 16 ∧ pointerFields types m < 2 ^ 16) := by
  have htypes : WfTypes types := fun _ _ hent => lookup_wf hlook hent
  obtain ⟨st, hrun, rfl⟩ := Option.map_eq_some_iff.mp hout
  obtain ⟨out, sizes, hmsgs, hlayout, -, -, hall⟩ :=
    run_outmsg_stored htypes (by simp [IsAlignment]) hrun []
  refine ⟨sizes, by rw [layoutSizes, hlayout]; rfl, ?_⟩
  intro i m hm
  obtain ⟨ms, size, hms, hsize, hstored⟩ := hall i m hm
  refine ⟨ms, size, by rw [hmsgs]; exact hms, hsize, ?_⟩
  constructor
  · rintro ⟨hs, hp, -⟩
    exact ⟨hs ▸ hstored.ssize_lt, hp ▸ hstored.psize_lt⟩
  · rintro ⟨hs, hp⟩
    exact hstored.exact_below hs hp

theorem packedSchema_sizes : ∃ sizes, layoutSizes ((allTypes packedSchema).insertionSort lookupLe)
    packedSchema.msgs = some sizes ∧ ∃ ms : Nbuf.MsgType, ms.ssize = 16 ∧ ms.NoSharing := by
  have hlook : makelookup packedSchema
      = some ((allTypes packedSchema).insertionSort lookupLe) := by decide
  have hout : outmsgs ((allTypes packedSchema).insertionSort lookupLe) packedSchema.msgs
      = some [packedType] := by decide
  have hsizes : layoutSizes ((allTypes packedSchema).insertionSort lookupLe) packedSchema.msgs
      = some [16] := by decide
  obtain ⟨sizes, hs, hall⟩ := sizes_untruncated_iff hlook hout
  obtain ⟨ms, size, hms, hsize, hiff⟩ := hall 0 packedMsg rfl
  cases hs.symm.trans hsizes
  cases hms
  cases hsize
  have hstored := hiff.mpr (by decide)
  exact ⟨_, hs, _, hstored.1, hstored.2.2⟩

/-- A message with `n` strings, whose names are all different. -/
def stringsMsg (n : Nat) : MsgType :=
  ⟨asc "M", (List.range n).map fun i => ⟨List.replicate (i + 1) 97, asc "string", false⟩⟩

/-- The schema with this message only. -/
def stringsSchema (n : Nat) : SchemaDesc := ⟨none, [], [stringsMsg n]⟩

/-- The types of this schema. -/
def stringsTypes : List LookupEntry := (allTypes (stringsSchema 0)).insertionSort lookupLe

theorem stringsSchema_types (n : Nat) : makelookup (stringsSchema n) = some stringsTypes := by
  show makelookup (stringsSchema 0) = some stringsTypes
  decide

theorem stringsTypes_string :
    lookup stringsTypes (asc "string") = some ⟨asc "string", .str, 1, 0⟩ := by decide

theorem stringsMsg_tname {n : Nat} {d : FldDesc} (hd : d ∈ (stringsMsg n).flds) :
    d.tname = asc "string" := by
  obtain ⟨i, -, rfl⟩ := List.mem_map.mp hd
  rfl

/-- All its fields are pointer fields. -/
theorem stringsMsg_pointerFields (n : Nat) : pointerFields stringsTypes (stringsMsg n) = n := by
  have hall : ∀ d ∈ (stringsMsg n).flds, pointerField stringsTypes d = true := by
    intro d hd
    rw [pointerField, stringsMsg_tname hd, stringsTypes_string]
    simp [inPointers]
  rw [pointerFields, List.countP_eq_length.mpr hall]
  simp [stringsMsg]

/-- The compiler accepts it. -/
theorem stringsSchema_accepted (n : Nat) :
    ∃ ms, outmsgs stringsTypes (stringsSchema n).msgs = some [ms] ∧ ms.psize < 2 ^ 16 := by
  have hstep : ∀ (st : MsgState) (d : FldDesc), st.psize < 2 ^ 16 → d.tname = asc "string" →
      ∃ st', outfield stringsTypes st d = some st' ∧ st'.psize < 2 ^ 16 := by
    intro st d _ hd
    have hin : inPointers ⟨asc "string", .str, 1, 0⟩ d.list = true := by simp [inPointers]
    unfold outfield
    rw [hd, stringsTypes_string]
    exact ⟨_, if_pos hin, Nat.mod_lt (st.psize + 1) (by decide)⟩
  obtain ⟨st, hrun, hlt⟩ := run_invariant hstep (show (MsgState.start 0).psize < 2 ^ 16 by decide)
    (allSteps_of_forall (fun d hd _ => stringsMsg_tname hd) _)
  refine ⟨⟨asc "M", st.fields, roundedSsize st % 2 ^ 16, st.psize⟩, ?_, hlt⟩
  show (run (outmsg stringsTypes) ⟨0, []⟩ [stringsMsg n]).map OutState.msgs = _
  rw [run_cons, outmsg, hrun]
  rfl

/-- With `65536` strings the stored number of pointers is not the number of pointer fields. -/
theorem strings_truncated : ∃ ms, makelookup (stringsSchema 65536) = some stringsTypes ∧
    outmsgs stringsTypes (stringsSchema 65536).msgs = some [ms] ∧
    ms.psize ≠ pointerFields stringsTypes (stringsMsg 65536) := by
  obtain ⟨ms, hms, hlt⟩ := stringsSchema_accepted 65536
  refine ⟨ms, stringsSchema_types _, hms, ?_⟩
  rw [stringsMsg_pointerFields]
  exact Nat.ne_of_lt hlt

end T2b

end Nbuf
