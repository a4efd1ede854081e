import Nbuf.Schema.CarriedAlignment
import Nbuf.Schema.Compiled
import Nbuf.Schema.FieldAccess

set_option autoImplicit false

/-! # Fields added at the end of a message

A later version of a message has more fields behind those of the earlier version. The layout loop
does not look ahead, so the fields that were there keep their places. The new fields get bits that
none of them has, inside the padding or behind the end, and slots behind theirs.
-/

namespace Nbuf

open Run Cover

/-! ## Fields at the same place -/

/-- Fields that the accessors of a message cannot tell apart. -/
structure FieldDesc.SamePlace (f f' : FieldDesc) : Prop where
  kind_eq : f.kind = f'.kind
  list_eq : f.list = f'.list
  tag0_eq : f.tag0 = f'.tag0
  width_eq : f.inPointers = false → f.width = f'.width

section

variable {f f' : FieldDesc} (h : f.SamePlace f')

include h

theorem FieldDesc.SamePlace.inPointers_eq : f.inPointers = f'.inPointers := by
  unfold FieldDesc.inPointers
  rw [h.kind_eq, h.list_eq]

theorem FieldDesc.SamePlace.bits_eq : f.bits = f'.bits := by
  unfold FieldDesc.bits
  rw [h.inPointers_eq, h.kind_eq, h.tag0_eq]
  by_cases hin : f'.inPointers = true
  · rw [if_pos hin, if_pos hin]
  · rw [h.width_eq (by rw [h.inPointers_eq]; exact Bool.eq_false_iff.mpr hin)]

end

/-- The fields of `ms` are in `ms'`, each at its place, and other fields may follow. -/
def MsgType.Extends (ms ms' : MsgType) : Prop :=
  ∃ old new, ms'.fields = old ++ new ∧ List.Forall₂ FieldDesc.SamePlace ms.fields old

/-! ## The loop over the fields -/

namespace T2b

theorem SameTypes.symm {types types' : List LookupEntry} {flds : List FldDesc}
    (h : SameTypes types types' flds) : SameTypes types' types flds :=
  fun d hd => (h d hd).symm

/-- The loops over the same fields give the same places, whatever alignments they start with. -/
theorem run_outfield_tags {types types' : List LookupEntry} {flds : List FldDesc}
    (hsame : SameTypes types types' flds) {a a' : Nat} {st st' : MsgState}
    (h : run (outfield types) (MsgState.start a) flds = some st)
    (h' : run (outfield types') (MsgState.start a') flds = some st') :
    st.fields.map FieldDesc.tag0 = st'.fields.map FieldDesc.tag0 := by
  -- the loop with the larger alignment follows the other one
  rcases Nat.le_total a' a with hle | hle
  · have hstart : SamePlaces a (MsgState.start a) (MsgState.start a') :=
      ⟨rfl, rfl, rfl, (Nat.max_eq_left hle).symm, rfl⟩
    exact (hstart.run hsame h h').tags
  · have hstart : SamePlaces a' (MsgState.start a') (MsgState.start a) :=
      ⟨rfl, rfl, rfl, (Nat.max_eq_left hle).symm, rfl⟩
    exact (hstart.run hsame.symm h' h).tags.symm

/-- Compiled fields of one shape with one `tag0` are at the same place. -/
theorem samePlace_of_shape {f f' : FieldDesc} {ent ent' : LookupEntry}
    (hkind : f.kind = ent.kind) (htag1 : f.tag1 = tagOne ent) (hkind' : f'.kind = ent'.kind)
    (htag1' : f'.tag1 = tagOne ent') (hshape : ent.shape = ent'.shape) (hlist : f.list = f'.list)
    (htag0 : f.tag0 = f'.tag0) : f.SamePlace f' := by
  obtain ⟨hk, hsize⟩ := Prod.mk.inj hshape
  refine ⟨by rw [hkind, hkind', hk], hlist, htag0, fun hin => ?_⟩
  have hptr : ent.kind ≠ .ptr := by
    intro hp
    simp [FieldDesc.inPointers, hkind, hp] at hin
  unfold FieldDesc.width
  rw [hkind, hkind', ← hk, htag1, htag1']
  by_cases he : ent.kind = .enum
  · rw [if_pos he, if_pos he]
  · -- neither an enum nor a message: `tag1` is the size
    rw [if_neg he, if_neg he, tagOne, tagOne, if_neg (by simp [he, hptr]),
      if_neg (by simp [← hk, he, hptr]), hsize]

/-- **What the loop has laid out stays**: it gives the fields of the shorter message the places
that they have in the longer one. -/
theorem run_outfield_extends {types types' : List LookupEntry} {flds more : List FldDesc}
    (hsame : SameTypes types types' flds) {a a' : Nat} {st st' : MsgState}
    (h : run (outfield types) (MsgState.start a) flds = some st)
    (h' : run (outfield types') (MsgState.start a') (flds ++ more) = some st') :
    ∃ old new, st'.fields = old ++ new ∧ List.Forall₂ FieldDesc.SamePlace st.fields old := by
  rw [run_append, Option.bind_eq_some_iff] at h'
  obtain ⟨mid, hmid, hrest⟩ := h'
  obtain ⟨new, hnew, -⟩ := run_outfield_fields hrest
  refine ⟨mid.fields, new, hnew, ?_⟩
  have htags := run_outfield_tags hsame h hmid
  obtain ⟨fields, hfields, hcomp⟩ := run_outfield_fields h
  obtain ⟨fields', hfields', hcomp'⟩ := run_outfield_fields hmid
  have hst : st.fields = fields := hfields
  have hst' : mid.fields = fields' := hfields'
  subst hst hst'
  obtain ⟨hlen, hget⟩ := List.forall₂_iff_get.mp hcomp
  obtain ⟨hlen', hget'⟩ := List.forall₂_iff_get.mp hcomp'
  apply List.forall₂_iff_get.mpr
  refine ⟨hlen.symm.trans hlen', fun i hi hi' => ?_⟩
  have hd : i < flds.length := by omega
  obtain ⟨-, hlist, ent, hent, hkind, htag1⟩ := hget i hd hi
  obtain ⟨-, hlist', ent', hent', hkind', htag1'⟩ := hget' i hd hi'
  have hshape : ent.shape = ent'.shape := by
    have := hsame _ (List.getElem_mem hd)
    rw [List.get_eq_getElem] at hent hent'
    rw [hent, hent', Option.map_some, Option.map_some, Option.some.injEq] at this
    exact this
  have htag0 : (st.fields.get ⟨i, hi⟩).tag0 = (mid.fields.get ⟨i, hi'⟩).tag0 := by
    have := congrArg (fun l => l[i]?) htags
    simpa [hi, hi'] using this
  exact samePlace_of_shape hkind htag1 hkind' htag1' hshape (hlist.trans hlist'.symm) htag0

/-! ## Two versions of a message -/

/-- The message `m` of an accepted schema with these types is compiled to `ms`, and its sizes fit
16 bits. -/
def CompiledTo (types : List LookupEntry) (m : MsgType) (ms : Nbuf.MsgType) : Prop :=
  ∃ schema out pre post, makelookup schema = some types ∧ outmsgs types schema.msgs = some out ∧
    schema.msgs = pre ++ m :: post ∧ FitsAfter types pre m ∧ out[pre.length]? = some ms

theorem CompiledTo.laidOut {types : List LookupEntry} {m : MsgType} {ms : Nbuf.MsgType}
    (h : CompiledTo types m ms) : LaidOut ms := by
  obtain ⟨schema, out, pre, post, hlook, hout, hm, hfits, hms⟩ := h
  exact ⟨schema, types, out, pre, post, m, hlook, hout, hm, hfits, hms⟩

theorem CompiledTo.run {types : List LookupEntry} {m : MsgType} {ms : Nbuf.MsgType}
    (h : CompiledTo types m ms) : ∃ a st,
      Run.run (outfield types) (MsgState.start a) m.flds = some st ∧ ms.fields = st.fields := by
  obtain ⟨schema, out, pre, post, -, hout, hm, -, hms⟩ := h
  obtain ⟨st0, st, -, hst, hget⟩ := outmsgs_msg hout hm
  rw [hget, Option.some.injEq] at hms
  exact ⟨st0.alignment, st, hst, hms ▸ rfl⟩

end T2b

/-- `ms'` is a later version of `ms`: both are laid out without 16-bit overflow, each in a schema
of its own, and the later source has the fields of the earlier one, of the same types, and more
behind them. -/
def MsgType.Evolves (ms ms' : MsgType) : Prop :=
  ∃ types types' m m' more, T2b.CompiledTo types m ms ∧ T2b.CompiledTo types' m' ms' ∧
    m'.flds = m.flds ++ more ∧ T2b.SameTypes types types' m.flds

section

variable {ms ms' : MsgType} (h : ms.Evolves ms')

include h

theorem MsgType.Evolves.soundLayout : ms.SoundLayout ∧ ms'.SoundLayout := by
  obtain ⟨_, _, _, _, _, hms, hms', -, -⟩ := h
  exact ⟨hms.laidOut.soundLayout, hms'.laidOut.soundLayout⟩

/-- **Old fields keep their places.** -/
theorem MsgType.Evolves.extends : ms.Extends ms' := by
  obtain ⟨types, types', m, m', more, hms, hms', hflds, hsame⟩ := h
  obtain ⟨a, st, hst, hfields⟩ := hms.run
  obtain ⟨a', st', hst', hfields'⟩ := hms'.run
  rw [hflds] at hst'
  obtain ⟨old, new, heq, hold⟩ := T2b.run_outfield_extends hsame hst hst'
  exact ⟨old, new, by rw [hfields', heq], by rw [hfields]; exact hold⟩

end

/-! ## What is left for the new fields -/

section

variable {ms ms' : MsgType} {old new : List FieldDesc}

/-- An old field of the later version has its place in the earlier one. -/
theorem exists_samePlace (hold : List.Forall₂ FieldDesc.SamePlace ms.fields old) {f : FieldDesc}
    (hf : f ∈ old) : ∃ g ∈ ms.fields, g.SamePlace f := by
  obtain ⟨k, hk, rfl⟩ := List.mem_iff_getElem.mp hf
  obtain ⟨hlen, hget⟩ := List.forall₂_iff_get.mp hold
  have hk' : k < ms.fields.length := by omega
  exact ⟨ms.fields[k], List.getElem_mem _, hget k hk' hk⟩

/-- A new field shares no bit with a field that was there before. -/
theorem new_bits_disjoint (hms' : ms'.SoundLayout) (hfields : ms'.fields = old ++ new)
    (hold : List.Forall₂ FieldDesc.SamePlace ms.fields old) {f f' : FieldDesc}
    (hf : f ∈ ms.fields) (hf' : f' ∈ new) : BitsDisjoint f f' := by
  have hpair : ms'.fields.Pairwise BitsDisjoint := List.pairwise_filterMap.mp hms'.disjoint
  rw [hfields, List.pairwise_append] at hpair
  obtain ⟨i, hi, rfl⟩ := List.mem_iff_getElem.mp hf
  obtain ⟨hlen, hget⟩ := List.forall₂_iff_get.mp hold
  have hi' : i < old.length := by omega
  have hplace : ms.fields[i].SamePlace old[i] := hget i hi hi'
  intro s hs s' hs'
  rw [hplace.bits_eq] at hs
  exact hpair.2.2 _ (List.getElem_mem _) f' hf' s hs s' hs'

theorem map_tag0_eq (hold : List.Forall₂ FieldDesc.SamePlace ms.fields old) :
    (ms.fields.filter FieldDesc.inPointers).map FieldDesc.tag0
      = (old.filter FieldDesc.inPointers).map FieldDesc.tag0 := by
  generalize ms.fields = fields at hold
  induction hold with
  | nil => rfl
  | @cons f f' fields old hplace _ ih =>
      have hin := hplace.inPointers_eq
      by_cases hp : f.inPointers = true
      · rw [List.filter_cons_of_pos hp, List.filter_cons_of_pos (hin ▸ hp), List.map_cons,
          List.map_cons, hplace.tag0_eq, ih]
      · rw [List.filter_cons_of_neg hp, List.filter_cons_of_neg (hin ▸ hp), ih]

/-- A new pointer field has a slot behind the old ones. -/
theorem new_slot_ge (hms : ms.SoundLayout) (hms' : ms'.SoundLayout)
    (hfields : ms'.fields = old ++ new)
    (hold : List.Forall₂ FieldDesc.SamePlace ms.fields old) {f : FieldDesc} (hf : f ∈ new)
    (hin : f.inPointers = true) : ms.psize ≤ f.tag0 := by
  have hslots := hms'.slots
  rw [hfields, List.filter_append, List.map_append, ← map_tag0_eq hold, hms.slots] at hslots
  -- the slots of the old fields come first, and none comes twice
  have hnodup : (List.range ms.psize
      ++ (new.filter FieldDesc.inPointers).map FieldDesc.tag0).Nodup := by
    rw [hslots]
    exact List.nodup_range
  have hmem : f.tag0 ∈ (new.filter FieldDesc.inPointers).map FieldDesc.tag0 :=
    List.mem_map_of_mem (List.mem_filter.mpr ⟨hf, hin⟩)
  by_contra hlt
  exact List.disjoint_of_nodup_append hnodup (List.mem_range.mpr (by omega)) hmem

end

/-- A pointer field whose slot the earlier version has is one of its fields. -/
theorem MsgType.Evolves.old_slot {ms ms' : MsgType} (h : ms.Evolves ms') {f : FieldDesc}
    (hf : f ∈ ms'.fields) (hin : f.inPointers = true) (hlt : f.tag0 < ms.psize) :
    ∃ g ∈ ms.fields, g.SamePlace f := by
  obtain ⟨hsound, hsound'⟩ := h.soundLayout
  obtain ⟨old, new, hfields, hold⟩ := h.extends
  rw [hfields] at hf
  rcases List.mem_append.mp hf with hf | hf
  · exact exists_samePlace hold hf
  · have := new_slot_ge hsound hsound' hfields hold hf hin
    omega

/-! ## Alignment of the elements

A number that a later version finds inside the earlier scalar part is one whose width divides the
distance of the earlier elements. Otherwise it would be wider than everything in that message; but
the bytes that a layout leaves free lie in gaps that are shorter than its alignment. -/

namespace T2b

/-- A field of the state has the bit. -/
def MsgState.Used (st : MsgState) (i : Nat) : Prop :=
  ∃ f ∈ st.fields, ∃ s, f.bits = some s ∧ s.Has i

/-- No gap is as long as the alignment, and the last byte is no gap. -/
structure Dense (st : MsgState) : Prop where
  window : ∀ p, p + max st.alignment 1 ≤ st.ssize →
    ∃ i, 8 * p ≤ i ∧ i < 8 * (p + max st.alignment 1) ∧ st.Used i
  last : 0 < st.ssize → ∃ i, 8 * (st.ssize - 1) ≤ i ∧ i < 8 * st.ssize ∧ st.Used i

theorem dense_start (alignment : Nat) : Dense (MsgState.start alignment) where
  window := fun p hp => by
    have hp : p + max alignment 1 ≤ 0 := hp
    omega
  last := fun h => absurd h (Nat.lt_irrefl 0)

/-- Where `calculate_offset` puts a field: into free bytes, or at the end, with a gap that is
shorter than the field. -/
theorem calculateOffset_cases {ssize ssize' offset size : Nat} {pads pads' : Pads}
    (h : calculateOffset ssize pads size = (offset, ssize', pads'))
    (hfit : ssize + growth ssize pads size < 2 ^ 16) :
    ssize' = ssize ∨ (size = 0 ∧ offset = 8 * ssize ∧ ssize' = ssize + 1) ∨
      (0 < size ∧ ssize ≤ offset ∧ offset < ssize + size ∧ ssize' = offset + size) := by
  unfold calculateOffset at h
  unfold growth at hfit
  cases hfind : findPaddingSpace pads size with
  | some x =>
      rw [hfind] at h
      cases h
      exact Or.inl rfl
  | none =>
      rw [hfind] at h hfit
      simp only at h hfit
      by_cases h0 : size = 0
      · rw [if_pos h0] at h hfit
        cases h
        exact Or.inr (Or.inl ⟨h0, rfl, Nat.mod_eq_of_lt hfit⟩)
      · have hpos : 0 < size := Nat.pos_of_ne_zero h0
        have hle := Align.le_roundUp hpos ssize
        have hup := Align.roundUp_lt hpos ssize
        rw [if_neg h0] at h hfit
        cases h
        refine Or.inr (Or.inr ⟨hpos, hle, hup, ?_⟩)
        rw [Nat.mod_eq_of_lt (by omega)]
        omega

/-- **One round of the loop** leaves no longer gap. -/
theorem Dense.outfield {types : List LookupEntry} (htypes : WfTypes types) {st st' : MsgState}
    {d : FldDesc} (hst : Dense st) (hfit : FieldFits types st d)
    (h : T2b.outfield types st d = some st') : Dense st' := by
  obtain ⟨ent, hent, hcase⟩ := outfield_eq_some h
  have hwf := htypes _ _ hent
  have hfit := hfit ent hent
  -- what was used still is
  have hmono : ∀ {i : Nat}, st.Used i → st'.Used i := by
    rintro i ⟨f, hf, s, hs, hi⟩
    refine ⟨f, ?_, s, hs, hi⟩
    rcases hcase with ⟨-, rfl⟩ | ⟨-, _, _, _, -, rfl⟩ <;> exact List.mem_append_left _ hf
  have hold : ∀ p, st.alignment ≤ st'.alignment → p + max st'.alignment 1 ≤ st.ssize →
      ∃ i, 8 * p ≤ i ∧ i < 8 * (p + max st'.alignment 1) ∧ st'.Used i := by
    intro p hle hp
    obtain ⟨i, h1, h2, hi⟩ := hst.window p (by omega)
    exact ⟨i, h1, by omega, hmono hi⟩
  rcases hcase with ⟨hin, rfl⟩ | ⟨hin, offset, ssize, pads, hcalc, rfl⟩
  · refine ⟨fun p hp => hold p (Nat.le_max_left _ _) hp, fun hpos => ?_⟩
    obtain ⟨i, h1, h2, hi⟩ := hst.last hpos
    exact ⟨i, h1, h2, hmono hi⟩
  · rw [if_neg (by simp [hin])] at hfit
    have hbits := fieldOf_bits hwf hin d.name offset
    have hnew : ∀ {i : Nat}, (fieldBits ent.size offset).Has i → MsgState.Used
        { st with
          ssize := ssize
          alignment := max st.alignment ent.size
          pads := pads
          fields := st.fields ++ [fieldOf d.name ent d.list offset] } i :=
      fun hi => ⟨_, List.mem_append_right _ (List.mem_singleton_self _), _, hbits, hi⟩
    have hkeep : ssize = st.ssize → Dense
        { st with
          ssize := ssize
          alignment := max st.alignment ent.size
          pads := pads
          fields := st.fields ++ [fieldOf d.name ent d.list offset] } := by
      rintro rfl
      refine ⟨fun p hp => hold p (Nat.le_max_left _ _) hp, fun hpos => ?_⟩
      obtain ⟨i, h1, h2, hi⟩ := hst.last hpos
      exact ⟨i, h1, h2, hmono hi⟩
    have hle : st.alignment ≤ max st.alignment ent.size := Nat.le_max_left _ _
    have hle' : ent.size ≤ max st.alignment ent.size := Nat.le_max_right _ _
    simp only at hold
    generalize max st.alignment ent.size = a at hnew hold hkeep hle hle' ⊢
    rcases calculateOffset_cases hcalc hfit with hsame | ⟨h0, hoff, hss⟩ | ⟨hpos, h1, h2, hss⟩
    · exact hkeep hsame
    · -- a new byte of bools
      have hbyte : (fieldBits ent.size offset).Has (8 * st.ssize) := by
        rw [fieldBits, if_pos h0, hoff]
        exact ⟨Nat.le_refl _, Nat.lt_succ_self _⟩
      refine ⟨fun p hp => ?_, fun _ => ⟨8 * st.ssize, ?_, ?_, hnew hbyte⟩⟩
      · have hp : p + max a 1 ≤ ssize := hp
        by_cases hin : p + max a 1 ≤ st.ssize
        · exact hold p hle hin
        · exact ⟨8 * st.ssize, by omega, by show _ < 8 * (p + max a 1); omega, hnew hbyte⟩
      · show 8 * (ssize - 1) ≤ _
        omega
      · show _ < 8 * ssize
        omega
    · -- a field behind a gap
      have hhas : ∀ i, 8 * offset ≤ i → i < 8 * (offset + ent.size) →
          (fieldBits ent.size offset).Has i := by
        intro i hi hi'
        rw [fieldBits, if_neg (by omega)]
        exact ⟨hi, by show i < 8 * offset + 8 * ent.size; omega⟩
      refine ⟨fun p hp => ?_, fun _ => ⟨8 * (offset + ent.size - 1), ?_, ?_, hnew (hhas _ ?_ ?_)⟩⟩
      · have hp : p + max a 1 ≤ ssize := hp
        by_cases hin : p + max a 1 ≤ st.ssize
        · exact hold p hle hin
        · by_cases hreach : offset < p + max a 1
          · refine ⟨8 * max p offset, by omega, ?_, hnew (hhas _ (by omega) (by omega))⟩
            show _ < 8 * (p + max a 1)
            omega
          · -- the gap is shorter than the window
            obtain ⟨i, h3, h4, hi⟩ := hst.last (by omega)
            refine ⟨i, by omega, ?_, hmono hi⟩
            show _ < 8 * (p + max a 1)
            omega
      · show 8 * (ssize - 1) ≤ _
        omega
      · show _ < 8 * ssize
        omega
      · omega
      · omega

/-- The final size is less than an alignment behind the end of the fields. -/
theorem roundedSsize_lt (st : MsgState) : roundedSsize st < st.ssize + max st.alignment 1 := by
  unfold roundedSsize
  split_ifs with ha
  · have hup := Align.roundUp_lt (show 0 < st.alignment by omega) (st.ssize + st.psize * 4)
    omega
  · omega

/-- The state of the loop behind the last field of a compiled message. -/
theorem CompiledTo.state {types : List LookupEntry} {m : MsgType} {ms : Nbuf.MsgType}
    (h : CompiledTo types m ms) : ∃ st, Inv st ∧ Dense st ∧ ms.fields = st.fields ∧
      ms.ssize = roundedSsize st ∧ ms.psize = st.psize := by
  obtain ⟨schema, out, pre, post, hlook, hout, hm, hfits, hms⟩ := h
  have htypes : WfTypes types := fun _ _ hent => lookup_wf hlook hent
  obtain ⟨st0, st, hpre, hst, hget⟩ := outmsgs_msg hout hm
  have hfits := hfits st0 hpre
  have ha : IsAlignment st0.alignment := run_preserves (fun st => IsAlignment st.alignment)
    (fun _ _ _ hs hstep => isAlignment_outmsg htypes hs hstep) (Or.inl rfl) hpre
  have hinv : Inv st := run_preserves_of_allSteps Inv
    (fun _ _ _ hs hok hstep => hs.outfield htypes hok hstep) (inv_start ha) hfits.1 hst
  have hdense : Dense st := run_preserves_of_allSteps Dense
    (fun _ _ _ hs hok hstep => hs.outfield htypes hok hstep) (dense_start _) hfits.1 hst
  rw [hget, Option.some.injEq] at hms
  subst hms
  exact ⟨st, hinv, hdense, rfl, Nat.mod_eq_of_lt (hfits.2 st hst), rfl⟩

end T2b

theorem scalarSize_cases {w : Nat} (h : scalarSize w = true) : w = 1 ∨ w = 2 ∨ w = 4 ∨ w = 8 := by
  simpa [scalarSize, or_assoc] using h

/-- **The elements of the earlier version are aligned for the later one**: the width of every
number that the later version finds inside the earlier scalar part divides the distance of the
elements. -/
theorem MsgType.Evolves.stride_dvd {ms ms' : MsgType} (h : ms.Evolves ms') {f : FieldDesc}
    (hf : f ∈ ms'.fields) (hs : f.IsScalar) (hin : f.tag0 + f.width ≤ ms.ssize) :
    f.width ∣ ms.ssize + 4 * ms.psize := by
  obtain ⟨hsound, hsound'⟩ := h.soundLayout
  obtain ⟨old, new, hfields, hold⟩ := h.extends
  rw [hfields] at hf
  rcases List.mem_append.mp hf with hf | hf
  · -- an old field
    obtain ⟨g, hg, hplace⟩ := exists_samePlace hold hf
    have hin : g.inPointers = false := hplace.inPointers_eq.trans hs.1
    have hs' : g.IsScalar := ⟨hin, by rw [hplace.kind_eq]; exact hs.2⟩
    rw [← hplace.width_eq hin]
    exact hsound.stride g hg hs'
  · obtain ⟨types, types', m, m', more, hms, -⟩ := h
    obtain ⟨st, hinv, hdense, hflds, hssize, hpsize⟩ := hms.state
    have hw := hsound'.width f (hfields ▸ List.mem_append_right _ hf) hs
    have hcases := scalarSize_cases hw
    by_cases hone : f.width = 1
    · rw [hone]
      exact one_dvd _
    · by_cases hle : f.width ≤ st.alignment
      · rw [hssize, hpsize]
        exact T2b.dvd_roundedSsize hinv.align hw hle
      · -- wider than everything in the earlier message, so it cannot lie in a gap
        exfalso
        have htwice : 2 * max st.alignment 1 ≤ f.width := by
          rcases hinv.align with ha | ha | ha | ha | ha <;> omega
        have hlt := T2b.roundedSsize_lt st
        have hbits : f.bits = some ⟨8 * f.tag0, 8 * f.width⟩ := FieldDesc.bits_scalar hs.1 hs.2
        obtain ⟨i, h1, h2, f₀, hf₀, s₀, hs₀, hi⟩ := hdense.window f.tag0 (by omega)
        have hapart := new_bits_disjoint hsound' hfields hold (hflds ▸ hf₀) hf
        refine hapart s₀ hs₀ _ hbits i hi ⟨h1, ?_⟩
        show i < 8 * f.tag0 + 8 * f.width
        omega

end Nbuf
