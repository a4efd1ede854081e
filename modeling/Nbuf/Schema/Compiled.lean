import Nbuf.Schema.LayoutSound

set_option autoImplicit false

/-! # Compiled schemas (`nbuf_t2b` in `nbufc/t2b.c`)

What the printer and the parser rely on when they are given a compiled schema: its layouts are
sound, the widths of its numbers are those of the built-in types, and its indexes of types are in
range.
-/

namespace Nbuf

open Run

/-- The sizes in a compiled field. -/
structure FieldDesc.HasWidth (fld : FieldDesc) : Prop where
  number : fld.kind = .int ∨ fld.kind = .uint → scalarSize fld.tag1 = true
  float : fld.kind = .float → fld.tag1 = 4 ∨ fld.tag1 = 8
  bool : fld.kind = .bool → fld.tag1 = 0

/-- What a client of a schema relies on. -/
structure Schema.Sound (schema : Schema) : Prop where
  layout : ∀ ms ∈ schema.msgTypes, ms.SoundLayout
  width : ∀ ms ∈ schema.msgTypes, ∀ f ∈ ms.fields, f.HasWidth
  target : ∀ ms ∈ schema.msgTypes, ∀ f ∈ ms.fields, f.kind = .ptr → f.tag1 < schema.msgTypes.length

theorem Schema.msgType_mem (schema : Schema) {i : Nat} (hi : i < schema.msgTypes.length) :
    schema.msgType i ∈ schema.msgTypes := by
  unfold Schema.msgType
  rw [List.getD_eq_getElem?_getD, List.getElem?_eq_getElem hi]
  exact List.getElem_mem hi

namespace MsgType.SoundLayout

variable {ms : MsgType} {f f' : FieldDesc}

/-- Pointer slots are inside. -/
theorem slot_lt (h : ms.SoundLayout) (hf : f ∈ ms.fields) (hin : f.inPointers = true) :
    f.tag0 < ms.psize := by
  have hmem : f.tag0 ∈ (ms.fields.filter FieldDesc.inPointers).map FieldDesc.tag0 :=
    List.mem_map_of_mem (List.mem_filter.mpr ⟨hf, hin⟩)
  rw [h.slots] at hmem
  exact List.mem_range.mp hmem

/-- No two fields have one slot. -/
theorem slot_inj (h : ms.SoundLayout) (hf : f ∈ ms.fields) (hf' : f' ∈ ms.fields)
    (hin : f.inPointers = true) (hin' : f'.inPointers = true) (htag : f.tag0 = f'.tag0) : f = f' := by
  have hnodup : ((ms.fields.filter FieldDesc.inPointers).map FieldDesc.tag0).Nodup := by
    rw [h.slots]
    exact List.nodup_range
  exact List.inj_on_of_nodup_map hnodup (List.mem_filter.mpr ⟨hf, hin⟩)
    (List.mem_filter.mpr ⟨hf', hin'⟩) htag

end MsgType.SoundLayout

namespace T2b

/-- `outenums`. A value is stored with 16 bits. -/
def outenum (e : EnumType) : Nbuf.EnumType :=
  ⟨e.name, e.vals.map fun d => ⟨d.name, d.val % 2 ^ 16⟩⟩

/-- `nbuf_t2b` -/
def t2b (schema : SchemaDesc) : Option Nbuf.Schema := do
  let types ← makelookup schema
  let msgs ← outmsgs types schema.msgs
  pure ⟨schema.pkgName.getD [], schema.enums.map outenum, msgs⟩

/-- The sizes of all messages stay below `65536`. -/
def Fits (schema : SchemaDesc) : Prop :=
  ∀ types, makelookup schema = some types → ∀ pre m post, schema.msgs = pre ++ m :: post →
    FitsAfter types pre m

instance (schema : SchemaDesc) : Decidable (Fits schema) :=
  decidable_of_iff (∀ types ∈ makelookup schema, ∀ i ∈ List.range schema.msgs.length,
      ∀ m ∈ schema.msgs[i]?, FitsAfter types (schema.msgs.take i) m) <| by
    constructor
    · intro h types htypes pre m post hmsgs
      have hi : schema.msgs[pre.length]? = some m := by
        rw [hmsgs, List.getElem?_append_right (Nat.le_refl _), Nat.sub_self]
        rfl
      have hfit := h types htypes pre.length
        (List.mem_range.mpr (List.getElem?_eq_some_iff.mp hi).1) m hi
      rwa [hmsgs, List.take_left] at hfit
    · intro h types htypes i hi m hm
      have hlt := List.mem_range.mp hi
      refine h types htypes _ m (schema.msgs.drop (i + 1)) ?_
      obtain ⟨-, rfl⟩ := List.getElem?_eq_some_iff.mp hm
      rw [List.getElem_cons_drop, List.take_append_drop]

theorem hasWidth_of_entry {ent : LookupEntry} (h : ent.Wf) {fld : FieldDesc}
    (hkind : fld.kind = ent.kind) (htag : fld.tag1 = tagOne ent) : fld.HasWidth := by
  have hsize : ent.kind ≠ .enum → ent.kind ≠ .ptr → fld.tag1 = ent.size := by
    intro he hp
    rw [htag, tagOne, if_neg (by simp [he, hp])]
  unfold LookupEntry.Wf at h
  constructor
  case number =>
    intro hk
    have hwf : ent.size = 1 ∨ ent.size = 2 ∨ ent.size = 4 ∨ ent.size = 8 := by
      rcases hk with hk | hk <;> rwa [← hkind, hk] at h
    rw [hsize (by rcases hk with hk | hk <;> simp [← hkind, hk])
      (by rcases hk with hk | hk <;> simp [← hkind, hk])]
    rcases hwf with hw | hw | hw | hw <;> rw [hw] <;> rfl
  case float =>
    intro hk
    rw [← hkind, hk] at h
    rw [hsize (by simp [← hkind, hk]) (by simp [← hkind, hk])]
    exact h
  case bool =>
    intro hk
    rw [← hkind, hk] at h
    rw [hsize (by simp [← hkind, hk]) (by simp [← hkind, hk])]
    exact h

/-- Every compiled field has the kind and the tag of an entry of the table. -/
theorem outmsgs_field {schema : SchemaDesc} {types : List LookupEntry}
    (hlook : makelookup schema = some types) {out : List Nbuf.MsgType}
    (hout : outmsgs types schema.msgs = some out) {ms : Nbuf.MsgType} (hms : ms ∈ out)
    {fld : FieldDesc} (hfld : fld ∈ ms.fields) :
    ∃ ent, ent ∈ allTypes schema ∧ fld.kind = ent.kind ∧ fld.tag1 = tagOne ent := by
  obtain ⟨st, hrun, rfl⟩ := Option.map_eq_some_iff.mp hout
  have hall : ∀ ms ∈ st.msgs, ∀ fld ∈ ms.fields,
      ∃ ent, ent ∈ allTypes schema ∧ fld.kind = ent.kind ∧ fld.tag1 = tagOne ent := by
    refine run_preserves (fun st => ∀ ms ∈ st.msgs, ∀ fld ∈ ms.fields,
      ∃ ent, ent ∈ allTypes schema ∧ fld.kind = ent.kind ∧ fld.tag1 = tagOne ent)
      ?_ (fun ms hms => by cases hms) hrun
    intro s m s' hs hstep ms hms fld hfld
    obtain ⟨m', hrun', -, hmsgs⟩ := outmsg_eq_some hstep
    rw [hmsgs, List.mem_append, List.mem_singleton] at hms
    rcases hms with hms | rfl
    · exact hs ms hms fld hfld
    · obtain ⟨fields, hfields, hcomp⟩ := run_outfield_fields hrun'
      have hfields : fld ∈ fields := by
        simp only [hfields] at hfld
        exact hfld
      obtain ⟨k, hk, rfl⟩ := List.mem_iff_getElem.mp hfields
      obtain ⟨hlen, hget⟩ := List.forall₂_iff_get.mp hcomp
      obtain ⟨-, -, ent, hent, hkind, htag⟩ := hget k (by omega) hk
      exact ⟨ent, ((lookup_eq_some_iff hlook).mp hent).1, hkind, htag⟩
  exact hall ms hms fld hfld

/-- The widths of a compiled schema are those of its built-in types. -/
theorem outmsgs_hasWidth {schema : SchemaDesc} {types : List LookupEntry}
    (hlook : makelookup schema = some types) {out : List Nbuf.MsgType}
    (hout : outmsgs types schema.msgs = some out) {ms : Nbuf.MsgType} (hms : ms ∈ out)
    {fld : FieldDesc} (hfld : fld ∈ ms.fields) : fld.HasWidth := by
  obtain ⟨ent, hent, hkind, htag⟩ := outmsgs_field hlook hout hms hfld
  exact hasWidth_of_entry (allTypes_wf hent) hkind htag

/-- The index of a message type in the table is in range. -/
theorem allTypes_ptr {schema : SchemaDesc} {ent : LookupEntry} (h : ent ∈ allTypes schema)
    (hkind : ent.kind = .ptr) : ent.id < schema.msgs.length := by
  unfold allTypes at h
  rw [List.mem_append, List.mem_append] at h
  rcases h with (h | h) | h
  · have hbuiltin : ∀ e ∈ builtinTypes, e.kind ≠ .ptr := by decide
    exact absurd hkind (hbuiltin ent h)
  · obtain ⟨e, -, rfl⟩ := List.mem_map.mp h
    cases hkind
  · obtain ⟨⟨m, i⟩, hm, rfl⟩ := List.mem_map.mp h
    exact (List.mem_zipIdx' hm).1

/-- **What `nbuf_t2b` makes is sound**, when the sizes fit 16 bits. -/
theorem t2b_sound {schema : SchemaDesc} {s : Nbuf.Schema} (h : t2b schema = some s)
    (hfits : Fits schema) : s.Sound := by
  unfold t2b at h
  simp only [Option.bind_eq_bind, Option.bind_eq_some_iff] at h
  obtain ⟨types, hlook, out, hout, h⟩ := h
  cases h
  obtain ⟨st, hrun, hst⟩ := Option.map_eq_some_iff.mp hout
  obtain ⟨more, hmore, hlen⟩ := run_outmsg_msgs hrun
  have hlength : out.length = schema.msgs.length := by
    rw [← hst, hmore]
    exact hlen
  constructor
  case layout =>
    intro ms hms
    obtain ⟨i, hi, rfl⟩ := List.mem_iff_getElem.mp hms
    have hi' : i < schema.msgs.length := by
      rw [← hlength]
      exact hi
    have hsplit : schema.msgs = schema.msgs.take i ++ schema.msgs[i] :: schema.msgs.drop (i + 1) := by
      rw [List.getElem_cons_drop, List.take_append_drop]
    obtain ⟨ms', hms', -, -, hsound, -⟩ := outmsgs_soundLayout hlook hout _ _ _ hsplit
      (hfits types hlook _ _ _ hsplit)
    rw [List.length_take, Nat.min_eq_left (Nat.le_of_lt hi'), List.getElem?_eq_getElem hi,
      Option.some.injEq] at hms'
    exact hms' ▸ hsound
  case width => exact fun ms hms f hf => outmsgs_hasWidth hlook hout hms hf
  case target =>
    intro ms hms f hf hptr
    obtain ⟨ent, hent, hkind, htag⟩ := outmsgs_field hlook hout hms hf
    have hk : ent.kind = .ptr := by rw [← hkind, hptr]
    have hid := allTypes_ptr hent hk
    show f.tag1 < out.length
    rw [htag, tagOne, if_pos (Or.inr hk), hlength]
    exact hid

/-- In a sorted table no two neighbours agree exactly if no two entries do. -/
theorem redefined_eq_false_iff {types : List LookupEntry} (hsort : types.Pairwise lookupLe) :
    redefined types = false ↔ (types.map LookupEntry.name).Nodup := by
  constructor
  · intro hred
    have hinc := increasing_of_sorted hsort hred
    refine List.pairwise_map.mpr (hinc.imp fun {a b} hlt heq => ?_)
    have hself : compare b.name b.name = .eq := Std.ReflCmp.compare_self
    rw [heq, hself] at hlt
    cases hlt
  · intro hnodup
    induction types with
    | nil => rfl
    | cons a l ih =>
        cases l with
        | nil => rfl
        | cons b l =>
            rw [List.map_cons, List.nodup_cons] at hnodup
            rw [redefined, ih (List.pairwise_cons.mp hsort).2 hnodup.2, Bool.or_false,
              beq_eq_false_iff_ne]
            exact fun heq => hnodup.1 (heq ▸ List.mem_map_of_mem List.mem_cons_self)

theorem makelookup_isSome_iff (schema : SchemaDesc) : (makelookup schema).isSome ↔
    (allTypes schema).length ≤ maxTypes ∧ ((allTypes schema).map LookupEntry.name).Nodup := by
  have hperm := List.perm_insertionSort lookupLe (allTypes schema)
  have hred := redefined_eq_false_iff (List.pairwise_insertionSort lookupLe (allTypes schema))
  rw [(hperm.map LookupEntry.name).nodup_iff] at hred
  unfold makelookup
  simp only
  split_ifs with hbad
  · rw [hperm.length_eq] at hbad
    refine iff_of_false (by simp) fun h => ?_
    rcases hbad with hlen | hdup
    · omega
    · rw [hred.mpr h.2] at hdup
      cases hdup
  · rw [not_or, Bool.not_eq_true, hperm.length_eq] at hbad
    exact iff_of_true rfl ⟨by omega, hred.mp hbad.2⟩

theorem outfield_isSome_iff (types : List LookupEntry) (st : MsgState) (d : FldDesc) :
    (outfield types st d).isSome ↔ (lookup types d.tname).isSome := by
  unfold outfield
  cases lookup types d.tname with
  | none => rfl
  | some ent =>
      simp only [Option.bind_eq_bind, Option.bind_some]
      split_ifs <;> exact iff_of_true rfl rfl

theorem outmsg_isSome_iff (types : List LookupEntry) (st : OutState) (m : MsgType) :
    (outmsg types st m).isSome ↔ ∀ f ∈ m.flds, (lookup types f.tname).isSome := by
  rw [← run_isSome_iff (fun f _ st => outfield_isSome_iff types st f)
    (MsgState.start st.alignment)]
  unfold outmsg
  cases run (outfield types) (MsgState.start st.alignment) m.flds <;> rfl

/-- **Which schemas `nbuf_t2b` accepts**: those with at most `MAX_TYPES` types, built-in ones included,
of which no two have one name, and whose fields are of these types. -/
theorem t2b_isSome_iff (schema : SchemaDesc) : (t2b schema).isSome ↔
    (allTypes schema).length ≤ maxTypes ∧ ((allTypes schema).map LookupEntry.name).Nodup ∧
      ∀ m ∈ schema.msgs, ∀ f ∈ m.flds, ∃ ent ∈ allTypes schema, ent.name = f.tname := by
  rw [← and_assoc, ← makelookup_isSome_iff]
  unfold t2b
  cases hlook : makelookup schema with
  | none => simp
  | some types =>
      have hrun : (outmsgs types schema.msgs).isSome ↔
          ∀ m ∈ schema.msgs, ∀ f ∈ m.flds, (lookup types f.tname).isSome := by
        rw [← run_isSome_iff (fun m _ st => outmsg_isSome_iff types st m) ⟨0, []⟩]
        unfold outmsgs
        rw [Option.isSome_map]
      have hlookup : ∀ key, (lookup types key).isSome ↔ ∃ ent ∈ allTypes schema, ent.name = key := by
        intro key
        rw [Option.isSome_iff_exists]
        exact exists_congr fun ent => lookup_eq_some_iff hlook
      simp only [Option.isSome_some, true_and, ← hlookup, ← hrun, Option.bind_eq_bind,
        Option.bind_some]
      cases outmsgs types schema.msgs <;> rfl

end T2b

end Nbuf
