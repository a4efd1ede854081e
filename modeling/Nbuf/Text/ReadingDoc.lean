import Nbuf.Text.Reading

set_option autoImplicit false

/-! # What a reading does to the document

A reading of message `m` changes this message and adds new ones. Nothing gets shorter.
-/

namespace Nbuf

/-! ## One field -/

/-- Only the field `f` of message `m` changes; there may be more messages and objects. -/
structure Doc.Next (m : Nat) (f : FieldDesc) (d d' : Doc) : Prop where
  msgs : ∃ (g : DocMsg → DocMsg) (more : List DocMsg), d'.msgs = d.msgs.modify m g ++ more ∧
    ∀ M, (g M).type = M.type ∧ (∀ f', f' ≠ f → (g M).vals f' = M.vals f') ∧
      (f.list = true → (M.vals f).length ≤ ((g M).vals f).length)
  objects : d.objects ≤ d'.objects

section

variable {schema : Schema} {d d' : Doc} {m : Nat} {f : FieldDesc}

theorem DocMsg.push_vals (M : DocMsg) (f : FieldDesc) (x : Item) :
    (M.push f x).vals f = M.vals f ++ [x] := Function.update_self ..

theorem DocMsg.push_vals_ne (M : DocMsg) {f f' : FieldDesc} (hne : f' ≠ f) (x : Item) :
    (M.push f x).vals f' = M.vals f' := Function.update_of_ne hne ..

theorem DocMsg.setLast_length (M : DocMsg) (f : FieldDesc) (x : Item) :
    (M.vals f).length ≤ ((M.setLast f x).vals f).length := by
  show _ ≤ (Function.update M.vals f _ f).length
  rw [Function.update_self, List.length_append, List.length_dropLast, List.length_singleton]
  omega

theorem Doc.next_ready (schema : Schema) (d : Doc) (m : Nat) (f : FieldDesc) :
    Doc.Next m f d (d.ready schema m f) := by
  unfold Doc.ready
  split_ifs with hlist
  · refine ⟨⟨fun M => M.push f (d.blank f), _, rfl, fun M => ⟨rfl, fun f' hne => ?_, fun _ => ?_⟩⟩, ?_⟩
    · exact M.push_vals_ne hne _
    · rw [M.push_vals, List.length_append]
      exact Nat.le_add_right _ _
    · show d.objects ≤ if _ then _ else _
      split_ifs
      · exact Nat.le_succ _
      · exact Nat.le_refl _
  · refine ⟨⟨id, [], ?_, fun M => ⟨rfl, fun _ _ => rfl, fun _ => Nat.le_refl _⟩⟩, Nat.le_refl _⟩
    rw [List.modify_id, List.append_nil]

theorem Doc.next_putVal (d : Doc) (m : Nat) (f : FieldDesc) (x : Val) :
    Doc.Next m f d (d.putVal m f x) := by
  cases x with
  | num v =>
      refine ⟨⟨_, [], (List.append_nil _).symm, fun M => ?_⟩, Nat.le_refl _⟩
      split_ifs with hl
      · exact ⟨rfl, fun f' hne => Function.update_of_ne hne .., fun _ => M.setLast_length f _⟩
      · exact ⟨rfl, fun _ _ => rfl, fun h => absurd h hl⟩
  | bit v =>
      refine ⟨⟨_, [], (List.append_nil _).symm, fun M => ?_⟩, Nat.le_refl _⟩
      split_ifs with hl hone
      · exact ⟨rfl, fun _ _ => rfl, fun _ => Nat.le_refl _⟩
      · exact ⟨rfl, fun f' hne => Function.update_of_ne hne .., fun _ => M.setLast_length f _⟩
      · exact ⟨rfl, fun _ _ => rfl, fun h => absurd h hl⟩
  | str s =>
      refine ⟨⟨_, [], (List.append_nil _).symm, fun M => ?_⟩, Nat.le_succ _⟩
      split_ifs with hl
      · exact ⟨rfl, fun f' hne => Function.update_of_ne hne .., fun _ => M.setLast_length f _⟩
      · exact ⟨rfl, fun f' hne => Function.update_of_ne hne .., fun h => absurd h hl⟩
  | msg m' =>
      refine ⟨⟨id, [], ?_, fun M => ⟨rfl, fun _ _ => rfl, fun _ => Nat.le_refl _⟩⟩, Nat.le_refl _⟩
      rw [List.modify_id, List.append_nil]
      rfl

/-! ## Growth -/

/-- No message is lost, and no list gets shorter. -/
structure Doc.Le (d d' : Doc) : Prop where
  msg : ∀ (m : Nat) (M : DocMsg), d.msgs[m]? = some M → ∃ M', d'.msgs[m]? = some M' ∧
    M'.type = M.type ∧ ∀ f : FieldDesc, f.list = true → (M.vals f).length ≤ (M'.vals f).length
  objects : d.objects ≤ d'.objects

theorem Doc.Le.refl (d : Doc) : d.Le d :=
  ⟨fun _ M hM => ⟨M, hM, rfl, fun _ _ => Nat.le_refl _⟩, Nat.le_refl _⟩

theorem Doc.Le.trans {d'' : Doc} (h : d.Le d') (h' : d'.Le d'') : d.Le d'' := by
  refine ⟨fun m M hM => ?_, h.objects.trans h'.objects⟩
  obtain ⟨M', hM', htype, hlen⟩ := h.msg m M hM
  obtain ⟨M'', hM'', htype', hlen'⟩ := h'.msg m M' hM'
  exact ⟨M'', hM'', htype'.trans htype, fun f hl => (hlen f hl).trans (hlen' f hl)⟩

theorem Doc.Le.length (h : d.Le d') : d.msgs.length ≤ d'.msgs.length := by
  by_contra hlt
  obtain ⟨M', hM', -⟩ := h.msg d'.msgs.length _ (List.getElem?_eq_getElem (by omega))
  exact absurd (List.getElem?_eq_some_iff.mp hM').1 (Nat.lt_irrefl _)

/-- The messages after a change of one field. -/
theorem Doc.Next.msg (h : Doc.Next m f d d') {m' : Nat} {M : DocMsg} (hM : d.msgs[m']? = some M) :
    ∃ M', d'.msgs[m']? = some M' ∧ M'.type = M.type ∧
      (∀ f', m' ≠ m ∨ f' ≠ f → M'.vals f' = M.vals f') ∧
      (f.list = true → (M.vals f).length ≤ (M'.vals f).length) ∧ (m' ≠ m → M' = M) := by
  obtain ⟨⟨g, more, hmsgs, hg⟩, -⟩ := h
  have hlt := (List.getElem?_eq_some_iff.mp hM).1
  rw [hmsgs, List.getElem?_append_left (by rw [List.length_modify]; exact hlt)]
  by_cases hm : m = m'
  · subst hm
    obtain ⟨htype, hvals, hlen⟩ := hg M
    refine ⟨g M, by rw [List.getElem?_modify_eq, hM]; rfl, htype, fun f' hne => ?_, hlen,
      fun hne => absurd rfl hne⟩
    exact hvals f' (hne.resolve_left fun h => h rfl)
  · exact ⟨M, by rw [List.getElem?_modify_ne _ _ hm, hM], rfl, fun _ _ => rfl,
      fun _ => Nat.le_refl _, fun _ => rfl⟩

theorem Doc.Next.le (h : Doc.Next m f d d') : d.Le d' := by
  refine ⟨fun m' M hM => ?_, h.objects⟩
  obtain ⟨M', hM', htype, hvals, hlen, -⟩ := h.msg hM
  refine ⟨M', hM', htype, fun f' hl => ?_⟩
  by_cases hf : f' = f
  · subst hf
    exact hlen hl
  · rw [hvals f' (Or.inr hf)]

/-- The elements of the other fields. -/
theorem Doc.Next.items (h : Doc.Next m f d d') {m' : Nat} (hm : m' < d.msgs.length) {f' : FieldDesc}
    (hne : m' ≠ m ∨ f' ≠ f) : d'.items m' f' = d.items m' f' := by
  obtain ⟨M', hM', -, hvals, -⟩ := h.msg (List.getElem?_eq_getElem hm)
  rw [Doc.items_eq hM', Doc.items_eq (List.getElem?_eq_getElem hm), hvals f' hne]

/-- A field that is made ready has an element. -/
theorem Doc.ready_items (hm : m < d.msgs.length) (hlist : f.list = true ∨ f.kind = .ptr) :
    (d.ready schema m f).items m f = d.items m f ++ [d.blank f] := by
  unfold Doc.ready
  rw [if_pos hlist]
  have hM' : (d.init schema m f).msgs[m]? = some (d.msgs[m].push f (d.blank f)) := by
    show ((d.msgs.modify m _) ++ _)[m]? = _
    rw [List.getElem?_append_left (by rw [List.length_modify]; exact hm), List.getElem?_modify_eq,
      List.getElem?_eq_getElem hm]
    rfl
  rw [Doc.items_eq hM', DocMsg.push_vals, Doc.items_eq (List.getElem?_eq_getElem hm)]

/-- A submessage that is made ready is a new message. -/
theorem Doc.ready_length (hk : f.kind = .ptr) :
    (d.ready schema m f).msgs.length = d.msgs.length + 1 := by
  unfold Doc.ready
  rw [if_pos (Or.inr hk)]
  show ((d.msgs.modify m _) ++ if f.kind = Kind.ptr then _ else _).length = _
  rw [if_pos hk, List.length_append, List.length_modify]
  rfl

theorem Doc.ready_new (hk : f.kind = .ptr) :
    (d.ready schema m f).msgs[d.msgs.length]? = some (DocMsg.new f.tag1) := by
  unfold Doc.ready
  rw [if_pos (Or.inr hk)]
  show ((d.msgs.modify m _) ++ if f.kind = Kind.ptr then _ else _)[d.msgs.length]? = _
  rw [if_pos hk, List.getElem?_append_right (by rw [List.length_modify]), List.length_modify,
    Nat.sub_self]
  rfl

end

/-! ## Readings -/

section

variable {schema : Schema} {ofInt : Int → Int × Int} {m type : Nat} {D D' : Draft}
  {toks rest : List Token} {v : Option Bool}

/-- **Nothing gets shorter** in a reading. -/
theorem Reads.le (h : Reads schema ofInt m type D toks v D' rest) : D.doc.Le D'.doc := by
  induction h with
  | stop | unknown | twice => exact .refl _
  | noColon | refused | stuck | noOpen => exact (Doc.next_ready ..).le
  | value _ _ _ _ _ ih => exact (Doc.next_ready ..).le.trans ((Doc.next_putVal ..).le.trans ih)
  | inner _ _ _ _ _ _ ih | noClose _ _ _ _ _ _ ih => exact (Doc.next_ready ..).le.trans ih
  | sub _ _ _ _ _ _ _ ih ih' => exact (Doc.next_ready ..).le.trans (ih.trans ih')

/-- **Other messages** stay as they are. -/
theorem Reads.other (h : Reads schema ofInt m type D toks v D' rest) (hm : m < D.doc.msgs.length)
    {m' : Nat} {M : DocMsg} (hM : D.doc.msgs[m']? = some M) (hne : m' ≠ m) :
    D'.doc.msgs[m']? = some M := by
  have hnext : ∀ {f : FieldDesc} {d d' : Doc} {m : Nat}, Doc.Next m f d d' → d.msgs[m']? = some M →
      m' ≠ m → d'.msgs[m']? = some M := by
    intro f d d' m hstep hM hne
    obtain ⟨M', hM', -, -, -, hsame⟩ := hstep.msg hM
    rwa [hsame hne] at hM'
  induction h with
  | stop | unknown | twice => exact hM
  | noColon | refused | stuck | noOpen => exact hnext (Doc.next_ready ..) hM hne
  | value _ _ _ _ _ ih =>
      refine ih (Nat.lt_of_lt_of_le hm ?_) ?_ hne
      · exact ((Doc.next_ready ..).le.trans (Doc.next_putVal ..).le).length
      · exact hnext (Doc.next_putVal ..) (hnext (Doc.next_ready ..) hM hne) hne
  | @inner m type D _ _ _ _ _ f _ _ hk _ _ _ _ ih
  | @noClose m type D _ _ _ _ _ f _ hk _ _ _ _ ih =>
      have hlt := (List.getElem?_eq_some_iff.mp hM).1
      refine ih ?_ (hnext (Doc.next_ready ..) hM hne) (Nat.ne_of_lt hlt)
      exact Nat.lt_of_lt_of_eq (Nat.lt_succ_self _) (Doc.ready_length hk).symm
  | @sub m type D D1 _ _ _ _ _ _ _ f _ _ hk _ _ hin _ _ ih ih' =>
      have hlt := (List.getElem?_eq_some_iff.mp hM).1
      refine ih' (Nat.lt_of_lt_of_le hm ?_) (ih ?_ (hnext (Doc.next_ready ..) hM hne) (Nat.ne_of_lt hlt)) hne
      · exact ((Doc.next_ready ..).le.trans hin.le).length
      · exact Nat.lt_of_lt_of_eq (Nat.lt_succ_self _) (Doc.ready_length hk).symm

/-- A reading of a new submessage keeps the fields of the message that it is in. -/
theorem Reads.items {m' : Nat} (h : Reads schema ofInt m type D toks v D' rest)
    (hm : m < D.doc.msgs.length) (hm' : m' < D.doc.msgs.length) (hne : m' ≠ m) (f : FieldDesc) :
    D'.doc.items m' f = D.doc.items m' f := by
  have hM := List.getElem?_eq_getElem hm'
  rw [Doc.items_eq (h.other hm hM hne), Doc.items_eq hM]

end

end Nbuf
