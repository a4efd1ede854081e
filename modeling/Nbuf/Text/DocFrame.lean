import Nbuf.Text.Doc

set_option autoImplicit false

/-! # What a change of one field leaves alone

A step on a field changes the object its slot leads to, the row of its message, and adds objects
behind the others. Everything else that a view shows stays, because slots lead to different
objects.
-/

namespace Nbuf

open ByteMem

namespace View

variable {R : Room} {schema : Schema} {v v' : View}

/-! ## Growth -/

/-- Objects stay, and may get more elements; sorts and places stay. -/
structure Grows (v v' : View) : Prop where
  cell : ∀ (t : Nat) (c : Cell), v.heap[t]? = some c → ∃ c' : Cell, v'.heap[t]? = some c' ∧
    c'.ssize = c.ssize ∧ c'.psize = c.psize ∧ c.nelem ≤ c'.nelem
  sort : ∀ (t : Nat) (s : Srt), v.sorts[t]? = some s → v'.sorts[t]? = some s
  place : ∀ (m : Nat) (pl : Nat × Nat), v.places[m]? = some pl → v'.places[m]? = some pl

theorem Grows.refl (v : View) : v.Grows v :=
  ⟨fun _ c hc => ⟨c, hc, rfl, rfl, Nat.le_refl _⟩, fun _ _ h => h, fun _ _ h => h⟩

theorem Grows.trans {v'' : View} (h : v.Grows v') (h' : v'.Grows v'') : v.Grows v'' := by
  refine ⟨fun t c hc => ?_, fun t s hs => h'.sort t s (h.sort t s hs),
    fun m pl hpl => h'.place m pl (h.place m pl hpl)⟩
  obtain ⟨c', hc', hs, hp, hn⟩ := h.cell t c hc
  obtain ⟨c'', hc'', hs', hp', hn'⟩ := h'.cell t c' hc'
  exact ⟨c'', hc'', hs'.trans hs, hp'.trans hp, Nat.le_trans hn hn'⟩

/-- All objects stay as they are, except those in `exc`. Messages keep their shape, but their
contents may change. -/
structure Frame (v v' : View) (exc : Nat → Prop) : Prop extends Grows v v' where
  leaf : ∀ (t : Nat) (c : Cell) (s : Srt), ¬ exc t → v.heap[t]? = some c →
    v.sorts[t]? = some s → s ≠ .elems .ptr → v'.heap[t]? = some c
  node : ∀ (t : Nat) (c : Cell), ¬ exc t → v.heap[t]? = some c → v.sorts[t]? = some (.elems .ptr) →
    ∃ c' : Cell, v'.heap[t]? = some c' ∧ c'.toShape = c.toShape
  text : ∀ t, exc t → v.sorts[t]? ≠ some .text

variable {exc : Nat → Prop}

theorem TextAt.frame (hfr : v.Frame v' exc) {c c' : Cell} {k x : Nat} {s : Text}
    (h : v.TextAt R c k x s) (hptr : c'.ptr k x = c.ptr k x) (hs : c'.ssize = c.ssize)
    (hp : c'.psize = c.psize) (hn : c.nelem ≤ c'.nelem) : v'.TextAt R c' k x s := by
  unfold TextAt at h ⊢
  rw [hptr]
  cases htgt : c.ptr k x with
  | none => rwa [htgt] at h
  | some t =>
      rw [htgt] at h
      obtain ⟨hcell, hsort, hroom⟩ := h
      have hexc : ¬ exc t := fun he => hfr.text t he hsort
      exact ⟨hfr.leaf t _ _ hexc hcell hsort (by simp), hfr.sort t _ hsort,
        R.grows c.toShape c'.toShape s hs hp hn hroom⟩

theorem ListAt.frame (hfr : v.Frame v' exc) {t : Nat} {c : Cell} {f : FieldDesc} {l : List Item}
    (h : v.ListAt R schema t c f l) (hexc : ¬ exc t) : ∃ c', v'.ListAt R schema t c' f l := by
  by_cases hkind : f.kind = .ptr
  · obtain ⟨c', hc', hsh⟩ := hfr.node t c hexc h.cell (by rw [h.sort, hkind])
    refine ⟨c', hc', hfr.sort t _ h.sort, by rw [hsh]; exact h.size, by rw [hsh]; exact h.length, ?_,
      fun hb => absurd (hkind.symm.trans hb) (by decide)⟩
    intro n x hx
    have hitem := h.item n x hx
    -- the elements are messages
    cases x with
    | num y => exact absurd hkind hitem.2.2.1
    | bit b => exact absurd (hkind.symm.trans hitem.1) (by decide)
    | str s => exact absurd (hkind.symm.trans hitem.1) (by decide)
    | msg m => exact ⟨hkind, hfr.place m _ hitem.2⟩
  · have hc' := hfr.leaf t c _ hexc h.cell h.sort (by simpa using hkind)
    refine ⟨c, hc', hfr.sort t _ h.sort, h.size, h.length, fun n x hx => ?_, h.spare⟩
    have hitem := h.item n x hx
    cases x with
    | num y => exact hitem
    | bit b => exact hitem
    | str s => exact ⟨hitem.1, hitem.2.frame hfr rfl rfl rfl (Nat.le_refl _)⟩
    | msg m => exact absurd hitem.1 hkind

theorem FieldAt.frame (hfr : v.Frame v' exc) {c c' : Cell} {k : Nat} {f : FieldDesc}
    {l : List Item} (h : v.FieldAt R schema c k f l)
    (hptr : f.inPointers = true → c'.ptr k f.tag0 = c.ptr k f.tag0)
    (hexc : ∀ t, f.inPointers = true → c.ptr k f.tag0 = some t → ¬ exc t)
    (hs : c'.ssize = c.ssize) (hp : c'.psize = c.psize) (hn : c.nelem ≤ c'.nelem) :
    v'.FieldAt R schema c' k f l := by
  unfold FieldAt at h ⊢
  by_cases hlist : f.list = true ∨ f.kind = .ptr
  · have hin : f.inPointers = true := by
      rcases hlist with h1 | h1 <;> simp [FieldDesc.inPointers, h1]
    rw [if_pos hlist] at h ⊢
    rw [hptr hin]
    cases htgt : c.ptr k f.tag0 with
    | none => rwa [htgt] at h
    | some t =>
        rw [htgt] at h
        obtain ⟨hne, ct, hlistAt⟩ := h
        exact ⟨hne, hlistAt.frame hfr (hexc t hin htgt)⟩
  · rw [if_neg hlist] at h ⊢
    by_cases hstr : f.kind = .str
    · have hin : f.inPointers = true := by simp [FieldDesc.inPointers, hstr]
      rw [if_pos hstr] at h ⊢
      rcases h with ⟨hl, hnone⟩ | ⟨s, hl, htext⟩
      · exact Or.inl ⟨hl, by rw [hptr hin, hnone]⟩
      · exact Or.inr ⟨s, hl, htext.frame hfr (hptr hin) hs hp hn⟩
    · rwa [if_neg hstr] at h ⊢

/-! ## Rows -/

/-- Row `k` is the same in both objects, of which the second may have more elements. -/
structure SameRow (c c' : Cell) (k : Nat) : Prop where
  ssize : c'.ssize = c.ssize
  psize : c'.psize = c.psize
  nelem : c.nelem ≤ c'.nelem
  ptr : ∀ x, x < c.psize → c'.ptr k x = c.ptr k x
  scal : ∀ j, j < c.ssize → c'.scal k j = c.scal k j

theorem SameRow.refl (c : Cell) (k : Nat) : SameRow c c k :=
  ⟨rfl, rfl, Nat.le_refl _, fun _ _ => rfl, fun _ _ => rfl⟩

/-- A slot of a message lies in a row of its object. -/
theorem MsgAt.row_lt {i k x : Nat} {c : Cell} {M : DocMsg} (h : v.MsgAt R schema i k c M)
    (hx : x < c.psize) : k < c.rows := by
  have hlt := Shape.row_lt_rows h.inside
  rwa [c.row_of_psize hx] at hlt

/-- The slots of the pointer fields of a message. -/
theorem MsgAt.slot_lt {i k : Nat} {c : Cell} {M : DocMsg} {f : FieldDesc}
    (h : v.MsgAt R schema i k c M) (hs : schema.Sound)
    (hf : f ∈ (schema.msgType M.type).fields) (hin : f.inPointers = true) : f.tag0 < c.psize := by
  rw [h.psize]
  exact (hs.layout _ (schema.msgType_mem h.type)).slot_lt hf hin

/-- A message whose row stays, and whose slots lead to objects that stay. -/
theorem MsgAt.frame (hs : schema.Sound) (hfr : v.Frame v' exc) {i k : Nat} {c c' : Cell} {M : DocMsg}
    (h : v.MsgAt R schema i k c M) (hc' : v'.heap[i]? = some c') (hrow : SameRow c c' k)
    (hexc : ∀ f ∈ (schema.msgType M.type).fields, ∀ t, f.inPointers = true →
      c.ptr k f.tag0 = some t → ¬ exc t) :
    v'.MsgAt R schema i k c' M where
  cell := hc'
  sort := hfr.sort i _ h.sort
  inside := Nat.lt_of_lt_of_le h.inside hrow.nelem
  ssize := hrow.ssize.trans h.ssize
  psize := hrow.psize.trans h.psize
  scal := by
    intro j hj
    rw [hrow.ssize] at hj
    rw [hrow.scal j hj]
    exact h.scal j hj
  field := fun f hf => (h.field f hf).frame hfr (fun hin => hrow.ptr _ (h.slot_lt hs hf hin))
    (hexc f hf) hrow.ssize hrow.psize hrow.nelem
  type := h.type

/-! ## A step on one field -/

/-- A step on the field `f` of the message `M` in row `k` of object `i`. It may change the object
that the slot of the field leads to, and that slot or the scalar bytes. -/
structure FieldStep (R : Room) (schema : Schema) (v v' : View) (exc : Nat → Prop) (i k : Nat)
    (c c' : Cell) (f : FieldDesc) (M M' : DocMsg) : Prop where
  frame : v.Frame v' exc
  slot : ∀ t, exc t → f.inPointers = true ∧ c.ptr k f.tag0 = some t
  rows : ∀ (i' k' : Nat) (ci : Cell), v.heap[i']? = some ci → v.sorts[i']? = some (.elems .ptr) →
    k' < ci.nelem → (i', k') ≠ (i, k) → ∃ ci' : Cell, v'.heap[i']? = some ci' ∧ SameRow ci ci' k'
  cell : v'.heap[i]? = some c'
  ssize : c'.ssize = c.ssize
  psize : c'.psize = c.psize
  nelem : c.nelem ≤ c'.nelem
  ptr : ∀ x, x < c.psize → (f.inPointers = true → x ≠ f.tag0) → c'.ptr k x = c.ptr k x
  scal : ∀ j, j < c.ssize → c'.scal k j = M'.scal j
  type : M'.type = M.type
  vals : ∀ f', f' ≠ f → M'.vals f' = M.vals f'
  field : v'.FieldAt R schema c' k f (M'.vals f)

section

variable {i k : Nat} {c c' : Cell} {f : FieldDesc} {M M' : DocMsg}

/-- The message itself after the step. -/
theorem FieldStep.self (h : FieldStep R schema v v' exc i k c c' f M M') (hs : schema.Sound)
    (hinj : v.heap.Injective) (hat : v.MsgAt R schema i k c M)
    (hf : f ∈ (schema.msgType M.type).fields) : v'.MsgAt R schema i k c' M' where
  cell := h.cell
  sort := h.frame.sort i _ hat.sort
  inside := Nat.lt_of_lt_of_le hat.inside h.nelem
  ssize := by rw [h.type, h.ssize]; exact hat.ssize
  psize := by rw [h.type, h.psize]; exact hat.psize
  scal := fun j hj => h.scal j (by rwa [h.ssize] at hj)
  type := by rw [h.type]; exact hat.type
  field := by
    intro f' hf'
    rw [h.type] at hf'
    by_cases heq : f' = f
    · rw [heq]
      exact h.field
    · rw [h.vals f' heq]
      -- the slots of different fields are different
      have hne : f'.inPointers = true → f.inPointers = true → f'.tag0 ≠ f.tag0 := fun h1 h2 ht =>
        heq ((hs.layout _ (schema.msgType_mem hat.type)).slot_inj hf' hf h1 h2 ht)
      refine (hat.field f' hf').frame h.frame (fun hin => h.ptr _ (hat.slot_lt hs hf' hin) (hne hin)) ?_ h.ssize h.psize
        h.nelem
      intro t hin ht he
      obtain ⟨hin', hslot⟩ := h.slot t he
      have hx := hat.slot_lt hs hf' hin
      have hx' := hat.slot_lt hs hf hin'
      have hrow := hat.row_lt hx
      have hkey := hinj i i c c k k _ _ t hat.cell hat.cell hrow hrow hx hx' ht hslot
      exact hne hin hin' (by simpa using hkey)

/-- Any other message after the step. -/
theorem FieldStep.other (h : FieldStep R schema v v' exc i k c c' f M M') (hs : schema.Sound)
    (hinj : v.heap.Injective) (hat : v.MsgAt R schema i k c M)
    (hf : f ∈ (schema.msgType M.type).fields) {i1 k1 : Nat} {c1 : Cell} {M1 : DocMsg}
    (hat1 : v.MsgAt R schema i1 k1 c1 M1) (hne : (i1, k1) ≠ (i, k)) :
    ∃ c1', v'.MsgAt R schema i1 k1 c1' M1 := by
  obtain ⟨c1', hc1', hrow⟩ := h.rows i1 k1 c1 hat1.cell hat1.sort hat1.inside hne
  refine ⟨c1', hat1.frame hs h.frame hc1' hrow ?_⟩
  intro f1 hf1 t hin ht he
  obtain ⟨hin', hslot⟩ := h.slot t he
  have hx1 := hat1.slot_lt hs hf1 hin
  have hx := hat.slot_lt hs hf hin'
  have hkey := hinj i1 i c1 c k1 k _ _ t hat1.cell hat.cell (hat1.row_lt hx1) (hat.row_lt hx)
    hx1 hx ht hslot
  simp only [Prod.mk.injEq] at hkey
  exact hne (by rw [hkey.1, hkey.2.1])

end

/-- **All messages after a step on one field**, in a document whose old messages are kept but for
the one that the step is on, and whose new messages are at new places. -/
theorem Shows.msg_step {d : Doc} (hs : schema.Sound) (hd : v.Shows R schema d) {i k : Nat}
    {c c' : Cell} {f : FieldDesc} {m : Nat} {M M' : DocMsg} (hM : d.msgs[m]? = some M)
    (hplace : v.places[m]? = some (i, k)) (hat : v.MsgAt R schema i k c M)
    (hf : f ∈ (schema.msgType M.type).fields)
    (hstep : FieldStep R schema v v' exc i k c c' f M M') {g : DocMsg → DocMsg} (hg : g M = M')
    (new : List DocMsg) (hnew : ∀ (n : Nat) (N : DocMsg), new[n]? = some N →
      ∃ i k c, v'.places[d.msgs.length + n]? = some (i, k) ∧ v'.MsgAt R schema i k c N)
    (m1 : Nat) (M1 : DocMsg) (hM1 : (d.msgs.modify m g ++ new)[m1]? = some M1) :
    ∃ i k c, v'.places[m1]? = some (i, k) ∧ v'.MsgAt R schema i k c M1 := by
  have hlen : (d.msgs.modify m g).length = d.msgs.length := List.length_modify _ _ _
  by_cases hlt : m1 < d.msgs.length
  · rw [List.getElem?_append_left (by omega)] at hM1
    by_cases hmm : m = m1
    · subst hmm
      rw [List.getElem?_modify_eq, hM] at hM1
      cases hM1
      rw [hg]
      exact ⟨i, k, c', hstep.frame.place m _ hplace, hstep.self hs hd.injective hat hf⟩
    · rw [List.getElem?_modify_ne _ _ hmm] at hM1
      obtain ⟨i1, k1, c1, hplace1, hat1⟩ := hd.msg m1 M1 hM1
      have hne : (i1, k1) ≠ (i, k) := by
        intro heq
        rw [heq, ← hplace] at hplace1
        have hm : m < v.places.length := (List.getElem?_eq_some_iff.mp hplace).1
        have hm1 : m1 < v.places.length := by
          rw [hd.places_length]
          exact hlt
        rw [List.getElem?_eq_getElem hm1, List.getElem?_eq_getElem hm, Option.some.injEq] at hplace1
        exact hmm ((List.Nodup.getElem_inj_iff hd.nodup).mp hplace1).symm
      obtain ⟨c1', hat1'⟩ := hstep.other hs hd.injective hat hf hat1 hne
      exact ⟨i1, k1, c1', hstep.frame.place m1 _ hplace1, hat1'⟩
  · rw [List.getElem?_append_right (by omega), hlen] at hM1
    obtain ⟨i1, k1, c1, hplace1, hat1⟩ := hnew _ M1 hM1
    rw [Nat.add_sub_cancel' (by omega)] at hplace1
    exact ⟨i1, k1, c1, hplace1, hat1⟩

end View

end Nbuf
