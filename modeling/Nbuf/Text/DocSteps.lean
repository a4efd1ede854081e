import Nbuf.Text.DocFrame

set_option autoImplicit false

/-! # Steps on a document

What the parser and its clients do with references does to the document what `Doc` says:
`nbuf_ref_init_ptr`, and the puts through the reference it leaves.
-/

namespace Nbuf

open Align ByteMem

/-! ## Heaps -/

namespace Heap

variable {h : Heap} {i : Nat} {c : Cell}

theorem Injective.append (hinj : h.Injective) (hc : ∀ row s, c.ptr row s = none) :
    Injective (h ++ [c]) := by
  have hold : ∀ (j k x t : Nat) (cj : Cell), (h ++ [c])[j]? = some cj → cj.ptr k x = some t →
      h[j]? = some cj := by
    intro j k x t cj hj ht
    rcases Nat.lt_trichotomy j h.length with hlt | rfl | hgt
    · rwa [List.getElem?_append_left hlt] at hj
    · rw [List.getElem?_concat_length, Option.some.injEq] at hj
      rw [← hj, hc] at ht
      cases ht
    · rw [List.getElem?_eq_none (by simp; omega)] at hj
      cases hj
  intro j j' cj cj' k k' x x' t hj hj' hk hk' hx hx' ht ht'
  exact hinj j j' cj cj' k k' x x' t (hold j k x t cj hj ht) (hold j' k' x' t cj' hj' ht') hk hk'
    hx hx' ht ht'

/-- An update of one object that adds no pointers. -/
theorem Injective.modify (hinj : h.Injective) {f : Cell → Cell}
    (hf : ∀ c k x t, h[i]? = some c → k < (f c).rows → x < (f c).psize → (f c).ptr k x = some t →
      k < c.rows ∧ x < c.psize ∧ c.ptr k x = some t) : Injective (h.modify i f) := by
  have hold : ∀ (j k x t : Nat) (cj : Cell), (h.modify i f)[j]? = some cj → k < cj.rows →
      x < cj.psize → cj.ptr k x = some t →
      ∃ c : Cell, h[j]? = some c ∧ k < c.rows ∧ x < c.psize ∧ c.ptr k x = some t := by
    intro j k x t cj hj hk hx ht
    by_cases hij : i = j
    · subst hij
      rw [List.getElem?_modify_eq] at hj
      obtain ⟨c, hc, rfl⟩ := Option.map_eq_some_iff.mp hj
      exact ⟨c, hc, hf c k x t hc hk hx ht⟩
    · rw [List.getElem?_modify_ne _ _ hij] at hj
      exact ⟨cj, hj, hk, hx, ht⟩
  intro j j' cj cj' k k' x x' t hj hj' hk hk' hx hx' ht ht'
  obtain ⟨c, hc, hk, hx, ht⟩ := hold j k x t cj hj hk hx ht
  obtain ⟨c', hc', hk', hx', ht'⟩ := hold j' k' x' t cj' hj' hk' hx' ht'
  exact hinj j j' c c' k k' x x' t hc hc' hk hk' hx hx' ht ht'

/-- A pointer to an object that nothing leads to. -/
theorem Injective.putPtr (hinj : h.Injective) {k x t : Nat}
    (hfresh : ∀ (j : Nat) (c : Cell) (k x : Nat), h[j]? = some c → k < c.rows → x < c.psize →
      c.ptr k x ≠ some t) : Injective (h.modify i fun c => c.putPtr (c.row k) x t) := by
  -- the slot that is put is the only one that leads to `t`
  have hold : ∀ (j k' x' t' : Nat) (cj : Cell),
      (h.modify i fun c => c.putPtr (c.row k) x t)[j]? = some cj → k' < cj.rows → x' < cj.psize →
      cj.ptr k' x' = some t' →
      (t' = t ∧ j = i ∧ x' = x ∧ ∃ c : Cell, h[i]? = some c ∧ k' = c.row k) ∨
        ∃ c : Cell, h[j]? = some c ∧ k' < c.rows ∧ x' < c.psize ∧ c.ptr k' x' = some t' := by
    intro j k' x' t' cj hj hk hx ht
    by_cases hij : i = j
    · subst hij
      rw [List.getElem?_modify_eq] at hj
      obtain ⟨c, hc, rfl⟩ := Option.map_eq_some_iff.mp hj
      unfold Cell.putPtr at ht
      dsimp only at ht
      by_cases hkk : k' = c.row k
      · subst hkk
        rw [Function.update_self] at ht
        by_cases hxx : x' = x
        · subst hxx
          rw [Function.update_self, Option.some.injEq] at ht
          exact Or.inl ⟨ht.symm, rfl, rfl, c, hc, rfl⟩
        · rw [Function.update_of_ne hxx] at ht
          exact Or.inr ⟨c, hc, hk, hx, ht⟩
      · rw [Function.update_of_ne hkk] at ht
        exact Or.inr ⟨c, hc, hk, hx, ht⟩
    · rw [List.getElem?_modify_ne _ _ hij] at hj
      exact Or.inr ⟨cj, hj, hk, hx, ht⟩
  intro j j' cj cj' k1 k1' x1 x1' t1 hj hj' hk hk' hx hx' ht ht'
  rcases hold j k1 x1 t1 cj hj hk hx ht with ⟨rfl, rfl, rfl, c, hc, rfl⟩ | ⟨c, hc, hk, hx, ht⟩
  · rcases hold j' k1' x1' t1 cj' hj' hk' hx' ht' with
      ⟨-, rfl, rfl, c', hc', rfl⟩ | ⟨c', hc', hk', hx', ht'⟩
    · rw [hc, Option.some.injEq] at hc'
      rw [hc']
    · exact absurd ht' (hfresh j' c' k1' x1' hc' hk' hx')
  · rcases hold j' k1' x1' t1 cj' hj' hk' hx' ht' with
      ⟨rfl, -, -, -⟩ | ⟨c', hc', hk', hx', ht'⟩
    · exact absurd ht (hfresh j c k1 x1 hc hk hx)
    · exact hinj j j' c c' k1 k1' x1 x1' t1 hc hc' hk hk' hx hx' ht ht'

/-- Nothing leads to an object that is still to come. -/
theorem Forward.fresh (hfwd : h.Forward) (j : Nat) (c : Cell) (k x : Nat) (hj : h[j]? = some c)
    (hk : k < c.rows) (hx : x < c.psize) : c.ptr k x ≠ some h.length := by
  intro ht
  have hlt := (hfwd j c hj k hk x hx _ ht).2
  omega

theorem total_modify_add (hc : h[i]? = some c) (f : Cell → Cell) :
    total (h.modify i f) + c.blockSize = h.total + (f c).blockSize := by
  induction h generalizing i with
  | nil => cases hc
  | cons c0 h ih =>
      cases i with
      | zero =>
          obtain rfl : c0 = c := Option.some.inj hc
          rw [List.modify_zero_cons, total_cons, total_cons]
          omega
      | succ i =>
          have hrest := ih (i := i) hc
          rw [List.modify_succ_cons, total_cons, total_cons]
          omega

end Heap

theorem Shape.blockSize_eq (sh : Shape) : sh.blockSize = blockBytes (sh.ssize, sh.psize) sh.nelem := by
  unfold Shape.blockSize blockBytes Shape.bodySize
  rw [sh.rows_eq]
  by_cases h0 : sh.ssize = 0 ∧ sh.psize = 0
  · have hst : sh.stride = 1 := by rw [sh.stride_eq, sh.width_eq, if_pos h0, h0.2]
    rw [if_pos h0, if_pos h0, hst, Nat.mul_one]
  · have hst : sh.stride = sh.ssize + sh.psize * 4 := by rw [sh.stride_eq, sh.width_eq, if_neg h0]
    rw [if_neg h0, if_neg h0, hst]

/-! ## Elements of a field -/

/-- A field that holds a number. -/
def FieldDesc.IsNum (f : FieldDesc) : Prop := f.kind ≠ .bool ∧ f.kind ≠ .str ∧ f.kind ≠ .ptr

theorem FieldDesc.HasWidth.width {f : FieldDesc} (h : f.HasWidth) (hnum : f.IsNum) :
    scalarSize f.width = true := by
  obtain ⟨hb, hs, hp⟩ := hnum
  unfold FieldDesc.width
  cases hk : f.kind with
  | bool => exact absurd hk hb
  | enum => rfl
  | int => exact h.number (Or.inl hk)
  | uint => exact h.number (Or.inr hk)
  | float => rcases h.float hk with hw | hw <;> simp [hw, scalarSize]
  | str => exact absurd hk hs
  | ptr => exact absurd hk hp

theorem scalarSize_bounds {w : Nat} (h : scalarSize w = true) : 0 < w ∧ w ≤ 8 := by
  simp only [scalarSize, Bool.or_eq_true, beq_iff_eq] at h
  omega

/-- The elements of a list of numbers are as wide as the numbers. -/
theorem getSize_num {schema : Schema} {f : FieldDesc} (h : f.HasWidth) (hnum : f.IsNum) :
    getSize schema f.kind f.tag1 = (f.width, 0) := by
  have hle := scalarSize_bounds (h.width hnum)
  obtain ⟨hb, hs, hp⟩ := hnum
  unfold FieldDesc.width at hle ⊢
  unfold getSize
  cases hk : f.kind with
  | bool => exact absurd hk hb
  | enum => rfl
  | int | uint | float =>
      simp only [hk, reduceCtorEq, if_false] at hle ⊢
      rw [Nat.mod_eq_of_lt (by omega)]
  | str => exact absurd hk hs
  | ptr => exact absurd hk hp

theorem getSize_bool {schema : Schema} {f : FieldDesc} (h : f.HasWidth) (hk : f.kind = .bool) :
    getSize schema f.kind f.tag1 = (0, 0) := by
  unfold getSize
  rw [hk, h.bool hk]
  rfl

theorem getSize_str {schema : Schema} {f : FieldDesc} (hk : f.kind = .str) :
    getSize schema f.kind f.tag1 = (0, 1) := by
  unfold getSize
  rw [hk]

theorem getSize_ptr {schema : Schema} {f : FieldDesc} (hk : f.kind = .ptr) :
    getSize schema f.kind f.tag1
      = ((schema.msgType f.tag1).ssize, (schema.msgType f.tag1).psize) := by
  unfold getSize
  rw [hk]

/-- One element of a field is an object that can be created. -/
theorem elemShape {schema : Schema} (hs : schema.Sound) {ms : MsgType} (hms : ms ∈ schema.msgTypes)
    {f : FieldDesc} (hf : f ∈ ms.fields) :
    ∃ sh : Shape, sh.nelem = 1 ∧ getSize schema f.kind f.tag1 = (sh.ssize, sh.psize) := by
  have hw := hs.width ms hms f hf
  by_cases hnum : f.IsNum
  · have hle := scalarSize_bounds (hw.width hnum)
    exact ⟨⟨1, f.width, 0, by decide, by omega, by decide, Or.inl rfl, fun _ _ => by decide⟩, rfl,
      getSize_num hw hnum⟩
  · cases hk : f.kind with
    | bool =>
        exact ⟨⟨1, 0, 0, by decide, by decide, by decide, Or.inl rfl, fun _ _ => by decide⟩, rfl,
          hk ▸ getSize_bool hw hk⟩
    | enum | int | uint | float =>
        exact absurd (by simp [FieldDesc.IsNum, hk]) hnum
    | str =>
        exact ⟨⟨1, 0, 1, by decide, by decide, by decide, Or.inr (by decide), fun _ _ => by decide⟩,
          rfl, hk ▸ getSize_str hk⟩
    | ptr =>
        have hsound := hs.layout _ (schema.msgType_mem (hs.target ms hms f hf hk))
        refine ⟨⟨1, (schema.msgType f.tag1).ssize, (schema.msgType f.tag1).psize, by decide,
          hsound.ssize_lt, hsound.psize_lt, ?_, fun _ _ => by decide⟩, rfl, hk ▸ getSize_ptr hk⟩
        rcases Nat.eq_zero_or_pos (schema.msgType f.tag1).psize with h0 | hpos
        · exact Or.inl h0
        · have := hsound.stride_word hpos
          exact Or.inr (by omega)

theorem inPointers_of_list {f : FieldDesc} (hlist : f.list = true ∨ f.kind = .ptr) :
    f.inPointers = true := by
  rcases hlist with h | h <;> simp [FieldDesc.inPointers, h]

theorem Doc.items_eq {d : Doc} {m : Nat} {M : DocMsg} (hM : d.msgs[m]? = some M) (f : FieldDesc) :
    d.items m f = M.vals f := by
  unfold Doc.items
  rw [hM]
  rfl

/-! ## Handles -/

/-- The handle of an element does not depend on the number of elements. -/
theorem getElem_same {c c' : Cell} {k : Nat} (hs : c'.ssize = c.ssize) (hp : c'.psize = c.psize)
    (hk : k < c.nelem) (hk' : k < c'.nelem) :
    (getElem c.handle k).Same (getElem c'.handle k) := by
  have helem : c'.handle.elemsz = c.handle.elemsz := by
    show (c'.obj _).elemsz = (c.obj _).elemsz
    rw [Shape.obj_elemsz, Shape.obj_elemsz, hs, hp]
  have hwidth : c'.handle.width = c.handle.width := by
    unfold Obj.width
    rw [helem]
    show (if _ then 1 else c'.ssize) = if _ then 1 else c.ssize
    rw [hs]
  constructor
  case base =>
    have hbase : c'.handle.base = c.handle.base := rfl
    rw [getElem, if_pos (show k < c.handle.nelem from hk), getElem,
      if_pos (show k < c'.handle.nelem from hk'), Obj.ofFields_base, Obj.ofFields_base, helem, hbase]
  case ssize => rw [getElem_ssize hk, getElem_ssize hk', hwidth]
  case psize =>
    rw [getElem_psize hk, getElem_psize hk']
    exact hp.symm

/-- A new handle stands for the only element, unless the element is a bit. -/
theorem handle_same {c : Cell} (hn : c.nelem = 1) (h0 : ¬ (c.ssize = 0 ∧ c.psize = 0)) :
    c.handle.Same (getElem c.handle 0) := by
  have hk : 0 < c.handle.nelem := by
    show 0 < c.nelem
    omega
  have helem : c.handle.elemsz ≠ 0 := fun h => h0 (c.handle.elemsz_eq_zero_iff.mp h)
  constructor
  case base =>
    rw [getElem, if_pos hk, if_neg helem, Obj.ofFields_base, Nat.zero_mul]
    rfl
  case ssize =>
    rw [getElem_ssize hk, Obj.width, if_neg helem]
  case psize => rw [getElem_psize hk]

namespace View

/-- `o` is a handle in buffer `i` of the message `m`. Nothing is accessed through the handle of a
message without fields. -/
def IsMsg (v : View) (m i : Nat) (o : Obj) : Prop :=
  ∃ (k : Nat) (c : Cell), v.places[m]? = some (i, k) ∧ v.heap[i]? = some c ∧ k < c.nelem ∧
    (¬ (c.ssize = 0 ∧ c.psize = 0) → o.Same (getElem c.handle k))

/-- Handles stay valid while the objects grow. -/
theorem IsMsg.grows {v v' : View} {m i : Nat} {o : Obj} (h : v.IsMsg m i o) (hg : v.Grows v') :
    v'.IsMsg m i o := by
  obtain ⟨k, c, hpl, hc, hk, ho⟩ := h
  obtain ⟨c', hc', hs, hp, hn⟩ := hg.cell i c hc
  refine ⟨k, c', hg.place m _ hpl, hc', Nat.lt_of_lt_of_le hk hn, fun h0 => ?_⟩
  rw [hs, hp] at h0
  exact (ho h0).trans (getElem_same hs hp hk (Nat.lt_of_lt_of_le hk hn))

/-! ## One more element -/

/-- The object of a new element: its slot is empty, and it is the only one that is changed. -/
def addObj (v : View) (i : Nat) (c : Cell) (x : Nat) (k : Nat) (s : Srt)
    (ps : List (Nat × Nat)) : View where
  heap := (v.heap ++ [c]).modify i fun ci => ci.putPtr (ci.row k) x v.heap.length
  sorts := v.sorts ++ [s]
  places := v.places ++ ps

section

variable {R : Room} {schema : Schema} {v : View} {i k x : Nat} {ci c : Cell} {s : Srt}
  {ps : List (Nat × Nat)}

theorem addObj_self (hci : v.heap[i]? = some ci) :
    (v.addObj i c x k s ps).heap[i]? = some (ci.putPtr (ci.row k) x v.heap.length) := by
  have hi : i < v.heap.length := (List.getElem?_eq_some_iff.mp hci).1
  have hci' : (v.heap ++ [c])[i]? = some ci := by rw [List.getElem?_append_left hi, hci]
  exact Heap.getElem?_modify_self hci' _

theorem addObj_other {t : Nat} {ct : Cell} (hct : v.heap[t]? = some ct) (hne : i ≠ t) :
    (v.addObj i c x k s ps).heap[t]? = some ct := by
  have ht : t < v.heap.length := (List.getElem?_eq_some_iff.mp hct).1
  show ((v.heap ++ [c]).modify i _)[t]? = _
  rw [List.getElem?_modify_ne _ _ hne, List.getElem?_append_left ht, hct]

theorem addObj_new (hci : v.heap[i]? = some ci) :
    (v.addObj i c x k s ps).heap[v.heap.length]? = some c := by
  have hi : i < v.heap.length := (List.getElem?_eq_some_iff.mp hci).1
  show ((v.heap ++ [c]).modify i _)[v.heap.length]? = _
  rw [List.getElem?_modify_ne _ _ (Nat.ne_of_lt hi), List.getElem?_concat_length]

theorem addObj_sort {t : Nat} {s' : Srt} (hs : v.sorts[t]? = some s') :
    (v.addObj i c x k s ps).sorts[t]? = some s' := by
  show (v.sorts ++ [s])[t]? = _
  rw [List.getElem?_append_left (List.getElem?_eq_some_iff.mp hs).1, hs]

theorem addObj_place {m : Nat} {pl : Nat × Nat} (hs : v.places[m]? = some pl) :
    (v.addObj i c x k s ps).places[m]? = some pl := by
  show (v.places ++ ps)[m]? = _
  rw [List.getElem?_append_left (List.getElem?_eq_some_iff.mp hs).1, hs]

/-- The old objects, of which one gets a pointer. -/
theorem addObj_frame (hci : v.heap[i]? = some ci) {exc : Nat → Prop}
    (hsort : ∀ s', v.sorts[i]? = some s' → s' = .elems .ptr ∨ exc i)
    (htext : ∀ t, exc t → v.sorts[t]? ≠ some .text) :
    v.Frame (v.addObj i c x k s ps) exc where
  cell := by
    intro t ct hct
    by_cases hit : i = t
    · subst hit
      rw [hci, Option.some.injEq] at hct
      subst hct
      exact ⟨_, addObj_self hci, rfl, rfl, Nat.le_refl _⟩
    · exact ⟨ct, addObj_other hct hit, rfl, rfl, Nat.le_refl _⟩
  sort := fun t s' hs => addObj_sort hs
  place := fun m pl hpl => addObj_place hpl
  leaf := by
    intro t ct s' hexc hct hs' hne
    by_cases hit : i = t
    · subst hit
      rcases hsort s' hs' with rfl | he
      · exact absurd rfl hne
      · exact absurd he hexc
    · exact addObj_other hct hit
  node := by
    intro t ct hexc hct _
    by_cases hit : i = t
    · subst hit
      rw [hci, Option.some.injEq] at hct
      subst hct
      exact ⟨_, addObj_self hci, rfl⟩
    · exact ⟨ct, addObj_other hct hit, rfl⟩
  text := htext

/-- The rows of the old objects, but for the one that gets the pointer. -/
theorem addObj_rows (hci : v.heap[i]? = some ci) (hx : x < ci.psize) (i' k' : Nat) (c' : Cell)
    (hc' : v.heap[i']? = some c') (hne : (i', k') ≠ (i, k)) :
    ∃ c'' : Cell, (v.addObj i c x k s ps).heap[i']? = some c'' ∧ SameRow c' c'' k' := by
  by_cases hii : i = i'
  · subst hii
    rw [hci, Option.some.injEq] at hc'
    subst hc'
    refine ⟨_, addObj_self hci, rfl, rfl, Nat.le_refl _, fun x' _ => ?_, fun _ _ => rfl⟩
    have hkk : k' ≠ ci.row k := by
      rw [ci.row_of_psize hx]
      exact fun h => hne (by rw [h])
    exact congrFun (Function.update_of_ne hkk _ _) x'
  · exact ⟨c', addObj_other hc' hii, .refl c' k'⟩

/-- What a view of a document says about the heap as a whole, after an object is added. -/
theorem addObj_shows {d d' : Doc} (hd : v.Shows R schema d) (hci : v.heap[i]? = some ci)
    (hc : ∀ row s, c.ptr row s = none) (hobjects : d'.objects = d.objects + 1)
    (hbytes : d'.bytes = d.bytes + c.blockSize)
    (hlen : (v.places ++ ps).length = d'.msgs.length) (hnodup : (v.places ++ ps).Nodup)
    (hmsg : ∀ (m : Nat) (M : DocMsg), d'.msgs[m]? = some M → ∃ i' k' c',
      (v.addObj i c x k s ps).places[m]? = some (i', k') ∧
        (v.addObj i c x k s ps).MsgAt R schema i' k' c' M) :
    (v.addObj i c x k s ps).Shows R schema d' where
  sorts_length := by
    show (v.sorts ++ [s]).length = ((v.heap ++ [c]).modify i _).length
    rw [List.length_modify, List.length_append, List.length_append, hd.sorts_length]
    rfl
  places_length := hlen
  nodup := hnodup
  forward := (hd.forward.append hc).modify_ptr (List.getElem?_eq_some_iff.mp hci).1 (by simp)
  injective := (hd.injective.append hc).putPtr (by
    intro j cj k' x' hj hk' hx' ht
    rcases Nat.lt_trichotomy j v.heap.length with hlt | rfl | hgt
    · rw [List.getElem?_append_left hlt] at hj
      exact hd.forward.fresh j cj k' x' hj hk' hx' ht
    · rw [List.getElem?_concat_length, Option.some.injEq] at hj
      rw [← hj, hc] at ht
      cases ht
    · rw [List.getElem?_eq_none (by simp; omega)] at hj
      cases hj)
  objects := by
    show ((v.heap ++ [c]).modify i _).length = _
    rw [List.length_modify, List.length_append, hd.objects, hobjects]
    rfl
  bytes := by
    show Heap.total ((v.heap ++ [c]).modify i _) = _
    rw [Call.total_putPtr, Heap.total_append, Heap.total_singleton, hd.bytes, hbytes]
  msg := hmsg

/-- Every place of a message is in an object that exists. -/
theorem Shows.place_lt {d : Doc} (hd : v.Shows R schema d) {i' k' : Nat}
    (h : (i', k') ∈ v.places) : ∃ c', v.heap[i']? = some c' ∧ k' < c'.nelem := by
  obtain ⟨m, hm, heq⟩ := List.mem_iff_getElem.mp h
  have hm' : m < d.msgs.length := by
    rw [← hd.places_length]
    exact hm
  obtain ⟨i1, k1, c1, hpl, hat⟩ := hd.msg m _ (List.getElem?_eq_getElem hm')
  rw [List.getElem?_eq_getElem hm, heq, Option.some.injEq, Prod.mk.injEq] at hpl
  obtain ⟨rfl, rfl⟩ := hpl
  exact ⟨c1, hat.cell, hat.inside⟩

/-- A row of zeros without pointers is a message in which nothing is set. -/
theorem msgAt_new {type : Nat} (hs : schema.Sound) (hc : v.heap[i]? = some c)
    (hsort : v.sorts[i]? = some (.elems .ptr)) (hk : k < c.nelem)
    (hsize : (c.ssize, c.psize) = ((schema.msgType type).ssize, (schema.msgType type).psize))
    (hscal : ∀ j, j < c.ssize → c.scal k j = 0) (hptr : ∀ x, x < c.psize → c.ptr k x = none)
    (htype : type < schema.msgTypes.length) : v.MsgAt R schema i k c (DocMsg.new type) where
  cell := hc
  sort := hsort
  inside := hk
  ssize := congrArg Prod.fst hsize
  psize := congrArg Prod.snd hsize
  scal := hscal
  type := htype
  field := by
    intro f hf
    have hnone : f.inPointers = true → c.ptr k f.tag0 = none := fun hin => hptr _ (by
      have hlt := (hs.layout _ (schema.msgType_mem htype)).slot_lt hf hin
      rwa [show c.psize = _ from congrArg Prod.snd hsize])
    have hvals : (DocMsg.new type).vals f = [] := rfl
    unfold FieldAt
    rw [hvals]
    by_cases hlist : f.list = true ∨ f.kind = .ptr
    · rw [if_pos hlist, hnone (by rcases hlist with h | h <;> simp [FieldDesc.inPointers, h])]
    · rw [if_neg hlist]
      by_cases hstr : f.kind = .str
      · rw [if_pos hstr]
        exact Or.inl ⟨rfl, hnone (by simp [FieldDesc.inPointers, hstr])⟩
      · rw [if_neg hstr]

/-- The first element of a field, as it is created. -/
theorem listAt_blank {d : Doc} {t : Nat} {f : FieldDesc} {sh : Shape}
    (hc : v.heap[t]? = some (Cell.new sh)) (hsort : v.sorts[t]? = some (.elems f.kind))
    (hn : sh.nelem = 1) (hsize : getSize schema f.kind f.tag1 = (sh.ssize, sh.psize))
    (hplace : f.kind = .ptr → v.places[d.msgs.length]? = some (t, 0)) :
    v.ListAt R schema t (Cell.new sh) f [d.blank f] where
  cell := hc
  sort := hsort
  size := hsize
  length := hn
  item := by
    intro n y hy
    obtain ⟨rfl, rfl⟩ : n = 0 ∧ d.blank f = y := by
      cases n with
      | zero => exact ⟨rfl, Option.some.inj hy⟩
      | succ n => cases hy
    unfold Doc.blank
    cases hk : f.kind with
    | bool => exact ⟨hk, by simp [Cell.new, ByteMem.bit]⟩
    | str => exact ⟨hk, rfl⟩
    | ptr => exact ⟨hk, hplace hk⟩
    | enum | int | uint | float =>
        exact ⟨by simp [hk], by simp [hk], by simp [hk], load_eq_zero fun _ _ => rfl⟩
  spare := by
    intro _ n _ _
    simp [Cell.new, ByteMem.bit]

/-- A field without elements has an empty slot. -/
theorem FieldAt.slot_none {f : FieldDesc} (h : v.FieldAt R schema ci k f [])
    (hlist : f.list = true ∨ f.kind = .ptr) : ci.ptr k f.tag0 = none := by
  unfold FieldAt at h
  rw [if_pos hlist] at h
  cases ht : ci.ptr k f.tag0 with
  | none => rfl
  | some t =>
      rw [ht] at h
      exact absurd rfl h.1

/-- The view after the first element of a field is made. -/
def createView (v : View) (i k : Nat) (sh : Shape) (f : FieldDesc) : View :=
  v.addObj i (Cell.new sh) f.tag0 k (.elems f.kind)
    (if f.kind = .ptr then [(v.heap.length, 0)] else [])

/-- **The first element** of a field. -/
theorem Shows.create (hs : schema.Sound) {d : Doc} (hd : v.Shows R schema d) {m : Nat} {M : DocMsg}
    (hM : d.msgs[m]? = some M) (hpl : v.places[m]? = some (i, k))
    (hat : v.MsgAt R schema i k ci M) {f : FieldDesc}
    (hf : f ∈ (schema.msgType M.type).fields) (hlist : f.list = true ∨ f.kind = .ptr)
    (hempty : M.vals f = []) {sh : Shape} (hn : sh.nelem = 1)
    (hsize : getSize schema f.kind f.tag1 = (sh.ssize, sh.psize)) :
    (v.createView i k sh f).Shows R schema (d.init schema m f) ∧
      v.Grows (v.createView i k sh f) := by
  have hin := inPointers_of_list hlist
  have hx := hat.slot_lt hs hf hin
  have hfr : v.Frame (v.createView i k sh f) fun _ => False :=
    addObj_frame hat.cell (fun s' hs' => Or.inl (Option.some.inj (hs'.symm.trans hat.sort)))
      fun _ h => h.elim
  have hself : (v.createView i k sh f).heap[i]?
      = some (ci.putPtr (ci.row k) f.tag0 v.heap.length) := addObj_self hat.cell
  have hnewc : (v.createView i k sh f).heap[v.heap.length]? = some (Cell.new sh) :=
    addObj_new hat.cell
  have hsort : (v.createView i k sh f).sorts[v.heap.length]? = some (.elems f.kind) := by
    show (v.sorts ++ [_])[v.heap.length]? = _
    rw [← hd.sorts_length, List.getElem?_concat_length]
  have hplace : f.kind = .ptr →
      (v.createView i k sh f).places[d.msgs.length]? = some (v.heap.length, 0) := by
    intro hk
    show (v.places ++ if f.kind = .ptr then _ else _)[d.msgs.length]? = _
    rw [if_pos hk, ← hd.places_length, List.getElem?_concat_length]
  have hslot : (ci.putPtr (ci.row k) f.tag0 v.heap.length).ptr k f.tag0 = some v.heap.length := by
    rw [ci.row_of_psize hx]
    show Function.update ci.ptr k _ k f.tag0 = _
    rw [Function.update_self, Function.update_self]
  have hstep : FieldStep R schema v (v.createView i k sh f) (fun _ => False) i k ci
      (ci.putPtr (ci.row k) f.tag0 v.heap.length) f M (M.push f (d.blank f)) := by
    refine ⟨hfr, fun _ h => h.elim, fun i' k' c' hc' _ _ hne => addObj_rows hat.cell hx i' k' c' hc' hne,
      hself, rfl, rfl, Nat.le_refl _, ?_, hat.scal, rfl, ?_, ?_⟩
    · intro x' _ hne
      rw [ci.row_of_psize hx]
      show Function.update ci.ptr k _ k x' = _
      rw [Function.update_self, Function.update_of_ne (hne hin)]
    · intro f' hne
      exact Function.update_of_ne hne _ _
    · have hvals : (M.push f (d.blank f)).vals f = [d.blank f] := by
        show Function.update M.vals f _ f = _
        rw [Function.update_self, hempty]
        rfl
      unfold FieldAt
      rw [if_pos hlist, hslot, hvals]
      exact ⟨List.cons_ne_nil _ _, _, listAt_blank hnewc hsort hn hsize hplace⟩
  have hitems : d.items m f = [] := by rw [Doc.items_eq hM, hempty]
  have hbytes : blockBytes (sh.ssize, sh.psize) 1 = (Cell.new sh).blockSize := by
    rw [Cell.new_toShape, sh.blockSize_eq, hn]
  refine ⟨addObj_shows hd hat.cell (fun _ _ => rfl) ?_ ?_ ?_ ?_ ?_, hfr.toGrows⟩
  · show (if (d.items m f).length = 0 then d.objects + 1 else d.objects) = _
    rw [hitems, if_pos (by rfl)]
  · show d.bytes + (_ - if (d.items m f).length = 0 then 0 else _) = _
    rw [hitems, if_pos (by rfl), hsize, ← hbytes]
    rfl
  · show (v.places ++ _).length = (List.modify d.msgs m _ ++ _).length
    rw [List.length_append, List.length_append, List.length_modify, hd.places_length]
    split_ifs <;> rfl
  · split_ifs
    · refine List.Nodup.append hd.nodup (List.nodup_singleton _) ?_
      intro pl hpl' hnew
      rw [List.mem_singleton] at hnew
      subst hnew
      obtain ⟨c', hc', -⟩ := hd.place_lt hpl'
      exact absurd (List.getElem?_eq_some_iff.mp hc').1 (Nat.lt_irrefl _)
    · rw [List.append_nil]
      exact hd.nodup
  · refine hd.msg_step hs hM hpl hat hf hstep rfl _ ?_
    intro n N hN
    split_ifs at hN with hk
    · obtain ⟨rfl, rfl⟩ : n = 0 ∧ DocMsg.new f.tag1 = N := by
        cases n with
        | zero => exact ⟨rfl, Option.some.inj hN⟩
        | succ n => cases hN
      refine ⟨v.heap.length, 0, Cell.new sh, hplace hk, msgAt_new hs hnewc (by rw [hsort, hk]) ?_ ?_
        (fun _ _ => rfl) (fun _ _ => rfl)
        (hs.target _ (schema.msgType_mem hat.type) f hf hk)⟩
      · show 0 < sh.nelem
        omega
      · rw [← getSize_ptr hk, hsize]
        rfl
    · cases hN

/-! ## A change of one object -/

/-- The object `t` is changed. -/
def setObj (v : View) (t : Nat) (g : Cell → Cell) (ps : List (Nat × Nat)) : View where
  heap := v.heap.modify t g
  sorts := v.sorts
  places := v.places ++ ps

/-- The change keeps the shape, or lets the object grow. -/
theorem setObj_frame {t : Nat} {ct : Cell} {g : Cell → Cell} (hct : v.heap[t]? = some ct)
    (hs : (g ct).ssize = ct.ssize) (hp : (g ct).psize = ct.psize) (hn : ct.nelem ≤ (g ct).nelem)
    {kind : Kind} (hsort : v.sorts[t]? = some (.elems kind)) :
    v.Frame (v.setObj t g ps) (· = t) where
  cell := by
    intro t' c' hc'
    by_cases htt : t = t'
    · subst htt
      rw [hct, Option.some.injEq] at hc'
      subst hc'
      exact ⟨g ct, Heap.getElem?_modify_self hct g, hs, hp, hn⟩
    · exact ⟨c', by rw [← hc']; exact List.getElem?_modify_ne _ _ htt, rfl, rfl, Nat.le_refl _⟩
  sort := fun _ _ h => h
  place := by
    intro m pl hpl
    show (v.places ++ ps)[m]? = _
    rw [List.getElem?_append_left (List.getElem?_eq_some_iff.mp hpl).1, hpl]
  leaf := by
    intro t' c' s' hexc hc' _ _
    rw [← hc']
    exact List.getElem?_modify_ne _ _ (Ne.symm hexc)
  node := by
    intro t' c' hexc hc' _
    exact ⟨c', by rw [← hc']; exact List.getElem?_modify_ne _ _ (Ne.symm hexc), rfl⟩
  text := by
    rintro t' rfl ht'
    rw [hsort] at ht'
    cases ht'

/-- What a view says about the heap as a whole, after an object is changed. -/
theorem setObj_shows {d d' : Doc} (hd : v.Shows R schema d) {t : Nat} {ct : Cell}
    {g : Cell → Cell} (hct : v.heap[t]? = some ct)
    (hptr : ∀ k x t', k < (g ct).rows → x < (g ct).psize → (g ct).ptr k x = some t' →
      k < ct.rows ∧ x < ct.psize ∧ ct.ptr k x = some t')
    (hobjects : d'.objects = d.objects)
    (hbytes : d'.bytes + ct.blockSize = d.bytes + (g ct).blockSize)
    (hlen : (v.places ++ ps).length = d'.msgs.length) (hnodup : (v.places ++ ps).Nodup)
    (hmsg : ∀ (m : Nat) (M : DocMsg), d'.msgs[m]? = some M → ∃ i' k' c',
      (v.setObj t g ps).places[m]? = some (i', k') ∧
        (v.setObj t g ps).MsgAt R schema i' k' c' M) :
    (v.setObj t g ps).Shows R schema d' where
  sorts_length := by
    show v.sorts.length = (v.heap.modify t g).length
    rw [List.length_modify, hd.sorts_length]
  places_length := hlen
  nodup := hnodup
  forward := hd.forward.modify fun c hc row hrow x hx t' ht' => by
    rw [hct, Option.some.injEq] at hc
    subst hc
    obtain ⟨h1, h2, h3⟩ := hptr row x t' hrow hx ht'
    exact hd.forward t ct hct row h1 x h2 t' h3
  injective := hd.injective.modify fun c k x t' hc hk hx ht' => by
    rw [hct, Option.some.injEq] at hc
    subst hc
    exact hptr k x t' hk hx ht'
  objects := by
    show (v.heap.modify t g).length = _
    rw [List.length_modify, hd.objects, hobjects]
  bytes := by
    have htotal := Heap.total_modify_add hct g
    rw [hd.bytes] at htotal
    show Heap.total (v.heap.modify t g) = _
    omega
  msg := hmsg

/-- Growing keeps the rows of a message. -/
theorem sameRow_setNelem {n k' : Nat} (hn : c.CanHave n) (hle : c.nelem ≤ n) (hk : k' < c.nelem) :
    SameRow c (c.setNelem n) k' := by
  rw [Cell.setNelem_eq hn]
  have hrow : (0 < c.psize ∨ 0 < c.ssize) → k' < c.rows := by
    intro hpos
    have hlt := Shape.row_lt_rows hk
    rwa [c.row_eq (by omega)] at hlt
  refine ⟨rfl, rfl, hle, fun x hx => ?_, fun j hj => ?_⟩
  · show (if k' < c.rows then c.ptr k' else fun _ => none) x = _
    rw [if_pos (hrow (Or.inl (by omega)))]
  · show (if k' < c.rows then c.scal k' else fun _ => 0) j = _
    rw [if_pos (hrow (Or.inr (by omega)))]

/-- The elements of a list with one more row. -/
theorem ListAt.grow {v' : View} {t : Nat} {ct : Cell} {f : FieldDesc} {l : List Item} {y : Item}
    (hl : v.ListAt R schema t ct f l) (hn : ct.CanHave (ct.nelem + 1))
    (hw : f.HasWidth) (hc : v'.heap[t]? = some (ct.setNelem (ct.nelem + 1)))
    (hsort : v'.sorts[t]? = some (.elems f.kind))
    (htext : ∀ (t' : Nat) (s : Text), v.heap[t']? = some (strCell s) → v.sorts[t']? = some .text →
      v'.heap[t']? = some (strCell s) ∧ v'.sorts[t']? = some .text)
    (hplace : ∀ (m : Nat) (pl : Nat × Nat), v.places[m]? = some pl → v'.places[m]? = some pl)
    (hy : match f.kind with
      | .bool => y = .bit false
      | .str => y = .str []
      | .ptr => ∃ m, y = .msg m ∧ v'.places[m]? = some (t, ct.nelem)
      | _ => y = .num 0) :
    v'.ListAt R schema t (ct.setNelem (ct.nelem + 1)) f (l ++ [y]) := by
  have hsize := hl.size
  have hrows : ¬ (ct.ssize = 0 ∧ ct.psize = 0) → ct.rows = ct.nelem := fun h0 => by
    rw [ct.rows_eq, if_neg h0]
  have hbits : f.kind = .bool → ct.rows = (ct.nelem + 7) / 8 := fun hb => by
    rw [getSize_bool hw hb, Prod.mk.injEq] at hsize
    rw [ct.rows_eq, if_pos ⟨hsize.1.symm, hsize.2.symm⟩]
  have hscal : ∀ row, (ct.setNelem (ct.nelem + 1)).scal row
      = if row < ct.rows then ct.scal row else fun _ => 0 := fun row => by
    rw [Cell.setNelem_eq hn]
    rfl
  have hptr : ∀ row, (ct.setNelem (ct.nelem + 1)).ptr row
      = if row < ct.rows then ct.ptr row else fun _ => none := fun row => by
    rw [Cell.setNelem_eq hn]
    rfl
  -- an old bit stays, a spare one is zero
  have hbit : f.kind = .bool → ∀ n, ((ct.setNelem (ct.nelem + 1)).scal (n / 8)).bit 0 (n % 8)
      = if n < ct.nelem then (ct.scal (n / 8)).bit 0 (n % 8) else false := by
    intro hb n
    have hr := hbits hb
    rw [hscal]
    by_cases hlt : n < ct.nelem
    · rw [if_pos (by omega), if_pos hlt]
    · rw [if_neg hlt]
      by_cases hrow : n / 8 < ct.rows
      · rw [if_pos hrow]
        exact hl.spare hb n (by omega) hrow
      · rw [if_neg hrow]
        simp [ByteMem.bit]
  constructor
  case cell => exact hc
  case sort => exact hsort
  case size =>
    rw [Cell.setNelem_eq hn]
    exact hsize
  case length =>
    rw [Cell.setNelem_eq hn, List.length_append, ← hl.length]
    rfl
  case spare =>
    intro hb n hge _
    have hge' : ct.nelem + 1 ≤ n := by
      rw [Cell.setNelem_eq hn] at hge
      exact hge
    rw [hbit hb, if_neg (by omega)]
  case item =>
    intro n x hx
    by_cases hlt : n < l.length
    · rw [List.getElem?_append_left hlt] at hx
      have hitem := hl.item n x hx
      rw [← hl.length] at hlt
      cases x with
      | num w =>
          obtain ⟨h1, h2, h3, hload⟩ := hitem
          have hnum : f.IsNum := ⟨h1, h2, h3⟩
          have hle := scalarSize_bounds (hw.width hnum)
          rw [getSize_num hw hnum, Prod.mk.injEq] at hsize
          refine ⟨h1, h2, h3, ?_⟩
          rw [hscal, if_pos (by rw [hrows (by omega)]; exact hlt)]
          exact hload
      | bit b =>
          refine ⟨hitem.1, ?_⟩
          rw [hbit hitem.1, if_pos hlt]
          exact hitem.2
      | str s =>
          obtain ⟨hk, htx⟩ := hitem
          rw [getSize_str hk, Prod.mk.injEq] at hsize
          refine ⟨hk, ?_⟩
          unfold TextAt at htx ⊢
          rw [hptr, if_pos (by rw [hrows (by omega)]; exact hlt)]
          cases ht' : ct.ptr n 0 with
          | none => rwa [ht'] at htx
          | some t' =>
              rw [ht'] at htx
              obtain ⟨h1, h2, h3⟩ := htx
              obtain ⟨h1', h2'⟩ := htext t' s h1 h2
              exact ⟨h1', h2', R.grows ct.toShape _ s (by rw [Cell.setNelem_eq hn]; rfl)
                (by rw [Cell.setNelem_eq hn]; rfl) (by rw [Cell.setNelem_eq hn]; exact Nat.le_succ _)
                h3⟩
      | msg m => exact ⟨hitem.1, hplace m _ hitem.2⟩
    · -- the new element
      have hnl : n = ct.nelem := by
        have hlt' := (List.getElem?_eq_some_iff.mp hx).1
        rw [List.length_append, List.length_singleton] at hlt'
        rw [hl.length]
        omega
      rw [hnl, hl.length, List.getElem?_concat_length, Option.some.injEq] at hx
      subst hx
      rw [hnl]
      cases hk : f.kind with
      | bool =>
          rw [hk] at hy
          subst hy
          exact ⟨hk, by rw [hbit hk, if_neg (Nat.lt_irrefl _)]⟩
      | str =>
          rw [hk] at hy
          subst hy
          rw [getSize_str hk, Prod.mk.injEq] at hsize
          refine ⟨hk, ?_⟩
          unfold TextAt
          rw [hptr, if_neg (by rw [hrows (by omega)]; exact Nat.lt_irrefl _)]
      | ptr =>
          rw [hk] at hy
          obtain ⟨m, rfl, hm⟩ := hy
          exact ⟨hk, hm⟩
      | enum | int | uint | float =>
          rw [hk] at hy
          subst hy
          have hnum : f.IsNum := ⟨by simp [hk], by simp [hk], by simp [hk]⟩
          have hle := scalarSize_bounds (hw.width hnum)
          rw [getSize_num hw hnum, Prod.mk.injEq] at hsize
          refine ⟨hnum.1, hnum.2.1, hnum.2.2, ?_⟩
          rw [hscal, if_neg (by rw [hrows (by omega)]; exact Nat.lt_irrefl _)]
          exact load_eq_zero fun _ _ => rfl

/-- The view after a list gets one more element. -/
def growView (v : View) (t n : Nat) (f : FieldDesc) : View :=
  v.setObj t (fun c => c.setNelem (n + 1)) (if f.kind = .ptr then [(t, n)] else [])

/-- **One more element** in a field that has some. -/
theorem Shows.grow (hs : schema.Sound) {d : Doc} (hd : v.Shows R schema d) {m : Nat} {M : DocMsg}
    (hM : d.msgs[m]? = some M) (hpl : v.places[m]? = some (i, k))
    (hat : v.MsgAt R schema i k ci M) {f : FieldDesc}
    (hf : f ∈ (schema.msgType M.type).fields) (hlist : f.list = true ∨ f.kind = .ptr) {t : Nat}
    {ct : Cell} (ht : ci.ptr k f.tag0 = some t) (hl : v.ListAt R schema t ct f (M.vals f))
    (hne : M.vals f ≠ []) (hn : ct.CanHave (ct.nelem + 1)) :
    (v.growView t ct.nelem f).Shows R schema (d.init schema m f) ∧
      v.Grows (v.growView t ct.nelem f) := by
  have hin := inPointers_of_list hlist
  have hx := hat.slot_lt hs hf hin
  have hms := schema.msgType_mem hat.type
  have hset := Cell.setNelem_eq hn
  have hfwd := hd.forward i ci hat.cell k (hat.row_lt hx) _ hx t ht
  have hti : t ≠ i := by omega
  have hfr : v.Frame (v.growView t ct.nelem f) (· = t) :=
    setObj_frame hl.cell (by rw [hset]; rfl) (by rw [hset]; rfl) (by rw [hset]; exact Nat.le_succ _)
      hl.sort
  have hct' : (v.growView t ct.nelem f).heap[t]? = some (ct.setNelem (ct.nelem + 1)) :=
    Heap.getElem?_modify_self hl.cell _
  have hplace : f.kind = .ptr →
      (v.growView t ct.nelem f).places[d.msgs.length]? = some (t, ct.nelem) := by
    intro hk
    show (v.places ++ if f.kind = .ptr then _ else _)[d.msgs.length]? = _
    rw [if_pos hk, ← hd.places_length, List.getElem?_concat_length]
  have hlist' : (v.growView t ct.nelem f).ListAt R schema t (ct.setNelem (ct.nelem + 1)) f
      (M.vals f ++ [d.blank f]) := by
    refine hl.grow hn (hs.width _ hms f hf) hct' hl.sort (fun t' s h1 h2 => ?_) hfr.place ?_
    · refine ⟨hfr.leaf t' _ _ ?_ h1 h2 (by simp), h2⟩
      rintro rfl
      rw [hl.sort] at h2
      cases h2
    · unfold Doc.blank
      cases hk : f.kind with
      | ptr => exact ⟨_, rfl, hplace hk⟩
      | bool | str | enum | int | uint | float => rfl
  have hstep : FieldStep R schema v (v.growView t ct.nelem f) (· = t) i k ci ci f M
      (M.push f (d.blank f)) := by
    refine ⟨hfr, ?_, ?_, ?_, rfl, rfl, Nat.le_refl _, fun _ _ _ => rfl, hat.scal, rfl, ?_, ?_⟩
    · rintro t' rfl
      exact ⟨hin, ht⟩
    · intro i' k' c' hc' _ hk' _
      by_cases htt : t = i'
      · subst htt
        rw [hl.cell, Option.some.injEq] at hc'
        subst hc'
        exact ⟨_, hct', sameRow_setNelem hn (Nat.le_succ _) hk'⟩
      · exact ⟨c', by rw [← hc']; exact List.getElem?_modify_ne _ _ htt, .refl c' k'⟩
    · rw [← hat.cell]
      exact List.getElem?_modify_ne _ _ hti
    · intro f' hne'
      exact Function.update_of_ne hne' _ _
    · have hvals : (M.push f (d.blank f)).vals f = M.vals f ++ [d.blank f] :=
        Function.update_self _ _ _
      unfold FieldAt
      rw [if_pos hlist, ht, hvals]
      exact ⟨by simp, _, hlist'⟩
  have hitems : (d.items m f).length = ct.nelem := by rw [Doc.items_eq hM, hl.length]
  have hpos : ct.nelem ≠ 0 := by
    rw [hl.length]
    exact fun h0 => hne (List.length_eq_zero_iff.mp h0)
  have hold : blockBytes (getSize schema f.kind f.tag1) ct.nelem = ct.blockSize := by
    rw [hl.size, ct.blockSize_eq]
  have hnew : blockBytes (getSize schema f.kind f.tag1) (ct.nelem + 1)
      = (ct.setNelem (ct.nelem + 1)).blockSize := by
    rw [hl.size, hset, Cell.resize_toShape, Shape.blockSize_eq]
    rfl
  have hle : ct.blockSize ≤ (ct.setNelem (ct.nelem + 1)).blockSize := by
    rw [hset]
    exact ct.toShape.blockSize_le_withNelem hn (Nat.le_succ _)
  refine ⟨setObj_shows hd hl.cell ?_ ?_ ?_ ?_ ?_ ?_, hfr.toGrows⟩
  · intro row x t' _ hx' ht'
    rw [hset] at ht' hx'
    have ht'' : (if row < ct.rows then ct.ptr row else fun _ => none) x = some t' := ht'
    by_cases hr : row < ct.rows
    · rw [if_pos hr] at ht''
      exact ⟨hr, hx', ht''⟩
    · rw [if_neg hr] at ht''
      cases ht''
  · show (if (d.items m f).length = 0 then d.objects + 1 else d.objects) = _
    rw [if_neg (by rw [hitems]; exact hpos)]
  · show d.bytes + (blockBytes _ ((d.items m f).length + 1)
      - if (d.items m f).length = 0 then 0 else blockBytes _ (d.items m f).length) + _ = _
    rw [hitems, if_neg hpos, hold, hnew]
    omega
  · show (v.places ++ _).length = (List.modify d.msgs m _ ++ _).length
    rw [List.length_append, List.length_append, List.length_modify, hd.places_length]
    split_ifs <;> rfl
  · split_ifs
    · refine List.Nodup.append hd.nodup (List.nodup_singleton _) ?_
      intro pl hpl' hnew'
      rw [List.mem_singleton] at hnew'
      subst hnew'
      obtain ⟨c', hc', hlt⟩ := hd.place_lt hpl'
      rw [hl.cell, Option.some.injEq] at hc'
      subst hc'
      exact absurd hlt (Nat.lt_irrefl _)
    · rw [List.append_nil]
      exact hd.nodup
  · refine hd.msg_step hs hM hpl hat hf hstep rfl _ ?_
    intro n N hN
    split_ifs at hN with hk
    · obtain ⟨rfl, rfl⟩ : n = 0 ∧ DocMsg.new f.tag1 = N := by
        cases n with
        | zero => exact ⟨rfl, Option.some.inj hN⟩
        | succ n => cases hN
      have hsz := hl.size
      rw [getSize_ptr hk, Prod.mk.injEq] at hsz
      have hrow : (0 < ct.psize ∨ 0 < ct.ssize) → ct.rows = ct.nelem := fun h0 => by
        rw [ct.rows_eq, if_neg (by omega)]
      refine ⟨t, ct.nelem, _, hplace hk, msgAt_new hs hct' (by rw [← hk]; exact hl.sort) ?_ ?_
        (fun j hj => ?_) (fun x hx' => ?_) (hs.target _ hms f hf hk)⟩
      · rw [hset]
        exact Nat.lt_succ_self _
      · rw [hset, ← getSize_ptr hk, hl.size]
        rfl
      · rw [hset] at hj ⊢
        show (if ct.nelem < ct.rows then ct.scal ct.nelem else fun _ => 0) j = 0
        rw [if_neg (by rw [hrow (Or.inr (Nat.lt_of_le_of_lt (Nat.zero_le j) hj))]; exact Nat.lt_irrefl _)]
      · rw [hset] at hx' ⊢
        show (if ct.nelem < ct.rows then ct.ptr ct.nelem else fun _ => none) x = none
        rw [if_neg (by rw [hrow (Or.inl (Nat.lt_of_le_of_lt (Nat.zero_le x) hx'))]; exact Nat.lt_irrefl _)]
    · cases hN

end

end View

end Nbuf
