import Nbuf.Text.DocPuts

set_option autoImplicit false

/-! # References into a builder that holds a document

The functions on references do to the builder what the steps do to the document.
-/

namespace Nbuf

open ByteMem

namespace View

/-- `ref` is a reference in buffer `j` to the field `f` of message `m`, or to the last element of
this field when it is a list. The handle of a new list of booleans has no scalar part. -/
inductive RefTo (v : View) (m : Nat) (f : FieldDesc) : Nat → Ref → Prop
  | field {i : Nat} {o : Obj} (hmsg : v.IsMsg m i o) (hlist : f.list = false) :
      RefTo v m f i (getRef o f)
  | elem {i k t n : Nat} {ci ct : Cell} {ref : Ref} (hlist : f.list = true)
      (hpl : v.places[m]? = some (i, k)) (hci : v.heap[i]? = some ci)
      (ht : ci.ptr k f.tag0 = some t) (hct : v.heap[t]? = some ct) (hn : ct.nelem = n + 1)
      (hkind : ref.kind = f.kind) (htag1 : ref.tag1 = f.tag1)
      (htag0 : ref.tag0 = if f.kind = .bool then n % 8 else 0)
      (ho : ¬ (ct.ssize = 0 ∧ ct.psize = 0) → ref.o.Same (getElem ct.handle n))
      (hbits : f.kind = .bool →
        if n = 0 then ref.o.ssize = 0 else ref.o.Same (getElem ct.handle n)) :
      RefTo v m f t ref

variable {R : Room} {schema : Schema} {v : View} {d : Doc} {m i : Nat} {o : Obj} {M : DocMsg}
  {f : FieldDesc} {p : Pool} {a : Realloc}

/-- The message in an element of an object. -/
theorem Shows.msgAt {k : Nat} (hd : v.Shows R schema d) (hM : d.msgs[m]? = some M)
    (hpl : v.places[m]? = some (i, k)) : ∃ c, v.MsgAt R schema i k c M := by
  obtain ⟨i', k', c, hpl', hat⟩ := hd.msg m M hM
  rw [hpl, Option.some.injEq, Prod.mk.injEq] at hpl'
  obtain ⟨rfl, rfl⟩ := hpl'
  exact ⟨c, hat⟩

/-- The message that a handle stands for. -/
theorem IsMsg.msgAt (hmsg : v.IsMsg m i o) (hd : v.Shows R schema d) (hM : d.msgs[m]? = some M) :
    ∃ k c, v.places[m]? = some (i, k) ∧ v.MsgAt R schema i k c M ∧
      (¬ (c.ssize = 0 ∧ c.psize = 0) → o.Same (getElem c.handle k)) := by
  obtain ⟨k, c, hpl, hc, -, ho⟩ := hmsg
  obtain ⟨c', hat⟩ := hd.msgAt hM hpl
  rw [hat.cell, Option.some.injEq] at hc
  subst hc
  exact ⟨k, _, hpl, hat, ho⟩

theorem IsMsg.type_lt (hmsg : v.IsMsg m i o) (hd : v.Shows R schema d) (hM : d.msgs[m]? = some M) :
    M.type < schema.msgTypes.length := by
  obtain ⟨k, c, -, hat, -⟩ := hmsg.msgAt hd hM
  exact hat.type

/-- The elements that a slot leads to. -/
theorem MsgAt.list {k t : Nat} {c : Cell} (hat : v.MsgAt R schema i k c M)
    (hf : f ∈ (schema.msgType M.type).fields) (hlist : f.list = true ∨ f.kind = .ptr)
    (ht : c.ptr k f.tag0 = some t) :
    M.vals f ≠ [] ∧ ∃ ct, v.ListAt R schema t ct f (M.vals f) := by
  have hfield := hat.field f hf
  unfold FieldAt at hfield
  rwa [if_pos hlist, ht] at hfield

theorem MsgAt.vals_nil {k : Nat} {c : Cell} (hat : v.MsgAt R schema i k c M)
    (hf : f ∈ (schema.msgType M.type).fields) (hlist : f.list = true ∨ f.kind = .ptr)
    (ht : c.ptr k f.tag0 = none) : M.vals f = [] := by
  have hfield := hat.field f hf
  unfold FieldAt at hfield
  rwa [if_pos hlist, ht] at hfield

/-- A field that may get one more element. -/
def CanGrow (schema : Schema) (M : DocMsg) (f : FieldDesc) : Prop :=
  (M.vals f).length + 1 < 2 ^ 32 - 1 ∧
    (getSize schema f.kind f.tag1 = (0, 0) → (M.vals f).length + 1 < 2 ^ 32 - 7)

/-! ## New messages -/

/-- The view after a message is created. -/
def addRoot (v : View) (sh : Shape) : View where
  heap := v.heap ++ [Cell.new sh]
  sorts := v.sorts ++ [.elems .ptr]
  places := v.places ++ [(v.heap.length, 0)]

theorem addRoot_frame (v : View) (sh : Shape) : v.Frame (v.addRoot sh) fun _ => False := by
  have hheap : ∀ (t : Nat) (c : Cell), v.heap[t]? = some c → (v.addRoot sh).heap[t]? = some c := by
    intro t c hc
    rw [← hc]
    exact List.getElem?_append_left (List.getElem?_eq_some_iff.mp hc).1
  refine ⟨⟨fun t c hc => ⟨c, hheap t c hc, rfl, rfl, Nat.le_refl _⟩, fun t s hs => ?_,
    fun m pl hpl => ?_⟩, fun t c s _ hc _ _ => hheap t c hc, fun t c _ hc _ => ⟨c, hheap t c hc, rfl⟩,
    fun _ h => h.elim⟩
  · rw [← hs]
    exact List.getElem?_append_left (List.getElem?_eq_some_iff.mp hs).1
  · rw [← hpl]
    exact List.getElem?_append_left (List.getElem?_eq_some_iff.mp hpl).1

/-- **A new message.** -/
theorem Shows.add (hs : schema.Sound) (hd : v.Shows R schema d) {type : Nat}
    (htype : type < schema.msgTypes.length) {sh : Shape} (hn : sh.nelem = 1)
    (hsize : (sh.ssize, sh.psize) = ((schema.msgType type).ssize, (schema.msgType type).psize)) :
    (v.addRoot sh).Shows R schema (d.add schema type) where
  sorts_length := by
    show (v.sorts ++ [_]).length = (v.heap ++ [_]).length
    rw [List.length_append, List.length_append, hd.sorts_length]
    rfl
  places_length := by
    show (v.places ++ [_]).length = (d.msgs ++ [_]).length
    rw [List.length_append, List.length_append, hd.places_length]
    rfl
  nodup := by
    refine List.Nodup.append hd.nodup (List.nodup_singleton _) ?_
    intro pl hpl hnew
    rw [List.mem_singleton] at hnew
    subst hnew
    obtain ⟨c, hc, -⟩ := hd.place_lt hpl
    exact absurd (List.getElem?_eq_some_iff.mp hc).1 (Nat.lt_irrefl _)
  forward := hd.forward.append fun _ _ => rfl
  injective := hd.injective.append fun _ _ => rfl
  objects := by
    show (v.heap ++ [_]).length = _
    rw [List.length_append, hd.objects]
    rfl
  bytes := by
    show Heap.total (v.heap ++ [_]) = d.bytes + _
    rw [Heap.total_append, Heap.total_singleton, hd.bytes, Cell.new_toShape, sh.blockSize_eq, hn, hsize]
  msg := by
    intro m M hM
    have hfr := v.addRoot_frame sh
    have hM' : (d.msgs ++ [DocMsg.new type])[m]? = some M := hM
    rcases Nat.lt_or_ge m d.msgs.length with hlt | hge
    · rw [List.getElem?_append_left hlt] at hM'
      obtain ⟨i, k, c, hpl, hat⟩ := hd.msg m M hM'
      have hc : (v.addRoot sh).heap[i]? = some c := by
        rw [← hat.cell]
        exact List.getElem?_append_left (List.getElem?_eq_some_iff.mp hat.cell).1
      exact ⟨i, k, c, hfr.place m _ hpl, hat.frame hs hfr hc (.refl c k) fun _ _ _ _ _ h => h⟩
    · obtain rfl : m = d.msgs.length := by
        have hlt := (List.getElem?_eq_some_iff.mp hM').1
        rw [List.length_append, List.length_singleton] at hlt
        omega
      rw [List.getElem?_concat_length, Option.some.injEq] at hM'
      subst hM'
      refine ⟨v.heap.length, 0, Cell.new sh, ?_, msgAt_new hs List.getElem?_concat_length ?_
        (show 0 < sh.nelem by omega) hsize (fun _ _ => rfl) (fun _ _ => rfl) htype⟩
      · show (v.places ++ [_])[d.msgs.length]? = _
        rw [← hd.places_length, List.getElem?_concat_length]
      · show (v.sorts ++ [_])[v.heap.length]? = _
        rw [← hd.sorts_length, List.getElem?_concat_length]

/-- The shape of a new message. -/
theorem msgShape (hs : schema.Sound) {type : Nat} (htype : type < schema.msgTypes.length) :
    ∃ sh : Shape, sh.nelem = 1 ∧ sh.ssize = (schema.msgType type).ssize ∧
      sh.psize = (schema.msgType type).psize := by
  have hsound := hs.layout _ (schema.msgType_mem htype)
  refine ⟨⟨1, (schema.msgType type).ssize, (schema.msgType type).psize, by decide,
    hsound.ssize_lt, hsound.psize_lt, ?_, fun _ _ => by decide⟩, rfl, rfl, rfl⟩
  rcases Nat.eq_zero_or_pos (schema.msgType type).psize with h0 | hpos
  · exact Or.inl h0
  · have := hsound.stride_word hpos
    exact Or.inr (by omega)

/-- **`nbuf_create`** of one message. -/
theorem add_spec (hs : schema.Sound) (ha : a.Total) (hp : p.Rep v.heap) (hd : v.Shows R schema d)
    {type : Nat} (htype : type < schema.msgTypes.length) (hobj : d.objects < 2 ^ 32) :
    ∃ p' o v', p.create a 1 (schema.msgType type).ssize (schema.msgType type).psize = some (p', o) ∧
      p'.Rep v'.heap ∧ v'.Shows R schema (d.add schema type) ∧ v.Grows v' ∧
      v'.places[d.msgs.length]? = some (p.buffercount, 0) ∧ v'.IsMsg d.msgs.length p.buffercount o := by
  obtain ⟨sh, hn, hss, hps⟩ := msgShape hs htype
  have hofs : ∀ base, Obj.ofFields base 1 (schema.msgType type).ssize (schema.msgType type).psize
      = sh.obj base := by
    intro base
    rw [← hss, ← hps, ← hn]
    exact sh.ofFields_eq base
  obtain ⟨b, hcreate, -, hrep⟩ := hp.create ha hofs (by rw [hd.objects]; exact hobj)
  have hshows := hd.add hs htype hn (by rw [hss, hps])
  have hplace : (v.addRoot sh).places[d.msgs.length]? = some (p.buffercount, 0) := by
    rw [Pool.buffercount, hp.length_eq]
    show (v.places ++ [_])[d.msgs.length]? = _
    rw [← hd.places_length, List.getElem?_concat_length]
  refine ⟨_, (Cell.new sh).handle, v.addRoot sh, hcreate, hrep, hshows, (v.addRoot_frame sh).toGrows,
    hplace, 0, Cell.new sh, hplace, ?_, ?_, fun h0 => handle_same hn h0⟩
  · rw [Pool.buffercount, hp.length_eq]
    exact List.getElem?_concat_length
  · show 0 < sh.nelem
    omega

/-! ## Elements -/

/-- `nbuf_has_ptr` sees whether a list or submessage has elements. -/
theorem hasPtr_spec (hs : schema.Sound) (hp : p.Rep v.heap) (hd : v.Shows R schema d)
    (hmsg : v.IsMsg m i o) (hM : d.msgs[m]? = some M) (hf : f ∈ (schema.msgType M.type).fields)
    (hlist : f.list = true ∨ f.kind = .ptr) : ∃ b, p.getbuffer i = some b ∧
      hasPtr b o f.tag0 = some (!(M.vals f).isEmpty) := by
  obtain ⟨k, c, -, hat, ho⟩ := hmsg.msgAt hd hM
  have hx := hat.slot_lt hs hf (inPointers_of_list hlist)
  obtain ⟨b, hb, hhas⟩ := hp.hasPtr hat.cell hat.inside hx (ho (by omega))
  refine ⟨b, hb, ?_⟩
  rw [hhas, c.row_of_psize hx]
  cases ht : c.ptr k f.tag0 with
  | none =>
      rw [hat.vals_nil hf hlist ht]
      rfl
  | some t =>
      obtain ⟨hne, -⟩ := hat.list hf hlist ht
      cases hv : M.vals f with
      | nil => exact absurd hv hne
      | cons x l => rfl

/-- **`nbuf_ref_init_ptr`** gives a list or a submessage one more element, and leaves a reference
to it. -/
theorem init_spec (hs : schema.Sound) (ha : a.Total) (hp : p.Rep v.heap)
    (hd : v.Shows R schema d) (hmsg : v.IsMsg m i o) (hM : d.msgs[m]? = some M)
    (hf : f ∈ (schema.msgType M.type).fields) (hlist : f.list = true ∨ f.kind = .ptr)
    (hfree : f.list = true ∨ M.vals f = []) (hroom : CanGrow schema M f)
    (hobj : (d.init schema m f).objects ≤ 2 ^ 31) :
    ∃ p' j ref' v', p.refInitPtr a schema i (getRef o f) = some (p', j, ref') ∧
      p'.Rep v'.heap ∧ v'.Shows R schema (d.init schema m f) ∧ v.Grows v' ∧
      (f.kind ≠ .ptr → v'.RefTo m f j ref') ∧
      (f.kind = .ptr → v'.IsMsg d.msgs.length j ref'.o) := by
  obtain ⟨k, c, hpl, hat, ho⟩ := hmsg.msgAt hd hM
  have hx := hat.slot_lt hs hf (inPointers_of_list hlist)
  have hx' : (getRef o f).tag0 < c.psize := hx
  have hrow := c.row_of_psize hx k
  have hms := schema.msgType_mem hat.type
  have ho' : (getRef o f).o.Same (getElem c.handle k) := ho (by omega)
  obtain ⟨b, hb, hhas⟩ := hasPtr_spec hs hp hd hmsg hM hf hlist
  have hhas' : hasPtr b (getRef o f).o (getRef o f).tag0 = some (!(M.vals f).isEmpty) := hhas
  have hitems : d.items m f = M.vals f := Doc.items_eq hM f
  by_cases hempty : M.vals f = []
  · -- the first element
    obtain ⟨sh, hn, hsize⟩ := elemShape hs hms hf
    have hobj' : v.heap.length + 1 ≤ 2 ^ 31 := by
      have hcount : (d.init schema m f).objects = d.objects + 1 := by
        show (if (d.items m f).length = 0 then d.objects + 1 else d.objects) = _
        rw [hitems, hempty, if_pos (by rfl)]
      rw [hd.objects]
      omega
    obtain ⟨p', hcreate, -, hrep⟩ := hp.createElem ha hat.cell hat.inside hx' ho'
      hlist hn hsize (by omega)
    obtain ⟨hshows, hgrows⟩ := hd.create hs hM hpl hat hf hlist hempty hn hsize
    have hnewc : (v.createView i k sh f).heap[v.heap.length]? = some (Cell.new sh) :=
      addObj_new hat.cell
    refine ⟨p', v.heap.length,
      { getRef o f with o := (Cell.new sh).handle, tag0 := 0, list := false },
      v.createView i k sh f, ?_, hrep, hshows, hgrows, ?_, ?_⟩
    · unfold Pool.refInitPtr
      simp only [hb, hhas', Option.bind_eq_bind, Option.bind_some, hempty, List.isEmpty_nil,
        Bool.not_true, Bool.false_eq_true, if_false]
      exact hcreate
    · intro hk
      have hl : f.list = true := hlist.resolve_right hk
      have hslot : (c.putPtr (c.row k) f.tag0 v.heap.length).ptr k f.tag0 = some v.heap.length := by
        rw [hrow]
        show Function.update c.ptr k _ k f.tag0 = _
        rw [Function.update_self, Function.update_self]
      refine .elem hl (hgrows.place m _ hpl) (addObj_self hat.cell) hslot hnewc hn rfl rfl ?_ ?_ ?_
      · show 0 = if f.kind = .bool then 0 % 8 else 0
        split_ifs <;> rfl
      · exact fun h0 => handle_same hn h0
      · intro hb'
        rw [if_pos rfl]
        rw [getSize_bool (hs.width _ hms f hf) hb', Prod.mk.injEq] at hsize
        exact hsize.1.symm
    · intro hk
      refine ⟨0, Cell.new sh, ?_, hnewc, ?_, fun h0 => handle_same hn h0⟩
      · show (v.places ++ if f.kind = .ptr then _ else _)[d.msgs.length]? = _
        rw [if_pos hk, ← hd.places_length, List.getElem?_concat_length]
      · show 0 < sh.nelem
        omega
  · -- one more
    have hl : f.list = true := hfree.resolve_right hempty
    cases ht : c.ptr k f.tag0 with
    | none => exact absurd (hat.vals_nil hf hlist ht) hempty
    | some t =>
        obtain ⟨-, ct, hlistAt⟩ := hat.list hf hlist ht
        have hcan : ct.CanHave (ct.nelem + 1) := by
          rw [hlistAt.length]
          refine ⟨hroom.1, fun h1 h2 => hroom.2 ?_⟩
          rw [hlistAt.size, h1, h2]
        have hlt := (hd.forward i c hat.cell k (hat.row_lt hx) _ hx t ht).2
        have hobj' : v.heap.length ≤ 2 ^ 31 := by
          have hcount : (d.init schema m f).objects = d.objects := by
            show (if (d.items m f).length = 0 then d.objects + 1 else d.objects) = _
            rw [hitems, if_neg fun h0 => hempty (List.length_eq_zero_iff.mp h0)]
          rw [hd.objects]
          omega
        obtain ⟨p', happend, -, hrep⟩ := hp.appendElem ha hat.cell hat.inside hx' ho'
          hl (by rw [hrow]; exact ht) hlistAt.cell (by omega) hcan
        obtain ⟨hshows, hgrows⟩ := hd.grow hs hM hpl hat hf hlist ht hlistAt hempty hcan
        have hct' : (v.growView t ct.nelem f).heap[t]? = some (ct.setNelem (ct.nelem + 1)) :=
          Heap.getElem?_modify_self hlistAt.cell _
        have hset := Cell.setNelem_eq hcan
        have hfwd := hd.forward i c hat.cell k (hat.row_lt hx) _ hx t ht
        refine ⟨p', t,
          { getRef o f with
            o := getElem (ct.setNelem (ct.nelem + 1)).handle ct.nelem
            tag0 := if f.kind = .bool then ct.nelem % 8 else 0
            list := false },
          v.growView t ct.nelem f, ?_, hrep, hshows, hgrows, ?_, ?_⟩
        · have hnot : (!(M.vals f).isEmpty) = true := by
            cases hv : M.vals f with
            | nil => exact absurd hv hempty
            | cons x l => rfl
          unfold Pool.refInitPtr
          simp only [hb, hhas', Option.bind_eq_bind, Option.bind_some, hnot, if_true]
          exact happend
        · intro hk
          have hci' : (v.growView t ct.nelem f).heap[i]? = some c := by
            rw [← hat.cell]
            exact List.getElem?_modify_ne _ _ (by omega)
          have hnelem : (ct.setNelem (ct.nelem + 1)).nelem = ct.nelem + 1 := by rw [hset]; rfl
          have hpos : ct.nelem ≠ 0 := by
            rw [hlistAt.length]
            exact fun h0 => hempty (List.length_eq_zero_iff.mp h0)
          refine .elem hl (hgrows.place m _ hpl) hci' ht hct' hnelem rfl rfl rfl
            (fun _ => Obj.Same.refl _) (fun _ => ?_)
          rw [if_neg hpos]
          exact Obj.Same.refl _
        · intro hk
          refine ⟨ct.nelem, _, ?_, hct', ?_, fun _ => Obj.Same.refl _⟩
          · show (v.places ++ if f.kind = .ptr then _ else _)[d.msgs.length]? = _
            rw [if_pos hk, ← hd.places_length, List.getElem?_concat_length]
          · rw [hset]
            exact Nat.lt_succ_self _

/-- The message of a field that is made ready. -/
theorem ready_msg (hM : d.msgs[m]? = some M) : (d.ready schema m f).msgs[m]?
    = some (if f.list = true ∨ f.kind = .ptr then M.push f (d.blank f) else M) := by
  unfold Doc.ready
  by_cases hlist : f.list = true ∨ f.kind = .ptr
  · have hm : m < d.msgs.length := (List.getElem?_eq_some_iff.mp hM).1
    simp only [if_pos hlist]
    show ((d.msgs.modify m fun M => M.push f (d.blank f)) ++ _)[m]? = _
    rw [List.getElem?_append_left (by rw [List.length_modify]; exact hm), List.getElem?_modify_eq, hM]
    rfl
  · simp only [if_neg hlist]
    exact hM

/-- **A reference to a field** that is about to be put. -/
theorem field_spec (hs : schema.Sound) (ha : a.Total) (hp : p.Rep v.heap)
    (hd : v.Shows R schema d) (hmsg : v.IsMsg m i o) (hM : d.msgs[m]? = some M)
    (hf : f ∈ (schema.msgType M.type).fields)
    (hfree : f.kind = .ptr → f.list = true ∨ M.vals f = [])
    (hroom : f.list = true ∨ f.kind = .ptr → CanGrow schema M f)
    (hobj : (d.ready schema m f).objects ≤ 2 ^ 31) :
    ∃ p' j ref' v', p.fieldRef a schema i o f = some (p', j, ref') ∧
      p'.Rep v'.heap ∧ v'.Shows R schema (d.ready schema m f) ∧ v.Grows v' ∧
      (f.kind ≠ .ptr → v'.RefTo m f j ref') ∧
      (f.kind = .ptr → v'.IsMsg d.msgs.length j ref'.o) := by
  unfold Pool.fieldRef
  unfold Doc.ready at hobj ⊢
  by_cases hlist : f.list = true ∨ f.kind = .ptr
  · have hlist' : (getRef o f).list = true ∨ (getRef o f).kind = .ptr := hlist
    rw [if_pos hlist] at hobj
    simp only [if_pos hlist, if_pos hlist']
    exact init_spec hs ha hp hd hmsg hM hf hlist (hlist.imp_right hfree |>.elim Or.inl id)
      (hroom hlist) hobj
  · have hlist' : ¬ ((getRef o f).list = true ∨ (getRef o f).kind = .ptr) := hlist
    simp only [if_neg hlist, if_neg hlist']
    rw [not_or] at hlist
    exact ⟨p, i, getRef o f, v, rfl, hp, hd, .refl v,
      fun _ => .field hmsg (Bool.eq_false_iff.mpr hlist.1), fun hk => absurd hk hlist.2⟩

/-! ## Puts -/

/-- A reference has the kind and the width of its field. -/
theorem RefTo.tags {j : Nat} {ref : Ref} (href : v.RefTo m f j ref) :
    ref.kind = f.kind ∧ ref.tag1 = f.tag1 := by
  cases href with
  | field => exact ⟨rfl, rfl⟩
  | elem _ _ _ _ _ _ hkind htag1 => exact ⟨hkind, htag1⟩

/-- The object that a reference to an element of a list leads to. -/
theorem RefTo.cell_of_list {j : Nat} {ref : Ref} (href : v.RefTo m f j ref)
    (hd : v.Shows R schema d) (hM : d.msgs[m]? = some M)
    (hf : f ∈ (schema.msgType M.type).fields) (hl : f.list = true) {c : Cell}
    (hc : v.heap[j]? = some c) :
    getSize schema f.kind f.tag1 = (c.ssize, c.psize) ∧ c.nelem = (M.vals f).length := by
  cases href with
  | field _ hlist =>
      rw [hl] at hlist
      cases hlist
  | elem _ hpl hci ht =>
      obtain ⟨ci, hat⟩ := hd.msgAt hM hpl
      rw [hat.cell, Option.some.injEq] at hci
      subst hci
      obtain ⟨-, ct, hlist⟩ := hat.list hf (Or.inl hl) ht
      rw [hlist.cell, Option.some.injEq] at hc
      subst hc
      exact ⟨hlist.size, hlist.length⟩

theorem onBuf_eq {j : Nat} {b b' : Buffer} {put : Buffer → Option Buffer}
    (hb : p.getbuffer j = some b) (hput : put b = some b') :
    p.onBuf j put = some (p.setBuf j b') := by
  unfold Pool.onBuf
  simp only [hb, Option.bind_eq_bind, Option.bind_some, hput, Option.pure_def]

/-- **A number** is put where the reference leads. -/
theorem put_num (hs : schema.Sound) (hp : p.Rep v.heap) (hd : v.Shows R schema d) {j : Nat}
    {ref : Ref} (href : v.RefTo m f j ref) (hM : d.msgs[m]? = some M)
    (hf : f ∈ (schema.msgType M.type).fields) (hnum : f.IsNum) (x : Nat) :
    ∃ p' v', p.onBuf j (fun b => putInt b ref.o ref.tag0 f.width x) = some p' ∧
      p'.Rep v'.heap ∧ v'.Shows R schema (d.putNum m f x) ∧ v.Grows v' := by
  cases href with
  | field hmsg hlist =>
      rename_i o
      obtain ⟨k, c, hpl, hat, ho⟩ := hmsg.msgAt hd hM
      have hms := schema.msgType_mem hat.type
      have hscalar : f.IsScalar := ⟨by simp [FieldDesc.inPointers, hlist, hnum.2.1, hnum.2.2], hnum.1⟩
      have hlay := hs.layout _ hms
      have hin := hlay.inside f hf hscalar
      have hssize := hlay.ssize_lt
      have hw := (hs.width _ hms f hf).width hnum
      have hpos := scalarSize_bounds hw
      have hne : ¬ (c.ssize = 0 ∧ c.psize = 0) := by
        rw [hat.ssize]
        omega
      obtain ⟨b, b', hb, hput, hrep⟩ := hp.putInt hat.cell hat.inside (fun _ => hw) (by omega)
        (hlay.aligned f hf hscalar) (by omega) x
      have hset : c.setInt k f.tag0 f.width x = c.putInt k f.tag0 f.width x := by
        unfold Cell.setInt
        rw [if_pos (by rw [c.width_eq, if_neg hne, hat.ssize]; exact hin), c.row_eq hne]
      have hscal : ∀ y, y < c.ssize →
          (c.setInt k f.tag0 f.width x).scal k y = M.scal.store f.tag0 f.width x y := by
        intro y hy
        rw [hset]
        show Function.update c.scal k _ k y = _
        rw [Function.update_self]
        unfold ByteMem.store
        rw [hat.scal y hy]
      have hrows : ∀ k', k' ≠ k → (c.setInt k f.tag0 f.width x).scal k' = c.scal k' := by
        intro k' hk'
        rw [hset]
        exact Function.update_of_ne hk' _ _
      have hshows : (v.setObj j (fun c => c.setInt k f.tag0 f.width x) []).Shows R schema
          (d.putNum m f x) ∧ v.Grows (v.setObj j (fun c => c.setInt k f.tag0 f.width x) []) :=
        hd.set_scal hs hM hpl hat hf (g := fun c => c.setInt k f.tag0 f.width x)
          (c.setInt_toShape ..) (c.setInt_ptr ..) hscal hrows (if_neg (by rw [hlist]; decide))
      refine ⟨p.setBuf j b', _, onBuf_eq hb ?_, hrep, hshows.1, hshows.2⟩
      rw [← hput]
      exact putInt_same (ho hne) b _ _ _
  | elem hlist hpl hci ht hct hn hkind htag1 htag0 ho hbits =>
      rename_i i k n ci ct
      obtain ⟨c, hat⟩ := hd.msgAt hM hpl
      rw [hat.cell, Option.some.injEq] at hci
      subst hci
      have hms := schema.msgType_mem hat.type
      have hwid := hs.width _ hms f hf
      have hw := hwid.width hnum
      have hpos := scalarSize_bounds hw
      obtain ⟨hne, ct', hl⟩ := hat.list hf (Or.inl hlist) ht
      rw [hl.cell, Option.some.injEq] at hct
      subst hct
      have hsize := hl.size
      rw [getSize_num hwid hnum, Prod.mk.injEq] at hsize
      have hlen : (M.vals f).length = n + 1 := by rw [← hl.length, hn]
      obtain ⟨b, b', hb, hput, hrep⟩ := hp.putInt hl.cell (k := n) (show n < ct'.nelem by omega)
        (fun _ => hw) (by omega) (Nat.dvd_zero _) (by omega) x
      have hself : (v.setObj j (fun c => c.setInt n 0 f.width x) []).heap[j]?
          = some (ct'.setInt n 0 f.width x) := Heap.getElem?_modify_self hl.cell _
      have hshows : (v.setObj j (fun c => c.setInt n 0 f.width x) []).Shows R schema
          (d.putNum m f x) ∧ v.Grows (v.setObj j (fun c => c.setInt n 0 f.width x) []) :=
        hd.set_elem hs hM hpl hat hf hlist hnum.2.2 ht hl (g := fun c => c.setInt n 0 f.width x)
          (ct'.setInt_toShape ..) (ct'.setInt_ptr ..) (by simp) ⟨_, hl.putNum hnum hwid hlen x hself hl.sort⟩ (if_pos hlist)
      refine ⟨p.setBuf j b', _, onBuf_eq hb ?_, hrep, hshows.1, hshows.2⟩
      have htag : ref.tag0 = 0 := by rw [htag0, if_neg hnum.1]
      rw [← hput, htag]
      exact putInt_same (ho (by omega)) b _ _ _

theorem setBuf_same {j : Nat} {b : Buffer} (hb : p.getbuffer j = some b) : p.setBuf j b = p := by
  unfold Pool.setBuf
  obtain ⟨hj, hget⟩ := List.getElem?_eq_some_iff.mp hb
  rw [← hget, List.set_getElem_self]

theorem modify_same {α : Type} {l : List α} {m : Nat} {x : α} (hx : l[m]? = some x) {g : α → α}
    (hg : g x = x) : l.modify m g = l := by
  apply List.ext_getElem?
  intro j
  by_cases hj : m = j
  · subst hj
    rw [List.getElem?_modify_eq, hx, Option.map_eq_map, Option.map_some, hg]
  · rw [List.getElem?_modify_ne _ _ hj]

/-- **A boolean** is put where the reference leads. -/
theorem put_bit (hs : schema.Sound) (hp : p.Rep v.heap) (hd : v.Shows R schema d) {j : Nat}
    {ref : Ref} (href : v.RefTo m f j ref) (hM : d.msgs[m]? = some M)
    (hf : f ∈ (schema.msgType M.type).fields) (hk : f.kind = .bool) (x : Bool) :
    ∃ p' v', p.onBuf j (fun b => putBit b ref.o ref.tag0 x) = some p' ∧
      p'.Rep v'.heap ∧ v'.Shows R schema (d.putBit m f x) ∧ v.Grows v' := by
  cases href with
  | field hmsg hlist =>
      rename_i o
      obtain ⟨k, c, hpl, hat, ho⟩ := hmsg.msgAt hd hM
      have hbit : f.IsBit := ⟨by simp [FieldDesc.inPointers, hlist, hk], hk⟩
      have hin := (hs.layout _ (schema.msgType_mem hat.type)).bit_inside f hf hbit
      have hne : ¬ (c.ssize = 0 ∧ c.psize = 0) := by
        rw [hat.ssize]
        omega
      obtain ⟨b, b', hb, hput, hrep⟩ := hp.putBit hat.cell hat.inside f.tag0 x
      have hset : c.setBit k f.tag0 x = c.putBit k f.tag0 x := by
        unfold Cell.setBit
        rw [if_pos (by rw [c.width_eq, if_neg hne, hat.ssize]; omega), c.row_eq hne]
      have hscal : ∀ y, y < c.ssize → (c.setBit k f.tag0 x).scal k y
          = M.scal.putBit (f.tag0 / 8) (f.tag0 % 8) x y := by
        intro y hy
        rw [hset]
        show Function.update c.scal k _ k y = _
        rw [Function.update_self]
        exact putBit_congr (hat.scal y hy)
      have hrows : ∀ k', k' ≠ k → (c.setBit k f.tag0 x).scal k' = c.scal k' := by
        intro k' hk'
        rw [hset]
        exact Function.update_of_ne hk' _ _
      have hshows : (v.setObj j (fun c => c.setBit k f.tag0 x) []).Shows R schema
          (d.putBit m f x) ∧ v.Grows (v.setObj j (fun c => c.setBit k f.tag0 x) []) :=
        hd.set_scal hs hM hpl hat hf (g := fun c => c.setBit k f.tag0 x)
          (c.setBit_toShape ..) (c.setBit_ptr ..) hscal hrows (if_neg (by rw [hlist]; decide))
      refine ⟨p.setBuf j b', _, onBuf_eq hb ?_, hrep, hshows.1, hshows.2⟩
      rw [← hput]
      exact putBit_same (ho hne) b _ _
  | elem hlist hpl hci ht hct hn hkind htag1 htag0 ho hbits =>
      rename_i i k n ci ct
      obtain ⟨c, hat⟩ := hd.msgAt hM hpl
      rw [hat.cell, Option.some.injEq] at hci
      subst hci
      obtain ⟨hne, ct', hl⟩ := hat.list hf (Or.inl hlist) ht
      rw [hl.cell, Option.some.injEq] at hct
      subst hct
      have hlen : (M.vals f).length = n + 1 := by rw [← hl.length, hn]
      have hsame := hbits hk
      by_cases hn0 : n = 0
      · -- the handle of a new list has no scalar part
        rw [if_pos hn0] at hsame
        obtain ⟨b, hb, -⟩ := hp.obj j ct' hl.cell
        have hput : putBit b ref.o ref.tag0 x = some b := by
          unfold putBit
          simp only [hsame, ge_iff_le, Nat.zero_le, if_true, Option.pure_def]
        have hdoc : d.putBit m f x = d := by
          unfold Doc.putBit
          rw [modify_same hM (by rw [if_pos hlist, if_pos (by omega)])]
        refine ⟨p, v, ?_, hp, by rw [hdoc]; exact hd, .refl v⟩
        rw [onBuf_eq hb hput, setBuf_same hb]
      · rw [if_neg hn0] at hsame
        have hwid := hs.width _ (schema.msgType_mem hat.type) f hf
        obtain ⟨b, b', hb, hput, hrep⟩ := hp.putBit hl.cell (k := n) (show n < ct'.nelem by omega)
          (n % 8) x
        have hself : (v.setObj j (fun c => c.setBit n (n % 8) x) []).heap[j]?
            = some (ct'.setBit n (n % 8) x) := Heap.getElem?_modify_self hl.cell _
        have hshows : (v.setObj j (fun c => c.setBit n (n % 8) x) []).Shows R schema
            (d.putBit m f x) ∧ v.Grows (v.setObj j (fun c => c.setBit n (n % 8) x) []) :=
          hd.set_elem hs hM hpl hat hf hlist (by simp [hk]) ht hl
            (g := fun c => c.setBit n (n % 8) x) (ct'.setBit_toShape ..) (ct'.setBit_ptr ..) (by simp)
            ⟨_, hl.putBit hk hwid hlen x hself hl.sort⟩
            (by rw [if_pos hlist, if_neg (by omega)]; rfl)
        refine ⟨p.setBuf j b', _, onBuf_eq hb ?_, hrep, hshows.1, hshows.2⟩
        have htag : ref.tag0 = n % 8 := by rw [htag0, if_pos hk]
        rw [← hput, htag]
        exact putBit_same hsame b _ _

/-- **A string** is put where the reference leads. -/
theorem put_str (hs : schema.Sound) {a : Realloc} (ha : a.Total) (hp : p.Rep v.heap)
    (hd : v.Shows R schema d) {j : Nat} {ref : Ref} (href : v.RefTo m f j ref)
    (hM : d.msgs[m]? = some M) (hf : f ∈ (schema.msgType M.type).fields) (hk : f.kind = .str)
    {s : Text} {n len : Nat} (hlen : strLength s len = some n) (hstr : n ≤ s.length)
    (hshort : n + 1 < 2 ^ 32) (hobj : d.objects + 1 < 2 ^ 32)
    (hroom : ∀ c : Cell, v.heap[j]? = some c → R.holds c.toShape (s.take n)) :
    ∃ p' v', p.refPutStr a j ref s len = some p' ∧ p'.Rep v'.heap ∧
      v'.Shows R schema (d.putStr m f (s.take n)) ∧ v.Grows v' := by
  have hcount : v.heap.length + 1 < 2 ^ 32 := by rw [hd.objects]; exact hobj
  have htake : (s.take n).length = n := by rw [List.length_take, Nat.min_eq_left hstr]
  have happly := fun i k x => Call.apply_putStr v.heap i k x hlen
  have hkind : ref.kind = .str := href.tags.1.trans hk
  cases href with
  | field hmsg hlist =>
      rename_i o
      obtain ⟨k, c, hpl, hat, ho⟩ := hmsg.msgAt hd hM
      have hx := hat.slot_lt hs hf (by simp [FieldDesc.inPointers, hk])
      obtain ⟨p', hput, hrep⟩ := hp.putStr hat.cell ha hat.inside hx hlen hstr (Or.inl hshort) hcount
      rw [happly, if_neg (by omega)] at hrep
      obtain ⟨hshows, hgrows⟩ := hd.put_str_field hs hM hpl hat hf hlist hk (by omega)
        (hroom c hat.cell)
      refine ⟨p', _, ?_, hrep, hshows, hgrows⟩
      unfold Pool.refPutStr
      rw [assertC_pos hkind, Option.bind_eq_bind, Option.bind_some,
        Pool.putStr_same (show (getRef o f).o.Same _ from ho (by omega))]
      show (p.putStr a j (getElem c.handle k) f.tag0 s len >>= _) = _
      rw [hput]
      rfl
  | elem hlist hpl hci ht hct hn hkind' htag1 htag0 ho hbits =>
      rename_i i k n' ci ct
      obtain ⟨c, hat⟩ := hd.msgAt hM hpl
      rw [hat.cell, Option.some.injEq] at hci
      subst hci
      obtain ⟨hne, ct', hl⟩ := hat.list hf (Or.inl hlist) ht
      rw [hl.cell, Option.some.injEq] at hct
      subst hct
      have hsize := hl.size
      rw [getSize_str hk, Prod.mk.injEq] at hsize
      have hlen' : (M.vals f).length = n' + 1 := by rw [← hl.length, hn]
      obtain ⟨p', hput, hrep⟩ := hp.putStr hl.cell ha (k := n') (x := 0) (by omega) (by omega) hlen
        hstr (Or.inl hshort) hcount
      rw [happly, if_neg (by omega)] at hrep
      obtain ⟨hshows, hgrows⟩ := hd.put_str_elem hs hM hpl hat hf hlist hk ht hl hlen' (by omega)
        (hroom ct' hl.cell)
      refine ⟨p', _, ?_, hrep, hshows, hgrows⟩
      have htag : ref.tag0 = 0 := by rw [htag0, if_neg (by simp [hk])]
      unfold Pool.refPutStr
      rw [assertC_pos hkind, Option.bind_eq_bind, Option.bind_some, htag,
        Pool.putStr_same (ho (by omega)), hput]
      rfl

end View

end Nbuf
