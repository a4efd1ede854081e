import Nbuf.Text.Client

set_option autoImplicit false

/-! # What a call of a client does

The invariant of a client: its builder holds a document, and the messages of the document hold
what the client has given. Every call that may be made succeeds and keeps it.
-/

namespace Nbuf

open Run Align ByteMem

theorem blockBytes_mono (size : Nat × Nat) {n n' : Nat} (h : n ≤ n') :
    blockBytes size n ≤ blockBytes size n' := by
  unfold blockBytes
  refine roundUp_mono (by decide) ?_
  split_ifs
  · omega
  · exact Nat.add_le_add_left (Nat.mul_le_mul_right _ h) _

/-- Every string has a length, and fits into the buffer of the object it hangs on. -/
def strRoom : View.Room where
  holds sh s := s.length + 1 < 2 ^ 32 ∧ 24 + s.length + 1 ≤ metaSize + sh.blockSize
  grows := by
    rintro sh sh' s hs hp hn ⟨hshort, h⟩
    refine ⟨hshort, ?_⟩
    have hle := blockBytes_mono (sh.ssize, sh.psize) hn
    rw [← sh.blockSize_eq, ← hs, ← hp, ← sh'.blockSize_eq] at hle
    omega

/-- **The invariant of a client.** -/
structure Client.Rel (schema : Schema) (s : Client × List Given) (v : View) (d : Doc) : Prop where
  rep : s.1.pool.Rep v.heap
  shows : v.Shows strRoom schema d
  handles : s.1.msgs.length = d.msgs.length
  isMsg : ∀ m i o, s.1.msgs[m]? = some (i, o) → v.IsMsg m i o
  length : s.2.length = d.msgs.length
  holds : ∀ (m : Nat) (M : DocMsg) (G : Given), d.msgs[m]? = some M → s.2[m]? = some G →
    G.Holds schema M
  objects : d.objects ≤ 2 ^ 31

/-- A fresh builder. -/
def Client.init (addr : Nat) (haddr : addr < 2 ^ 64) : Client := ⟨initBuilder addr haddr, [], 0⟩

theorem Client.rel_init (schema : Schema) (addr : Nat) (haddr : addr < 2 ^ 64) :
    Client.Rel schema (Client.init addr haddr, []) ⟨[], [], []⟩ ⟨[], 0, 0⟩ where
  rep := (Build.rel_init addr haddr).rep
  shows := by
    refine ⟨rfl, rfl, List.nodup_nil, fun i c hc => ?_, fun i i' c c' k k' x x' t hc => ?_, rfl, rfl,
      fun m M hM => ?_⟩
    · cases hc
    · cases hc
    · cases hM
  handles := rfl
  isMsg := fun m i o h => by cases h
  length := rfl
  holds := fun m M G h => by cases h
  objects := Nat.zero_le _

section

variable {schema : Schema} {s : Client × List Given} {v v' : View} {d d' : Doc} {m : Nat}
  {f : FieldDesc}

/-! ## Documents after a put -/

theorem DocMsg.setLast_push (M : DocMsg) (f : FieldDesc) (x y : Item) :
    (M.push f x).setLast f y = M.push f y := by
  unfold DocMsg.push DocMsg.setLast
  simp only [Function.update_self, Function.update_idem, List.dropLast_concat]

/-- The messages after a field is made ready and changed. -/
theorem Doc.ready_modify {f : FieldDesc} (schema : Schema) (d : Doc) (m : Nat) (hk : f.kind ≠ .ptr)
    (g : DocMsg → DocMsg) : (d.ready schema m f).msgs.modify m g
      = d.msgs.modify m fun M => g (if f.list = true then M.push f (d.blank f) else M) := by
  unfold Doc.ready
  by_cases hl : f.list = true
  · simp only [if_pos (Or.inl hl), if_pos hl]
    show (d.msgs.modify m _ ++ if f.kind = Kind.ptr then _ else []).modify m g = _
    rw [if_neg hk, List.append_nil, List.modify_modify_eq]
    rfl
  · simp only [if_neg (show ¬ (f.list = true ∨ f.kind = .ptr) by simp [hl, hk]), if_neg hl]

/-- **The messages after a call** on one of them, which may make a new one. -/
theorem Client.Rel.next (h : Client.Rel schema s v d) {p' : Pool} (clock : Nat)
    {g : DocMsg → DocMsg} {g' : Given → Given} (new : Option (Nat × Nat × Obj))
    (hp : p'.Rep v'.heap) (hd : v'.Shows strRoom schema d') (hg : v.Grows v')
    (hmsgs : d'.msgs = d.msgs.modify m g ++ (new.map fun x => DocMsg.new x.1).toList)
    (hholds : ∀ M G, d.msgs[m]? = some M → s.2[m]? = some G → G.Holds schema M →
      (g' G).Holds schema (g M))
    (hnew : ∀ x, new = some x → v'.IsMsg d.msgs.length x.2.1 x.2.2) (hobj : d'.objects ≤ 2 ^ 31) :
    Client.Rel schema (⟨p', s.1.msgs ++ (new.map fun x => x.2).toList, clock⟩,
      s.2.modify m g' ++ (new.map fun x => Given.blank x.1).toList) v' d' where
  rep := hp
  shows := hd
  handles := by
    rw [hmsgs, List.length_append, List.length_append, List.length_modify, h.handles]
    cases new <;> rfl
  isMsg := by
    intro m1 i o hm1
    rcases Nat.lt_or_ge m1 d.msgs.length with hlt | hge
    · rw [List.getElem?_append_left (by rw [h.handles]; exact hlt)] at hm1
      exact (h.isMsg m1 i o hm1).grows hg
    · rw [List.getElem?_append_right (by rw [h.handles]; exact hge), h.handles] at hm1
      cases new with
      | none => cases hm1
      | some x =>
          obtain ⟨h0, hx⟩ : m1 - d.msgs.length = 0 ∧ x.2 = (i, o) := by
            cases hn : m1 - d.msgs.length with
            | zero =>
                rw [hn] at hm1
                exact ⟨rfl, Option.some.inj hm1⟩
            | succ n =>
                rw [hn] at hm1
                cases hm1
          obtain rfl : m1 = d.msgs.length := by omega
          have hmsg := hnew x rfl
          rwa [hx] at hmsg
  length := by
    rw [hmsgs, List.length_append, List.length_append, List.length_modify, List.length_modify,
      h.length]
    cases new <;> rfl
  holds := by
    intro m1 M G hM hG
    rw [hmsgs] at hM
    rcases Nat.lt_or_ge m1 d.msgs.length with hlt | hge
    · rw [List.getElem?_append_left (by rw [List.length_modify]; exact hlt)] at hM
      rw [List.getElem?_append_left (by rw [List.length_modify, h.length]; exact hlt)] at hG
      by_cases hmm : m = m1
      · subst hmm
        rw [List.getElem?_modify_eq] at hM hG
        obtain ⟨M0, hM0, rfl⟩ := Option.map_eq_some_iff.mp hM
        obtain ⟨G0, hG0, rfl⟩ := Option.map_eq_some_iff.mp hG
        exact hholds M0 G0 hM0 hG0 (h.holds m M0 G0 hM0 hG0)
      · rw [List.getElem?_modify_ne _ _ hmm] at hM hG
        exact h.holds m1 M G hM hG
    · rw [List.getElem?_append_right (by rw [List.length_modify]; exact hge),
        List.length_modify] at hM
      rw [List.getElem?_append_right (by rw [List.length_modify, h.length]; exact hge),
        List.length_modify, h.length] at hG
      cases new with
      | none => cases hM
      | some x =>
          cases hn : m1 - d.msgs.length with
          | zero =>
              rw [hn] at hM hG
              cases hM
              cases hG
              exact Given.holds_blank schema x.1
          | succ n =>
              rw [hn] at hM
              cases hM
  objects := hobj

/-- The same for a call that makes no message. -/
theorem Client.Rel.next_same (h : Client.Rel schema s v d) {p' : Pool} (clock : Nat)
    {g : DocMsg → DocMsg} {g' : Given → Given} (hp : p'.Rep v'.heap)
    (hd : v'.Shows strRoom schema d') (hg : v.Grows v') (hmsgs : d'.msgs = d.msgs.modify m g)
    (hholds : ∀ M G, d.msgs[m]? = some M → s.2[m]? = some G → G.Holds schema M →
      (g' G).Holds schema (g M)) (hobj : d'.objects ≤ 2 ^ 31) :
    Client.Rel schema (⟨p', s.1.msgs, clock⟩, s.2.modify m g') v' d' := by
  have hnext := h.next clock none hp hd hg (by rw [hmsgs]; exact (List.append_nil _).symm)
    hholds (fun x hx => by cases hx) hobj
  simpa using hnext

/-- What a call may rely on. -/
theorem Client.Rel.target (h : Client.Rel schema s v d) {more : Nat}
    (hmay : s.1.MayGive schema s.2 m f more)
    (hfree : f.kind = .ptr → f.list = true ∨ valuesOf s.2 m f = []) :
    ∃ G M i o, s.2[m]? = some G ∧ d.msgs[m]? = some M ∧ s.1.msgs[m]? = some (i, o) ∧
      v.IsMsg m i o ∧ G.Holds schema M ∧ f ∈ (schema.msgType M.type).fields ∧
      valuesOf s.2 m f = G.vals f ∧ (f.kind = .ptr → f.list = true ∨ M.vals f = []) ∧
      (f.list = true ∨ f.kind = .ptr → View.CanGrow schema M f) ∧
      (d.ready schema m f).objects + more ≤ 2 ^ 31 := by
  obtain ⟨⟨G, hG, hf⟩, hlength, hbits, hobjects⟩ := hmay
  have hm : m < s.2.length := (List.getElem?_eq_some_iff.mp hG).1
  have hlt : m < d.msgs.length := by
    rw [← h.length]
    exact hm
  have hM : d.msgs[m]? = some d.msgs[m] := List.getElem?_eq_getElem hlt
  obtain ⟨⟨i, o⟩, ho⟩ : ∃ x, s.1.msgs[m]? = some x :=
    ⟨_, List.getElem?_eq_getElem (by rw [h.handles]; exact hlt)⟩
  have hholds := h.holds m _ G hM hG
  have hvalues : valuesOf s.2 m f = G.vals f := by
    unfold valuesOf
    rw [hG]
    rfl
  have hitems : f.list = true ∨ f.kind = .ptr → d.msgs[m].vals f = (G.vals f).map (Val.item f) :=
    fun hlist => hholds.item f hf (inPointers_of_list hlist)
  rw [hvalues] at hlength hbits hfree
  have hfree' : f.kind = .ptr → f.list = true ∨ d.msgs[m].vals f = [] := fun hk =>
    (hfree hk).imp_right fun h0 => by rw [hitems (Or.inr hk), h0]; rfl
  refine ⟨G, d.msgs[m], i, o, hG, hM, ho, h.isMsg m i o ho, hholds, by rw [hholds.type]; exact hf,
    hvalues, hfree', fun hlist => ?_, ?_⟩
  · have hlen : (d.msgs[m].vals f).length = (G.vals f).length := by
      rw [hitems hlist, List.length_map]
    by_cases hl : f.list = true
    · exact ⟨by rw [hlen]; exact hlength hl, fun h0 => by rw [hlen]; exact hbits hl h0⟩
    · have h0 := (hfree' (hlist.resolve_left hl)).resolve_left hl
      rw [View.CanGrow, h0]
      exact ⟨by decide, fun _ => by decide⟩
  · have hcount : s.1.pool.buffercount = d.objects := by
      rw [← h.shows.objects]
      exact h.rep.length_eq
    rw [hcount] at hobjects
    unfold Doc.ready newObject at *
    rw [hvalues] at hobjects
    by_cases hlist : f.list = true ∨ f.kind = .ptr
    · rw [if_pos hlist]
      show (if (d.items m f).length = 0 then d.objects + 1 else d.objects) + more ≤ _
      rw [Doc.items_eq hM, hitems hlist, List.length_map]
      by_cases h0 : G.vals f = []
      · rw [if_pos ⟨hlist, h0⟩] at hobjects
        rw [if_pos (by rw [h0]; rfl)]
        omega
      · rw [if_neg fun hand => h0 hand.2] at hobjects
        rw [if_neg fun h1 => h0 (List.length_eq_zero_iff.mp h1)]
        omega
    · rw [if_neg hlist]
      rw [if_neg fun hand => hlist hand.1] at hobjects
      omega

/-! ## Calls -/

variable {alloc : Nat → Realloc}

theorem FieldDesc.IsNum.int_of_not_float {f : FieldDesc} (hnum : f.IsNum) (hf : f.kind ≠ .float) :
    f.kind = .int ∨ f.kind = .uint ∨ f.kind = .enum := by
  obtain ⟨hb, hs, hp⟩ := hnum
  cases hk : f.kind with
  | bool => exact absurd hk hb
  | enum => exact Or.inr (Or.inr rfl)
  | int => exact Or.inl rfl
  | uint => exact Or.inr (Or.inl rfl)
  | float => exact absurd hk hf
  | str => exact absurd hk hs
  | ptr => exact absurd hk hp

/-- A number is put with the width of the field. -/
theorem refPutNum_eq {ref : Ref} (hkind : ref.kind = f.kind) (htag : ref.tag1 = f.tag1)
    (hw : f.HasWidth) (hnum : f.IsNum) (b : Buffer) (x : Int) :
    refPutNum b ref x = putInt b ref.o ref.tag0 f.width (toU64 x) := by
  unfold refPutNum
  by_cases hfloat : f.kind = .float
  · have hwidth : f.width = f.tag1 := if_neg (by simp [hfloat])
    rw [if_pos (hkind.trans hfloat), refPutFloat, assertC_pos (hkind.trans hfloat),
      assertC_pos (by rw [htag]; exact hw.float hfloat), htag, hwidth]
    rfl
  · have hint : ref.kind = .int ∨ ref.kind = .uint ∨ ref.kind = .enum := by
      rw [hkind]
      exact hnum.int_of_not_float hfloat
    have hsz : ref.sz = f.width := by
      unfold Ref.sz FieldDesc.width
      rw [hkind, htag]
    rw [if_neg (by rw [hkind]; exact hfloat), refPutInt, assertC_pos hint, hsz]
    rfl

/-- The type of a message stays when a field is made ready. -/
theorem mem_fields_ready {M : DocMsg} (hf : f ∈ (schema.msgType M.type).fields) (x : Item) :
    f ∈ (schema.msgType
      (if f.list = true ∨ f.kind = .ptr then M.push f x else M).type).fields := by
  split_ifs <;> exact hf

/-- **A number** is given. -/
theorem Client.Rel.num (h : Client.Rel schema s v d) (hs : schema.Sound)
    (ha : ∀ n, (alloc n).Total) {x : Int} (hok : Client.Ok schema s (.num m f x)) :
    ∃ s' v' d', Client.stepBoth alloc schema s (.num m f x) = some s' ∧
      Client.Rel schema s' v' d' := by
  obtain ⟨hmay, hnum, hfits⟩ := hok
  obtain ⟨G, M, i, o, hG, hM, ho, hmsg, hholds, hf, -, hfree, hroom, hobj⟩ :=
    h.target hmay fun hk => absurd hk hnum.2.2
  obtain ⟨p1, j, ref, v1, href, hp1, hd1, hg1, hto, -⟩ :=
    View.field_spec hs (ha s.1.clock) h.rep h.shows hmsg hM hf hfree hroom (by omega)
  obtain ⟨hkind, htag⟩ := (hto hnum.2.2).tags
  have hlay := hs.layout _ (schema.msgType_mem (hmsg.type_lt h.shows hM))
  obtain ⟨p2, v2, hput, hp2, hd2, hg2⟩ := View.put_num hs hp1 hd1 (hto hnum.2.2)
    (View.ready_msg hM) (mem_fields_ready hf _) hnum (toU64 x)
  have hw := hs.width _ (schema.msgType_mem (hmsg.type_lt h.shows hM)) f hf
  have hstep : Client.stepBoth alloc schema s (.num m f x)
      = some (⟨p2, s.1.msgs, s.1.clock + 2⟩, s.2.modify m fun G => G.give f (.num x)) := by
    have hput' : p1.onBuf j (fun b => refPutNum b ref x) = some p2 := by
      simp only [refPutNum_eq hkind htag hw hnum]
      exact hput
    simp [Client.stepBoth, Client.step, ho, href, hput', Op.give]
  refine ⟨_, v2, _, hstep, h.next_same _ hp2 hd2 (hg1.trans hg2)
    (Doc.ready_modify schema d m hnum.2.2 _) (fun M' G' hM' hG' hh => ?_) (by
      show (d.ready schema m f).objects ≤ _
      omega)⟩
  rw [hM, Option.some.injEq] at hM'
  subst hM'
  rw [hG, Option.some.injEq] at hG'
  subst hG'
  rw [hh.type] at hf hlay
  by_cases hl : f.list = true
  · simp only [if_pos hl, DocMsg.setLast_push]
    exact hh.push hf hl (x := .num x) fun w hw => Val.num.inj hw ▸ hfits
  · simp only [if_neg hl]
    exact hh.num_field hlay hf ⟨by simp [FieldDesc.inPointers, hl, hnum.2.1, hnum.2.2], hnum.1⟩ hfits

/-- **A boolean** is given. -/
theorem Client.Rel.bit (h : Client.Rel schema s v d) (hs : schema.Sound)
    (ha : ∀ n, (alloc n).Total) {x : Bool} (hok : Client.Ok schema s (.bit m f x)) :
    ∃ s' v' d', Client.stepBoth alloc schema s (.bit m f x) = some s' ∧
      Client.Rel schema s' v' d' := by
  obtain ⟨hmay, hk, hl⟩ := hok
  have hnp : f.kind ≠ .ptr := by simp [hk]
  obtain ⟨G, M, i, o, hG, hM, ho, hmsg, hholds, hf, -, hfree, hroom, hobj⟩ :=
    h.target hmay fun hk => absurd hk hnp
  obtain ⟨p1, j, ref, v1, href, hp1, hd1, hg1, hto, -⟩ :=
    View.field_spec hs (ha s.1.clock) h.rep h.shows hmsg hM hf hfree hroom (by omega)
  have hlay := hs.layout _ (schema.msgType_mem (hmsg.type_lt h.shows hM))
  obtain ⟨p2, v2, hput, hp2, hd2, hg2⟩ := View.put_bit hs hp1 hd1 (hto hnp)
    (View.ready_msg hM) (mem_fields_ready hf _) hk x
  have hstep : Client.stepBoth alloc schema s (.bit m f x)
      = some (⟨p2, s.1.msgs, s.1.clock + 2⟩, s.2.modify m fun G => G.give f (.bit x)) := by
    have hput' : p1.onBuf j (fun b => refPutBit b ref x) = some p2 := by
      simp only [refPutBit, assertC_pos ((hto hnp).tags.1.trans hk), Option.bind_eq_bind,
        Option.bind_some]
      exact hput
    simp [Client.stepBoth, Client.step, ho, href, hput', Op.give]
  refine ⟨_, v2, _, hstep, h.next_same _ hp2 hd2 (hg1.trans hg2)
    (Doc.ready_modify schema d m hnp _) (fun M' G' hM' hG' hh => ?_) (by
      show (d.ready schema m f).objects ≤ _
      omega)⟩
  rw [hM, Option.some.injEq] at hM'
  subst hM'
  rw [hG, Option.some.injEq] at hG'
  subst hG'
  rw [hh.type] at hf hlay
  simp only [if_neg (show ¬ f.list = true by rw [hl]; decide)]
  exact hh.bit_field hlay hf ⟨by simp [FieldDesc.inPointers, hl, hk], hk⟩ hl x

/-- **A string** is given. -/
theorem Client.Rel.str (h : Client.Rel schema s v d) (hs : schema.Sound)
    (ha : ∀ n, (alloc n).Total) {x : Text} {len : Nat}
    (hok : Client.Ok schema s (.str m f x len)) :
    ∃ s' v' d', Client.stepBoth alloc schema s (.str m f x len) = some s' ∧
      Client.Rel schema s' v' d' := by
  obtain ⟨hmay, hk, n, hlen, hstr, hshort, hfit⟩ := hok
  have hnp : f.kind ≠ .ptr := by simp [hk]
  obtain ⟨G, M, i, o, hG, hM, ho, hmsg, hholds, hf, hvals, hfree, hroom, hobj⟩ :=
    h.target hmay fun hk => absurd hk hnp
  obtain ⟨p1, j, ref, v1, href, hp1, hd1, hg1, hto, -⟩ :=
    View.field_spec hs (ha s.1.clock) h.rep h.shows hmsg hM hf hfree hroom (by omega)
  have htext : givenStr x len = x.take n := by
    unfold givenStr
    rw [hlen]
    rfl
  have hlength : (x.take n).length = n := by rw [List.length_take, Nat.min_eq_left hstr]
  have hholds' : ∀ c : Cell, v1.heap[j]? = some c → strRoom.holds c.toShape (x.take n) := by
    intro c hc
    refine ⟨by omega, ?_⟩
    rw [hlength]
    unfold Client.StrRoom at hfit
    by_cases hl : f.list = true
    · rw [if_pos hl, hvals] at hfit
      obtain ⟨hsz, hnelem⟩ := (hto hnp).cell_of_list hd1 (View.ready_msg hM) (mem_fields_ready hf _)
        hl hc
      rw [getSize_str hk, Prod.mk.injEq] at hsz
      have hcount : c.nelem = (G.vals f).length + 1 := by
        rw [hnelem, if_pos (Or.inl hl)]
        show (Function.update M.vals f _ f).length = _
        rw [Function.update_self, List.length_append,
          hholds.item f (by rwa [hholds.type] at hf) (by simp [FieldDesc.inPointers, hl]),
          List.length_map]
        rfl
      rw [c.blockSize_eq, ← hsz.1, ← hsz.2, hcount]
      exact hfit
    · rw [if_neg hl] at hfit
      obtain ⟨x', hx', b, hb, hle⟩ := hfit
      rw [ho, Option.mem_def, Option.some.injEq] at hx'
      subst hx'
      rw [Option.mem_def] at hb
      have hnone : ¬ ((getRef o f).list = true ∨ (getRef o f).kind = .ptr) := by
        simp [getRef, hl, hnp]
      unfold Pool.fieldRef at href
      simp only [if_neg hnone, Option.some.injEq, Prod.mk.injEq] at href
      obtain ⟨rfl, rfl, -⟩ := href
      obtain ⟨b', hb', hbuf⟩ := hp1.obj i c hc
      obtain rfl : b = b' := Option.some.inj (hb.symm.trans hb')
      rw [← hbuf.len_eq]
      exact hle
  obtain ⟨p2, v2, hput, hp2, hd2, hg2⟩ := View.put_str hs (ha (s.1.clock + 1)) hp1 hd1 (hto hnp)
    (View.ready_msg hM) (mem_fields_ready hf _) hk hlen hstr hshort (by omega) hholds'
  have hstep : Client.stepBoth alloc schema s (.str m f x len)
      = some (⟨p2, s.1.msgs, s.1.clock + 2⟩, s.2.modify m fun G => G.give f (.str (x.take n))) := by
    simp [Client.stepBoth, Client.step, ho, href, hput, Op.give, htext]
  refine ⟨_, v2, _, hstep, h.next_same _ hp2 hd2 (hg1.trans hg2)
    (Doc.ready_modify schema d m hnp _) (fun M' G' hM' hG' hh => ?_) (by
      show (d.ready schema m f).objects + 1 ≤ _
      omega)⟩
  rw [hM, Option.some.injEq] at hM'
  subst hM'
  rw [hG, Option.some.injEq] at hG'
  subst hG'
  rw [hh.type] at hf
  by_cases hl : f.list = true
  · simp only [if_pos hl, DocMsg.setLast_push]
    exact hh.push hf hl (x := .str (x.take n)) fun w hw => by cases hw
  · simp only [if_neg hl]
    exact hh.setOnly (by simp [FieldDesc.inPointers, hk]) (Bool.eq_false_iff.mpr hl)
      (x := .str (x.take n)) fun w hw => by cases hw

/-- **A submessage** is made. -/
theorem Client.Rel.msg (h : Client.Rel schema s v d) (hs : schema.Sound)
    (ha : ∀ n, (alloc n).Total) (hok : Client.Ok schema s (.msg m f)) :
    ∃ s' v' d', Client.stepBoth alloc schema s (.msg m f) = some s' ∧
      Client.Rel schema s' v' d' := by
  obtain ⟨hmay, hk, hempty⟩ := hok
  obtain ⟨G, M, i, o, hG, hM, ho, hmsg, hholds, hf, -, hfree, hroom, hobj⟩ :=
    h.target hmay fun _ => hempty
  obtain ⟨p1, j, ref, v1, href, hp1, hd1, hg1, -, hto⟩ :=
    View.field_spec hs (ha s.1.clock) h.rep h.shows hmsg hM hf hfree hroom (by omega)
  have hstep : Client.stepBoth alloc schema s (.msg m f)
      = some (⟨p1, s.1.msgs ++ [(j, ref.o)], s.1.clock + 2⟩,
        (s.2.modify m fun G => G.give f (.msg s.2.length)) ++ [Given.blank f.tag1]) := by
    simp [Client.stepBoth, Client.step, ho, href, Op.give]
  have hready : d.ready schema m f = d.init schema m f := if_pos (Or.inr hk)
  have hblank : d.blank f = .msg d.msgs.length := by
    unfold Doc.blank
    rw [hk]
  have hmsgs : (d.ready schema m f).msgs = (d.msgs.modify m fun M => M.push f (.msg d.msgs.length))
      ++ [DocMsg.new f.tag1] := by
    rw [hready]
    show (d.msgs.modify m fun M => M.push f (d.blank f)) ++ (if f.kind = Kind.ptr then _ else []) = _
    rw [if_pos hk, hblank]
  refine ⟨_, v1, _, hstep, h.next _ (some (f.tag1, j, ref.o)) hp1 hd1 hg1 hmsgs
    (fun M' G' hM' hG' hh => ?_) (fun x hx => ?_) (by omega)⟩
  · rw [hM, Option.some.injEq] at hM'
    subst hM'
    rw [hG, Option.some.injEq] at hG'
    subst hG'
    rw [hh.type] at hf
    rw [h.length]
    by_cases hl : f.list = true
    · exact hh.push hf hl (x := .msg d.msgs.length) fun w hw => by cases hw
    · -- the field has no submessage yet
      have h0 : M.vals f = [] := (hfree hk).resolve_left hl
      have hpush : M.push f (.msg d.msgs.length) = M.setOnly f (.msg d.msgs.length) := by
        unfold DocMsg.push DocMsg.setOnly
        rw [h0]
        rfl
      rw [hpush]
      exact hh.setOnly (by simp [FieldDesc.inPointers, hk]) (Bool.eq_false_iff.mpr hl)
        (x := .msg d.msgs.length) fun w hw => by cases hw
  · cases hx
    exact hto hk

/-- **A message** is created. -/
theorem Client.Rel.create (h : Client.Rel schema s v d) (hs : schema.Sound)
    (ha : ∀ n, (alloc n).Total) {type : Nat} (hok : Client.Ok schema s (.create type)) :
    ∃ s' v' d', Client.stepBoth alloc schema s (.create type) = some s' ∧
      Client.Rel schema s' v' d' := by
  obtain ⟨htype, hcount⟩ := hok
  have hobj : s.1.pool.buffercount = d.objects := by
    rw [← h.shows.objects]
    exact h.rep.length_eq
  obtain ⟨p', o, v', hcreate, hp', hd', hg', -, hmsg⟩ :=
    View.add_spec hs (ha s.1.clock) h.rep h.shows htype (by omega)
  have hstep : Client.stepBoth alloc schema s (.create type)
      = some (⟨p', s.1.msgs ++ [(s.1.pool.buffercount, o)], s.1.clock + 2⟩,
        s.2 ++ [Given.blank type]) := by
    simp [Client.stepBoth, Client.step, hcreate, Op.give]
  have hnext := h.next (m := 0) (g := id) (s.1.clock + 2)
    (some (type, s.1.pool.buffercount, o)) hp' hd' hg' (by rw [List.modify_id]; rfl)
    (fun M G _ _ hh => show (id G).Holds schema M from hh) (fun x hx => by cases hx; exact hmsg)
    (show d.objects + 1 ≤ _ by omega)
  rw [List.modify_id] at hnext
  exact ⟨_, v', _, hstep, hnext⟩

/-- **One call** that may be made. -/
theorem Client.Rel.step (h : Client.Rel schema s v d) (hs : schema.Sound)
    (ha : ∀ n, (alloc n).Total) {op : Op} (hok : Client.Ok schema s op) :
    ∃ s' v' d', Client.stepBoth alloc schema s op = some s' ∧ Client.Rel schema s' v' d' := by
  cases op with
  | create type => exact h.create hs ha hok
  | num m f x => exact h.num hs ha hok
  | bit m f x => exact h.bit hs ha hok
  | str m f x len => exact h.str hs ha hok
  | msg m f => exact h.msg hs ha hok

/-- The builder holds a document with what was given. -/
def Client.Inv (schema : Schema) (s : Client × List Given) : Prop := ∃ v d, Client.Rel schema s v d

/-- **All calls** of a client. -/
theorem Client.inv_run (hs : schema.Sound) (ha : ∀ n, (alloc n).Total) {addr : Nat}
    (haddr : addr < 2 ^ 64) {ops : List Op}
    (hok : AllSteps (Client.stepBoth alloc schema) (Client.Ok schema) (Client.init addr haddr, []) ops) :
    ∃ s', run (Client.stepBoth alloc schema) (Client.init addr haddr, []) ops = some s' ∧
      Client.Inv schema s' := by
  have hstep : ∀ s op, Client.Inv schema s → Client.Ok schema s op →
      ∃ s', Client.stepBoth alloc schema s op = some s' ∧ Client.Inv schema s' := by
    rintro s op ⟨v, d, hrel⟩ hok
    obtain ⟨s', v', d', hs', hrel'⟩ := hrel.step hs ha hok
    exact ⟨s', hs', v', d', hrel'⟩
  exact run_invariant hstep ⟨_, _, Client.rel_init schema addr haddr⟩ hok

/-- What a run has given. -/
theorem run_given {s s' : Client × List Given} {ops : List Op}
    (h : run (Client.stepBoth alloc schema) s ops = some s') :
    s'.2 = ops.foldl Op.give s.2 := by
  induction ops generalizing s with
  | nil =>
      cases h
      rfl
  | cons op ops ih =>
      rw [run_cons, Option.bind_eq_some_iff] at h
      obtain ⟨s1, hs1, hrest⟩ := h
      obtain ⟨c, -, rfl⟩ := Option.map_eq_some_iff.mp hs1
      exact ih hrest

end

end Nbuf
