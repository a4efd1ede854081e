import Nbuf.Schema.SchemaText
import Nbuf.Text.ContentText
import Nbuf.Text.ParseText
import Nbuf.Text.ReadsKept

set_option autoImplicit false

/-! # Messages survive being printed

What is found in a message is printed, and the parser makes a buffer of the text in which the same
is found.
-/

namespace Nbuf

open Outcome ByteMem

/-! ## Values that are kept -/

section

variable {w : View} {schema : Schema} {ofInt : Int → Int × Int} {d : Doc} {b : Buffer} {m k : Nat}
  {o : Obj} {M : DocMsg} {f : FieldDesc} {x : FieldValue}

/-- **A string that a slot leads to** is found. -/
theorem View.Stores.readsStr (h : w.Stores schema d b) {i x : Nat} {c : Cell}
    (hc : w.heap[i]? = some c) (hk : k < c.nelem) (hx : x < c.psize) {s : Text}
    (ht : w.TextAt View.Room.any c k x s) (hshort : s.length + 1 < 2 ^ 32) :
    ReadsStr b (getElem (w.heap.handle i c) k) x s := by
  have hrow := c.row_of_psize hx k
  unfold View.TextAt at ht
  cases hptr : c.ptr k x with
  | none =>
      rw [hptr] at ht
      subst ht
      have hget := h.holds.getPtr hc hk hx fun t ht => by
        rw [hrow, hptr] at ht
        cases ht
      rw [hrow, hptr] at hget
      refine ⟨⟨none, 0⟩, ?_, rfl, rfl⟩
      unfold getStr
      rw [hget]
      rfl
  | some t =>
      rw [hptr] at ht
      rw [← hrow] at hptr
      exact h.holds.getStr hc hk hx hptr ht.1
        (h.holds.near h.near hc (Shape.row_lt_rows hk) hx hptr) (strCell_isStr hshort)

/-- **A string that is kept** is found. -/
theorem View.Stores.str (h : w.Stores schema d b) (ho : w.Opens m o) (hM : d.msgs[m]? = some M)
    (hf : f ∈ (schema.msgType M.type).fields) (hk : f.kind = .str) {s : Text}
    (hshort : s.length + 1 < 2 ^ 32) (hkept : M.Keeps f k (.str s)) :
    reflected b o f k = some (.str s) := by
  obtain ⟨i, j, c, hat, hsame⟩ := h.msgAt ho hM
  have hin : f.inPointers = true := by simp [FieldDesc.inPointers, hk]
  have hx := hat.slot_lt h.sound hf hin
  have hread : ∀ ref : Ref, elemRef b o f k = some ref → ref.kind = f.kind →
      ReadsStr b ref.o ref.tag0 s → reflected b o f k = some (.str s) := by
    rintro ref href hkind ⟨sref, hget, -, hbytes⟩
    unfold reflected
    simp only [href, Option.bind_eq_bind, Option.bind_some]
    unfold refValue refGetStr
    simp [hkind, hk, hget, hbytes, assertC_pos]
  unfold DocMsg.Keeps at hkept
  by_cases hl : f.list = true
  · rw [if_pos hl] at hkept
    obtain ⟨list, hptr, -, hlist⟩ := h.list ho hM hf (Or.inl hl)
    obtain ⟨t, ct, rfl, hat'⟩ := hlist (by rintro h0; rw [h0] at hkept; cases hkept)
    obtain ⟨-, htext⟩ := hat'.item k _ hkept
    have hsize := hat'.size
    rw [getSize_str hk, Prod.mk.injEq] at hsize
    have hn : k < ct.nelem := by
      rw [hat'.length]
      exact (List.getElem?_eq_some_iff.mp hkept).1
    have hne : ¬ (ct.ssize = 0 ∧ ct.psize = 0) := by omega
    have hbool : f.kind ≠ .bool := by simp [hk]
    obtain ⟨ref, href, hkind, -, htag0, hsame'⟩ := elemRef_list hl hptr hn
      ⟨fun hz => absurd ((Obj.elemsz_eq_zero_iff _).mp hz) hne, fun hb => absurd hb hbool⟩
    refine hread ref href hkind ?_
    obtain ⟨sref, hget, hlen, hbytes⟩ := h.readsStr hat'.cell hn (show 0 < ct.psize by omega) htext hshort
    rw [htag0, if_neg hbool]
    exact ⟨sref, by rw [hsame'.getStr]; exact hget, hlen, hbytes⟩
  · rw [if_neg hl] at hkept
    have hne : ¬ (c.ssize = 0 ∧ c.psize = 0) := by omega
    have hnot : ¬ (f.list = true ∨ f.kind = .ptr) := by simp [hl, hk]
    have hfield := hat.field f hf
    unfold View.FieldAt at hfield
    rw [if_neg hnot, if_pos hk, show M.vals f = [.str s] from hkept] at hfield
    rcases hfield with ⟨hnil, -⟩ | ⟨s', hs', htext⟩
    · cases hnil
    · obtain rfl : s = s' := by simpa using hs'
      obtain ⟨sref, hget, hlen, hbytes⟩ := h.readsStr hat.cell hat.inside hx htext hshort
      refine hread (getRef o f) (if_neg hnot) rfl ⟨sref, ?_, hlen, hbytes⟩
      show getStr b o f.tag0 = some sref
      rw [(hsame hne).getStr]
      exact hget

/-- **A boolean that is kept** in a field that is no list is found. -/
theorem View.Stores.boolean (h : w.Stores schema d b) (ho : w.Opens m o) (hM : d.msgs[m]? = some M)
    (hf : f ∈ (schema.msgType M.type).fields) (hk : f.kind = .bool) (hl : f.list = false) {v : Bool}
    (hkept : M.Keeps f k (.bit v)) : reflected b o f k = some (.bool v) := by
  obtain ⟨i, j, c, hat, hsame⟩ := h.msgAt ho hM
  have hin : f.inPointers = false := by simp [FieldDesc.inPointers, hk, hl]
  have hinside := (h.sound.layout _ (schema.msgType_mem hat.type)).bit_inside f hf ⟨hin, hk⟩
  have hne : ¬ (c.ssize = 0 ∧ c.psize = 0) := by
    rw [hat.ssize]
    omega
  have hnot : ¬ (f.list = true ∨ f.kind = .ptr) := by simp [hl, hk]
  have hbit : (c.scal j).bit (f.tag0 / 8) (f.tag0 % 8) = v := by
    unfold DocMsg.Keeps at hkept
    rw [hl, if_neg (by decide)] at hkept
    rw [← show M.scal.bit (f.tag0 / 8) (f.tag0 % 8) = v from hkept]
    unfold ByteMem.bit
    rw [hat.scal _ (by rw [hat.ssize]; omega)]
  have hget : getBit b o f.tag0 = some v := by
    rw [(hsame hne).getBit, h.holds.getBit hat.cell hat.inside
      (by rw [c.width_eq, if_neg hne, hat.ssize]; omega), c.row_eq hne, hbit]
  have href : elemRef b o f k = some (getRef o f) := if_neg hnot
  unfold reflected
  simp only [href, Option.bind_eq_bind, Option.bind_some]
  unfold refValue refGetBit
  simp [getRef, hk, hget, assertC_pos]

/-- A value is known by its kind and its number. -/
theorem reflected_of_number (hw : f.HasWidth) (hint : f.IsInteger) (hx : f.Shows x) {v : Int}
    (hv : x.number = some v) (h : (reflected b o f k).bind FieldValue.number = some v) :
    reflected b o f k = some x := by
  obtain ⟨y, hy, hnum⟩ := Option.bind_eq_some_iff.mp h
  rw [hy]
  obtain ⟨ref, href, hval⟩ := Option.bind_eq_some_iff.mp hy
  obtain ⟨hkind, htag⟩ := elemRef_keeps href
  have hshow := refValue_shows hw hkind htag hint.isNum.2.2 hval
  cases x with
  | bool | float | str | msg => cases hv
  | int u =>
      cases y with
      | bool | float | str | msg => cases hnum
      | uint | enum => exact nomatch hx.1.symm.trans hshow.1
      | int u' => rw [Option.some.inj (hv.trans hnum.symm)]
  | uint u =>
      cases y with
      | bool | float | str | msg => cases hnum
      | int | enum => exact nomatch hx.1.symm.trans hshow.1
      | uint u' =>
          have heq : (u : Int) = u' := Option.some.inj (hv.trans hnum.symm)
          rw [Int.ofNat_inj.mp heq]
  | enum u =>
      cases y with
      | bool | float | str | msg => cases hnum
      | int | uint => exact nomatch hx.1.symm.trans hshow.1
      | enum u' =>
          have heq : (u : Int) = u' := Option.some.inj (hv.trans hnum.symm)
          rw [Int.ofNat_inj.mp heq]

/-- The name of a constant stands for its value. -/
theorem Schema.Named.enumValue (hn : schema.Named) {i v : Nat} {name : Text} (hv : v < 2 ^ 16)
    (h : enumName (schema.enumType i) v = some name) : enumValue (schema.enumType i) name = v := by
  obtain ⟨e, he, rfl, rfl⟩ := enumName_mem h
  obtain ⟨hnodup, hident⟩ := hn.values _ (schema.enumType_mem he)
  have hfind := find?_key hnodup he
  unfold Nbuf.enumValue
  rw [cstr_eq (hident e he).no_nul]
  simp only [hfind, Nat.mod_eq_of_lt hv]

/-- **A value that is kept** of its token is found. -/
theorem View.Stores.value (h : w.Stores schema d b) (hn : schema.Named) (ho : w.Opens m o)
    (hM : d.msgs[m]? = some M) (hf : f ∈ (schema.msgType M.type).fields) (hx : f.Shows x)
    (hprint : x.Printable) (hbool : f.kind = .bool → f.list = false)
    (hshort : (f.valueToken schema x).Short) {y : Val}
    (ht : taken schema ofInt f (some (f.valueToken schema x)) = .value y) (hkept : M.Keeps f k y) :
    reflected b o f k = some x := by
  obtain ⟨_, _, _, hat, -⟩ := h.msgAt ho hM
  have hw := h.sound.width _ (schema.msgType_mem hat.type) f hf
  cases x with
  | bool v =>
      have hk : f.kind = .bool := hx
      have hy : y = .bit v := by
        cases v <;> simp [taken, FieldDesc.valueToken, hk, asc, cstr] at ht <;> exact ht.symm
      subst hy
      exact h.boolean ho hM hf hk (hbool hk) hkept
  | int v =>
      have hk := hx.1
      have hint : f.IsInteger := Or.inl hk
      obtain ⟨hlo, hhi⟩ := hx.2.int_bounds hw hk
      obtain rfl : .num v = y := by simpa [taken, FieldDesc.valueToken, hk] using ht
      have hconv : convert64 v = v := by
        unfold convert64
        split_ifs
        · omega
        · rw [min_eq_left (by omega), Int.bmod_eq_of_le (by omega) (by omega)]
      refine reflected_of_number hw hint hx rfl ?_
      have hread := (f.readBack_convert64 (hw.width hint.isNum)).mpr hx.2
      rw [hconv] at hread
      rw [h.integer ho hM hf hint hkept, hread]
  | uint v =>
      have hk := hx.1
      have hint : f.IsInteger := Or.inr (Or.inl hk)
      have hhi := hx.2.uint_bound hw hk
      obtain rfl : .num ((v : Int).bmod (2 ^ 64)) = y := by
        simpa [taken, FieldDesc.valueToken, hk] using ht
      have hconv : convert64 v = (v : Int).bmod (2 ^ 64) := by
        unfold convert64
        rw [if_neg (by omega), min_eq_left (by omega)]
      refine reflected_of_number hw hint hx rfl ?_
      have hread := (f.readBack_convert64 (hw.width hint.isNum)).mpr hx.2
      rw [hconv] at hread
      rw [h.integer ho hM hf hint hkept, hread]
  | enum v =>
      have hk := hx.1
      have hint : f.IsInteger := Or.inr (Or.inr hk)
      have hlt := hx.2
      obtain rfl : .num (v : Int) = y := by
        cases hname : enumName (schema.enumType f.tag1) v with
        | none =>
            simp only [taken, FieldDesc.valueToken, hname, hk, Taken.value.injEq] at ht
            rw [← ht]
            congr 1
            omega
        | some name =>
            simp only [taken, FieldDesc.valueToken, hname, hk, hn.enumValue hlt hname] at ht
            rw [if_neg (by omega), Taken.value.injEq] at ht
            exact ht
      refine reflected_of_number hw hint hx rfl ?_
      rw [h.integer ho hM hf hint hkept]
      have h2 : f.width = 2 := by simp [FieldDesc.width, hk]
      unfold FieldDesc.readBack
      rw [if_neg (by simp [hk]), h2, Int.emod_eq_of_lt (by omega) (by omega)]
  | float v => exact hprint.elim
  | str s =>
      have hk : f.kind = .str := hx
      obtain rfl : .str s = y := by simpa [taken, FieldDesc.valueToken, hk] using ht
      exact h.str ho hM hf hk hshort hkept
  | msg => exact hx.elim

end

/-! ## Submessages that are not given -/

/-- Message `m` has no submessages but those that the text gives to it. -/
def Fields.Only (d : Doc) : Fields → Nat → List FieldDesc → Prop
  | .nil, m, prior => ∃ M, d.msgs[m]? = some M ∧ ∀ f : FieldDesc, f.kind = .ptr → f ∉ prior → M.vals f = []
  | .value f _ rest, m, prior => rest.Only d m (f :: prior)
  | .sub f body rest, m, prior =>
      (∃ m', m < m' ∧ d.Keeps m f (prior.count f) (.msg m') ∧ body.Only d m' []) ∧
      rest.Only d m (f :: prior)

section

variable {schema : Schema} {ofInt : Int → Int × Int} {type m : Nat} {seen prior : List FieldDesc}
  {toks : List Token} {T : Fields} {f : FieldDesc} {k : Nat} {x : Val}

theorem Fields.Only.mono {d d' : Doc} (h : T.Only d m prior)
    (hsame : ∀ m' M, m ≤ m' → d.msgs[m']? = some M → d'.msgs[m']? = some M) :
    T.Only d' m prior := by
  induction T generalizing m prior with
  | nil =>
      obtain ⟨M, hM, hnone⟩ := h
      exact ⟨M, hsame m M (Nat.le_refl m) hM, hnone⟩
  | value f t rest ih => exact ih h hsame
  | sub f body rest ihbody ihrest =>
      obtain ⟨⟨m', hlt, ⟨M, hM, hkept⟩, hbody⟩, hrest⟩ := h
      exact ⟨⟨m', hlt, ⟨M, hsame m M (Nat.le_refl m) hM, hkept⟩,
        ihbody hbody fun m'' M hle => hsame m'' M ((Nat.le_of_lt hlt).trans hle)⟩, ihrest hrest hsame⟩

/-- A message keeps one submessage at a place. -/
theorem DocMsg.Keeps.msg_inj {M : DocMsg} {m m' : Nat} (h : M.Keeps f k (.msg m))
    (h' : M.Keeps f k (.msg m')) : m = m' := by
  unfold DocMsg.Keeps at h h'
  split_ifs at h h'
  · cases h.symm.trans h'
    rfl
  · cases (show M.vals f = [.msg m] from h).symm.trans h'
    rfl

theorem Spells.only (hs : schema.Sound) (h : Spells schema Token.IsText type seen toks T) :
    ∀ {m : Nat} {D : Draft} {M : DocMsg} {prior : List FieldDesc}, D.doc.msgs[m]? = some M →
      M.type = type → type < schema.msgTypes.length → D.Seen schema m type seen →
      (∀ f : FieldDesc, f.list = true → (M.vals f).length = prior.count f) →
      (∀ f : FieldDesc, f.kind = .ptr → f ∉ prior → M.vals f = []) →
      T.Only (T.fill schema ofInt m D).doc m prior := by
  induction h with
  | nil => exact fun hM _ _ _ _ hnone => ⟨_, hM, hnone⟩
  | @value type seen name f t _ _ T hf ht _ hrest ih =>
      intro m D M prior hM htype hlt hseen hlen hnone
      have hm := (List.getElem?_eq_some_iff.mp hM).1
      obtain ⟨x, hx⟩ := (taken_value_iff ofInt ht.not_ptr t).mpr ht
      rw [Fields.fill_value hx]
      refine ih (Draft.put_msg schema hM ht.not_ptr (takes_of_taken hx)) ((M.take_type f x).trans htype)
        hlt (hseen.value hm ht.not_ptr x) (fun g hl => ?_) fun g hk hno => ?_
      · by_cases heq : g = f
        · subst heq
          rw [DocMsg.take_length hl, hlen g hl, List.count_cons_self]
        · rw [DocMsg.take_vals_ne heq, hlen g hl, List.count_cons_of_ne (Ne.symm heq)]
      · have hne : g ≠ f := by
          rintro rfl
          exact hno List.mem_cons_self
        rw [DocMsg.take_vals_ne hne]
        exact hnone g hk fun hmem => hno (List.mem_cons_of_mem f hmem)
  | @sub type seen name f _ _ _ _ B T hf hk hnew _ hbody _ hrest ih ih' =>
      intro m D M prior hM htype hlt hseen hlen hnone
      have hm := (List.getElem?_eq_some_iff.mp hM).1
      have hready : (D.ready schema m f).doc.msgs.length = D.doc.msgs.length + 1 := Doc.ready_length hk
      have hreads := hbody.reads ofInt (D := D.ready schema m f) (k := []) (m := D.doc.msgs.length)
        (by omega) (Draft.seen_new hk f.tag1) (Or.inl rfl)
      have hM' : (B.fill schema ofInt D.doc.msgs.length (D.ready schema m f)).doc.msgs[m]? = _ :=
        hbody.fill_other hM hk
      have hrests := hrest.reads ofInt (k := []) (Nat.lt_of_lt_of_le hm
        ((Doc.next_ready ..).le.trans hreads.le).length) (hseen.sub hm hk hreads) (Or.inl rfl)
      have hptr : f.tag1 < schema.msgTypes.length :=
        hs.target _ (schema.msgType_mem hlt) f (findField_mem hf) hk
      have hpush : (M.push f (.msg D.doc.msgs.length)).Keeps f (prior.count f)
          (.msg D.doc.msgs.length) := by
        refine M.keeps_push (fun hl => (hlen f hl).symm) fun hl => ?_
        by_contra hne
        refine hnew hl ((hseen f (findField_mem hf) hk hl).mpr ?_)
        rwa [Doc.items_eq hM]
      have hlast : f.list = true ∨ f ∉ T.descs := by
        by_cases hl : f.list = true
        · exact Or.inl hl
        · exact Or.inr (hrest.not_mem List.mem_cons_self hk (by simpa using hl))
      rw [Fields.fill]
      have hbodyOnly : B.Only (B.fill schema ofInt D.doc.msgs.length (D.ready schema m f)).doc
          D.doc.msgs.length [] :=
        ih (Doc.ready_new hk) rfl hptr (Draft.seen_new hk f.tag1) (fun g _ => rfl) fun g _ _ => rfl
      refine ⟨⟨D.doc.msgs.length, hm,
        hrest.frame hs hM' htype hlt (findField_mem hf) hk hpush hlast,
        hbodyOnly.mono fun m' M'' hle hM'' => hrests.other (List.getElem?_eq_some_iff.mp hM').1 hM''
          (Nat.ne_of_gt (Nat.lt_of_lt_of_le hm hle))⟩,
        ih' hM' htype hlt (hseen.sub hm hk hreads) (fun g hl => ?_) fun g hk' hno => ?_⟩
      · by_cases heq : g = f
        · subst heq
          rw [M.push_vals, List.length_append, List.length_singleton, hlen g hl, List.count_cons_self]
        · rw [M.push_vals_ne heq, hlen g hl, List.count_cons_of_ne (Ne.symm heq)]
      · have hne : g ≠ f := by
          rintro rfl
          exact hno List.mem_cons_self
        rw [M.push_vals_ne hne]
        exact hnone g hk' fun hmem => hno (List.mem_cons_of_mem f hmem)

/-! ## What is kept is found -/

/-- A list has an element for each time that it is given. -/
theorem Fields.Kept.length {d : Doc} (h : T.Kept schema ofInt d m prior) {M : DocMsg}
    (hM : d.msgs[m]? = some M) (hl : f.list = true) :
    (M.vals f).length = prior.count f + T.descs.count f := by
  induction T generalizing prior with
  | nil =>
      obtain ⟨M', hM', hlen⟩ := h
      rw [hM, Option.some.injEq] at hM'
      rw [hM', hlen f hl]
      rfl
  | value g _ rest ih =>
      rw [ih h.2, Fields.descs, List.count_cons, List.count_cons]
      omega
  | sub g _ rest _ ih =>
      rw [ih h.2, Fields.descs, List.count_cons, List.count_cons]
      omega

/-- A submessage that is not given is not there. -/
theorem Fields.Only.vals_nil {d : Doc} (h : T.Only d m prior) {M : DocMsg}
    (hM : d.msgs[m]? = some M) (hk : f.kind = .ptr) (hprior : f ∉ prior) (hno : f ∉ T.descs) :
    M.vals f = [] := by
  induction T generalizing prior with
  | nil =>
      obtain ⟨M', hM', hnone⟩ := h
      rw [hM, Option.some.injEq] at hM'
      rw [hM']
      exact hnone f hk hprior
  | value g _ rest ih =>
      rw [Fields.descs, List.mem_cons, not_or] at hno
      exact ih h (List.not_mem_cons_of_ne_of_not_mem hno.1 hprior) hno.2
  | sub g _ rest _ ih =>
      rw [Fields.descs, List.mem_cons, not_or] at hno
      exact ih h.2 (List.not_mem_cons_of_ne_of_not_mem hno.1 hprior) hno.2

end

/-- What is found in the fields from the first on, of which as many elements are left out as it has
been given before. -/
def readRest (b : Buffer) (schema : Schema) (inner : Obj → MsgType → Outcome Content) (o : Obj)
    (prior : List FieldDesc) : List FieldDesc → Outcome Content
  | [] => done .nil
  | f :: l => do
      let n ← ofOption (elemCount b o f)
      let S ← joined (readElem b schema inner o f)
        (List.range' (prior.count f) (n - prior.count f))
      let rest ← joined (readField b schema inner o) l
      pure (S ++ rest)

section

variable {b : Buffer} {schema : Schema} {inner : Obj → MsgType → Outcome Content} {o : Obj}
  {prior l : List FieldDesc} {f : FieldDesc} {n : Nat} {E T : Content}

theorem readRest_new (h : ∀ g ∈ l, g ∉ prior) :
    readRest b schema inner o prior l = joined (readField b schema inner o) l := by
  cases l with
  | nil => rfl
  | cons f l =>
      have h0 : prior.count f = 0 := List.count_eq_zero.mpr (h f List.mem_cons_self)
      rw [readRest, joined, readField, h0]
      cases elemCount b o f with
      | none => rfl
      | some n => simp only [ofOption_some, done_bind, Nat.sub_zero, List.range_eq_range']

/-- A field of which nothing is left. -/
theorem readRest_none (hn : elemCount b o f = some (prior.count f)) (hl : ∀ g ∈ l, g ∉ prior) :
    readRest b schema inner o prior (f :: l) = readRest b schema inner o prior l := by
  rw [readRest_new hl, readRest, hn, ofOption_some, done_bind, Nat.sub_self]
  show (do let rest ← joined (readField b schema inner o) l; pure (Content.nil ++ rest)) = _
  cases joined (readField b schema inner o) l <;> rfl

/-- **One more element** of the first field. -/
theorem readRest_elem (hn : elemCount b o f = some n) (hlt : prior.count f < n)
    (hone : f.list = false → n = 1) (hf : f ∉ l) (hl : ∀ g ∈ l, g ∉ prior)
    (hE : readElem b schema inner o f (prior.count f) = done E)
    (hT : readRest b schema inner o (f :: prior) (f.onward l) = done T) :
    readRest b schema inner o prior (f :: l) = done (E ++ T) := by
  obtain ⟨k, hk⟩ : ∃ k, n - prior.count f = k + 1 := ⟨n - prior.count f - 1, by omega⟩
  have hnew : ∀ g ∈ l, g ∉ f :: prior := by
    rintro g hg (_ | ⟨_, hmem⟩)
    · exact hf hg
    · exact hl g hg hmem
  rw [readRest, hn, ofOption_some, done_bind, hk, List.range'_succ, joined, hE]
  unfold FieldDesc.onward at hT
  split_ifs at hT with hlist
  · rw [readRest, hn, ofOption_some, done_bind, List.count_cons_self, show n - (prior.count f + 1) = k by omega] at hT
    obtain ⟨S, hS, hT⟩ := bind_eq_done.mp hT
    obtain ⟨rest, hrest, hT⟩ := bind_eq_done.mp hT
    cases hT
    simp only [hS, hrest, done_bind, pure_eq, Content.append_assoc]
  · obtain rfl : k = 0 := by
      have := hone (by simpa using hlist)
      omega
    rw [readRest_new hnew] at hT
    simp only [List.range'_zero, joined, hT, done_bind, pure_eq, Content.append_nil]

end

/-- A value that is found. -/
theorem readElem_value {b : Buffer} {schema : Schema} {inner : Obj → MsgType → Outcome Content}
    {o : Obj} {f : FieldDesc} {k : Nat} {x : FieldValue} (hk : f.kind ≠ .ptr)
    (h : reflected b o f k = some x) :
    readElem b schema inner o f k = done (.value f x .nil) := by
  obtain ⟨ref, href, hx⟩ := Option.bind_eq_some_iff.mp h
  rw [readElem, href, ofOption_some, done_bind, readEntry, if_neg hk, hx]
  rfl

/-- The fields to come after one more element have not been given, unless they are lists. -/
theorem onward_prior {f : FieldDesc} {l prior : List FieldDesc} (hf : f ∉ l)
    (htail : ∀ g ∈ l, g ∉ prior) :
    (∀ g ∈ f.onward l, g.list = false → g ∉ f :: prior) ∧
      ∀ g ∈ (f.onward l).tail, g ∉ f :: prior := by
  have hnew : ∀ g ∈ l, g ∉ f :: prior := fun g hg =>
    List.not_mem_cons_of_ne_of_not_mem (fun heq => hf (heq ▸ hg)) (htail g hg)
  unfold FieldDesc.onward
  split_ifs with hlist
  · refine ⟨?_, hnew⟩
    rintro g (_ | ⟨_, hg⟩) hgl
    · exact absurd (hlist.symm.trans hgl) (by decide)
    · exact hnew g hg
  · exact ⟨fun g hg _ => hnew g hg, fun g hg => hnew g (List.mem_of_mem_tail hg)⟩

/-- The fields that are given are among those of the content. -/
theorem Content.Of.mem_of_mem_descs {schema : Schema} {n : Nat} {l : List FieldDesc} {T : Content}
    (h : T.Of schema n l) {f : FieldDesc} (hf : f ∈ (T.fields schema).descs) : f ∈ l := by
  induction h with
  | nil => exact hf
  | none _ _ ih => exact List.mem_cons_of_mem _ (ih hf)
  | value _ _ ih | sub _ _ _ _ ih =>
      rcases List.mem_cons.mp hf with rfl | hf
      · exact List.mem_cons_self
      · exact FieldDesc.forall_onward (fun _ hg => hg) f (ih hf)

section

variable {w : View} {schema : Schema} {ofInt : Int → Int × Int} {d : Doc} {b : Buffer} {m k n : Nat}
  {o : Obj} {M : DocMsg} {f : FieldDesc} {l prior : List FieldDesc} {T : Content}

/-- How many elements a field has. -/
theorem View.Stores.elemCount (h : w.Stores schema d b) (ho : w.Opens m o) (hM : d.msgs[m]? = some M)
    (hf : f ∈ (schema.msgType M.type).fields) : elemCount b o f = some (
      if f.list = true then (M.vals f).length
      else if f.kind = .ptr then min (M.vals f).length 1 else 1) := by
  unfold Nbuf.elemCount
  by_cases hptr : f.list = true ∨ f.kind = .ptr
  · obtain ⟨list, hlist, hlen, -⟩ := h.list ho hM hf hptr
    rw [if_pos hptr, hlist, ← hlen]
    simp only [Option.bind_eq_bind, Option.bind_some, Option.pure_def, Option.some.injEq]
    by_cases hl : f.list = true
    · rw [if_pos hl, if_pos hl]
    · rw [if_neg hl, if_neg hl, if_pos (hptr.resolve_left hl)]
  · rw [if_neg hptr, if_neg fun hl => hptr (Or.inl hl), if_neg fun hk => hptr (Or.inr hk)]

/-- **What a text spells is found** in the buffer that holds its document. -/
theorem Content.Of.read (h : w.Stores schema d b) (hn : schema.Named) (hof : T.Of schema n l)
    (hprint : T.Printable) (hshort : ∀ t ∈ T.spell schema, t.Short) (ho : w.Opens m o)
    (hM : d.msgs[m]? = some M) (hl : ∀ g ∈ l, g ∈ (schema.msgType M.type).fields) (hnodup : l.Nodup)
    (hkept : (T.fields schema).Kept schema ofInt d m prior) (honly : (T.fields schema).Only d m prior)
    (hprior : ∀ g ∈ l, g.list = false → g ∉ prior) (htail : ∀ g ∈ l.tail, g ∉ prior) :
    readRest b schema (readMessage b schema n) o prior l = done T := by
  induction hof generalizing m o M prior with
  | nil => rfl
  | @none n f l T hopt hrest ih =>
      obtain ⟨hf, hl'⟩ := List.forall_mem_cons.mp hl
      obtain ⟨hno, hnodup'⟩ := List.nodup_cons.mp hnodup
      have hgiven : f ∉ (T.fields schema).descs := fun hmem => hno (hrest.mem_of_mem_descs hmem)
      have hcount : Nbuf.elemCount b o f = some (prior.count f) := by
        rw [h.elemCount ho hM hf]
        by_cases hlist : f.list = true
        · rw [if_pos hlist, hkept.length hM hlist, List.count_eq_zero.mpr hgiven, Nat.add_zero]
        · have hnew := hprior f List.mem_cons_self (by simpa using hlist)
          have hk := hopt.resolve_left hlist
          rw [if_neg hlist, if_pos hk, honly.vals_nil hM hk hnew hgiven, List.count_eq_zero.mpr hnew]
          rfl
      have hnew : ∀ g ∈ l, g ∉ prior := htail
      rw [readRest_none hcount hnew]
      exact ih hprint hshort ho hM hl' hnodup' hkept honly
        (fun g hg => hprior g (List.mem_cons_of_mem f hg))
        fun g hg => hnew g (List.mem_of_mem_tail hg)
  | @value n f l x T hx hrest ih =>
      obtain ⟨hf, -⟩ := List.forall_mem_cons.mp hl
      obtain ⟨hno, -⟩ := List.nodup_cons.mp hnodup
      have hlast : f.list = true ∨ f ∉ (T.fields schema).descs := by
        by_cases hlist : f.list = true
        · exact Or.inl hlist
        · refine Or.inr fun hmem => hno ?_
          have hmem' := hrest.mem_of_mem_descs hmem
          rwa [FieldDesc.onward, if_neg hlist] at hmem'
      obtain ⟨y, ht, M', hM', hkeep⟩ := hkept.1 hlast
      rw [hM, Option.some.injEq] at hM'
      subst hM'
      obtain ⟨hvalue, hshort'⟩ : (f.valueToken schema x).Short ∧ ∀ t ∈ T.spell schema, t.Short :=
        ⟨hshort _ (by simp [Content.spell]), fun t ht => hshort t (by simp [Content.spell, ht])⟩
      have hfound := h.value hn ho hM hf hx hprint.2.1 hprint.1 hvalue ht hkeep
      obtain ⟨hprior', htail'⟩ := onward_prior hno htail
      refine readRest_elem (h.elemCount ho hM hf) ?_ ?_ hno htail (readElem_value hx.not_ptr hfound)
        (ih hprint.2.2 hshort' ho hM (FieldDesc.forall_onward hl) (FieldDesc.nodup_onward hnodup)
          hkept.2 honly hprior' htail')
      · by_cases hlist : f.list = true
        · rw [if_pos hlist, hkept.length hM hlist]
          simp [Content.fields, Fields.descs]
        · have hnew := hprior f List.mem_cons_self (by simpa using hlist)
          rw [if_neg hlist, if_neg hx.not_ptr, List.count_eq_zero.mpr hnew]
          exact Nat.zero_lt_one
      · intro hlist
        rw [hlist, if_neg (by decide), if_neg hx.not_ptr]
  | @sub n f l B T hk hbody hrest ihB ih =>
      obtain ⟨hf, -⟩ := List.forall_mem_cons.mp hl
      obtain ⟨hno, -⟩ := List.nodup_cons.mp hnodup
      have hlength := hkept.length hM (f := f)
      obtain ⟨⟨m', M', -, hM', htype, ⟨M₁, hM₁, hkeep⟩, hbody'⟩, hkept'⟩ := hkept
      obtain ⟨⟨m'', -, ⟨M₂, hM₂, hkeep'⟩, hbodyOnly⟩, honly'⟩ := honly
      rw [hM, Option.some.injEq] at hM₁ hM₂
      subst hM₁ hM₂
      obtain rfl := hkeep.msg_inj hkeep'
      obtain ⟨_, _, _, hat, -⟩ := h.msgAt ho hM
      have htarget := h.sound.target _ (schema.msgType_mem hat.type) f hf hk
      obtain ⟨hshortB, hshort'⟩ : (∀ t ∈ B.spell schema, t.Short) ∧ ∀ t ∈ T.spell schema, t.Short :=
        ⟨fun t ht => hshort t (by simp [Content.spell, ht]),
          fun t ht => hshort t (by simp [Content.spell, ht])⟩
      obtain ⟨ref, href, hopens⟩ := h.sub ho hM hf hk hkeep
      have hB := ihB hprint.1 hshortB hopens hM' (by rw [htype]; exact fun _ hg => hg)
        ((hn.fields _ (schema.msgType_mem htarget)).1.of_map _) hbody' hbodyOnly
        (fun _ _ _ => List.not_mem_nil) fun _ _ => List.not_mem_nil
      have hE : readElem b schema (readMessage b schema (n + 1)) o f (prior.count f)
          = done (.sub f B .nil) := by
        rw [readElem, href, ofOption_some, done_bind, readEntry, if_pos hk, readMessage,
          ← readRest_new fun _ _ => List.not_mem_nil, hB]
        rfl
      obtain ⟨hprior', htail'⟩ := onward_prior hno htail
      refine readRest_elem (h.elemCount ho hM hf) ?_ ?_ hno htail hE
        (ih hprint.2 hshort' ho hM (FieldDesc.forall_onward hl) (FieldDesc.nodup_onward hnodup)
          hkept' honly' hprior' htail')
      · by_cases hlist : f.list = true
        · rw [if_pos hlist, hlength hlist]
          simp [Content.fields, Fields.descs]
        · have hnew := hprior f List.mem_cons_self (by simpa using hlist)
          rw [DocMsg.Keeps, if_neg hlist] at hkeep
          rw [if_neg hlist, if_pos hk, List.count_eq_zero.mpr hnew,
            show M.vals f = [.msg m'] from hkeep]
          exact Nat.zero_lt_one
      · intro hlist
        rw [DocMsg.Keeps, if_neg (by simp [hlist])] at hkeep
        rw [if_neg (by simp [hlist]), if_pos hk, show M.vals f = [.msg m'] from hkeep]
        rfl

end

/-! ## Messages of a schema file -/

namespace T2b

/-- The fields of a message have distinct names, and so have the values of an enumeration. -/
structure SchemaDesc.Distinct (d : SchemaDesc) : Prop where
  flds : ∀ m ∈ d.msgs, (m.flds.map FldDesc.name).Nodup
  vals : ∀ e ∈ d.enums, (e.vals.map EnumDesc.name).Nodup

theorem CompiledFields.names {types : List LookupEntry} {flds : List FldDesc}
    {fields : List FieldDesc} (h : CompiledFields types flds fields) :
    fields.map FieldDesc.name = flds.map FldDesc.name := by
  induction h with
  | nil => rfl
  | cons hname _ ih => rw [List.map_cons, List.map_cons, ih, hname.1]

theorem exists_compiled {types : List LookupEntry} {msgs : List MsgType} {out : List Nbuf.MsgType}
    (h : List.Forall₂ (fun m ms => ms.name = m.name ∧ CompiledFields types m.flds ms.fields)
      msgs out) {ms : Nbuf.MsgType} (hms : ms ∈ out) :
    ∃ m ∈ msgs, CompiledFields types m.flds ms.fields := by
  induction h with
  | nil => cases hms
  | cons hcomp _ ih =>
      rcases List.mem_cons.mp hms with rfl | hms
      · exact ⟨_, List.mem_cons_self, hcomp.2⟩
      · obtain ⟨m, hm, hcomp'⟩ := ih hms
        exact ⟨m, List.mem_cons_of_mem _ hm, hcomp'⟩

/-- The names of a schema file are those of the compiled schema. -/
theorem SchemaDesc.Distinct.named {d : SchemaDesc} {s : Nbuf.Schema} (hd : d.Distinct) (hwf : d.Wf)
    (h : t2b d = some s) : s.Named := by
  obtain ⟨types, -, -, henums, hmsgs⟩ := t2b_parts h
  constructor
  case fields =>
    intro ms hms
    obtain ⟨m, hm, hcomp⟩ := exists_compiled hmsgs hms
    refine ⟨hcomp.names ▸ hd.flds m hm, fun f hf => ?_⟩
    have hname : f.name ∈ m.flds.map FldDesc.name := hcomp.names ▸ List.mem_map_of_mem hf
    obtain ⟨fld, hfld, hname⟩ := List.mem_map.mp hname
    exact hname ▸ ((hwf.msg m hm).2 fld hfld).1.ident
  case values =>
    intro e he
    rw [henums] at he
    obtain ⟨e', he', rfl⟩ := List.mem_map.mp he
    refine ⟨?_, fun v hv => ?_⟩
    · rw [outenum, List.map_map]
      exact hd.vals e' he'
    · obtain ⟨v', hv', rfl⟩ := List.mem_map.mp hv
      exact ((hwf.enum e' he').2 v' hv').1.ident

end T2b

section

variable {alloc : Nat → Realloc} {schema : Schema} {ofInt : Int → Int × Int} {addr type : Nat}
  {haddr : addr < 2 ^ 64} {strtod : Text → Int × Int} {fmtFloat : Nat → Int → Text} {indent : Int}
  {b : Buffer} {o : Obj} {fuel : Nat} {T : Content} {text : Text}

theorem rendered_eq_done {schema : Schema} {indentInc indent : Int} {x : Outcome Content}
    (h : rendered schema fmtFloat indentInc indent x = done text) :
    ∃ T, x = done T ∧ text = T.render schema fmtFloat indentInc indent := by
  obtain ⟨T, hT, h⟩ := bind_eq_done.mp h
  cases h
  exact ⟨T, hT, rfl⟩

/-- The tokens of the text of a message. -/
theorem Schema.Sound.tokens_message (hs : schema.Sound) (hn : schema.Named)
    (strtod : Text → Int × Int) (fmtFloat : Nat → Int → Text) (indent : Int)
    (htype : type < schema.msgTypes.length) (hT : T.Of schema fuel (schema.msgType type).fields)
    (hprint : T.Printable) :
    tokens (Number.token strtod) (T.render schema fmtFloat indent 0) = T.spell schema := by
  have hlex : tokens (Number.token strtod) (T.render schema fmtFloat indent 0 ++ [])
      = T.spell schema ++ tokens (Number.token strtod) [] :=
    tokens_render hs hn fmtFloat indent hT hprint (schema.hasField htype) fun hquote => nomatch hquote
  rwa [List.append_nil, tokens_nil, List.append_nil] at hlex

/-- The text of a message is parsed, and the same is found in the buffer that is made of it. -/
theorem Schema.Sound.parse_render (hs : schema.Sound) (hn : schema.Named)
    (ha : ∀ n, (alloc n).Total) (haddr : addr < 2 ^ 64) (htype : type < schema.msgTypes.length)
    (hT : T.Of schema fuel (schema.msgType type).fields) (hprint : T.Printable)
    (htext : text = T.render schema fmtFloat indent 0)
    (hbound : TextBounded schema ofInt type (tokens (Number.token strtod) text))
    (hnear : (textDoc schema ofInt type (tokens (Number.token strtod) text)).bytes ≤ 2 ^ 33) :
    ∃ r errs b' o', nbufParseText (Number.token strtod) alloc schema ofInt addr haddr
        (schema.msgType type) text = done (r, errs) ∧
      r.ok = true ∧ r.buf = some b' ∧ objInit b' Obj.null 0 = some o' ∧
      b'.len < 2 ^ 63 ∧ o'.base + o'.elemsz ≤ b'.len ∧
      readMessage b' schema (fuel + 1) o' (schema.msgType type) = done T := by
  have hnodup := (hn.fields _ (schema.msgType_mem htype)).1.of_map
  have htoks : tokens (Number.token strtod) text = T.spell schema :=
    htext ▸ hs.tokens_message hn strtod fmtFloat indent htype hT hprint
  have hspells : Spells schema Token.IsText type [] (T.spell schema) (T.fields schema) :=
    hT.spells hs hn hprint htype (fun _ hf => hf) hnodup fun _ _ _ => List.not_mem_nil
  rw [htoks] at hbound hnear
  obtain ⟨r, b', o', w, M, hr, hok, hbuf, hroot, hfits, hstores, hopens, hM, hMtype⟩ :=
    hspells.parse_doc hs ha haddr htype hbound hnear
  rw [← htoks] at hr
  obtain ⟨errs, herrs⟩ := nbufParseText_of_done hr
  have hstart : (Draft.start schema type).doc.msgs[0]? = some (DocMsg.new type) := rfl
  have hkept : (T.fields schema).Kept schema ofInt
      ((T.fields schema).fill schema ofInt 0 (Draft.start schema type)).doc 0 [] :=
    hspells.kept hs hstart rfl htype (Draft.seen_start type) fun _ _ => rfl
  have honly : (T.fields schema).Only
      ((T.fields schema).fill schema ofInt 0 (Draft.start schema type)).doc 0 [] :=
    hspells.only hs hstart rfl htype (Draft.seen_start type) (fun _ _ => rfl) fun _ _ _ => rfl
  have hread := hT.read hstores hn hprint hbound.short hopens hM (by rw [hMtype]; exact fun _ hf => hf)
    hnodup hkept honly (fun _ _ _ => List.not_mem_nil) fun _ _ => List.not_mem_nil
  rw [readRest_new fun _ _ => List.not_mem_nil] at hread
  exact ⟨r, errs, b', o', herrs, hok, hbuf, hroot, hstores.holds.len_lt, hfits, hread⟩

/-- **What `nbuf_print` shows of a message**, in a buffer of any bytes: a line for every value and
every submessage that reflection finds in it, in the order of the fields and of the elements, and
nothing else. It stops where reflection stops. -/
theorem print_shows (hlen : b.len < 2 ^ 63) (ho : o.base + o.elemsz ≤ b.len)
    (fmtFloat : Nat → Int → Text) (indent : Int) (schema : Schema) (msgType : MsgType) (fuel : Nat) :
    print b fuel o fmtFloat indent schema msgType
      = rendered schema fmtFloat indent 0 (readMessage b schema fuel o msgType) :=
  doPrint_eq hlen fuel 0 o msgType ho

/-- **A message survives being printed.** What `nbuf_print` writes of a message is parsed, and the
new buffer holds the same message: the same is found in it, and it is printed in the same way. The
message may lie in any buffer; it has no numbers with a fraction, no booleans in lists, and only
strings that come back from their literals. -/
theorem message_text_round_trip {d : T2b.SchemaDesc} (hwf : d.Wf) (hd : d.Distinct)
    (hschema : T2b.t2b d = some schema) (hfits : T2b.Fits d) (ha : ∀ n, (alloc n).Total)
    (haddr : addr < 2 ^ 64) (htype : type < schema.msgTypes.length) (hlen : b.len < 2 ^ 63)
    (ho : o.base + o.elemsz ≤ b.len)
    (htext : print b fuel o fmtFloat indent schema (schema.msgType type) = done text) :
    ∃ T, readMessage b schema fuel o (schema.msgType type) = done T ∧ (T.Printable →
      TextBounded schema ofInt type (tokens (Number.token strtod) text) →
      (textDoc schema ofInt type (tokens (Number.token strtod) text)).bytes ≤ 2 ^ 33 →
      ∃ r errs b' o', nbufParseText (Number.token strtod) alloc schema ofInt addr haddr
          (schema.msgType type) text = done (r, errs) ∧
        r.ok = true ∧ r.buf = some b' ∧ objInit b' Obj.null 0 = some o' ∧
        readMessage b' schema fuel o' (schema.msgType type) = done T ∧
        print b' fuel o' fmtFloat indent schema (schema.msgType type) = done text) := by
  rw [print, doPrint_eq hlen fuel 0 o _ ho] at htext
  obtain ⟨T, hT, hrender⟩ := rendered_eq_done htext
  refine ⟨T, hT, fun hprint hbound hnear => ?_⟩
  have hs := T2b.t2b_sound hschema hfits
  cases fuel with
  | zero => cases hT
  | succ fuel =>
      obtain ⟨r, errs, b', o', hr, hok, hbuf, hroot, hlen', ho', hread⟩ :=
        hs.parse_render (hd.named hwf hschema) ha haddr htype (readMessage_of hs htype hT) hprint
          hrender hbound hnear
      refine ⟨r, errs, b', o', hr, hok, hbuf, hroot, hread, ?_⟩
      rw [print, doPrint_eq hlen' (fuel + 1) 0 o' _ ho', hread, hrender]
      rfl

end

/-- A node and its child, with one list of tags for both. -/
def sharedTags : Buffer :=
  initRead ⟨[1, 0, 0, 0, 4, 0, 3, 0, 7, 0, 0, 0, 0, 0, 0, 0, 8, 0, 0, 0, 1, 0, 0, 0,
    1, 0, 0, 0, 4, 0, 3, 0, 253, 255, 255, 255, 0, 0, 0, 0, 2, 0, 0, 0, 0, 0, 0, 0,
    1, 0, 0, 0, 0, 0, 1, 0, 2, 0, 0, 0, 0, 0, 0, 0, 3, 0, 0, 0, 1, 0, 0, 0,
    97, 98, 0, 0, 0, 0, 0, 0], Nat.le_of_ble_eq_true (Eq.refl true)⟩

/-- What is found in it. -/
def sharedTagsContent : Content :=
  .value idField (.int 7) (.value tagsField (.str (asc "ab")) (.sub kidsField
    (.value idField (.int (-3)) (.value tagsField (.str (asc "ab")) .nil)) .nil))

def sharedTagsText : Text :=
  asc "id: 7\ntags: \"ab\"\nkids \x7b\n  id: -3\n  tags: \"ab\"\n\x7d\n"

theorem treeDesc_wf : treeDesc.Wf :=
  ⟨fun _ h => (nomatch h), fun _ h => (nomatch h), by decide⟩

theorem treeDesc_distinct : treeDesc.Distinct := ⟨by decide, by decide⟩

theorem sharedTags_read : readMessage sharedTags treeSchema 2 (Obj.ofFields 8 1 4 3)
    (treeSchema.msgType 0) = done sharedTagsContent := by decide +kernel

theorem sharedTags_shown : print sharedTags 2 (Obj.ofFields 8 1 4 3) (fun _ _ => []) 2 treeSchema
      (treeSchema.msgType 0)
    = rendered treeSchema (fun _ _ => []) 2 0
        (readMessage sharedTags treeSchema 2 (Obj.ofFields 8 1 4 3) (treeSchema.msgType 0)) :=
  print_shows (by decide) (by decide) (fun _ _ => []) 2 treeSchema (treeSchema.msgType 0) 2

theorem sharedTags_round_trip : ∃ r errs b' o', nbufParseText (Number.token fun _ => (0, 0)) granting
      treeSchema (fun v => (v, v)) 4096 (by decide) (treeSchema.msgType 0) sharedTagsText
        = done (r, errs) ∧
    r.ok = true ∧ r.buf = some b' ∧ objInit b' Obj.null 0 = some o' ∧
    readMessage b' treeSchema 2 o' (treeSchema.msgType 0) = done sharedTagsContent ∧
    print b' 2 o' (fun _ _ => []) 2 treeSchema (treeSchema.msgType 0) = done sharedTagsText := by
  have hschema : T2b.t2b treeDesc = some treeSchema := by decide +kernel
  have hfits : T2b.Fits treeDesc := by decide +kernel
  have hs := T2b.t2b_sound hschema hfits
  have htoks : tokens (Number.token fun _ => (0, 0)) sharedTagsText
      = sharedTagsContent.spell treeSchema :=
    hs.tokens_message (treeDesc_distinct.named treeDesc_wf hschema) _ (fun _ _ => []) 2
      (show 0 < treeSchema.msgTypes.length by decide) (readMessage_of hs (by decide) sharedTags_read)
      (by decide)
  obtain ⟨T, hT, hback⟩ := message_text_round_trip treeDesc_wf treeDesc_distinct hschema hfits
    (show ∀ n, Realloc.Total (granting n) from fun _ _ => rfl) (show 4096 < 2 ^ 64 by decide) (show 0 < treeSchema.msgTypes.length by decide)
    (show sharedTags.len < 2 ^ 63 by decide)
    (show (Obj.ofFields 8 1 4 3).base + (Obj.ofFields 8 1 4 3).elemsz ≤ sharedTags.len by decide)
    (show print sharedTags 2 (Obj.ofFields 8 1 4 3) (fun _ _ => []) 2 treeSchema (treeSchema.msgType 0)
      = done sharedTagsText by decide +kernel)
  rw [sharedTags_read, done.injEq] at hT
  subst hT
  exact hback (by decide) (htoks ▸ by decide +kernel) (htoks ▸ by decide +kernel)

end Nbuf
