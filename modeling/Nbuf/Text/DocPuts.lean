import Nbuf.Text.DocSteps

set_option autoImplicit false

/-! # Puts on a document

A put through a reference changes the scalar part of a message, a string of it, or the last element
of a list.
-/

namespace Nbuf

open ByteMem

theorem getElem?_setLast {α : Type} {l : List α} {n : Nat} (hl : l.length = n + 1) (x : α) (j : Nat) :
    (l.dropLast ++ [x])[j]? = if j = n then some x else l[j]? := by
  have hlen : l.dropLast.length = n := by rw [List.length_dropLast, hl, Nat.add_sub_cancel]
  by_cases hj : j = n
  · rw [if_pos hj, hj, ← hlen, List.getElem?_concat_length]
  · rw [if_neg hj]
    by_cases hlt : j < n
    · rw [List.getElem?_append_left (by omega), List.getElem?_dropLast, if_pos (by omega)]
    · rw [List.getElem?_eq_none (by simp; omega), List.getElem?_eq_none (by omega)]

namespace View

variable {R : Room} {schema : Schema} {v v' : View} {i k : Nat} {ci : Cell} {d : Doc} {m : Nat}
  {M : DocMsg} {f : FieldDesc} {t n : Nat} {ct : Cell}

/-! ## The last element of a list -/

/-- A step on the elements of a list. The message itself is in another object. -/
theorem fieldStep_elem (hs : schema.Sound) (hd : v.Shows R schema d)
    (hat : v.MsgAt R schema i k ci M) (hf : f ∈ (schema.msgType M.type).fields)
    (hlist : f.list = true) (hkind : f.kind ≠ .ptr) (ht : ci.ptr k f.tag0 = some t)
    (hsort : v.sorts[t]? = some (.elems f.kind)) (hfr : v.Frame v' (· = t))
    (hother : ∀ (t' : Nat) (c' : Cell), v.heap[t']? = some c' → t ≠ t' → v'.heap[t']? = some c')
    {l : List Item} (hne : l ≠ []) (hl : ∃ ct', v'.ListAt R schema t ct' f l) :
    FieldStep R schema v v' (· = t) i k ci ci f M { M with vals := Function.update M.vals f l } := by
  have hin := inPointers_of_list (Or.inl hlist)
  have hx := hat.slot_lt hs hf hin
  have hfwd := hd.forward i ci hat.cell k (hat.row_lt hx) _ hx t ht
  refine ⟨hfr, ?_, ?_, hother i ci hat.cell (by omega), rfl, rfl, Nat.le_refl _, fun _ _ _ => rfl,
    hat.scal, rfl, fun f' hne' => Function.update_of_ne hne' _ _, ?_⟩
  · rintro t' rfl
    exact ⟨hin, ht⟩
  · intro i' k' c' hc' hsort' _ _
    have hne' : t ≠ i' := by
      rintro rfl
      rw [hsort, Option.some.injEq] at hsort'
      exact hkind (Srt.elems.inj hsort')
    exact ⟨c', hother i' c' hc' hne', .refl c' k'⟩
  · unfold FieldAt
    rw [if_pos (Or.inl hlist), ht]
    show (Function.update M.vals f l f ≠ [] ∧ ∃ ct', v'.ListAt R schema t ct' f
      (Function.update M.vals f l f))
    rw [Function.update_self]
    exact ⟨hne, hl⟩

/-- The elements of a list of numbers, of which the last is put. -/
theorem ListAt.putNum {l : List Item} (hl : v.ListAt R schema t ct f l) (hnum : f.IsNum)
    (hw : f.HasWidth) (hlen : l.length = n + 1) (x : Nat)
    (hc : v'.heap[t]? = some (ct.setInt n 0 f.width x))
    (hsort : v'.sorts[t]? = some (.elems f.kind)) :
    v'.ListAt R schema t (ct.setInt n 0 f.width x) f
      (l.dropLast ++ [.num (x % 256 ^ f.width)]) := by
  have hsize := hl.size
  have hle := scalarSize_bounds (hw.width hnum)
  rw [getSize_num hw hnum, Prod.mk.injEq] at hsize
  have hne : ¬ (ct.ssize = 0 ∧ ct.psize = 0) := by omega
  have hset : ct.setInt n 0 f.width x = ct.putInt n 0 f.width x := by
    unfold Cell.setInt
    rw [if_pos (by rw [ct.width_eq, if_neg hne]; omega), ct.row_eq hne]
  constructor
  case cell => exact hc
  case sort => exact hsort
  case size => rw [ct.setInt_toShape]; exact hl.size
  case length => rw [ct.setInt_toShape, hl.length, List.length_append, List.length_dropLast, hlen]; rfl
  case spare => exact fun hb => absurd hb hnum.1
  case item =>
    intro j y hy
    rw [getElem?_setLast hlen] at hy
    by_cases hj : j = n
    · rw [if_pos hj, Option.some.injEq] at hy
      subst hy
      refine ⟨hnum.1, hnum.2.1, hnum.2.2, ?_⟩
      rw [hset, hj]
      show (Function.update ct.scal n _ n).load 0 f.width = _
      rw [Function.update_self, load_store]
    · rw [if_neg hj] at hy
      have hitem := hl.item j y hy
      cases y with
      | num z =>
          refine ⟨hnum.1, hnum.2.1, hnum.2.2, ?_⟩
          rw [hset]
          show (Function.update ct.scal n _ j).load 0 f.width = _
          rw [Function.update_of_ne hj]
          exact hitem.2.2.2
      | bit b => exact absurd hitem.1 hnum.1
      | str s => exact absurd hitem.1 hnum.2.1
      | msg m => exact absurd hitem.1 hnum.2.2

/-- The elements of a list of booleans, of which the last is put. -/
theorem ListAt.putBit {l : List Item} (hl : v.ListAt R schema t ct f l) (hk : f.kind = .bool)
    (hw : f.HasWidth) (hlen : l.length = n + 1) (x : Bool)
    (hc : v'.heap[t]? = some (ct.setBit n (n % 8) x))
    (hsort : v'.sorts[t]? = some (.elems f.kind)) :
    v'.ListAt R schema t (ct.setBit n (n % 8) x) f (l.dropLast ++ [.bit x]) := by
  have hsize := hl.size
  rw [getSize_bool hw hk, Prod.mk.injEq] at hsize
  have hset : ct.setBit n (n % 8) x = ct.putBit (n / 8) (n % 8) x := by
    unfold Cell.setBit
    rw [if_pos (by rw [ct.width_eq, if_pos ⟨hsize.1.symm, hsize.2.symm⟩]; omega),
      ct.row_bits hsize.1.symm hsize.2.symm]
  have hbit : ∀ j, ((ct.setBit n (n % 8) x).scal (j / 8)).bit 0 (j % 8)
      = if j = n then x else (ct.scal (j / 8)).bit 0 (j % 8) := by
    intro j
    rw [hset]
    show ByteMem.bit (Function.update ct.scal (n / 8)
      ((ct.scal (n / 8)).putBit (n % 8 / 8) (n % 8 % 8) x) (j / 8)) 0 (j % 8) = _
    by_cases hrow : j / 8 = n / 8
    · rw [hrow, Function.update_self, bit_putBit _ _ (by omega)]
      by_cases hj : j = n
      · rw [if_pos (by omega), if_pos hj]
      · rw [if_neg (by omega), if_neg hj]
    · rw [Function.update_of_ne hrow, if_neg (by rintro rfl; exact hrow rfl)]
  have hnelem := hl.length
  constructor
  case cell => exact hc
  case sort => exact hsort
  case size => rw [ct.setBit_toShape]; exact hl.size
  case length => rw [ct.setBit_toShape, hl.length, List.length_append, List.length_dropLast, hlen]; rfl
  case spare =>
    intro _ j hge hrow
    rw [ct.setBit_toShape] at hge hrow
    rw [hbit, if_neg (by omega)]
    exact hl.spare hk j hge hrow
  case item =>
    intro j y hy
    rw [getElem?_setLast hlen] at hy
    by_cases hj : j = n
    · rw [if_pos hj, Option.some.injEq] at hy
      subst hy
      exact ⟨hk, by rw [hbit, if_pos hj]⟩
    · rw [if_neg hj] at hy
      have hitem := hl.item j y hy
      cases y with
      | num z => exact absurd hk hitem.1
      | bit b => exact ⟨hk, by rw [hbit, if_neg hj]; exact hitem.2⟩
      | str s => exact absurd (hk.symm.trans hitem.1) (by decide)
      | msg m => exact absurd (hk.symm.trans hitem.1) (by decide)

/-- The elements of a list of strings, of which the last is put. -/
theorem ListAt.putStr {l : List Item} (hl : v.ListAt R schema t ct f l) (hk : f.kind = .str)
    (hlen : l.length = n + 1) {s : Text} {t' : Nat} (hfr : v.Frame v' (· = t))
    (hc : v'.heap[t]? = some (ct.putPtr (ct.row n) 0 t'))
    (hstr : v'.heap[t']? = some (strCell s)) (htext : v'.sorts[t']? = some .text)
    (hroom : R.holds ct.toShape s) :
    v'.ListAt R schema t (ct.putPtr (ct.row n) 0 t') f (l.dropLast ++ [.str s]) := by
  have hsize := hl.size
  rw [getSize_str hk, Prod.mk.injEq] at hsize
  have hrow : ct.row n = n := ct.row_of_psize (x := 0) (by omega) n
  constructor
  case cell => exact hc
  case sort => exact hfr.sort t _ hl.sort
  case size => exact hl.size
  case length =>
    show ct.nelem = _
    rw [hl.length, List.length_append, List.length_dropLast, hlen]
    rfl
  case spare => exact fun hb => absurd (hk.symm.trans hb) (by decide)
  case item =>
    intro j y hy
    rw [getElem?_setLast hlen] at hy
    rw [hrow]
    by_cases hj : j = n
    · rw [if_pos hj, Option.some.injEq] at hy
      subst hy
      refine ⟨hk, ?_⟩
      have hptr : (ct.putPtr n 0 t').ptr j 0 = some t' := by
        rw [hj]
        show Function.update ct.ptr n _ n 0 = _
        rw [Function.update_self, Function.update_self]
      unfold TextAt
      rw [hptr]
      exact ⟨hstr, htext, hroom⟩
    · rw [if_neg hj] at hy
      have hitem := hl.item j y hy
      cases y with
      | num z => exact absurd hk hitem.2.1
      | bit b => exact absurd (hk.symm.trans hitem.1) (by decide)
      | str s' =>
          refine ⟨hk, hitem.2.frame hfr ?_ rfl rfl (Nat.le_refl _)⟩
          exact congrFun (Function.update_of_ne hj _ _) 0
      | msg m => exact absurd (hk.symm.trans hitem.1) (by decide)

/-- **The last element of a list** is changed in the object of the list. -/
theorem Shows.set_elem (hs : schema.Sound) (hd : v.Shows R schema d) (hM : d.msgs[m]? = some M)
    (hpl : v.places[m]? = some (i, k)) (hat : v.MsgAt R schema i k ci M)
    (hf : f ∈ (schema.msgType M.type).fields) (hlist : f.list = true) (hkind : f.kind ≠ .ptr)
    (ht : ci.ptr k f.tag0 = some t) (hl : v.ListAt R schema t ct f (M.vals f)) {g : Cell → Cell}
    (hsh : (g ct).toShape = ct.toShape) (hptr : (g ct).ptr = ct.ptr) {l : List Item} (hne : l ≠ [])
    (hl' : ∃ ct', (v.setObj t g []).ListAt R schema t ct' f l) {g' : DocMsg → DocMsg}
    (hg' : g' M = { M with vals := Function.update M.vals f l }) :
    (v.setObj t g []).Shows R schema { d with msgs := d.msgs.modify m g' } ∧
      v.Grows (v.setObj t g []) := by
  have hfr : v.Frame (v.setObj t g []) (· = t) :=
    setObj_frame hl.cell (by rw [hsh]) (by rw [hsh]) (by rw [hsh]) hl.sort
  have hstep := fieldStep_elem hs hd hat hf hlist hkind ht hl.sort hfr
    (fun t' c' hc' htt => by rw [← hc']; exact List.getElem?_modify_ne _ _ htt) hne hl'
  refine ⟨setObj_shows hd hl.cell ?_ rfl (by rw [hsh]) ?_ ?_ ?_, hfr.toGrows⟩
  · intro row x t' hrow hx ht'
    rw [hsh] at hrow hx
    rw [hptr] at ht'
    exact ⟨hrow, hx, ht'⟩
  · rw [List.append_nil, hd.places_length, List.length_modify]
  · rw [List.append_nil]
    exact hd.nodup
  · intro m1 M1 hM1
    exact hd.msg_step hs hM hpl hat hf hstep hg' [] (fun n N hN => by cases hN) m1 M1
      (by rw [List.append_nil]; exact hM1)

/-! ## Scalars of a message -/

/-- **The scalar part of a message** is changed in its row. -/
theorem Shows.set_scal (hs : schema.Sound) (hd : v.Shows R schema d) (hM : d.msgs[m]? = some M)
    (hpl : v.places[m]? = some (i, k)) (hat : v.MsgAt R schema i k ci M)
    (hf : f ∈ (schema.msgType M.type).fields) {g : Cell → Cell}
    (hsh : (g ci).toShape = ci.toShape) (hptr : (g ci).ptr = ci.ptr) {scal : ByteMem}
    (hscal : ∀ j, j < ci.ssize → (g ci).scal k j = scal j)
    (hrows : ∀ k', k' ≠ k → (g ci).scal k' = ci.scal k') {g' : DocMsg → DocMsg}
    (hg' : g' M = { M with scal := scal }) :
    (v.setObj i g []).Shows R schema { d with msgs := d.msgs.modify m g' } ∧
      v.Grows (v.setObj i g []) := by
  have hself : (v.setObj i g []).heap[i]? = some (g ci) := Heap.getElem?_modify_self hat.cell g
  have hall : v.Frame (v.setObj i g []) (· = i) :=
    setObj_frame hat.cell (by rw [hsh]) (by rw [hsh]) (by rw [hsh]) hat.sort
  have hfr : v.Frame (v.setObj i g []) fun _ => False := by
    refine ⟨hall.toGrows, fun t c s _ hc hs' hne => ?_, fun t c _ hc _ => ?_, fun _ h => h.elim⟩
    · by_cases hti : t = i
      · subst hti
        rw [hat.sort, Option.some.injEq] at hs'
        exact absurd hs'.symm hne
      · exact hall.leaf t c s hti hc hs' hne
    · by_cases hti : t = i
      · subst hti
        rw [hat.cell, Option.some.injEq] at hc
        subst hc
        exact ⟨_, hself, hsh⟩
      · exact ⟨c, by rw [← hc]; exact List.getElem?_modify_ne _ _ (Ne.symm hti), rfl⟩
  have hfield := hat.field f hf
  have hstep : FieldStep R schema v (v.setObj i g []) (fun _ => False) i k ci (g ci) f M
      { M with scal := scal } := by
    refine ⟨hfr, fun _ h => h.elim, ?_, hself, by rw [hsh], by rw [hsh], by rw [hsh],
      fun x _ _ => by rw [hptr], hscal, rfl, fun _ _ => rfl, ?_⟩
    · intro i' k' c' hc' _ _ hne
      by_cases hii : i = i'
      · subst hii
        rw [hat.cell, Option.some.injEq] at hc'
        subst hc'
        have hkk : k' ≠ k := fun h => hne (by rw [h])
        exact ⟨_, hself, by rw [hsh], by rw [hsh], by rw [hsh], fun x _ => by rw [hptr],
          fun j _ => by rw [hrows k' hkk]⟩
      · exact ⟨c', by rw [← hc']; exact List.getElem?_modify_ne _ _ hii, .refl c' k'⟩
    · exact hfield.frame hfr (fun h => by rw [hptr]) (fun _ _ _ h => h) (by rw [hsh])
        (by rw [hsh]) (by rw [hsh])
  refine ⟨setObj_shows hd hat.cell ?_ rfl (by rw [hsh]) ?_ ?_ ?_, hall.toGrows⟩
  · intro row x t' hrow hx ht'
    rw [hsh] at hrow hx
    rw [hptr] at ht'
    exact ⟨hrow, hx, ht'⟩
  · rw [List.append_nil, hd.places_length, List.length_modify]
  · rw [List.append_nil]
    exact hd.nodup
  · intro m1 M1 hM1
    exact hd.msg_step hs hM hpl hat hf hstep hg' [] (fun n N hN => by cases hN) m1 M1
      (by rw [List.append_nil]; exact hM1)

/-! ## Strings -/

theorem addObj_sort_new {c : Cell} {x : Nat} {s : Srt} {ps : List (Nat × Nat)}
    (hd : v.Shows R schema d) : (v.addObj i c x k s ps).sorts[v.heap.length]? = some s := by
  show (v.sorts ++ [s])[v.heap.length]? = _
  rw [← hd.sorts_length, List.getElem?_concat_length]

theorem strCell_blockSize {s : Text} (hlen : s.length + 1 < 2 ^ 32) :
    (strCell s).blockSize = blockBytes (1, 0) (s.length + 1) := by
  have hsh : (strCell s).toShape = strShape s.length := rfl
  rw [hsh, Shape.blockSize_eq, strShape_nelem hlen]
  rfl

/-- **A string** is put into the last element of a list. -/
theorem Shows.put_str_elem (hs : schema.Sound) (hd : v.Shows R schema d) (hM : d.msgs[m]? = some M)
    (hpl : v.places[m]? = some (i, k)) (hat : v.MsgAt R schema i k ci M)
    (hf : f ∈ (schema.msgType M.type).fields) (hlist : f.list = true) (hk : f.kind = .str)
    (ht : ci.ptr k f.tag0 = some t) (hl : v.ListAt R schema t ct f (M.vals f))
    (hlen : (M.vals f).length = n + 1) {s : Text} (hshort : s.length + 1 < 2 ^ 32)
    (hroom : R.holds ct.toShape s) :
    (v.addObj t (strCell s) 0 n .text []).Shows R schema (d.putStr m f s) ∧
      v.Grows (v.addObj t (strCell s) 0 n .text []) := by
  have hfr : v.Frame (v.addObj t (strCell s) 0 n .text []) (· = t) := by
    refine addObj_frame hl.cell (fun _ _ => Or.inr rfl) ?_
    rintro t' rfl h
    rw [hl.sort] at h
    cases h
  have hlast := hl.putStr (n := n) hk hlen hfr (addObj_self hl.cell) (addObj_new hl.cell)
    (addObj_sort_new hd) hroom
  have hstep := fieldStep_elem hs hd hat hf hlist (by simp [hk]) ht hl.sort hfr
    (fun t' c' hc' htt => addObj_other hc' htt) (by simp) ⟨_, hlast⟩
  refine ⟨addObj_shows hd hl.cell (fun _ _ => rfl) rfl ?_ ?_ ?_ ?_, hfr.toGrows⟩
  · rw [strCell_blockSize hshort]
    rfl
  · rw [List.append_nil, hd.places_length]
    exact (List.length_modify _ _ _).symm
  · rw [List.append_nil]
    exact hd.nodup
  · intro m1 M1 hM1
    have hg : (fun N : DocMsg => if f.list = true then N.setLast f (.str s)
        else N.setOnly f (.str s)) M = M.setLast f (.str s) := if_pos hlist
    exact hd.msg_step hs hM hpl hat hf hstep hg [] (fun n N hN => by cases hN) m1 M1
      (by rw [List.append_nil]; exact hM1)

/-- **A string** is put into a field. -/
theorem Shows.put_str_field (hs : schema.Sound) (hd : v.Shows R schema d) (hM : d.msgs[m]? = some M)
    (hpl : v.places[m]? = some (i, k)) (hat : v.MsgAt R schema i k ci M)
    (hf : f ∈ (schema.msgType M.type).fields) (hlist : f.list = false) (hk : f.kind = .str)
    {s : Text} (hshort : s.length + 1 < 2 ^ 32) (hroom : R.holds ci.toShape s) :
    (v.addObj i (strCell s) f.tag0 k .text []).Shows R schema (d.putStr m f s) ∧
      v.Grows (v.addObj i (strCell s) f.tag0 k .text []) := by
  have hin : f.inPointers = true := by simp [FieldDesc.inPointers, hk]
  have hx := hat.slot_lt hs hf hin
  have hfr : v.Frame (v.addObj i (strCell s) f.tag0 k .text []) fun _ => False :=
    addObj_frame hat.cell (fun s' hs' => Or.inl (Option.some.inj (hs'.symm.trans hat.sort)))
      fun _ h => h.elim
  have hrow : ci.row k = k := ci.row_of_psize hx k
  have hstep : FieldStep R schema v (v.addObj i (strCell s) f.tag0 k .text []) (fun _ => False) i k
      ci (ci.putPtr (ci.row k) f.tag0 v.heap.length) f M (M.setOnly f (.str s)) := by
    refine ⟨hfr, fun _ h => h.elim, fun i' k' c' hc' _ _ hne => addObj_rows hat.cell hx i' k' c' hc' hne,
      addObj_self hat.cell, rfl, rfl, Nat.le_refl _, ?_, hat.scal, rfl, ?_, ?_⟩
    · intro x' _ hne
      rw [hrow]
      show Function.update ci.ptr k _ k x' = _
      rw [Function.update_self, Function.update_of_ne (hne hin)]
    · exact fun f' hne => Function.update_of_ne hne _ _
    · have hvals : (M.setOnly f (.str s)).vals f = [.str s] := Function.update_self _ _ _
      have hslot : (ci.putPtr (ci.row k) f.tag0 v.heap.length).ptr k f.tag0 = some v.heap.length := by
        rw [hrow]
        show Function.update ci.ptr k _ k f.tag0 = _
        rw [Function.update_self, Function.update_self]
      unfold FieldAt
      rw [if_neg (by simp [hlist, hk]), if_pos hk, hvals]
      refine Or.inr ⟨s, rfl, ?_⟩
      unfold TextAt
      rw [hslot]
      exact ⟨addObj_new hat.cell, addObj_sort_new hd, hroom⟩
  refine ⟨addObj_shows hd hat.cell (fun _ _ => rfl) rfl ?_ ?_ ?_ ?_, hfr.toGrows⟩
  · rw [strCell_blockSize hshort]
    rfl
  · rw [List.append_nil, hd.places_length]
    exact (List.length_modify _ _ _).symm
  · rw [List.append_nil]
    exact hd.nodup
  · intro m1 M1 hM1
    have hg : (fun N : DocMsg => if f.list = true then N.setLast f (.str s)
        else N.setOnly f (.str s)) M = M.setOnly f (.str s) := if_neg (by simp [hlist])
    exact hd.msg_step hs hM hpl hat hf hstep hg [] (fun n N hN => by cases hN) m1 M1
      (by rw [List.append_nil]; exact hM1)

end View

end Nbuf
