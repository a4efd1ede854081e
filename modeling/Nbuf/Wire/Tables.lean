import Nbuf.Wire.PlainWriter

set_option autoImplicit false

/-! # Tables that are filled in row by row

A writer that fills in a vector of messages changes one element after the other and makes new
objects for their strings and lists. What an element leads to lies behind the vector, so the
elements that are finished stay as they are.
-/

namespace Nbuf

open Align Run ByteMem

/-! ## Changes of one element -/

/-- Object `i` is changed, and new objects are made. -/
structure Heap.TableStep (i : Nat) (h : Heap) (c : Cell) (h' : Heap) (c' : Cell) : Prop where
  cell : h'[i]? = some c'
  shape : c'.toShape = c.toShape
  other : ∀ (j : Nat) (cj : Cell), j ≠ i → h[j]? = some cj → h'[j]? = some cj

/-- Only element `k` of the object is changed. -/
structure Heap.RowStep (i k : Nat) (h : Heap) (c : Cell) (h' : Heap) (c' : Cell) : Prop
    extends Heap.TableStep i h c h' c' where
  scal : ∀ r, r ≠ k → c'.scal r = c.scal r
  ptr : ∀ r, r ≠ k → c'.ptr r = c.ptr r

section

variable {i k : Nat} {h h' h'' : Heap} {c c' c'' : Cell}

theorem Heap.TableStep.refl (hc : h[i]? = some c) : TableStep i h c h c :=
  ⟨hc, rfl, fun _ _ _ hj => hj⟩

theorem Heap.TableStep.trans (hs : TableStep i h c h' c') (hs' : TableStep i h' c' h'' c'') :
    TableStep i h c h'' c'' where
  cell := hs'.cell
  shape := hs'.shape.trans hs.shape
  other := fun j cj hj hcj => hs'.other j cj hj (hs.other j cj hj hcj)

theorem Heap.RowStep.trans (hs : RowStep i k h c h' c') (hs' : RowStep i k h' c' h'' c'') :
    RowStep i k h c h'' c'' where
  toTableStep := hs.toTableStep.trans hs'.toTableStep
  scal := fun r hr => (hs'.scal r hr).trans (hs.scal r hr)
  ptr := fun r hr => (hs'.ptr r hr).trans (hs.ptr r hr)

/-- Changes of a new object are changes of no other element. -/
theorem Heap.RowStep.andNew (hs : RowStep i k h c h' c') {t : Nat} {ct ct' : Cell}
    (hi : i < h.length) (ht : h.length ≤ t) (hnew : TableStep t h' ct h'' ct') :
    RowStep i k h c h'' c' where
  cell := hnew.other i c' (by omega) hs.cell
  shape := hs.shape
  scal := hs.scal
  ptr := hs.ptr
  other := fun j cj hj hcj => by
    have hlt := (List.getElem?_eq_some_iff.mp hcj).1
    exact hnew.other j cj (by omega) (hs.other j cj hj hcj)

/-- Where an object stands depends on the objects in front of it. -/
theorem Heap.offs_congr (hsame : ∀ j, j < i → h'[j]? = h[j]?) : h'.offs i = h.offs i := by
  have htake : h'.take i = h.take i := by
    apply List.ext_getElem?
    intro j
    rw [List.getElem?_take, List.getElem?_take]
    split_ifs with hj
    · exact hsame j hj
    · rfl
  unfold Heap.offs Heap.sizes Offsets.offset
  rw [← List.map_take, ← List.map_take, htake]

/-- The handle of the object stays the same. -/
theorem Heap.TableStep.handle (hs : TableStep i h c h' c') (hc : h[i]? = some c) :
    h'.handle i c' = h.handle i c := by
  -- the objects in front of it have not moved
  have hoffs : h'.offs i = h.offs i := by
    refine Heap.offs_congr fun j hj => ?_
    have hlt : j < h.length := by
      have := (List.getElem?_eq_some_iff.mp hc).1
      omega
    rw [hs.other j h[j] (by omega) (List.getElem?_eq_getElem hlt), List.getElem?_eq_getElem hlt]
  unfold Heap.handle
  rw [hoffs, hs.shape]

end

/-! ## Calls that change one element -/

/-- A new object, to which a slot of element `k` of object `i` leads. -/
def Heap.link (h : Heap) (i k x : Nat) (ct : Cell) : Heap :=
  (h ++ [ct]).modify i fun c => c.putPtr (c.row k) x h.length

section

variable {h : Heap} {i k x : Nat} {c ct : Cell}

theorem Heap.link_new (hc : h[i]? = some c) (k x : Nat) (ct : Cell) :
    (h.link i k x ct)[h.length]? = some ct := by
  have hi := (List.getElem?_eq_some_iff.mp hc).1
  unfold Heap.link
  have hne : i ≠ h.length := Nat.ne_of_lt hi
  simp [hne]

theorem Heap.link_total (h : Heap) (i k x : Nat) (ct : Cell) :
    (h.link i k x ct).total = h.total + ct.blockSize := by
  unfold Heap.link
  rw [Heap.total_modify (f := fun c => c.putPtr (c.row k) x h.length) _ i fun _ => rfl,
    Heap.total_append, Heap.total_singleton]

/-- An update of one object. -/
theorem Heap.modify_step (hc : h[i]? = some c) {f : Cell → Cell} (hshape : (f c).toShape = c.toShape)
    (hscal : ∀ r, r ≠ k → (f c).scal r = c.scal r) (hptr : ∀ r, r ≠ k → (f c).ptr r = c.ptr r) :
    RowStep i k h c (h.modify i f) (f c) where
  cell := Heap.getElem?_modify_self hc f
  shape := hshape
  scal := hscal
  ptr := hptr
  other := fun j cj hj hcj => by
    simp [Ne.symm hj, hcj]

theorem Heap.link_step (hc : h[i]? = some c) (hrow : c.row k = k) (x : Nat) (ct : Cell) :
    RowStep i k h c (h.link i k x ct) (c.putPtr k x h.length) := by
  have hi := (List.getElem?_eq_some_iff.mp hc).1
  -- first the new object, then the pointer to it
  have hc' : (h ++ [ct])[i]? = some c := by rw [List.getElem?_append_left hi, hc]
  have hstep : RowStep i k (h ++ [ct]) c (h.link i k x ct) (c.putPtr (c.row k) x h.length) :=
    Heap.modify_step hc' rfl (fun _ _ => rfl) fun r hr =>
      Function.update_of_ne (fun heq => hr (heq.trans hrow)) ..
  rw [hrow] at hstep
  exact { hstep with other := fun j cj hj hcj => hstep.other j cj hj (by
    rw [List.getElem?_append_left (List.getElem?_eq_some_iff.mp hcj).1, hcj]) }

/-- A number in element `k`. -/
theorem Heap.setInt_step (hc : h[i]? = some c) (hrow : c.row k = k) {off sz : Nat}
    (hin : off + sz ≤ c.width) (v : Nat) :
    RowStep i k h c (h.modify i fun c => c.setInt k off sz v) (c.putInt k off sz v) := by
  have hset : c.setInt k off sz v = c.putInt k off sz v := by
    rw [Cell.setInt, if_pos hin, hrow]
  have hstep : RowStep i k h c (h.modify i fun c => c.setInt k off sz v) (c.setInt k off sz v) := by
    refine Heap.modify_step hc (c.setInt_toShape k off sz v) (fun r hr => ?_) fun r _ => ?_
    · rw [hset]
      exact Function.update_of_ne hr ..
    · rw [hset]
      rfl
  rwa [hset] at hstep

/-- A bit in element `k`. -/
theorem Heap.setBit_step (hc : h[i]? = some c) (hrow : c.row k = k) {off : Nat}
    (hin : off / 8 < c.width) (v : Bool) :
    RowStep i k h c (h.modify i fun c => c.setBit k off v) (c.putBit k off v) := by
  have hset : c.setBit k off v = c.putBit k off v := by
    rw [Cell.setBit, if_pos hin, hrow]
  have hstep : RowStep i k h c (h.modify i fun c => c.setBit k off v) (c.setBit k off v) := by
    refine Heap.modify_step hc (c.setBit_toShape k off v) (fun r hr => ?_) fun r _ => ?_
    · rw [hset]
      exact Function.update_of_ne hr ..
    · rw [hset]
      rfl
  rwa [hset] at hstep

end

/-! ## What elements hold

What element `k` of a cell leads to is at object `m` or behind it. -/

/-- Slot `x` of element `k` leads to a string. -/
def Heap.HasStr (h : Heap) (m : Nat) (c : Cell) (k x : Nat) (s : List UInt8) : Prop :=
  ∃ t ct, m ≤ t ∧ c.ptr k x = some t ∧ h[t]? = some ct ∧ ct.IsStr s

/-- Slot `x` of element `k` leads to a table with an element for each entry of the list, as `Row`
says. -/
def Heap.HasList {α : Type} (Row : α → Nat → Heap → Cell → Nat → Prop) (h : Heap) (m : Nat) (c : Cell)
    (k x ssize psize : Nat) (l : List α) : Prop :=
  ∃ t ct, m ≤ t ∧ c.ptr k x = some t ∧ h[t]? = some ct ∧ ct.nelem = l.length ∧ ct.ssize = ssize ∧
    ct.psize = psize ∧ ∀ j a, l[j]? = some a → Row a m h ct j

/-- Slot `x` of element `k` leads to a string, or it is null and the string is empty. -/
structure Heap.SlotStr (h : Heap) (c : Cell) (k x : Nat) (s : List UInt8) : Prop where
  null : c.ptr k x = none → s = []
  str : ∀ t, c.ptr k x = some t → ∃ ct, h[t]? = some ct ∧ ct.IsStr s

/-- Slot `x` of element `k` leads to a table, or it is null and the list is empty. What the elements
lead to is at object `m` or behind it. -/
structure Heap.SlotRows {α : Type} (Row : α → Nat → Heap → Cell → Nat → Prop) (h : Heap) (m : Nat)
    (c : Cell) (k x ssize psize : Nat) (l : List α) : Prop where
  null : c.ptr k x = none → l = []
  table : ∀ t, c.ptr k x = some t → ∃ ct, h[t]? = some ct ∧ ct.nelem = l.length ∧
    ct.ssize = ssize ∧ ct.psize = psize ∧ ∀ j a, l[j]? = some a → Row a m h ct j

/-- The objects from `m` on are kept. -/
def Heap.KeepsFrom (m : Nat) (h h' : Heap) : Prop :=
  ∀ (j : Nat) (cj : Cell), m ≤ j → h[j]? = some cj → h'[j]? = some cj

/-- What is said of an element depends on the element and on the objects from `m` on. -/
def RowLocal (Row : Nat → Heap → Cell → Nat → Prop) : Prop :=
  ∀ m m' h h' c c' k, m' ≤ m → Row m h c k → c'.scal k = c.scal k → c'.ptr k = c.ptr k →
    Heap.KeepsFrom m h h' → Row m' h' c' k

section

variable {h h' : Heap} {i k x m m' ssize psize : Nat} {c c' : Cell} {s : List UInt8} {α : Type}
  {Row : α → Nat → Heap → Cell → Nat → Prop} {l : List α}

theorem Heap.HasStr.keep (hs : h.HasStr m c k x s) (hm : m' ≤ m) (hptr : c'.ptr k x = c.ptr k x)
    (hkeep : Heap.KeepsFrom m h h') : h'.HasStr m' c' k x s := by
  obtain ⟨t, ct, hmt, ht, hct, hstr⟩ := hs
  exact ⟨t, ct, hm.trans hmt, hptr.trans ht, hkeep t ct hmt hct, hstr⟩

theorem Heap.HasList.keep (hs : h.HasList Row m c k x ssize psize l)
    (hlocal : ∀ a, RowLocal (Row a)) (hm : m' ≤ m) (hptr : c'.ptr k x = c.ptr k x)
    (hkeep : Heap.KeepsFrom m h h') : h'.HasList Row m' c' k x ssize psize l := by
  obtain ⟨t, ct, hmt, ht, hct, hn, hss, hps, hrows⟩ := hs
  refine ⟨t, ct, hm.trans hmt, hptr.trans ht, hkeep t ct hmt hct, hn, hss, hps, fun j a hj => ?_⟩
  exact hlocal a m m' h h' ct ct j hm (hrows j a hj) rfl rfl hkeep

theorem Heap.HasStr.slot (hs : h.HasStr m c k x s) : h.SlotStr c k x s := by
  obtain ⟨t, ct, -, ht, hct, hstr⟩ := hs
  constructor
  · intro hnone
    rw [ht] at hnone
    cases hnone
  · intro t' ht'
    rw [ht, Option.some.injEq] at ht'
    subst ht'
    exact ⟨ct, hct, hstr⟩

/-- A slot that leads to a table. -/
theorem Heap.SlotRows.of_table {t : Nat} {ct : Cell} (hptr : c.ptr k x = some t) (hct : h[t]? = some ct)
    (hn : ct.nelem = l.length) (hss : ct.ssize = ssize) (hps : ct.psize = psize)
    (hrows : ∀ j a, l[j]? = some a → Row a m h ct j) : h.SlotRows Row m c k x ssize psize l := by
  constructor
  · intro hnone
    rw [hptr] at hnone
    cases hnone
  · intro t' ht'
    rw [hptr, Option.some.injEq] at ht'
    subst ht'
    exact ⟨ct, hct, hn, hss, hps, hrows⟩

theorem Heap.HasList.slot (hs : h.HasList Row m c k x ssize psize l) :
    h.SlotRows Row m c k x ssize psize l := by
  obtain ⟨t, ct, -, ht, hct, hn, hss, hps, hrows⟩ := hs
  exact .of_table ht hct hn hss hps hrows

theorem Heap.SlotStr.keep (hs : h.SlotStr c k x s) (hptr : c'.ptr k x = c.ptr k x)
    (hkeep : ∀ t cj, c.ptr k x = some t → h[t]? = some cj → h'[t]? = some cj) :
    h'.SlotStr c' k x s where
  null := fun hnone => hs.null (hptr ▸ hnone)
  str := by
    intro t ht
    rw [hptr] at ht
    obtain ⟨ct, hct, hstr⟩ := hs.str t ht
    exact ⟨ct, hkeep t ct ht hct, hstr⟩

theorem Heap.SlotRows.keep (hs : h.SlotRows Row m c k x ssize psize l)
    (hlocal : ∀ a, RowLocal (Row a)) (hptr : c'.ptr k x = c.ptr k x) (hkeep : Heap.KeepsFrom m h h')
    (htable : ∀ t cj, c.ptr k x = some t → h[t]? = some cj → h'[t]? = some cj) :
    h'.SlotRows Row m c' k x ssize psize l where
  null := fun hnone => hs.null (hptr ▸ hnone)
  table := by
    intro t ht
    rw [hptr] at ht
    obtain ⟨ct, hct, hn, hss, hps, hrows⟩ := hs.table t ht
    refine ⟨ct, htable t ct ht hct, hn, hss, hps, fun j a hj => ?_⟩
    exact hlocal a m m h h' ct ct j (Nat.le_refl m) (hrows j a hj) rfl rfl hkeep

/-- The rows of a list that is computed from another one. -/
theorem rows_map {β : Type} {Row : β → Nat → Heap → Cell → Nat → Prop} {f : α → β} {ct : Cell}
    (hrows : ∀ j a, l[j]? = some a → Row (f a) m h ct j) {j : Nat} {b : β}
    (hj : (l.map f)[j]? = some b) : Row b m h ct j := by
  rw [List.getElem?_map, Option.map_eq_some_iff] at hj
  obtain ⟨a, ha, rfl⟩ := hj
  exact hrows j a ha

/-- The elements of a table make up a list. -/
theorem Heap.HasList.of_rows {β : Type} {Row : β → Nat → Heap → Cell → Nat → Prop} {f : α → β} {t : Nat}
    {ct : Cell} (hlocal : ∀ b, RowLocal (Row b)) (hptr : c.ptr k x = some t) (hct : h[t]? = some ct)
    (hn : l.length = ct.nelem) (ht : m' ≤ t) (hm : m' ≤ m)
    (hrows : ∀ j a, l[j]? = some a → Row (f a) m h ct j) :
    h.HasList Row m' c k x ct.ssize ct.psize (l.map f) := by
  refine ⟨t, ct, ht, hptr, hct, by rw [List.length_map, hn], rfl, rfl, fun j b hj => ?_⟩
  exact hlocal b m m' h h ct ct j hm (rows_map hrows hj) rfl rfl fun _ _ _ hcj => hcj

theorem Heap.TableStep.keepsFrom (hs : TableStep i h c h' c') (hi : i < m) : KeepsFrom m h h' :=
  fun j cj hj hcj => hs.other j cj (by omega) hcj

/-- No object goes away. -/
theorem Heap.TableStep.length_le (hs : TableStep i h c h' c') : h.length ≤ h'.length := by
  -- else the last object of `h` would be gone
  by_contra hlt
  have hmem : h[h'.length]? = some h[h'.length] := List.getElem?_eq_getElem (by omega)
  by_cases heq : h'.length = i
  · have hi := (List.getElem?_eq_some_iff.mp hs.cell).1
    omega
  · have hlast := (List.getElem?_eq_some_iff.mp (hs.other _ _ heq hmem)).1
    omega

end

/-! ## Filling in a table -/

/-- **A table is filled in** by a loop that fills in one element after the other. A step for `a`
takes up `cost a` bytes and leaves an element as `Row a` says. -/
theorem fill_table {σ α : Type} (R : σ → Heap → Prop) (step : σ → α × Nat → Option σ)
    (Row : α → Nat → Heap → Cell → Nat → Prop) (Ok : α → Prop) (cost : α → Nat) (sh : Shape)
    {i m bound : Nat} (hlocal : ∀ a, RowLocal (Row a)) (him : i < m)
    (hstep : ∀ s h c a k, R s h → h[i]? = some c → m ≤ h.length → c.toShape = sh → k < sh.nelem →
      Ok a → h.total + cost a ≤ bound → ∃ s' h' c', step s (a, k) = some s' ∧ R s' h' ∧
        Heap.RowStep i k h c h' c' ∧ h'.total = h.total + cost a ∧ Row a m h' c' k)
    {l : List α} (hok : ∀ a ∈ l, Ok a) : ∀ (k : Nat) (s : σ) (h : Heap) (c : Cell), R s h →
      h[i]? = some c → m ≤ h.length → c.toShape = sh → k + l.length ≤ sh.nelem →
      h.total + (l.map cost).sum ≤ bound → ∃ s' h' c', run step s (l.zipIdx k) = some s' ∧
        R s' h' ∧ Heap.TableStep i h c h' c' ∧ h'.total = h.total + (l.map cost).sum ∧
        (∀ r, r < k → c'.scal r = c.scal r ∧ c'.ptr r = c.ptr r) ∧
        ∀ j a, l[j]? = some a → Row a m h' c' (k + j) := by
  induction l with
  | nil =>
      intro k s h c hR hc _ _ _ _
      exact ⟨s, h, c, rfl, hR, .refl hc, rfl, fun _ _ => ⟨rfl, rfl⟩, fun j a hj => by cases hj⟩
  | cons a l ih =>
      intro k s h c hR hc hm hsh hk hfit
      rw [List.length_cons] at hk
      rw [List.map_cons, List.sum_cons] at hfit
      obtain ⟨s₁, h₁, c₁, hs₁, hR₁, hstep₁, htot₁, hrow⟩ :=
        hstep s h c a k hR hc hm hsh (by omega) (hok a List.mem_cons_self) (by omega)
      obtain ⟨s', h', c', hs', hR', htable, htot', hold, hrows⟩ :=
        ih (fun a' ha' => hok a' (List.mem_cons_of_mem a ha')) (k + 1) s₁ h₁ c₁ hR₁ hstep₁.cell
          (hm.trans hstep₁.length_le) (hstep₁.shape.trans hsh) (by omega) (by omega)
      refine ⟨s', h', c', ?_, hR', hstep₁.toTableStep.trans htable, ?_, fun r hr => ?_,
        fun j a' hj => ?_⟩
      · rw [List.zipIdx_cons, run_cons_of_eq hs₁, hs']
      · rw [htot', htot₁, List.map_cons, List.sum_cons]
        omega
      · obtain ⟨hscal, hptr⟩ := hold r (by omega)
        exact ⟨hscal.trans (hstep₁.scal r (by omega)), hptr.trans (hstep₁.ptr r (by omega))⟩
      · cases j with
        | zero =>
            -- this element is finished, and what it leads to stays
            rw [List.getElem?_cons_zero, Option.some.injEq] at hj
            subst hj
            obtain ⟨hscal, hptr⟩ := hold k (Nat.lt_succ_self k)
            exact hlocal a m m h₁ h' c₁ c' k (Nat.le_refl m) hrow hscal hptr (htable.keepsFrom him)
        | succ j =>
            have hnext := hrows j a' hj
            rwa [Nat.add_assoc, Nat.add_comm 1 j] at hnext

end Nbuf
