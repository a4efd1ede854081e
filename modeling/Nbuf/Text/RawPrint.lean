import Nbuf.Text.PrintTerminates
import Nbuf.Wire.RoundTrip

set_option autoImplicit false

/-! # What the printer without a schema leaves out

`completeText` is the dump of a heap in the layout of `do_print_notype`: every element with all
its bytes, and every vector of bytes or bits quoted as a whole. The printer writes a text of the
same layout from a buffer that holds the heap. It counts the bytes of a quoted vector in the 16
bits of `ssize`, does not print a vector without elements, and prints one element of the root.
The two texts are compared line by line: no line of the printer is longer than the line it stands
for.
-/

namespace Nbuf

open Outcome Run ByteMem

/-! ## Texts of bounded length -/

section

variable {α β : Type}

/-- Two texts in two parts, when no part of the first is the longer one. -/
theorem append_eq_append_iff_of_length_le {a a' c c' : List α} (ha : a.length ≤ a'.length)
    (hc : c.length ≤ c'.length) : a ++ c = a' ++ c' ↔ a = a' ∧ c = c' := by
  constructor
  · intro heq
    have hlen := congrArg List.length heq
    rw [List.length_append, List.length_append] at hlen
    exact List.append_inj heq (by omega)
  · rintro ⟨rfl, rfl⟩
    rfl

theorem length_flatMap_le {f g : β → List α} {l : List β}
    (h : ∀ x ∈ l, (f x).length ≤ (g x).length) : (l.flatMap f).length ≤ (l.flatMap g).length := by
  induction l with
  | nil => exact Nat.le_refl _
  | cons x l ih =>
      have hx := h x (by simp)
      have hl := ih fun y hy => h y (by simp [hy])
      rw [List.flatMap_cons, List.flatMap_cons, List.length_append, List.length_append]
      omega

/-- Two texts in many parts, when no part of the first is the longer one. -/
theorem flatMap_eq_flatMap_iff_of_length_le {f g : β → List α} {l : List β}
    (h : ∀ x ∈ l, (f x).length ≤ (g x).length) :
    l.flatMap f = l.flatMap g ↔ ∀ x ∈ l, f x = g x := by
  induction l with
  | nil => simp
  | cons x l ih =>
      have hx := h x (by simp)
      have hl : ∀ y ∈ l, (f y).length ≤ (g y).length := fun y hy => h y (by simp [hy])
      rw [List.flatMap_cons, List.flatMap_cons,
        append_eq_append_iff_of_length_le hx (length_flatMap_le hl), ih hl, List.forall_mem_cons]

end

theorem length_dumpchr_pos (c : UInt8) : 0 < (dumpchr c).length := by
  unfold dumpchr
  split_ifs <;> simp [asc]

/-- The dump of a text is made of the dumps of its first bytes and of the others. -/
theorem length_dumpstr_split (s : Text) (n : Nat) :
    (dumpstr s).length = (dumpstr (s.take n)).length + ((s.drop n).flatMap dumpchr).length := by
  have hsplit : s.flatMap dumpchr
      = (s.take n).flatMap dumpchr ++ (s.drop n).flatMap dumpchr := by
    rw [← List.flatMap_append, List.take_append_drop]
  simp only [dumpstr, hsplit, List.length_append]
  omega

theorem length_dumpstr_take_le (s : Text) (n : Nat) :
    (dumpstr (s.take n)).length ≤ (dumpstr s).length := by
  have := length_dumpstr_split s n
  omega

/-- The dump of the first bytes is the dump of the text only when they are all bytes. -/
theorem dumpstr_take_eq_iff (s : Text) (n : Nat) :
    dumpstr (s.take n) = dumpstr s ↔ s.length ≤ n := by
  constructor
  · intro heq
    have hsplit := length_dumpstr_split s n
    rw [heq] at hsplit
    cases hd : s.drop n with
    | nil => exact List.drop_eq_nil_iff.mp hd
    | cons c rest =>
        have hpos := length_dumpchr_pos c
        rw [hd, List.flatMap_cons, List.length_append] at hsplit
        omega
  · intro hle
    rw [List.take_of_length_le hle]

/-! ## The text of a heap -/

/-- A vector of bits or bytes. -/
def Shape.Flat (sh : Shape) : Prop := sh.ssize ≤ 1 ∧ sh.psize = 0

instance (sh : Shape) : Decidable sh.Flat := inferInstanceAs (Decidable (_ ∧ _))

/-- The scalar bytes of a row. -/
def Cell.rowData (c : Cell) (row : Nat) : Text := (List.range c.width).map (c.scal row)

/-- All bytes of a vector of bits or bytes. -/
def Cell.flatData (c : Cell) : Text := (List.range c.rows).map fun row => c.scal row 0

/-- One line (or, with a negative indentation step, one item) of a print. -/
def printLine (indentInc indent : Int) (label value : Text) : Text :=
  doIndent indent ++ label ++ asc ": " ++ value ++ [newline indentInc]

/-- What stands for an object in braces. -/
def braces (indentInc indent : Int) (body : Text) : Text :=
  asc "\x7b" ++ [newline indentInc] ++ body ++ doIndent indent ++ asc "\x7d"

/-- The lines for pointer `x` that leads to the object `ct`: a vector of bits or bytes shows the
texts `vec` has for it, any other object has a line for each element, whose pointers `inner`
prints. -/
def slotText (vec : Cell → List Text) (indentInc indent : Int) (x : Nat) (ct : Cell)
    (inner : Nat → Text) : Text :=
  if ct.Flat then
    (vec ct).flatMap fun s => printLine indentInc indent (decimal (x + 1)) (dumpstr s)
  else
    (List.range ct.rows).flatMap fun j =>
      printLine indentInc indent (decimal (x + 1))
        (if ct.psize = 0 then dumpstr (ct.rowData j) else braces indentInc indent (inner j))

/-- The text of row `row` of object `i`: its scalar bytes as field `0`, and what its pointers lead
to. Pointers of a heap lead to later objects. -/
def Heap.rowText (h : Heap) (vec : Cell → List Text) (indentInc indent : Int) (i row : Nat) :
    Text :=
  match h[i]? with
  | none => []
  | some c =>
      (if c.width > 0 then printLine indentInc indent (asc "0") (dumpstr (c.rowData row)) else [])
        ++ (List.range c.psize).flatMap fun x =>
          match c.ptr row x with
          | none => []
          | some t =>
              if ht : i < t ∧ t < h.length then
                slotText vec indentInc indent x h[t] fun j =>
                  h.rowText vec indentInc (indent + indentInc) t j
              else []
termination_by h.length - i
decreasing_by omega

/-- The lines for pointer `x` of a row of object `i`. -/
def Heap.ptrText (h : Heap) (vec : Cell → List Text) (indentInc indent : Int) (i x : Nat) :
    Option Nat → Text
  | none => []
  | some t =>
      if ht : i < t ∧ t < h.length then
        slotText vec indentInc indent x h[t] fun j =>
          h.rowText vec indentInc (indent + indentInc) t j
      else []

theorem Heap.rowText_eq {h : Heap} {i : Nat} {c : Cell} (hc : h[i]? = some c)
    (vec : Cell → List Text) (indentInc indent : Int) (row : Nat) :
    h.rowText vec indentInc indent i row
      = (if c.width > 0 then printLine indentInc indent (asc "0") (dumpstr (c.rowData row)) else [])
        ++ (List.range c.psize).flatMap fun x =>
          h.ptrText vec indentInc indent i x (c.ptr row x) := by
  rw [Heap.rowText, hc]
  rfl

theorem Heap.ptrText_some {h : Heap} {i t : Nat} {ct : Cell} (hit : i < t) (hct : h[t]? = some ct)
    (vec : Cell → List Text) (indentInc indent : Int) (x : Nat) :
    h.ptrText vec indentInc indent i x (some t) = slotText vec indentInc indent x ct fun j =>
      h.rowText vec indentInc (indent + indentInc) t j := by
  obtain ⟨ht, rfl⟩ := List.getElem?_eq_some_iff.mp hct
  exact dif_pos ⟨hit, ht⟩

/-- A vector of bits or bytes is shown as a whole, whatever its length is. -/
def Cell.whole (c : Cell) : List Text := [c.flatData]

/-- **The complete dump** of a heap: every row of the root, with everything it leads to. -/
def Heap.completeText (h : Heap) (indentInc : Int) : Text :=
  (List.range ((h[0]?.map fun c => c.rows).getD 0)).flatMap
    fun row => h.rowText Cell.whole indentInc 0 0 row

/-! ## The text of the printer -/

/-- What the printer shows of a vector of bits or bytes: nothing of one without elements, else as
many bytes as the 16 bits of `ssize` count. -/
def Cell.cut (c : Cell) : List Text :=
  if c.nelem = 0 then [] else [c.flatData.take (c.rows % 2 ^ 16)]

/-- Is a vector of bits or bytes shown as a whole? -/
def Cell.Fits (c : Cell) : Prop := 0 < c.nelem ∧ c.rows < 2 ^ 16

instance (c : Cell) : Decidable c.Fits := inferInstanceAs (Decidable (_ ∧ _))

/-- Object `t` is reached from row `row` of object `i`. -/
inductive Heap.Under (h : Heap) : Nat → Nat → Nat → Prop where
  | ptr {i row x t : Nat} {c : Cell} (hc : h[i]? = some c) (hx : x < c.psize)
      (hp : c.ptr row x = some t) : h.Under i row t
  | next {i row x u j t : Nat} {c cu : Cell} (hc : h[i]? = some c) (hx : x < c.psize)
      (hp : c.ptr row x = some u) (hcu : h[u]? = some cu) (hj : j < cu.rows)
      (hu : h.Under u j t) : h.Under i row t

/-- Every vector of bits or bytes reached from a row is shown as a whole. -/
def Heap.AllFit (h : Heap) (i row : Nat) : Prop :=
  ∀ t ct, h.Under i row t → h[t]? = some ct → ct.Flat → ct.Fits

/-- What is reached from a row: what its pointers lead to, and what is reached from there. -/
theorem Heap.allFit_iff {h : Heap} {i : Nat} {c : Cell} (hc : h[i]? = some c) (row : Nat) :
    h.AllFit i row ↔ ∀ x, x < c.psize → ∀ t ct, c.ptr row x = some t → h[t]? = some ct →
      (ct.Flat → ct.Fits) ∧ ∀ j, j < ct.rows → h.AllFit t j := by
  constructor
  · intro hall x hx t ct hp hct
    exact ⟨hall t ct (.ptr hc hx hp) hct, fun j hj u cu hu => hall u cu (.next hc hx hp hct hj hu)⟩
  · intro hall t ct hu hct hflat
    cases hu with
    | ptr hc' hx hp =>
        cases hc.symm.trans hc'
        exact (hall _ hx _ ct hp hct).1 hflat
    | next hc' hx hp hcu hj hu =>
        cases hc.symm.trans hc'
        exact (hall _ hx _ _ hp hcu).2 _ hj t ct hu hct hflat

/-- Nothing is reached from an object without pointers. -/
theorem Heap.allFit_of_psize {h : Heap} {i : Nat} {c : Cell} (hc : h[i]? = some c)
    (hp : c.psize = 0) (row : Nat) : h.AllFit i row :=
  (h.allFit_iff hc row).mpr fun x hx => absurd hx (by omega)

/-! ## Comparing the two texts -/

section

variable {indentInc indent : Int}

theorem length_printLine (label value : Text) : (printLine indentInc indent label value).length
    = (doIndent indent).length + label.length + 2 + value.length + 1 := by
  simp only [printLine, List.length_append, List.length_cons, List.length_nil, asc]
  rfl

theorem printLine_inj {label value value' : Text} :
    printLine indentInc indent label value = printLine indentInc indent label value' ↔
      value = value' := by
  simp [printLine]

theorem length_braces (body : Text) :
    (braces indentInc indent body).length = body.length + (doIndent indent).length + 3 := by
  simp only [braces, List.length_append, List.length_cons, List.length_nil, asc]
  have hopen : "\x7b".toList.length = 1 := rfl
  have hclose : "\x7d".toList.length = 1 := rfl
  simp only [List.length_map, hopen, hclose]
  omega

theorem braces_inj {body body' : Text} :
    braces indentInc indent body = braces indentInc indent body' ↔ body = body' := by
  simp [braces]

theorem Cell.length_flatData (c : Cell) : c.flatData.length = c.rows := by
  simp [Cell.flatData]

/-- The lines of a vector of bits or bytes. -/
theorem length_cut_le (label : Text) (ct : Cell) :
    (ct.cut.flatMap fun s => printLine indentInc indent label (dumpstr s)).length
      ≤ (ct.whole.flatMap fun s => printLine indentInc indent label (dumpstr s)).length := by
  rw [Cell.cut, Cell.whole]
  split_ifs with h0
  · exact Nat.zero_le _
  · have hle := length_dumpstr_take_le ct.flatData (ct.rows % 2 ^ 16)
    simp only [List.flatMap_cons, List.flatMap_nil, List.append_nil, length_printLine]
    omega

theorem cut_eq_whole_iff (label : Text) (ct : Cell) :
    (ct.cut.flatMap fun s => printLine indentInc indent label (dumpstr s))
      = (ct.whole.flatMap fun s => printLine indentInc indent label (dumpstr s)) ↔ ct.Fits := by
  rw [Cell.cut, Cell.whole, Cell.Fits]
  by_cases h0 : ct.nelem = 0
  · rw [if_pos h0]
    constructor
    · intro heq
      have hlen := congrArg List.length heq
      simp only [List.flatMap_cons, List.flatMap_nil, List.append_nil, length_printLine,
        List.length_nil] at hlen
      omega
    · rintro ⟨hpos, -⟩
      omega
  · rw [if_neg h0]
    simp only [List.flatMap_cons, List.flatMap_nil, List.append_nil, printLine_inj]
    rw [dumpstr_take_eq_iff, ct.length_flatData]
    omega

/-- The lines for one pointer, when what the recursive calls print is no longer than it should
be. -/
theorem length_slotText_le (x : Nat) (ct : Cell) {inner inner' : Nat → Text}
    (h : ∀ j, j < ct.rows → (inner j).length ≤ (inner' j).length) :
    (slotText Cell.cut indentInc indent x ct inner).length
      ≤ (slotText Cell.whole indentInc indent x ct inner').length := by
  rw [slotText, slotText]
  split_ifs with hflat hp
  · exact length_cut_le _ ct
  · exact Nat.le_refl _
  · refine length_flatMap_le fun j hj => ?_
    have hle := h j (List.mem_range.mp hj)
    rw [length_printLine, length_printLine, length_braces, length_braces]
    omega

theorem slotText_eq_iff (x : Nat) (ct : Cell) {inner inner' : Nat → Text}
    (h : ∀ j, j < ct.rows → (inner j).length ≤ (inner' j).length) :
    slotText Cell.cut indentInc indent x ct inner
        = slotText Cell.whole indentInc indent x ct inner' ↔
      (ct.Flat → ct.Fits) ∧ (ct.psize ≠ 0 → ∀ j, j < ct.rows → inner j = inner' j) := by
  rw [slotText, slotText]
  by_cases hflat : ct.Flat
  · have hp : ct.psize = 0 := hflat.2
    rw [if_pos hflat, if_pos hflat, cut_eq_whole_iff]
    exact ⟨fun hfits => ⟨fun _ => hfits, fun hne => absurd hp hne⟩, fun hboth => hboth.1 hflat⟩
  · rw [if_neg hflat, if_neg hflat]
    by_cases hp : ct.psize = 0
    · simp only [if_pos hp]
      exact ⟨fun _ => ⟨fun hf => absurd hf hflat, fun hne => absurd hp hne⟩, fun _ => trivial⟩
    · simp only [if_neg hp]
      rw [flatMap_eq_flatMap_iff_of_length_le]
      · simp only [List.mem_range, printLine_inj, braces_inj]
        exact ⟨fun heq => ⟨fun hf => absurd hf hflat, fun _ => heq⟩, fun hboth => hboth.2 hp⟩
      · intro j hj
        have hle := h j (List.mem_range.mp hj)
        rw [length_printLine, length_printLine, length_braces, length_braces]
        omega

/-- **The text of the printer against the complete text** of a row: it is no longer, and it is the
complete text exactly when everything it quotes fits. The induction is on the number of objects
behind the row's own. -/
theorem Heap.rowText_cut {h : Heap} (hfwd : h.Forward) : ∀ (n i : Nat) (c : Cell),
    h.length - i ≤ n → h[i]? = some c → ∀ (indent : Int) (row : Nat), row < c.rows →
      (h.rowText Cell.cut indentInc indent i row).length
          ≤ (h.rowText Cell.whole indentInc indent i row).length ∧
        (h.rowText Cell.cut indentInc indent i row = h.rowText Cell.whole indentInc indent i row ↔
          h.AllFit i row) := by
  intro n
  induction n with
  | zero =>
      intro i c hn hc
      have := (List.getElem?_eq_some_iff.mp hc).1
      omega
  | succ n ih =>
      intro i c hn hc indent row hrow
      have hptr : ∀ x, x < c.psize →
          (h.ptrText Cell.cut indentInc indent i x (c.ptr row x)).length
              ≤ (h.ptrText Cell.whole indentInc indent i x (c.ptr row x)).length ∧
            (h.ptrText Cell.cut indentInc indent i x (c.ptr row x)
                = h.ptrText Cell.whole indentInc indent i x (c.ptr row x) ↔
              ∀ t ct, c.ptr row x = some t → h[t]? = some ct →
                (ct.Flat → ct.Fits) ∧ ∀ j, j < ct.rows → h.AllFit t j) := by
        intro x hx
        cases hp : c.ptr row x with
        | none => exact ⟨Nat.le_refl _, fun _ t ct ht => (by cases ht), fun _ => rfl⟩
        | some t =>
            obtain ⟨hit, ht⟩ := hfwd i c hc row hrow x hx t hp
            have hct : h[t]? = some h[t] := List.getElem?_eq_getElem ht
            have hinner := fun j (hj : j < h[t].rows) =>
              ih t h[t] (by omega) hct (indent + indentInc) j hj
            rw [Heap.ptrText_some hit hct, Heap.ptrText_some hit hct,
              slotText_eq_iff x h[t] fun j hj => (hinner j hj).1]
            refine ⟨length_slotText_le x h[t] fun j hj => (hinner j hj).1, ?_, ?_⟩
            · rintro ⟨hflat, hrec⟩ t' ct ht' hct'
              cases ht'
              cases hct.symm.trans hct'
              refine ⟨hflat, fun j hj => ?_⟩
              by_cases hps : h[t].psize = 0
              · exact h.allFit_of_psize hct hps j
              · exact (hinner j hj).2.mp (hrec hps j hj)
            · intro hall
              obtain ⟨hflat, hrec⟩ := hall t h[t] rfl hct
              exact ⟨hflat, fun _ j hj => (hinner j hj).2.mpr (hrec j hj)⟩
      have hle : ∀ x ∈ List.range c.psize, _ := fun x hx => (hptr x (List.mem_range.mp hx)).1
      rw [h.rowText_eq hc, h.rowText_eq hc, h.allFit_iff hc, List.length_append,
        List.length_append, List.append_cancel_left_eq, flatMap_eq_flatMap_iff_of_length_le hle]
      refine ⟨Nat.add_le_add_left (length_flatMap_le hle) _, ?_⟩
      constructor
      · exact fun heq x hx => (hptr x hx).2.mp (heq x (List.mem_range.mpr hx))
      · exact fun hall x hx => (hptr x (List.mem_range.mp hx)).2.mpr (hall x (List.mem_range.mp hx))

end

/-! ## The printer over a represented heap -/

/-- A loop over the elements of `rr`, all of which are in the buffer. -/
theorem elemLoop_done {b : Buffer} {body : Obj → Outcome Text} {g : Nat → Text} {rr : Obj}
    (hlen : b.len < 2 ^ 63) (hfit : rr.base + rr.nelem * rr.elemsz ≤ b.len)
    (hbody : ∀ j oo, ElemOf rr oo j → j < rr.nelem → body oo = done (g j)) :
    elemLoop b body rr.nelem rr = done ((List.range rr.nelem).flatMap g) := by
  have hgo : ∀ n j oo, ElemOf rr oo j → j + n = rr.nelem →
      elemLoop b body n oo = done ((List.range' j n).flatMap g) := by
    intro n
    induction n with
    | zero => intro j oo _ _; rfl
    | succ n ih =>
        intro j oo hoo hj
        have hmul : (j + 1) * rr.elemsz ≤ rr.nelem * rr.elemsz :=
          Nat.mul_le_mul_right _ (by omega)
        rw [Nat.succ_mul] at hmul
        have hsz := rr.elemsz_eq
        have hchk : boundsCheck b oo.base oo.ssize = true := by
          have hs := oo.ssize_lt
          refine (boundsCheck_of_len_lt hlen (by omega)).mpr ?_
          rw [hoo.1, hoo.2.1]
          omega
        rw [elemLoop, hchk, if_neg (by decide), hbody j oo hoo (by omega),
          ih (j + 1) oo.next (next_elemOf hoo (by omega) (by omega)) (by omega), List.range'_succ,
          List.flatMap_cons]
        rfl
  rw [hgo rr.nelem 0 rr (ElemOf.zero rr) (by omega), List.range_eq_range']

section

variable {h : Heap} {b : Buffer} {i : Nat} {c : Cell}

/-- The scalar bytes of a row, read back. -/
theorem Heap.Holds.readRow (hb : h.Holds b) (hc : h[i]? = some c) {row : Nat} (hrow : row < c.rows)
    : readBytes b (c.rowPos (h.offs i) row) c.width = some (c.rowData row) := by
  have hin := c.rowPos_inside (h.offs i) hrow
  have hst := c.stride_eq
  have hle := c.le_blockSize
  have hend := hb.block_le hc
  have hext := len_le_extent b
  rw [readBytes, assertC_pos (by omega)]
  refine congrArg some (List.map_congr_left fun j hj => ?_)
  exact (hb.rep i c hc).scal row hrow j (List.mem_range.mp hj)

theorem Shape.Flat.width_eq {sh : Shape} (hflat : sh.Flat) : sh.width = 1 := by
  have hs := hflat.1
  rw [sh.width_eq]
  split_ifs with h0
  · rfl
  · have := hflat.2
    omega

theorem Shape.Flat.stride_eq {sh : Shape} (hflat : sh.Flat) : sh.stride = 1 := by
  rw [sh.stride_eq, hflat.width_eq, hflat.2]

/-- The first bytes of a vector of bits or bytes, read back. -/
theorem Heap.Holds.readFlat (hb : h.Holds b) (hc : h[i]? = some c) (hflat : c.Flat) {n : Nat}
    (hn : n ≤ c.rows) : readBytes b (h.offs i + 8) n = some (c.flatData.take n) := by
  have hst := hflat.stride_eq
  have hbody : c.bodySize = c.rows := by rw [Shape.bodySize, hst, Nat.mul_one]
  have hle := c.le_blockSize
  have hend := hb.block_le hc
  have hext := len_le_extent b
  rw [readBytes, assertC_pos (by omega), Cell.flatData, ← List.map_take, List.take_range,
    Nat.min_eq_left hn]
  refine congrArg some (List.map_congr_left fun j hj => ?_)
  have hj := List.mem_range.mp hj
  have hbyte := (hb.rep i c hc).scal j (by omega) 0 (by rw [hflat.width_eq]; exact Nat.one_pos)
  rwa [c.rowPos_eq, hst, Nat.mul_one, Nat.add_zero] at hbyte

/-- An element of an object as the loop of the printer has it. -/
theorem Heap.Holds.elem_same (hb : h.Holds b) (hc : h[i]? = some c)
    (hne : ¬ (c.ssize = 0 ∧ c.psize = 0)) {oo : Obj} {j : Nat} (hoo : ElemOf (h.handle i c) oo j)
    (hj : j < c.nelem) : oo.Same (Nbuf.getElem (h.handle i c) j) := by
  have h0 : (h.handle i c).elemsz ≠ 0 := fun h0 => hne ((h.handle i c).elemsz_eq_zero_iff.mp h0)
  have hrows := hb.rows_le hc
  have hlt := hb.len_lt
  refine ⟨?_, ?_, ?_⟩
  · rw [getElem_base hj (by omega), hoo.1, Obj.stride_eq h0, Obj.row, if_neg h0]
  · rw [getElem_ssize hj, Obj.width, if_neg h0, hoo.2.1]
  · rw [getElem_psize hj, hoo.2.2]

/-- The printer on the elements of an object that is not a vector of bits or bytes. -/
theorem Heap.Holds.printElems (hb : h.Holds b) (hc : h[i]? = some c) (hflat : ¬ c.Flat)
    {indentInc indent : Int} {label : Text} {inner : Obj → Outcome Text} {text : Nat → Text}
    (hinner : c.psize ≠ 0 → ∀ j oo, j < c.nelem → oo.Same (Nbuf.getElem (h.handle i c) j) →
      inner oo = done (text j)) :
    elemLoop b (fun oo => do
        let value ← rawValue b (newline indentInc) inner indent oo
        pure (doIndent indent ++ label ++ asc ": " ++ value ++ [newline indentInc]))
      (asOneElement (h.handle i c)).nelem (asOneElement (h.handle i c))
      = done ((List.range c.rows).flatMap fun j => printLine indentInc indent label
        (if c.psize = 0 then dumpstr (c.rowData j) else braces indentInc indent (text j))) := by
  have hone : asOneElement (h.handle i c) = h.handle i c :=
    if_neg fun hf => hflat ⟨hf.1, hf.2.1⟩
  have hne : ¬ (c.ssize = 0 ∧ c.psize = 0) := fun h0 => hflat ⟨by omega, h0.2⟩
  have hrows : c.rows = c.nelem := by rw [c.rows_eq, if_neg hne]
  have hwidth : c.width = c.ssize := by rw [c.width_eq, if_neg hne]
  have hstride : (h.handle i c).elemsz = c.stride := by
    rw [c.stride_eq, hwidth]
    exact c.obj_elemsz _
  have hend := hb.block_le hc
  have hle := c.le_blockSize
  rw [hone, hrows]
  refine @elemLoop_done _ _ _ (h.handle i c) hb.len_lt ?_ fun j oo hoo hj => ?_
  · rw [hstride]
    have hbody : c.bodySize = c.nelem * c.stride := by rw [Shape.bodySize, hrows]
    show h.offs i + 8 + c.nelem * c.stride ≤ b.len
    omega
  · rw [rawValue]
    have hrow : j < c.rows := hrows ▸ hj
    have hps : oo.psize = c.psize := hoo.2.2
    have hss : oo.ssize = c.width := hoo.2.1.trans hwidth.symm
    by_cases hp : c.psize = 0
    · have hbase : oo.base = c.rowPos (h.offs i) j := by
        rw [hoo.1, hstride, c.rowPos_eq]
        rfl
      rw [if_pos (hps.trans hp), hbase, hss, hb.readRow hc hrow]
      simp only [ofOption_some, done_bind, pure_eq, if_pos hp]
      rfl
    · rw [if_neg (fun h0 => hp (hps.symm.trans h0)),
        hinner hp j oo hj (hb.elem_same hc hne hoo hj)]
      simp only [done_bind, pure_eq, if_neg hp]
      rfl

/-- The printer on a vector of bits or bytes, which it takes for one element. -/
theorem Heap.Holds.printFlat (hb : h.Holds b) (hc : h[i]? = some c) (hflat : c.Flat)
    {indentInc indent : Int} {label : Text} (inner : Obj → Outcome Text) :
    elemLoop b (fun oo => do
        let value ← rawValue b (newline indentInc) inner indent oo
        pure (doIndent indent ++ label ++ asc ": " ++ value ++ [newline indentInc]))
      (asOneElement (h.handle i c)).nelem (asOneElement (h.handle i c))
      = done (c.cut.flatMap fun s => printLine indentInc indent label (dumpstr s)) := by
  by_cases h0 : c.nelem = 0
  · have hone : asOneElement (h.handle i c) = h.handle i c :=
      if_neg fun hf => by have := hf.2.2; rw [Heap.handle_nelem] at this; omega
    rw [hone, Cell.cut, if_pos h0, Heap.handle_nelem, h0]
    rfl
  · have hrows : (if c.ssize = 0 then bitBytes c.nelem else c.nelem) = c.rows := by
      rw [c.rows_eq]
      by_cases hs : c.ssize = 0
      · rw [if_pos hs, if_pos ⟨hs, hflat.2⟩, bitBytes_eq (c.bits_lt hs hflat.2)]
      · rw [if_neg hs, if_neg fun hz => hs hz.1]
    have hone : asOneElement (h.handle i c) = Obj.ofFields (h.offs i + 8) 1 c.rows 0 := by
      have hpos : (h.handle i c).nelem > 0 := Nat.pos_of_ne_zero h0
      rw [asOneElement, if_pos ⟨hflat.1, hflat.2, hpos⟩, Heap.handle_psize, hflat.2,
        Heap.handle_ssize, Heap.handle_nelem, hrows]
      rfl
    have hle := c.le_blockSize
    have hend := hb.block_le hc
    have hbody : c.bodySize = c.rows := by rw [Shape.bodySize, hflat.stride_eq, Nat.mul_one]
    have hmod := Nat.mod_le c.rows (2 ^ 16)
    rw [hone]
    refine (elemLoop_done (g := fun _ => printLine indentInc indent label
      (dumpstr (c.flatData.take (c.rows % 2 ^ 16)))) hb.len_lt ?_ ?_).trans ?_
    · rw [Obj.elemsz_eq]
      show h.offs i + 8 + 1 * (c.rows % 2 ^ 16 + 0 * 4) ≤ b.len
      omega
    · intro j oo hoo hj
      have hj0 : j = 0 := by
        have hj' : j < 1 := hj
        omega
      have hbase : oo.base = h.offs i + 8 := by
        rw [hoo.1, hj0, Nat.zero_mul]
        rfl
      have hps : oo.psize = 0 := hoo.2.2
      have hss : oo.ssize = c.rows % 2 ^ 16 := hoo.2.1
      rw [rawValue, if_pos hps, hbase, hss, hb.readFlat hc hflat hmod]
      rfl
    · rw [Cell.cut, if_neg h0]
      rfl

/-- **The printer without a schema** writes the text of the row, from an element of an object that
is neither a vector of bits nor empty. -/
theorem Heap.Holds.doPrintNotype (hb : h.Holds b) (hnear : h.Near) (indentInc : Int) :
    ∀ (fuel i : Nat) (c : Cell), h[i]? = some c → h.length ≤ i + fuel → ∀ (k : Nat) (indent : Int)
      (o : Obj), k < c.nelem → o.Same (Nbuf.getElem (h.handle i c) k) →
      Nbuf.doPrintNotype b indentInc fuel indent o
        = done (h.rowText Cell.cut indentInc indent i (c.row k)) := by
  intro fuel
  induction fuel with
  | zero =>
      intro i c hc hfuel
      have := (List.getElem?_eq_some_iff.mp hc).1
      omega
  | succ fuel ih =>
      intro i c hc hfuel k indent o hk hsame
      have hrow := Shape.row_lt_rows hk
      have hrows := hb.rows_le hc
      have hlt := hb.len_lt
      have hss : o.ssize = c.width := hsame.ssize.trans (getElem_ssize hk)
      have hps : o.psize = c.psize := hsame.psize.trans (getElem_psize hk)
      have hbase : o.base = c.rowPos (h.offs i) (c.row k) :=
        hsame.base.trans (getElem_base hk (by omega))
      have hscal : rawScalars b (newline indentInc) indent o
          = done (if c.width > 0 then
              printLine indentInc indent (asc "0") (dumpstr (c.rowData (c.row k))) else []) := by
        have hlabel : asc "0: " = asc "0" ++ asc ": " := rfl
        rw [rawScalars, hbase, hss, hb.readRow hc hrow, printLine, hlabel]
        split_ifs
        · simp only [ofOption_some, done_bind, pure_eq, List.append_assoc]
        · rfl
      have hslots : concat (rawSlot b (newline indentInc)
            (Nbuf.doPrintNotype b indentInc fuel (indent + indentInc)) indent o)
          (List.range o.psize)
          = done ((List.range c.psize).flatMap fun x =>
              h.ptrText Cell.cut indentInc indent i x (c.ptr (c.row k) x)) := by
        rw [hps]
        refine concat_done fun x hx => ?_
        have hx := List.mem_range.mp hx
        rw [rawSlot, hsame.getPtr, hb.getPtr hc hk hx (hnear i c hc _ hrow x hx), ofOption_some,
          done_bind]
        cases hp : c.ptr (c.row k) x with
        | none => rfl
        | some t =>
            obtain ⟨hit, ht⟩ := hb.forward i c hc _ hrow x hx t hp
            have hct : h[t]? = some h[t] := List.getElem?_eq_getElem ht
            rw [Heap.target_some hct, Heap.ptrText_some hit hct, slotText]
            by_cases hflat : h[t].Flat
            · rw [if_pos hflat]
              exact hb.printFlat hct hflat _
            · rw [if_neg hflat]
              refine hb.printElems hct hflat fun hne j oo hj hoo => ?_
              have hj' : h[t].row j = j := h[t].row_eq (fun h0 => hne h0.2) j
              rw [ih t h[t] hct (by omega) j _ oo hj hoo, hj']
      rw [Nbuf.doPrintNotype]
      simp only [hscal, hslots, done_bind, pure_eq]
      rw [h.rowText_eq hc]

end

/-! ## When the dump is complete -/

/-- A row without scalar bytes whose pointers lead to nothing that has an element or is quoted. -/
def Heap.Silent (h : Heap) (c : Cell) (row : Nat) : Prop :=
  c.width = 0 ∧ ∀ x, x < c.psize → ∀ t ct, c.ptr row x = some t → h[t]? = some ct →
    ¬ ct.Flat ∧ ct.nelem = 0

/-- Nothing of the heap is left out: the root is no vector of bits, all its rows but the first are
silent, and every vector of bits or bytes that its first row leads to fits. -/
def Heap.Shown (h : Heap) : Prop :=
  ∀ c, h[0]? = some c → ¬ (c.ssize = 0 ∧ c.psize = 0) ∧
    (∀ row, 1 ≤ row → row < c.rows → h.Silent c row) ∧ h.AllFit 0 0

theorem printLine_ne_nil (indentInc indent : Int) (label value : Text) :
    printLine indentInc indent label value ≠ [] := by
  intro hnil
  have hlen := @length_printLine indentInc indent label value
  rw [hnil, List.length_nil] at hlen
  omega

/-- In a complete text only an object without elements has no line. -/
theorem slotText_whole_eq_nil_iff (indentInc indent : Int) (x : Nat) (ct : Cell)
    (inner : Nat → Text) :
    slotText Cell.whole indentInc indent x ct inner = [] ↔ ¬ ct.Flat ∧ ct.nelem = 0 := by
  rw [slotText]
  by_cases hflat : ct.Flat
  · rw [if_pos hflat]
    simp only [Cell.whole, List.flatMap_cons, List.flatMap_nil, List.append_nil]
    exact ⟨fun hnil => absurd hnil (printLine_ne_nil _ _ _ _), fun hboth => absurd hflat hboth.1⟩
  · have hrows : ct.rows = ct.nelem := by
      rw [ct.rows_eq, if_neg fun h0 => hflat ⟨by omega, h0.2⟩]
    rw [if_neg hflat, List.flatMap_eq_nil_iff, hrows]
    constructor
    · intro hnil
      refine ⟨hflat, ?_⟩
      by_contra hne
      exact printLine_ne_nil _ _ _ _ (hnil 0 (List.mem_range.mpr (Nat.pos_of_ne_zero hne)))
    · rintro ⟨-, h0⟩ j hj
      have := List.mem_range.mp hj
      omega

theorem Heap.rowText_whole_eq_nil_iff {h : Heap} (hfwd : h.Forward) {i : Nat} {c : Cell}
    (hc : h[i]? = some c) {row : Nat} (hrow : row < c.rows) (indentInc indent : Int) :
    h.rowText Cell.whole indentInc indent i row = [] ↔ h.Silent c row := by
  rw [h.rowText_eq hc, List.append_eq_nil_iff, List.flatMap_eq_nil_iff, Heap.Silent]
  refine and_congr ?_ ?_
  · by_cases hw : c.width = 0
    · simp [hw]
    · rw [if_pos (Nat.pos_of_ne_zero hw)]
      exact ⟨fun hnil => absurd hnil (printLine_ne_nil _ _ _ _), fun h0 => absurd h0 hw⟩
  · have hptr : ∀ x, x < c.psize →
        (h.ptrText Cell.whole indentInc indent i x (c.ptr row x) = [] ↔
          ∀ t ct, c.ptr row x = some t → h[t]? = some ct → ¬ ct.Flat ∧ ct.nelem = 0) := by
      intro x hx
      cases hp : c.ptr row x with
      | none => exact ⟨fun _ t ct ht => (by cases ht), fun _ => rfl⟩
      | some t =>
          obtain ⟨hit, ht⟩ := hfwd i c hc row hrow x hx t hp
          have hct : h[t]? = some h[t] := List.getElem?_eq_getElem ht
          rw [Heap.ptrText_some hit hct, slotText_whole_eq_nil_iff]
          constructor
          · intro hboth t' ct ht' hct'
            cases ht'
            cases hct.symm.trans hct'
            exact hboth
          · exact fun hall => hall t h[t] rfl hct
    constructor
    · exact fun hall x hx => (hptr x hx).mp (hall x (List.mem_range.mpr hx))
    · exact fun hall x hx => (hptr x (List.mem_range.mp hx)).mpr (hall x (List.mem_range.mp hx))

/-- The text of the printer for a heap: the first element of the root, nothing of a vector of
bits. -/
def Heap.printedText (h : Heap) (c : Cell) (indentInc : Int) : Text :=
  if c.ssize = 0 ∧ c.psize = 0 then [] else h.rowText Cell.cut indentInc 0 0 0

theorem Heap.Holds.rawPrint {h : Heap} {b : Buffer} (hb : h.Holds b) (hnear : h.Near) {c : Cell}
    (hc : h[0]? = some c) (hn : 0 < c.nelem) (indentInc : Int) {fuel : Nat}
    (hfuel : h.length ≤ fuel) :
    Nbuf.rawPrint b fuel (h.handle 0 c) indentInc = done (h.printedText c indentInc) := by
  rw [Nbuf.rawPrint, Heap.printedText]
  have hlt := hb.len_lt
  have hrows := hb.rows_le hc
  split_ifs with h0
  · -- a vector of bits has neither scalar bytes nor pointers to print
    have hpos := (List.getElem?_eq_some_iff.mp hc).1
    obtain ⟨fuel, rfl⟩ : ∃ n, fuel = n + 1 := ⟨fuel - 1, by omega⟩
    have hss : (h.handle 0 c).ssize = 0 := h0.1
    have hps : (h.handle 0 c).psize = 0 := h0.2
    rw [Nbuf.doPrintNotype, rawScalars, hss, hps]
    rfl
  · have hsame := hb.elem_same hc h0 (ElemOf.zero _) hn
    rw [hb.doPrintNotype hnear indentInc fuel 0 c hc (by omega) 0 0 _ hn hsame, c.row_eq h0]

theorem Heap.printedText_eq_iff {h : Heap} (hfwd : h.Forward) {c : Cell} (hc : h[0]? = some c)
    (hn : 0 < c.nelem) (indentInc : Int) :
    h.printedText c indentInc = h.completeText indentInc ↔ h.Shown := by
  have hshown : h.Shown ↔ ¬ (c.ssize = 0 ∧ c.psize = 0) ∧
      (∀ row, 1 ≤ row → row < c.rows → h.Silent c row) ∧ h.AllFit 0 0 := by
    refine ⟨fun hall => hall c hc, fun hall c' hc' => ?_⟩
    cases hc.symm.trans hc'
    exact hall
  have hpos : 0 < c.rows := by
    rw [c.rows_eq]
    split_ifs <;> omega
  obtain ⟨m, hm⟩ : ∃ m, c.rows = m + 1 := ⟨c.rows - 1, by omega⟩
  have hcomplete : h.completeText indentInc = h.rowText Cell.whole indentInc 0 0 0 ++
      (List.range m).flatMap fun row => h.rowText Cell.whole indentInc 0 0 (row + 1) := by
    rw [Heap.completeText, hc]
    show (List.range c.rows).flatMap _ = _
    rw [hm, List.range_succ_eq_map, List.flatMap_cons, List.flatMap_map]
  rw [hshown, hcomplete, Heap.printedText]
  by_cases h0 : c.ssize = 0 ∧ c.psize = 0
  · have hwidth : c.width ≠ 0 := by
      rw [c.width_eq, if_pos h0]
      decide
    rw [if_pos h0]
    refine ⟨fun heq => ?_, fun hall => absurd h0 hall.1⟩
    have hnil := (List.append_eq_nil_iff.mp heq.symm).1
    exact absurd ((h.rowText_whole_eq_nil_iff hfwd hc hpos _ _).mp hnil).1 hwidth
  · obtain ⟨hle, hiff⟩ := @Heap.rowText_cut indentInc h hfwd h.length 0 c (by omega) hc 0 0 hpos
    have hrest : ([] : Text).length ≤ ((List.range m).flatMap fun row =>
      h.rowText Cell.whole indentInc 0 0 (row + 1)).length := Nat.zero_le _
    rw [if_neg h0]
    conv_lhs => lhs; rw [← List.append_nil (h.rowText Cell.cut indentInc 0 0 0)]
    rw [append_eq_append_iff_of_length_le hle hrest, hiff, eq_comm (a := []),
      List.flatMap_eq_nil_iff]
    constructor
    · rintro ⟨hall, hnil⟩
      refine ⟨h0, fun row h1 hrow => ?_, hall⟩
      have := hnil (row - 1) (List.mem_range.mpr (by omega))
      rw [Nat.sub_add_cancel h1] at this
      exact (h.rowText_whole_eq_nil_iff hfwd hc hrow _ _).mp this
    · rintro ⟨-, hsilent, hall⟩
      refine ⟨hall, fun row hrow => ?_⟩
      have hrow := List.mem_range.mp hrow
      exact (h.rowText_whole_eq_nil_iff hfwd hc (by omega) _ _).mpr
        (hsilent (row + 1) (by omega) (by omega))

/-- **Raw print.** For every buffer that holds a heap, as the plain writer leaves it, with an
element in the root, the printer without a schema ends. What it prints is the complete dump if and
only if the root is no vector of bits and has nothing to show behind its first element, and every
vector of bits or bytes reached from there is not empty and shorter than `2 ^ 16` bytes. -/
theorem raw_print_complete_iff {h : Heap} {b : Buffer} (hb : h.Holds b) (hnear : h.Near) {c : Cell}
    (hc : h[0]? = some c) (hn : 0 < c.nelem) (indentInc : Int) :
    ∃ root out, objInit b Obj.null 0 = some root ∧
      (∀ fuel, h.length ≤ fuel → rawPrint b fuel root indentInc = done out) ∧
      (out = h.completeText indentInc ↔ h.Shown) := by
  have hroot : objInit b Obj.null (h.offs 0) = some (h.handle 0 c) := hb.objInit hc Obj.null
  refine ⟨h.handle 0 c, h.printedText c indentInc, ?_, fun fuel hfuel => ?_, ?_⟩
  · rw [← hroot, Heap.offs, Offsets.offset_zero]
  · exact hb.rawPrint hnear hc hn indentInc hfuel
  · exact h.printedText_eq_iff hb.forward hc hn indentInc

/-- A message with the number `7` and the string `hi`. -/
def greetingCalls : List Call :=
  [.create (.ofCounts 1 4 1 (Eq.refl true)),
    .putInt 0 0 0 4 7, .putStr 0 0 0 [104, 105] 2]

theorem greeting_shown : (build greetingCalls).Shown := by
  intro c hc
  cases hc
  refine ⟨by decide, fun row h1 hrow => ?_, (Heap.allFit_iff rfl 0).mpr ?_⟩
  · have hrow : row < 1 := hrow
    omega
  · intro x hx t ct hp hct
    obtain rfl : x = 0 := by
      have hx : x < 1 := hx
      omega
    cases hp
    cases hct
    exact ⟨fun _ => by decide, fun j _ => Heap.allFit_of_psize rfl rfl j⟩

/-- The dump of the greeting is complete. -/
theorem raw_print_greeting :
    ∃ s, run (Plain.step granting) ⟨initWrite (fun _ => 170) 0, []⟩ greetingCalls = some s ∧
      (build greetingCalls).Shown ∧
      ∃ root out, objInit s.buf Obj.null 0 = some root ∧
        (∀ fuel, (build greetingCalls).length ≤ fuel → rawPrint s.buf fuel root 2 = done out) ∧
        (out = (build greetingCalls).completeText 2 ↔ (build greetingCalls).Shown) := by
  have hplain : ∃ s, run (Plain.step granting) ⟨initWrite (fun _ => 170) 0, []⟩ greetingCalls
      = some s ∧ s.Rel (build greetingCalls) :=
    plain_run (fun _ _ => rfl) rfl (by decide) (by decide) (by decide)
  obtain ⟨s, hrun, hrel⟩ := hplain
  have hb := hrel.holds (by decide)
  refine ⟨s, hrun, greeting_shown, ?_⟩
  exact raw_print_complete_iff hb (hb.allNear (by decide)) (c := (build greetingCalls)[0]) rfl
    (by decide) 2

/-- A message with a vector of `2 ^ 16` bytes. -/
def longCalls : List Call :=
  [.create (.ofCounts 1 0 1 (Eq.refl true)),
    .create (.ofCounts 65536 1 0 (Eq.refl true)),
    .putPtr 0 0 0 1]

/-- The byte count of the vector is `0` in the 16 bits of `ssize`: the plain writer writes the
message and the printer shows an empty string. -/
theorem raw_print_truncates :
    ∃ s, run (Plain.step granting) ⟨initWrite (fun _ => 0) 0, []⟩ longCalls = some s ∧
      ∃ root v, objInit s.buf Obj.null 0 = some root ∧ root.nelem = 1 ∧
        getPtr s.buf root 0 = some v ∧ v.nelem = 2 ^ 16 ∧ v.ssize = 1 ∧ v.psize = 0 ∧
        rawPrint s.buf 2 root 2 = done (asc "1: \"\"\n") ∧
        asc "1: \"\"\n" ≠ (build longCalls).completeText 2 := by
  have hplain : ∃ s, run (Plain.step granting) ⟨initWrite (fun _ => 0) 0, []⟩ longCalls = some s ∧
      s.Rel (build longCalls) :=
    plain_run (fun _ _ => rfl) rfl (by decide) (by decide) (by decide)
  obtain ⟨s, hrun, hrel⟩ := hplain
  have hb := hrel.holds (by decide)
  have hnear := hb.allNear (by decide)
  have hc : (build longCalls)[0]? = some (build longCalls)[0] := rfl
  have hct : (build longCalls)[1]? = some (build longCalls)[1] := rfl
  have hprinted : (build longCalls).printedText (build longCalls)[0] 2 = asc "1: \"\"\n" := by
    have hrows : (build longCalls)[1].rows % 2 ^ 16 = 0 := by decide
    have hflat : (build longCalls)[1].Flat := by decide
    have hptr : (build longCalls)[0].ptr 0 0 = some 1 := rfl
    have hrange : List.range (build longCalls)[0].psize = [0] := by decide
    rw [Heap.printedText, if_neg (by decide), Heap.rowText_eq hc, if_neg (by decide), hrange,
      List.flatMap_cons, hptr, Heap.ptrText_some (by decide) hct, slotText, if_pos hflat, Cell.cut,
      if_neg (by decide), hrows]
    rfl
  have hprint : rawPrint s.buf 2 ((build longCalls).handle 0 (build longCalls)[0]) 2
      = done (asc "1: \"\"\n") := by
    rw [hb.rawPrint hnear hc (by decide) 2 (by decide), hprinted]
  have hroot : objInit s.buf Obj.null ((build longCalls).offs 0)
      = some ((build longCalls).handle 0 (build longCalls)[0]) := hb.objInit hc Obj.null
  have hn : 0 < (build longCalls)[0].nelem := by decide
  have hsame := hb.elem_same hc (by decide) (ElemOf.zero _) hn
  have hget : getPtr s.buf ((build longCalls).handle 0 (build longCalls)[0]) 0
      = some ((build longCalls).handle 1 (build longCalls)[1]) := by
    rw [hsame.getPtr, hb.getPtr hc hn (by decide) (hnear 0 _ hc _ (by decide) 0 (by decide)),
      ← Heap.target_some hct]
    rfl
  refine ⟨s, hrun, _, _, hroot, rfl, hget, rfl, rfl, rfl, hprint, fun heq => ?_⟩
  rw [← hprinted, Heap.printedText_eq_iff hb.forward hc (by decide)] at heq
  have hfits := (heq _ hc).2.2 1 _ (.ptr hc (show 0 < (build longCalls)[0].psize by decide) rfl) hct
    (by decide)
  exact absurd hfits.2 (by decide)

end Nbuf
