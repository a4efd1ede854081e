import Nbuf.Text.Print
import Nbuf.Wire.Forward

set_option autoImplicit false

/-! # Termination of the printers

Each recursive call of a printer is made on an object behind the one it is called from, as long
as the pointers lead forward. The distance to the end of the buffer is then enough fuel, for the
printer without a schema and for the one with a schema, whatever the schema is.
-/

namespace Nbuf

open Outcome Run

/-- The handles a printer is called on: elements of objects that are reachable. The number of
elements does not matter, and neither does a handle without pointers. -/
def Visited (b : Buffer) (o : Obj) : Prop :=
  o.psize = 0 ∨ ∃ hops r, reach b hops = some r ∧ r.base = o.base ∧ r.ssize = o.ssize ∧
    r.psize = o.psize

/-- `o` is element `j` of the vector `rr`, apart from its number of elements. -/
def ElemOf (rr o : Obj) (j : Nat) : Prop :=
  o.base = rr.base + j * rr.elemsz ∧ o.ssize = rr.ssize ∧ o.psize = rr.psize

theorem ElemOf.zero (rr : Obj) : ElemOf rr rr 0 := ⟨by omega, rfl, rfl⟩

theorem ElemOf.elemsz {rr o : Obj} {j : Nat} (h : ElemOf rr o j) : o.elemsz = rr.elemsz := by
  rw [o.elemsz_eq, rr.elemsz_eq, h.2.1, h.2.2]

theorem getPtr_congr {b : Buffer} {r r' : Obj} (h1 : r.base = r'.base) (h2 : r.ssize = r'.ssize)
    (h3 : r.psize = r'.psize) (i : Nat) : getPtr b r i = getPtr b r' i := by
  have hoffs : r.ptrOffs i = r'.ptrOffs i := by rw [Obj.ptrOffs, Obj.ptrOffs, h2]
  have hrel : getRelPtr b r i = getRelPtr b r' i := by
    rw [getRelPtr, getRelPtr, Obj.slot, Obj.slot, h1, h3, hoffs]
  rw [getPtr, getPtr, hrel, h1, hoffs]

/-- An element of a reachable vector is visited. -/
theorem ElemOf.visited {b : Buffer} {hops : List Hop} {rr o : Obj} {j : Nat} (h : ElemOf rr o j)
    (hr : reach b hops = some rr) (hj : j < rr.nelem) (hbase : rr.base < 2 ^ 63) :
    Visited b o := by
  by_cases hp : o.psize = 0
  · exact Or.inl hp
  · have h0 : rr.elemsz ≠ 0 := by
      rw [Ne, rr.elemsz_eq_zero_iff, ← h.2.2]
      omega
    have hsz := rr.rows_mul_stride_lt
    refine Or.inr ⟨hops ++ [.elem j], Nbuf.getElem rr j, reach_snoc hr rfl, ?_, ?_, ?_⟩
    · rw [getElem_base hj (by omega), Obj.stride_eq h0, Obj.row, if_neg h0, h.1]
    · rw [getElem_ssize hj, Obj.width, if_neg h0, h.2.1]
    · rw [getElem_psize hj, h.2.2]

/-- The object a pointer of a visited object leads to is reachable and lies behind it. -/
theorem Visited.getPtr {b : Buffer} {o rr : Obj} {i : Nat} (hlen : b.len < 2 ^ 63)
    (hfwd : PointsForward b) (h : Visited b o) (ho : o.base ≤ b.len)
    (hget : getPtr b o i = some rr) (hne : rr.nelem ≠ 0) :
    (∃ hops, reach b hops = some rr) ∧ o.base < rr.base ∧ rr.base ≤ b.len := by
  have hbase : rr.base ≠ 0 := by
    intro h0
    by_cases hi : i < o.psize
    · cases hv : readIntSafe b (o.slot i) 4 with
      | none =>
          rw [Nbuf.getPtr, getRelPtr, if_neg (by omega), hv] at hget
          cases hget
      | some v =>
          rw [getPtr_eq hlen hi hv] at hget
          split_ifs at hget
          · rcases objInit_base hlen hget with ⟨-, hb⟩ | ⟨-, rfl⟩
            · omega
            · exact hne rfl
          · cases hget
            exact hne rfl
    · rw [getPtr_of_ge (by omega)] at hget
      cases hget
      exact hne rfl
  obtain ⟨hi, v, k, hv, -, hk, hopen, hb⟩ := getPtr_forward_or_back hlen hget hbase
  rcases h with hp | ⟨hops, r, hr, h1, h2, h3⟩
  · omega
  · have hgetr : Nbuf.getPtr b r i = some rr := by rw [getPtr_congr h1 h2 h3, hget]
    have hslot := hfwd hops r i rr hr hgetr hbase
    have hoffs : r.slot i = o.base + (o.ssize + i * 4) := by
      have hs := o.ssize_lt
      have hpz := o.psize_lt
      rw [Obj.slot, r.ptrOffs_eq (by omega), sizeT_of_lt (by omega), h1, h2]
    refine ⟨⟨hops ++ [.ptr i], reach_snoc (x := .ptr i) hr hgetr⟩, by omega, ?_⟩
    have := hopen.1
    omega

/-! ## Without a schema -/

theorem next_elemOf {rr oo : Obj} {j : Nat} (h : ElemOf rr oo j) (hj : j < rr.nelem)
    (hbase : rr.base < 2 ^ 63) : ElemOf rr oo.next (j + 1) := by
  have hlt : rr.elemsz * (j + 1) < 2 ^ 51 := by
    have hn := rr.nelem_lt
    rcases Nat.lt_or_ge (j + 1) (2 ^ 32) with hlt | hge
    · exact rr.elemsz_mul_lt hlt
    · omega
  have hmul : rr.base + j * rr.elemsz + rr.elemsz = rr.base + (j + 1) * rr.elemsz := by ring
  have hcomm : (j + 1) * rr.elemsz = rr.elemsz * (j + 1) := Nat.mul_comm _ _
  refine ⟨?_, h.2.1, h.2.2⟩
  show sizeT (oo.base + oo.elemsz) = _
  rw [h.1, h.elemsz, hmul, sizeT_of_lt (by omega)]

/-- The loop over the elements of `rr` ends when its body does on every element in bounds. -/
theorem elemLoop_ne_outOfFuel {b : Buffer} {body : Obj → Outcome Text} (rr : Obj)
    (hlen : b.len < 2 ^ 63) (hbase : rr.base < 2 ^ 63)
    (hbody : ∀ j oo, ElemOf rr oo j → j < rr.nelem → oo.base ≤ b.len → body oo ≠ outOfFuel) :
    ∀ n j oo, ElemOf rr oo j → j + n ≤ rr.nelem → elemLoop b body n oo ≠ outOfFuel := by
  intro n
  induction n with
  | zero => intro j oo _ _; exact done_ne_outOfFuel _
  | succ n ih =>
      intro j oo hoo hj
      rw [elemLoop]
      by_cases hchk : boundsCheck b oo.base oo.ssize = false
      · rw [if_pos hchk]
        exact done_ne_outOfFuel _
      · rw [if_neg hchk]
        have hs := oo.ssize_lt
        have hfit := (boundsCheck_of_len_lt hlen (by omega)).mp (Bool.not_eq_false _ ▸ hchk)
        refine bind_ne_outOfFuel (hbody j oo hoo (by omega) (by omega)) fun out _ => ?_
        refine bind_ne_outOfFuel ?_ fun rest _ => done_ne_outOfFuel _
        exact ih (j + 1) oo.next (next_elemOf hoo (by omega) hbase) (by omega)

theorem rawValue_ne_outOfFuel {b : Buffer} {nl : UInt8} {inner : Obj → Outcome Text}
    {indent : Int} {oo : Obj} (h : oo.psize ≠ 0 → inner oo ≠ outOfFuel) :
    rawValue b nl inner indent oo ≠ outOfFuel := by
  rw [rawValue]
  split_ifs with hp
  · exact bind_ne_outOfFuel (ofOption_ne_outOfFuel _) fun _ _ => done_ne_outOfFuel _
  · exact bind_ne_outOfFuel (h hp) fun _ _ => done_ne_outOfFuel _

/-- Printing what a pointer leads to ends when the recursive call does on every element that has
pointers. A vector of bits or bytes is printed as one element without pointers. -/
theorem rawElems_ne_outOfFuel {b : Buffer} {nl : UInt8} {inner : Obj → Outcome Text}
    {indent : Int} {rr : Obj} {label : Text} (hlen : b.len < 2 ^ 63) (hbase : rr.base < 2 ^ 63)
    (h : ∀ j oo, ElemOf rr oo j → j < rr.nelem → oo.base ≤ b.len → oo.psize ≠ 0 →
      inner oo ≠ outOfFuel) :
    elemLoop b (fun oo => do
        let value ← rawValue b nl inner indent oo
        pure (doIndent indent ++ label ++ asc ": " ++ value ++ [nl]))
      (asOneElement rr).nelem (asOneElement rr) ≠ outOfFuel := by
  by_cases hflat : rr.ssize ≤ 1 ∧ rr.psize = 0 ∧ rr.nelem > 0
  · rw [asOneElement, if_pos hflat]
    have hp : ∀ n ss, (Obj.ofFields rr.base n ss rr.psize).psize = 0 := by
      intro n ss
      rw [hflat.2.1]
      rfl
    refine elemLoop_ne_outOfFuel (Obj.ofFields rr.base 1 _ rr.psize) hlen hbase
      (fun j oo hoo _ _ => ?_) _ 0 _ (ElemOf.zero _) (by omega)
    exact bind_ne_outOfFuel (rawValue_ne_outOfFuel fun hne => absurd (hoo.2.2.trans (hp _ _)) hne)
      fun _ _ => done_ne_outOfFuel _
  · rw [asOneElement, if_neg hflat]
    refine elemLoop_ne_outOfFuel rr hlen hbase (fun j oo hoo hj hoob => ?_) _ 0 rr
      (ElemOf.zero rr) (by omega)
    exact bind_ne_outOfFuel (rawValue_ne_outOfFuel (h j oo hoo hj hoob))
      fun _ _ => done_ne_outOfFuel _

/-- **Printing without a schema terminates** when pointers lead forward. -/
theorem doPrintNotype_ne_outOfFuel {b : Buffer} (hlen : b.len < 2 ^ 63) (hfwd : PointsForward b)
    (indentInc : Int) : ∀ (fuel : Nat) (indent : Int) (o : Obj), Visited b o → o.base ≤ b.len →
      b.len - o.base < fuel → doPrintNotype b indentInc fuel indent o ≠ outOfFuel := by
  intro fuel
  induction fuel with
  | zero => intro _ _ _ _ h; omega
  | succ fuel ih =>
      intro indent o hvis ho hfuel
      rw [doPrintNotype]
      refine bind_ne_outOfFuel ?_ fun _ _ => bind_ne_outOfFuel ?_ fun _ _ => done_ne_outOfFuel _
      · rw [rawScalars]
        split_ifs
        · exact bind_ne_outOfFuel (ofOption_ne_outOfFuel _) fun _ _ => done_ne_outOfFuel _
        · exact done_ne_outOfFuel _
      · refine concat_ne_outOfFuel fun i _ => ?_
        refine bind_ne_outOfFuel (ofOption_ne_outOfFuel _) fun rr hrr => ?_
        have hget : getPtr b o i = some rr := eq_some_of_ofOption hrr
        have hle := (getPtr_accepted hlen hget).1
        refine rawElems_ne_outOfFuel hlen (by omega) fun j oo hoo hj hoob hp => ?_
        obtain ⟨⟨hops, hr⟩, hlt, -⟩ := hvis.getPtr hlen hfwd ho hget (by omega)
        have hgt : rr.base ≤ oo.base := by rw [hoo.1]; exact Nat.le_add_right _ _
        exact ih _ oo (hoo.visited hr hj (by omega)) hoob (by omega)

/-! ## With a schema -/

section

variable {b : Buffer} {schema : Schema} {fmtFloat : Nat → Int → Text} {indentInc : Int}

theorem printValue_ne_outOfFuel {inner : Obj → MsgType → Outcome Text} {indent : Int} {ref : Ref}
    (h : ref.kind = .ptr → ∀ mt, inner ref.o mt ≠ outOfFuel) :
    printValue b schema fmtFloat indentInc inner indent ref ≠ outOfFuel := by
  rw [printValue]
  cases hk : ref.kind with
  | ptr => exact bind_ne_outOfFuel (h hk _) fun _ _ => done_ne_outOfFuel _
  | enum =>
      refine bind_ne_outOfFuel (ofOption_ne_outOfFuel _) fun v _ => ?_
      dsimp only
      cases enumName (schema.enumType ref.tag1) (toU64 v % 2 ^ 16) <;> exact done_ne_outOfFuel _
  | bool => exact bind_ne_outOfFuel (ofOption_ne_outOfFuel _) fun _ _ => done_ne_outOfFuel _
  | int => exact bind_ne_outOfFuel (ofOption_ne_outOfFuel _) fun _ _ => done_ne_outOfFuel _
  | uint => exact bind_ne_outOfFuel (ofOption_ne_outOfFuel _) fun _ _ => done_ne_outOfFuel _
  | float => exact bind_ne_outOfFuel (ofOption_ne_outOfFuel _) fun _ _ => done_ne_outOfFuel _
  | str => exact bind_ne_outOfFuel (ofOption_ne_outOfFuel _) fun _ _ => done_ne_outOfFuel _

/-- Advancing a reference to a list of submessages moves to the next element. -/
theorem refAdvance_elemOf {rr : Obj} {ref ref' : Ref} {j : Nat} (hk : ref.kind = .ptr)
    (h : ElemOf rr ref.o j) (hn : ref.o.nelem + j = rr.nelem) (hbase : rr.base < 2 ^ 63)
    (hadv : refAdvance ref 1 = some ref') :
    ref'.kind = .ptr ∧ ElemOf rr ref'.o (j + 1) ∧ ref'.o.nelem + (j + 1) = rr.nelem := by
  rw [refAdvance] at hadv
  split_ifs at hadv with h1 h2
  · rw [hk] at h2
    cases h2
  · cases hadv
    have hnext := (next_elemOf h (by omega) hbase).1
    have hnl := ref.o.nelem_lt
    refine ⟨hk, ⟨?_, ?_, ?_⟩, ?_⟩
    · rw [← hnext, Obj.ofFields_base, Nat.one_mul]
      rfl
    · rw [Obj.ofFields_ssize ref.o.ssize_lt, h.2.1]
    · rw [Obj.ofFields_psize ref.o.psize_lt, h.2.2]
    · rw [Obj.ofFields_nelem (by omega)]
      omega

theorem refAdvance_kind {ref ref' : Ref} (h : refAdvance ref 1 = some ref') :
    ref'.kind = ref.kind := by
  rw [refAdvance] at h
  split_ifs at h <;> cases h <;> rfl

/-- The loop over the elements of a field ends when the recursive call does on every element. -/
theorem printElems_ne_outOfFuel {inner : Obj → MsgType → Outcome Text} {name : Text}
    {indent : Int} (rr : Obj) (hlen : b.len < 2 ^ 63) (hbase : rr.base < 2 ^ 63)
    (hinner : ∀ j oo mt, ElemOf rr oo j → j < rr.nelem → oo.base ≤ b.len →
      inner oo mt ≠ outOfFuel) :
    ∀ n ref j, (ref.kind = .ptr → ElemOf rr ref.o j ∧ ref.o.nelem + j = rr.nelem ∧
        j < rr.nelem) →
      printElems b schema fmtFloat indentInc inner name indent n ref ≠ outOfFuel := by
  intro n
  induction n with
  | zero =>
      intro ref j href
      rw [printElems]
      by_cases hchk : boundsCheck b ref.o.base ref.o.ssize = false
      · rw [if_pos hchk]
        exact done_ne_outOfFuel _
      · rw [if_neg hchk]
        have hs := ref.o.ssize_lt
        have hfit := (boundsCheck_of_len_lt hlen (by omega)).mp (Bool.not_eq_false _ ▸ hchk)
        refine bind_ne_outOfFuel (printValue_ne_outOfFuel fun hk mt => ?_) fun _ _ =>
          done_ne_outOfFuel _
        obtain ⟨hoo, -, hj⟩ := href hk
        exact hinner j ref.o mt hoo hj (by omega)
  | succ n ih =>
      intro ref j href
      rw [printElems]
      by_cases hchk : boundsCheck b ref.o.base ref.o.ssize = false
      · rw [if_pos hchk]
        exact done_ne_outOfFuel _
      · rw [if_neg hchk]
        have hs := ref.o.ssize_lt
        have hfit := (boundsCheck_of_len_lt hlen (by omega)).mp (Bool.not_eq_false _ ▸ hchk)
        refine bind_ne_outOfFuel (printValue_ne_outOfFuel fun hk mt => ?_) fun value _ => ?_
        · obtain ⟨hoo, -, hj⟩ := href hk
          exact hinner j ref.o mt hoo hj (by omega)
        · dsimp only
          split_ifs
          · cases hadv : refAdvance ref 1 with
            | none => exact done_ne_outOfFuel _
            | some ref' =>
                refine bind_ne_outOfFuel (ih ref' (j + 1) fun hk' => ?_) fun _ _ =>
                  done_ne_outOfFuel _
                have hk : ref.kind = .ptr := by rw [← refAdvance_kind hadv, hk']
                obtain ⟨hoo, hn, hj⟩ := href hk
                obtain ⟨-, hoo', hn'⟩ := refAdvance_elemOf hk hoo hn hbase hadv
                have hpos : ref'.o.nelem ≠ 0 := by
                  rw [refAdvance] at hadv
                  split_ifs at hadv with h1 h2
                  · rw [hk] at h2
                    cases h2
                  · cases hadv
                    have hnl := ref.o.nelem_lt
                    rw [Obj.ofFields_nelem (by omega)]
                    omega
                exact ⟨hoo', hn', by omega⟩
          · exact done_ne_outOfFuel _

/-- **Printing with a schema terminates** when pointers lead forward, whatever the schema is. -/
theorem doPrint_ne_outOfFuel (hlen : b.len < 2 ^ 63) (hfwd : PointsForward b) :
    ∀ (fuel : Nat) (indent : Int) (o : Obj) (mt : MsgType), Visited b o → o.base ≤ b.len →
      b.len - o.base < fuel →
      doPrint b schema fmtFloat indentInc fuel indent o mt ≠ outOfFuel := by
  intro fuel
  induction fuel with
  | zero => intro _ _ _ _ _ h; omega
  | succ fuel ih =>
      intro indent o mt hvis ho hfuel
      rw [doPrint]
      refine concat_ne_outOfFuel fun fld _ => ?_
      rw [printField]
      by_cases hptr : (getRef o fld).list = true ∨ (getRef o fld).kind = .ptr
      · rw [if_pos hptr]
        refine bind_ne_outOfFuel (ofOption_ne_outOfFuel _) fun ref href => ?_
        have hget := eq_some_of_ofOption href
        by_cases hn : ref.o.nelem = 0
        · rw [if_pos hn]
          exact done_ne_outOfFuel _
        · rw [if_neg hn]
          rw [refGetPtr, assertC_bind_eq_some] at hget
          obtain ⟨rr, hrr, href'⟩ := Option.bind_eq_some_iff.mp hget.2
          cases href'
          by_cases hk : (getRef o fld).kind = .ptr
          · have hnb : ¬ (getRef o fld).kind = .bool := by rw [hk]; decide
            simp only [if_neg hnb] at hn ⊢
            obtain ⟨⟨hops, hr⟩, hlt, hle⟩ := hvis.getPtr hlen hfwd ho hrr hn
            refine printElems_ne_outOfFuel rr hlen (by omega) (fun j oo mt' hoo hj hoob => ?_) _ _ 0
              fun _ => ⟨ElemOf.zero rr, Nat.add_zero _, Nat.pos_of_ne_zero hn⟩
            have hgt : rr.base ≤ oo.base := by rw [hoo.1]; exact Nat.le_add_right _ _
            exact ih _ oo mt' (hoo.visited hr hj (by omega)) hoob (by omega)
          · have hnull : Obj.null.base < 2 ^ 63 := by decide
            exact printElems_ne_outOfFuel Obj.null hlen hnull
              (fun j oo mt' _ hj _ => absurd hj (Nat.not_lt_zero j)) _ _ 0 fun h => absurd h hk
      · rw [if_neg hptr]
        have hnull : Obj.null.base < 2 ^ 63 := by decide
        exact printElems_ne_outOfFuel Obj.null hlen hnull
          (fun j oo mt' _ hj _ => absurd hj (Nat.not_lt_zero j)) _ _ 0
          fun h => absurd (Or.inr h) hptr

end

/-! ## The theorem -/

/-- Both printers end on every object a client can reach. -/
def PrintersTerminate (b : Buffer) : Prop :=
  ∀ hops o, reach b hops = some o → ∃ fuel, ∀ indent : Int,
    rawPrint b fuel o indent ≠ outOfFuel ∧
    ∀ fmtFloat schema msgType, print b fuel o fmtFloat indent schema msgType ≠ outOfFuel

/-- **No backward references.** In every received buffer, each handle that a pointer yields has its
header behind the slot, and both printers terminate, if and only if no reachable slot holds a
negative word that leads to an object. -/
theorem forward_and_terminates_iff (block : ByteBlock) :
    PointsForward (initRead block) ∧ PrintersTerminate (initRead block) ↔
    NoBackWord (initRead block) := by
  have hlen : (initRead block).len < 2 ^ 63 := block.length_lt
  generalize initRead block = b at *
  rw [← pointsForward_iff hlen]
  refine ⟨fun h => h.1, fun hfwd => ⟨hfwd, fun hops o ho => ⟨b.len + 1, fun indent => ?_⟩⟩⟩
  have hbase := (reach_accepted hlen ho).1
  have hvis : Visited b o := Or.inr ⟨hops, o, ho, rfl, rfl, rfl⟩
  exact ⟨doPrintNotype_ne_outOfFuel hlen hfwd indent _ _ o hvis hbase (by omega),
    fun fmtFloat schema msgType => doPrint_ne_outOfFuel hlen hfwd _ _ o msgType hvis hbase
      (by omega)⟩

/-- A root object whose only pointer leads back to itself. -/
def loopBlock : ByteBlock := ⟨[1, 0, 0, 0, 0, 0, 1, 0, 0xfe, 0xff, 0xff, 0xff], by decide⟩

/-- The header of the object the root's pointer yields is at offset `0`, before the slot at offset
`8`, and the printer without a schema never ends. -/
theorem loopBlock_prints_forever :
    ∃ o, reach (initRead loopBlock) [] = some o ∧
      getPtr (initRead loopBlock) o 0 = some o ∧ o.slot 0 = 8 ∧ o.base - 8 = 0 ∧
      ∀ fuel, rawPrint (initRead loopBlock) fuel o 2 = outOfFuel := by
  have hget : getPtr (initRead loopBlock) (Obj.ofFields 8 1 0 1) 0
      = some (Obj.ofFields 8 1 0 1) := by decide
  refine ⟨Obj.ofFields 8 1 0 1, by decide, hget, by decide, by decide, fun fuel => ?_⟩
  suffices h : ∀ fuel indent,
      doPrintNotype (initRead loopBlock) 2 fuel indent (Obj.ofFields 8 1 0 1) = outOfFuel from
    h fuel 0
  intro fuel
  induction fuel with
  | zero => intro indent; rfl
  | succ fuel ih =>
      intro indent
      have hone : asOneElement (Obj.ofFields 8 1 0 1) = Obj.ofFields 8 1 0 1 := by decide
      have hscal : rawScalars (initRead loopBlock) (newline 2) indent (Obj.ofFields 8 1 0 1)
          = done [] := rfl
      have hrange : List.range (Obj.ofFields 8 1 0 1).psize = [0] := by decide
      have hslot : ∀ inner : Obj → Outcome Text, inner (Obj.ofFields 8 1 0 1) = outOfFuel →
          rawSlot (initRead loopBlock) (newline 2) inner indent (Obj.ofFields 8 1 0 1) 0
            = outOfFuel := by
        intro inner hinner
        have hval : rawValue (initRead loopBlock) (newline 2) inner indent (Obj.ofFields 8 1 0 1)
            = outOfFuel := by
          rw [rawValue, if_neg (by decide), hinner]
          rfl
        simp only [rawSlot, hget, hone, ofOption_some, done_bind]
        rw [show (Obj.ofFields 8 1 0 1).nelem = 0 + 1 from rfl, elemLoop, if_neg (by decide), hval]
        rfl
      simp only [doPrintNotype, hscal, hrange, done_bind, concat, hslot _ (ih _), outOfFuel_bind]

end Nbuf
