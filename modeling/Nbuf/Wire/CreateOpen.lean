import Nbuf.Wire.BlockOps
import Nbuf.Wire.ReaderSafety

set_option autoImplicit false

/-! # Creating and opening agree

`_nbuf_create` computes the size of an object when it reserves the space, `nbuf_obj_init` computes
it again when it checks the header. Both of them, and `nbuf_totalsz`, add 7 to the number of bits in
32-bit arithmetic, so a vector of `2 ^ 32 - 7` bits or more has the size 0 in each of them: no space
is reserved for it and its header is refused.
-/

namespace Nbuf

open Align ByteMem

/-! ## Writes to an element -/

/-- What a program writes to an element. -/
inductive Store where
  | int (off sz v : Nat)
  | bit (off : Nat) (v : Bool)
  | ptr (i : Nat) (v : Obj)

/-- `nbuf_put_int`, `nbuf_put_bit` or `_nbuf_put_ptr` -/
def Store.put (b : Buffer) (r : Obj) : Store → Option Buffer
  | int off sz v => putInt b r off sz v
  | bit off v => putBit b r off v
  | ptr i v => putPtr b r i v

/-- The offset is a `size_t`. -/
def Store.Valid : Store → Prop
  | int off _ _ => off < 2 ^ 64
  | bit off _ => off < 2 ^ 64
  | ptr _ _ => True

theorem writeIntSafe_outside {b b' : Buffer} {k sz v : Nat} (h : writeIntSafe b k sz v = some b') :
    scalarSize sz = true ∧ ∀ p, (p < k ∨ k + sz ≤ p) → b'.mem p = b.mem p := by
  rw [writeIntSafe, assertC_bind_eq_some] at h
  have h := h.2
  rw [writeIntUnsafe, assertC_bind_eq_some] at h
  obtain ⟨hsz, h⟩ := h
  rw [assertC_bind_eq_some] at h
  cases h.2
  exact ⟨hsz, fun p hp => store_outside _ hp⟩

/-- **A write to an element stays inside it**, or in the eight bytes before it when the offset wraps
around. -/
theorem Store.put_outside {b b' : Buffer} {r : Obj} {st : Store} (h : st.put b r = some b')
    (hv : st.Valid) (hbase : 8 ≤ r.base) (hend : r.base + r.elemsz < 2 ^ 64) {p : Nat}
    (hp : p < r.base - 8 ∨ r.base + r.elemsz ≤ p) : b'.mem p = b.mem p := by
  have helem := r.elemsz_eq
  cases st with
  | int off sz v =>
      have h : putInt b r off sz v = some b' := h
      rw [putInt] at h
      rw [assertC_bind_eq_some] at h
      have h := h.2
      rw [assertC_bind_eq_some] at h
      obtain ⟨⟨-, hdvd⟩, h⟩ := h
      have hoff : off < 2 ^ 64 := hv
      split_ifs at h with hin
      · obtain ⟨hsz, hout⟩ := writeIntSafe_outside h
        obtain ⟨hpos, hle, -⟩ := scalarSize_le hsz
        refine hout p ?_
        by_cases hwrap : 2 ^ 64 ≤ off + sz
        · have heq := wrap_eq hsz (Nat.dvd_of_mod_eq_zero hdvd) hoff hwrap
          unfold sizeT
          omega
        · rw [sizeT_of_lt (by omega)] at hin
          rw [sizeT_of_lt (by omega)]
          omega
      · cases h
        rfl
  | bit off v =>
      have h : putBit b r off v = some b' := h
      unfold putBit at h
      dsimp only at h
      split_ifs at h with hout
      · cases h
        rfl
      · rw [assertC_bind_eq_some] at h
        have h := h.2
        rw [assertC_bind_eq_some] at h
        cases h.2
        refine putBit_outside _ _ _ ?_
        rw [sizeT_of_lt (by omega)]
        omega
  | ptr i v =>
      have h : putPtr b r i v = some b' := h
      unfold putPtr at h
      split_ifs at h with hout
      · cases h
        rfl
      · dsimp only at h
        rw [assertC_bind_eq_some] at h
        have h := h.2
        rw [assertC_bind_eq_some] at h
        obtain ⟨-, hkeep⟩ := writeIntSafe_outside h.2
        refine hkeep p ?_
        unfold Obj.slot
        rw [r.ptrOffs_eq (by omega), sizeT_of_lt (by omega)]
        omega

/-! ## Agreement -/

/-- The bytes of all elements: a vector of bits has eight of them in a byte. -/
def elemBytes (nelem ssize psize : Nat) : Nat :=
  if ssize = 0 ∧ psize = 0 then (nelem + 7) / 8 else nelem * (ssize + 4 * psize)

/-- **Creating and opening agree**: the new object has space for all its elements, what is written
to an element stays inside it, and opening its header gives its handle back. -/
def CreateOpens (a : Realloc) (b : Buffer) (nelem ssize psize : Nat) : Prop :=
  ∃ b' o, create a b nelem ssize psize = some (b', o) ∧
    b.len + 8 + elemBytes nelem ssize psize ≤ b'.len ∧
    (∀ k < nelem, ∀ st : Store, st.Valid → ∀ b'', st.put b' (getElem o k) = some b'' →
      ∀ p, (p < b.len ∨ b'.len ≤ p) → b''.mem p = b'.mem p) ∧
    o.base = b.len + 8 ∧ o.nelem = nelem ∧ o.ssize = ssize ∧ o.psize = psize ∧
    ∀ rr, objInit b' rr b.len = some o

theorem Shape.bodySize_eq_elemBytes (sh : Shape) :
    sh.bodySize = elemBytes sh.nelem sh.ssize sh.psize := by
  unfold Shape.bodySize elemBytes
  rw [sh.rows_eq, sh.stride_eq, sh.width_eq]
  split_ifs with h
  · rw [h.2]
    omega
  · rw [Nat.mul_comm sh.psize]

/-- **Creating and opening agree** on every plain write buffer, unless the object is a vector of
`2 ^ 32 - 7` bits or more. -/
theorem createOpens_iff {a : Realloc} (ha : a.Total) {b : Buffer} (hlen : b.len ≤ b.cap)
    (hcap : b.cap < 2 ^ 64) (h8 : 8 ∣ b.len) {nelem ssize psize : Nat} (hn : nelem < 2 ^ 32)
    (hs : ssize < 2 ^ 16) (hp : psize < 2 ^ 16) (halign : psize = 0 ∨ 4 ∣ ssize)
    (hfit : b.len + (Obj.ofFields b.len nelem ssize psize).createSize < 2 ^ 63) :
    CreateOpens a b nelem ssize psize ↔ (ssize = 0 → psize = 0 → nelem < 2 ^ 32 - 7) := by
  have hon : (Obj.ofFields b.len nelem ssize psize).nelem = nelem := Obj.ofFields_nelem hn
  have hos : (Obj.ofFields b.len nelem ssize psize).ssize = ssize := Obj.ofFields_ssize hs
  have hop : (Obj.ofFields b.len nelem ssize psize).psize = psize := Obj.ofFields_psize hp
  constructor
  · rintro ⟨b', o, hcreate, hspace, -⟩ h0 h0'
    by_contra hlarge
    have hword : (Obj.ofFields b.len nelem ssize psize).psize = 0 ∨
      (Obj.ofFields b.len nelem ssize psize).elemsz % 4 = 0 := Or.inl (hop.trans h0')
    obtain ⟨b1, m, hrun, hlen1, -⟩ := create_run ha rfl hword hlen hcap h8 hfit
    -- nothing is reserved but the header
    have hsize : (Obj.ofFields b.len nelem ssize psize).createSize = 8 := by
      unfold Obj.createSize
      rw [hos, hop, hon, if_pos ⟨h0, h0'⟩, bitBytes_wrap (by omega) hn]
      rfl
    rw [hcreate, Option.some.injEq, Prod.mk.injEq] at hrun
    rw [← hrun.1, hsize] at hlen1
    rw [elemBytes, if_pos ⟨h0, h0'⟩] at hspace
    omega
  · intro hbits
    let sh : Shape := ⟨nelem, ssize, psize, hn, hs, hp, halign, hbits⟩
    have hobj : Obj.ofFields b.len nelem ssize psize = sh.obj b.len := sh.ofFields_eq b.len
    rw [hobj, sh.createSize_eq] at hfit
    obtain ⟨b', hcreate, hlen', hroom, hcap', -, hblock⟩ :=
      create_spec ha hobj hlen hcap h8 hfit
    have hle := sh.le_blockSize
    have hbody : sh.bodySize = elemBytes nelem ssize psize := sh.bodySize_eq_elemBytes
    refine ⟨b', sh.obj (b.len + 8), hcreate, by omega, ?_, rfl, rfl, rfl, rfl,
      hblock.objInit (by omega) (show b.len + sh.blockSize ≤ b'.len by omega)⟩
    intro k hk st hv b'' hput p hout
    have hrow : sh.row k < sh.rows := Shape.row_lt_rows hk
    have hpos := sh.rowPos_inside b.len hrow
    have hbase : (getElem (sh.obj (b.len + 8)) k).base = sh.rowPos b.len (sh.row k) :=
      getElem_base hk (show b.len + 8 + sh.bodySize < 2 ^ 64 by omega)
    have helem : (getElem (sh.obj (b.len + 8)) k).elemsz = sh.stride := getElem_elemsz hk
    exact Store.put_outside hput hv (by omega) (by omega) (by omega)

theorem bits_createOpens : CreateOpens (granting 0) (initWrite (fun _ => 0) 0) 20 0 0 :=
  (createOpens_iff (fun _ => rfl) (by decide) (by decide) (by decide) (by decide) (by decide)
    (by decide) (Or.inl rfl) (by decide)).mpr (by decide)

/-- **A vector of `2 ^ 32 - 1` bits** gets no space, and its own header is refused. -/
theorem bits_wrap : ¬ CreateOpens (granting 0) (initWrite (fun _ => 0) 0) (2 ^ 32 - 1) 0 0 := by
  rintro ⟨b', o, hcreate, hspace, -⟩
  have hlen : (create (granting 0) (initWrite (fun _ => 0) 0) (2 ^ 32 - 1) 0 0).map
      (fun x => x.1.len) = some 8 := by decide
  rw [hcreate, Option.map_some, Option.some.injEq] at hlen
  rw [hlen] at hspace
  exact absurd hspace (by decide)

end Nbuf
