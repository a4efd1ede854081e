import Nbuf.Wire.CreateOpen

set_option autoImplicit false

/-! # Resizing the last object of a buffer

`nbuf_resize` clears the bytes from the old rounded end to the new one. Their difference is a
`size_t`: when the rounded end moves down, `memset` gets nearly `2 ^ 64` bytes to clear. When the
object shrinks and the rounded end stays, the old elements stay behind the new ones and come back
when it grows again.
-/

namespace Nbuf

open Align ByteMem

/-! ## Elements in bits -/

/-- The bits of an element. -/
def Obj.elemBits (r : Obj) : Nat :=
  if r.ssize = 0 ∧ r.psize = 0 then 1 else 8 * (r.ssize + 4 * r.psize)

/-- The bit of a buffer behind the first `n` elements. -/
def Obj.bitEnd (r : Obj) (n : Nat) : Nat := 8 * r.base + n * r.elemBits

/-- Bit `i` of a buffer. -/
def Buffer.bitAt (b : Buffer) (i : Nat) : Bool := b.mem.bit (i / 8) (i % 8)

/-- The end of the object with `n` elements, rounded up. -/
def Obj.roundedEnd (r : Obj) (n : Nat) : Nat := roundUp (r.base + elemBytes n r.ssize r.psize) 8

theorem Obj.bitEnd_mono (r : Obj) {n n' : Nat} (h : n ≤ n') : r.bitEnd n ≤ r.bitEnd n' :=
  Nat.add_le_add_left (Nat.mul_le_mul_right _ h) _

/-- The bytes of the elements are those that their bits touch. -/
theorem Obj.elemBytes_eq (r : Obj) (n : Nat) :
    r.base + elemBytes n r.ssize r.psize = (r.bitEnd n + 7) / 8 := by
  unfold elemBytes Obj.bitEnd Obj.elemBits
  split_ifs with h
  · omega
  · have hmul : n * (8 * (r.ssize + 4 * r.psize)) = 8 * (n * (r.ssize + 4 * r.psize)) := by ring
    omega

theorem Obj.bitEnd_le_roundedEnd (r : Obj) (n : Nat) : r.bitEnd n ≤ 8 * r.roundedEnd n := by
  have hle := le_roundUp (show 0 < 8 by decide) (r.base + elemBytes n r.ssize r.psize)
  have heq := r.elemBytes_eq n
  unfold Obj.roundedEnd
  omega

theorem Obj.base_le_roundedEnd (r : Obj) (n : Nat) : r.base ≤ r.roundedEnd n :=
  (Nat.le_add_right _ _).trans (le_roundUp (by decide) _)

theorem Obj.elemBytes_lt (r : Obj) {n : Nat} (hn : n < 2 ^ 32) :
    elemBytes n r.ssize r.psize < 2 ^ 51 := by
  have hmul := r.elemsz_mul_lt hn
  rw [r.elemsz_eq, Nat.mul_comm, Nat.mul_comm r.psize] at hmul
  unfold elemBytes
  split_ifs <;> omega

/-- The bytes of the elements before, as `nbuf_resize` computes them. -/
theorem Obj.oldBytes (r : Obj) (h : r.ssize = 0 → r.psize = 0 → r.nelem < 2 ^ 32 - 7) :
    (if r.elemsz ≠ 0 then sizeT (r.nelem * r.elemsz) else bitBytes r.nelem)
      = elemBytes r.nelem r.ssize r.psize := by
  have hlt := r.elemBytes_lt r.nelem_lt
  unfold elemBytes at hlt ⊢
  simp only [ne_eq, r.elemsz_eq_zero_iff]
  by_cases h0 : r.ssize = 0 ∧ r.psize = 0
  · rw [if_neg (by simp [h0]), if_pos h0, bitBytes_eq (h h0.1 h0.2)]
  · rw [if_neg h0] at hlt
    rw [if_pos h0, if_neg h0, r.elemsz_eq, Nat.mul_comm r.psize, sizeT_of_lt (by omega)]

/-- The bytes of the elements behind. -/
theorem Obj.newBytes (r : Obj) {n : Nat} (hn : n < 2 ^ 32) :
    (if r.elemsz ≠ 0 then sizeT (n * r.elemsz) else sizeT (n + 7) / 8)
      = elemBytes n r.ssize r.psize := by
  have hlt := r.elemBytes_lt hn
  unfold elemBytes at hlt ⊢
  simp only [ne_eq, r.elemsz_eq_zero_iff]
  by_cases h0 : r.ssize = 0 ∧ r.psize = 0
  · rw [if_neg (by simp [h0]), if_pos h0, sizeT_of_lt (by omega)]
  · rw [if_neg h0] at hlt
    rw [if_pos h0, if_neg h0, r.elemsz_eq, Nat.mul_comm r.psize, sizeT_of_lt (by omega)]

/-! ## The law -/

/-- An object of a write buffer, behind its header, with all its elements. -/
structure Obj.Inside (b : Buffer) (r : Obj) : Prop where
  len_le_cap : b.len ≤ b.cap
  cap_lt : b.cap < 2 ^ 64
  len_lt : b.len < 2 ^ 63
  aligned : 8 ∣ r.base
  behind_header : 8 ≤ r.base
  header : b.mem.load (r.base - 8) 8 = hdrWord r.nelem r.ssize r.psize
  elems : r.base + elemBytes r.nelem r.ssize r.psize ≤ b.len

/-- It is the last object of the buffer. -/
def Obj.Last (b : Buffer) (r : Obj) : Prop := r.roundedEnd r.nelem = b.len

/-- The object has `n` elements in `b'`: the elements that it had in `b` are kept and new ones are
zero. Nothing else has changed. -/
structure Resized (b : Buffer) (r : Obj) (n : Nat) (b' : Buffer) : Prop where
  keeps : ∀ i, 8 * r.base ≤ i → i < r.bitEnd (min r.nelem n) → b'.bitAt i = b.bitAt i
  zero : ∀ i, r.bitEnd (min r.nelem n) ≤ i → i < r.bitEnd n → b'.bitAt i = false
  header : b'.mem.load (r.base - 8) 8 = hdrWord n r.ssize r.psize
  len_eq : b'.len = r.roundedEnd n
  room : b'.len ≤ b'.cap
  others : ∀ p, (p < r.base - 8 ∨ b.len ≤ p ∧ r.roundedEnd n ≤ p ∧ p < b.cap) → b'.mem p = b.mem p

/-- **The law of `nbuf_resize`**. A write beyond the capacity would stop the run. -/
structure ResizeLaw (a : Realloc) (b : Buffer) (r : Obj) (n : Nat) : Prop where
  last : r.Last b → ∃ b', resize a b r n = some (b', Obj.ofFields r.base n r.ssize r.psize) ∧
    Resized b r n b'
  not_last : ¬ r.Last b → resize a b r n = some (b, r)

/-- What is left behind the elements, up to the rounded end, is zero where new elements come. -/
def CleanBehind (b : Buffer) (r : Obj) (n : Nat) : Prop :=
  ∀ i, r.bitEnd r.nelem ≤ i → i < r.bitEnd n → i < 8 * b.len → b.bitAt i = false

section

variable {a : Realloc} {b : Buffer} {r : Obj} {n : Nat}

/-- An object that does not seem to be at the end is left alone. -/
theorem resize_elsewhere (hn : n < 2 ^ 32 - 8)
    (hend : nbufRoundup (sizeT (r.base + if r.elemsz ≠ 0 then sizeT (r.nelem * r.elemsz)
      else bitBytes r.nelem)) 8 ≠ b.len) : resize a b r n = some (b, r) := by
  unfold resize
  simp only [assertC_pos (show n < 2 ^ 32 - 1 by omega), Option.bind_eq_bind, Option.bind_some,
    if_pos hend]
  rfl

theorem Obj.Inside.oldEnd (h : r.Inside b)
    (hbits : r.ssize = 0 → r.psize = 0 → r.nelem < 2 ^ 32 - 7) :
    nbufRoundup (sizeT (r.base + if r.elemsz ≠ 0 then sizeT (r.nelem * r.elemsz)
      else bitBytes r.nelem)) 8 = r.roundedEnd r.nelem := by
  have hlen := h.len_lt
  have helems := h.elems
  rw [r.oldBytes hbits, sizeT_of_lt (by omega), nbufRoundup_eq (by omega)]
  rfl

/-- The end that a vector of too many bits seems to have. -/
theorem Obj.Inside.wrappedEnd (h : r.Inside b) (hs : r.ssize = 0) (hp : r.psize = 0)
    (hlarge : 2 ^ 32 - 7 ≤ r.nelem) :
    nbufRoundup (sizeT (r.base + if r.elemsz ≠ 0 then sizeT (r.nelem * r.elemsz)
      else bitBytes r.nelem)) 8 ≠ b.len := by
  have hlen := h.len_lt
  have helems := h.elems
  have h0 : r.elemsz = 0 := r.elemsz_eq_zero_iff.mpr ⟨hs, hp⟩
  unfold elemBytes at helems
  rw [if_pos ⟨hs, hp⟩] at helems
  rw [if_neg (by simp [h0]), bitBytes_wrap hlarge r.nelem_lt, Nat.add_zero, sizeT_of_lt (by omega),
    nbufRoundup_eq (by omega), roundUp_of_dvd (by decide) h.aligned]
  omega

/-- An end that moves down is cleared with a length beyond every capacity. -/
theorem resize_down (h : r.Inside b) (hlast : r.Last b) (hn : n < 2 ^ 32 - 8)
    (hbits : r.ssize = 0 → r.psize = 0 → r.nelem < 2 ^ 32 - 7) (hdown : r.roundedEnd n < b.len) :
    resize a b r n = none := by
  have hlen := h.len_lt
  have hcap := h.len_le_cap
  have hcap' := h.cap_lt
  have hbase := r.base_le_roundedEnd n
  have hlt := r.elemBytes_lt (n := n) (by omega)
  have hle := le_roundUp (show 0 < 8 by decide) (r.base + elemBytes n r.ssize r.psize)
  have hend : roundUp (r.base + elemBytes n r.ssize r.psize) 8 = r.roundedEnd n := rfl
  have hext : b.extent = b.cap := Nat.max_eq_right hcap
  unfold resize
  simp only [h.oldEnd hbits, r.newBytes (show n < 2 ^ 32 by omega),
    assertC_pos (show n < 2 ^ 32 - 1 by omega), Option.bind_eq_bind, Option.bind_some]
  rw [sizeT_of_lt (show r.base + elemBytes n r.ssize r.psize < 2 ^ 64 by omega),
    nbufRoundup_eq (by omega), hend, if_neg (by rw [not_not]; exact hlast)]
  have hlast' : r.roundedEnd r.nelem = b.len := hlast
  rw [hlast', if_neg (by omega)]
  simp only [Option.bind_some, Bool.true_eq_false, if_false,
    assertC_pos (show r.roundedEnd n ≤ b.cap by omega)]
  -- the difference of the ends wraps around
  have hwrap : szSub (r.roundedEnd n) b.len = r.roundedEnd n + (2 ^ 64 - b.len) := by
    unfold szSub sizeT
    omega
  unfold memsetC
  rw [hwrap, assertC_neg (by omega)]
  rfl

/-- **An end that does not move down.** -/
theorem resize_up (ha : a.Total) (h : r.Inside b) (hlast : r.Last b) (hn : n < 2 ^ 32 - 8)
    (hbits : r.ssize = 0 → r.psize = 0 → r.nelem < 2 ^ 32 - 7) (hup : b.len ≤ r.roundedEnd n)
    (hfit : r.roundedEnd n < 2 ^ 63) :
    ∃ b', resize a b r n = some (b', Obj.ofFields r.base n r.ssize r.psize) ∧
      b'.cap < 2 ^ 64 ∧ (∀ i, 8 * r.base ≤ i → i < 8 * b.len → b'.bitAt i = b.bitAt i) ∧
      (CleanBehind b r n ↔ Resized b r n b') := by
  have hlast' : r.roundedEnd r.nelem = b.len := hlast
  have hbase := r.base_le_roundedEnd r.nelem
  have hbase8 := h.behind_header
  have hle := le_roundUp (show 0 < 8 by decide) (r.base + elemBytes n r.ssize r.psize)
  have hend : roundUp (r.base + elemBytes n r.ssize r.psize) 8 = r.roundedEnd n := rfl
  have hlt := r.elemBytes_lt (n := n) (by omega)
  have hnew : nbufRoundup (sizeT (r.base + if r.elemsz ≠ 0 then sizeT (n * r.elemsz)
      else sizeT (n + 7) / 8)) 8 = r.roundedEnd n := by
    rw [r.newBytes (by omega), sizeT_of_lt (by omega), nbufRoundup_eq (by omega)]
    rfl
  obtain ⟨b', hres, hlen', hroom, hcap, hkeep, hzero, hbeyond⟩ := resize_run ha
    ((h.oldEnd hbits).trans hlast') hnew (by omega) hup hbase8 (by omega) h.len_le_cap h.cap_lt hfit
  -- behind the header only what lies beyond the old end has changed
  have hsame : ∀ i, 8 * r.base ≤ i → i < 8 * b.len → b'.bitAt i = b.bitAt i := by
    intro i h1 h2
    unfold Buffer.bitAt bit
    rw [hkeep _ (by omega), store_outside _ (by omega)]
  have hclear : ∀ i, 8 * b.len ≤ i → i < 8 * r.roundedEnd n → b'.bitAt i = false := by
    intro i h1 h2
    unfold Buffer.bitAt bit
    rw [hzero _ (by omega) (by omega)]
    simp
  have hendn := r.bitEnd_le_roundedEnd n
  have hends := r.bitEnd_le_roundedEnd r.nelem
  have hstart : 8 * r.base ≤ r.bitEnd r.nelem := Nat.le_add_right _ _
  refine ⟨b', hres, hcap, hsame, fun hclean => ⟨?_, ?_, ?_, hlen', by omega, ?_⟩,
    fun hresized i h1 h2 h3 => ?_⟩
  · intro i h1 h2
    have := r.bitEnd_mono (Nat.min_le_left r.nelem n)
    exact hsame i h1 (by omega)
  · intro i h1 h2
    rcases Nat.le_total r.nelem n with hmin | hmin
    · rw [Nat.min_eq_left hmin] at h1
      by_cases hold : i < 8 * b.len
      · rw [hsame i (by omega) hold]
        exact hclean i h1 h2 hold
      · exact hclear i (by omega) (by omega)
    · rw [Nat.min_eq_right hmin] at h1
      omega
  · rw [load_congr fun p _ hp => hkeep p (by omega)]
    exact load_hdr_nelem h.header r.nelem_lt (by omega)
  · rintro p (hp | ⟨h1, h2, h3⟩)
    · rw [hkeep p (by omega)]
      exact store_outside _ (Or.inl hp)
    · exact hbeyond p h2 h3
  · have hmin : r.nelem ≤ n := by
      by_contra hmore
      have := r.bitEnd_mono (show n ≤ r.nelem by omega)
      omega
    rw [← hsame i (by omega) h3]
    exact hresized.zero i (by rw [Nat.min_eq_left hmin]; exact h1) h2

end

/-- **When the law holds.** For every object of a write buffer and every new count: exactly unless
it is the last object and it is a vector of `2 ^ 32 - 7` bits or more, its rounded end moves down,
or a bit that is left behind its elements comes back. -/
theorem resizeLaw_iff {a : Realloc} (ha : a.Total) {b : Buffer} {r : Obj} (h : r.Inside b) {n : Nat}
    (hn : n < 2 ^ 32 - 8) (hfit : r.roundedEnd n < 2 ^ 63) :
    ResizeLaw a b r n ↔ (r.Last b → (r.ssize = 0 → r.psize = 0 → r.nelem < 2 ^ 32 - 7) ∧
      b.len ≤ r.roundedEnd n ∧ CleanBehind b r n) := by
  by_cases hbits : r.ssize = 0 → r.psize = 0 → r.nelem < 2 ^ 32 - 7
  · by_cases hlast : r.Last b
    · rcases Nat.lt_or_ge (r.roundedEnd n) b.len with hdown | hup
      · -- the end moves down
        constructor
        · intro hlaw
          obtain ⟨b', hres, -⟩ := hlaw.last hlast
          rw [resize_down h hlast hn hbits hdown] at hres
          cases hres
        · intro hcond
          have := (hcond hlast).2.1
          omega
      · obtain ⟨b', hres, -, -, hiff⟩ := resize_up ha h hlast hn hbits hup hfit
        constructor
        · intro hlaw _
          obtain ⟨b'', hres', hresized⟩ := hlaw.last hlast
          rw [hres, Option.some.injEq, Prod.mk.injEq] at hres'
          exact ⟨hbits, hup, hiff.mpr (hres'.1 ▸ hresized)⟩
        · intro hcond
          exact ⟨fun _ => ⟨b', hres, hiff.mp (hcond hlast).2.2⟩, fun hnot => absurd hlast hnot⟩
    · have hres : resize a b r n = some (b, r) :=
        resize_elsewhere hn (by rw [h.oldEnd hbits]; exact hlast)
      exact ⟨fun _ hl => absurd hl hlast, fun _ => ⟨fun hl => absurd hl hlast, fun _ => hres⟩⟩
  · -- the vector seems to be empty
    push Not at hbits
    obtain ⟨hs, hp, hlarge⟩ := hbits
    have hres : resize a b r n = some (b, r) := resize_elsewhere hn (h.wrappedEnd hs hp hlarge)
    constructor
    · intro hlaw hlast
      obtain ⟨b', hres', -⟩ := hlaw.last hlast
      rw [hres, Option.some.injEq, Prod.mk.injEq] at hres'
      have hcount := congrArg Obj.nelem hres'.2
      rw [Obj.ofFields_nelem (by omega)] at hcount
      omega
    · intro hcond
      refine ⟨fun hlast => ?_, fun _ => hres⟩
      have := (hcond hlast).1 hs hp
      omega

/-- A write buffer with one vector of `n` bytes, whose first bytes are `data`. -/
def vecBuf (n : Nat) (data : List UInt8) : Buffer :=
  { mem := (ByteMem.ofList (List.replicate 8 0 ++ data)).store 0 8 (hdrWord n 1 0)
    len := roundUp (8 + n) 8
    cap := 64 }

def vecObj (n : Nat) : Obj := Obj.ofFields 8 n 1 0

theorem vecObj_inside {n : Nat} (hn : n ≤ 48) (data : List UInt8) :
    (vecObj n).Inside (vecBuf n data) ∧ (vecObj n).Last (vecBuf n data) := by
  have hlt := roundUp_lt (show 0 < 8 by decide) (8 + n)
  have hle := le_roundUp (show 0 < 8 by decide) (8 + n)
  have hnelem : (vecObj n).nelem = n := Obj.ofFields_nelem (by omega)
  have hlen : (vecBuf n data).len = roundUp (8 + n) 8 := rfl
  have hbytes : elemBytes n 1 0 = n := Nat.mul_one n
  refine ⟨⟨?_, show 64 < 2 ^ 64 by decide, by omega, Nat.dvd_refl 8, Nat.le_refl 8, ?_, ?_⟩, ?_⟩
  · show roundUp (8 + n) 8 ≤ 64
    omega
  · rw [hnelem]
    show load (store _ 0 8 (hdrWord n 1 0)) 0 8 = hdrWord n 1 0
    rw [load_store]
    exact Nat.mod_eq_of_lt (hdrWord_lt (by omega) (by decide) (by decide))
  · rw [hnelem]
    show 8 + elemBytes n 1 0 ≤ roundUp (8 + n) 8
    rw [hbytes]
    exact hle
  · show roundUp (8 + elemBytes (vecObj n).nelem 1 0) 8 = roundUp (8 + n) 8
    rw [hnelem, hbytes]

theorem vec_grows : ResizeLaw (granting 0) (vecBuf 3 [7, 8, 9]) (vecObj 3) 4 := by
  refine (resizeLaw_iff (fun _ => rfl) (vecObj_inside (by decide) _).1 (by decide) (by decide)).mpr
    fun _ => ⟨by decide, by decide, fun i h1 h2 _ => ?_⟩
  have h1' : 88 ≤ i := h1
  have h2' : i < 96 := h2
  interval_cases i <;> rfl

/-- **Shrinking** nine bytes to one clears nearly `2 ^ 64` bytes, and a byte that is dropped comes
back when the vector grows again. -/
theorem resize_shrinks : ¬ ResizeLaw (granting 0) (vecBuf 9 []) (vecObj 9) 1 ∧
    ∃ b, resize (granting 0) (vecBuf 2 [1, 255]) (vecObj 2) 1 = some (b, vecObj 1) ∧
      ¬ ResizeLaw (granting 0) b (vecObj 1) 2 := by
  constructor
  · intro hlaw
    obtain ⟨hin, hlast⟩ := vecObj_inside (show 9 ≤ 48 by decide) []
    obtain ⟨b', hres, -⟩ := hlaw.last hlast
    rw [resize_down hin hlast (by decide) (by decide) (by decide)] at hres
    cases hres
  · obtain ⟨hin2, hlast2⟩ := vecObj_inside (show 2 ≤ 48 by decide) [1, 255]
    have htotal : Realloc.Total (granting 0) := fun _ => rfl
    obtain ⟨b, hshrink, hcap, hsame, hiff⟩ := resize_up htotal hin2 hlast2
      (show 1 < 2 ^ 32 - 8 by decide) (by decide) (by decide) (by decide)
    have hone : Resized _ _ 1 b := hiff.mp fun i h1 h2 => absurd (h1.trans_lt h2) (by decide)
    have hlen : b.len = 16 := hone.len_eq
    have hroom := hone.room
    refine ⟨b, hshrink, fun hlaw => ?_⟩
    have hin : (vecObj 1).Inside b := ⟨hroom, hcap, by omega, by decide, by decide, hone.header,
      show 9 ≤ b.len by omega⟩
    have hlast : (vecObj 1).Last b := hlen.symm
    obtain ⟨b', hres, -, -, hiff⟩ := resize_up htotal hin hlast
      (show 2 < 2 ^ 32 - 8 by decide) (by decide) (show b.len ≤ 16 by omega) (by decide)
    obtain ⟨b'', hres', hresized⟩ := hlaw.last hlast
    rw [hres, Option.some.injEq, Prod.mk.injEq] at hres'
    -- bit 72 is the first one of the second byte
    have hclean := hiff.mpr (hres'.1 ▸ hresized) 72 (by decide) (by decide)
      (show 72 < 8 * b.len by omega)
    have hstale : b.bitAt 72 = (vecBuf 2 [1, 255]).bitAt 72 := hsame 72 (by decide) (by decide)
    rw [hclean] at hstale
    exact absurd hstale (by decide)

end Nbuf
