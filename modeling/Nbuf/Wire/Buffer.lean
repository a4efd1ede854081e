import Nbuf.Lib.Align
import Nbuf.Lib.ByteMem

set_option autoImplicit false

/-! # Buffers (`include/nbuf.h`, `struct nbuf_buffer`)

A buffer is a block of bytes with a length and a capacity. A C operation is a function into
`Option`: `none` stands for a run that stops at a failed `assert` or that touches a byte
outside the allocated block. `size_t` has 64 bits; `NBUF_UNSAFE` and `NBUF_BIG_ENDIAN` are
not defined. Memory handed out by `realloc` has arbitrary contents, so every operation that
may allocate takes the answer of `realloc` as an argument.
-/

namespace Nbuf

open Align

/-! ## `size_t` -/

/-- The value of a `size_t` expression. -/
def sizeT (n : Nat) : Nat := n % 2 ^ 64

/-- The difference of two `size_t` values. -/
def szSub (a b : Nat) : Nat := sizeT (a + (2 ^ 64 - b))

theorem sizeT_lt (n : Nat) : sizeT n < 2 ^ 64 := Nat.mod_lt n (by decide)

theorem sizeT_of_lt {n : Nat} (h : n < 2 ^ 64) : sizeT n = n := Nat.mod_eq_of_lt h

theorem szSub_of_le {a b : Nat} (h : b ≤ a) (ha : a < 2 ^ 64) : szSub a b = a - b := by
  simp only [szSub, sizeT]
  omega

/-- `NBUF_ROUNDUP` on `size_t` values. -/
def nbufRoundup (x n : Nat) : Nat := sizeT (x + (n - 1)) / n * n

theorem nbufRoundup_eq {x n : Nat} (h : x + (n - 1) < 2 ^ 64) : nbufRoundup x n = roundUp x n := by
  rw [nbufRoundup, sizeT_of_lt h, roundUp]

/-- The outcome of an `assert`. -/
def assertC (p : Prop) [Decidable p] : Option Unit := if p then some () else none

@[simp] theorem assertC_pos {p : Prop} [Decidable p] (h : p) : assertC p = some () := if_pos h

@[simp] theorem assertC_neg {p : Prop} [Decidable p] (h : ¬ p) : assertC p = none := if_neg h

theorem assertC_bind_eq_some {α : Type} {p : Prop} [Decidable p] {k : Unit → Option α} {a : α} :
    (assertC p >>= k) = some a ↔ p ∧ k () = some a := by
  by_cases h : p
  · simp [h]
  · simp [h]

/-! ## The structure -/

/-- `struct nbuf_buffer` of a plain buffer (`ops` is `NULL`), with the bytes at `base`. -/
structure Buffer where
  mem : ByteMem
  len : Nat
  cap : Nat

/-- The number of bytes allocated at `base`: a read buffer has capacity `0` and owns its
`len` bytes. -/
def Buffer.extent (b : Buffer) : Nat := max b.len b.cap

/-- The bytes of the buffer. -/
def Buffer.bytes (b : Buffer) : List UInt8 := b.mem.toList 0 b.len

@[simp] theorem Buffer.length_bytes (b : Buffer) : b.bytes.length = b.len :=
  ByteMem.length_toList _ _ _

/-- A block of received bytes. No C object is larger than `PTRDIFF_MAX` bytes. -/
structure ByteBlock where
  data : List UInt8
  length_lt : data.length < 2 ^ 63

/-- `nbuf_init_read` -/
def initRead (block : ByteBlock) : Buffer :=
  { mem := ByteMem.ofList block.data, len := block.data.length, cap := 0 }

/-- `nbuf_init_write`, with `block` the caller's memory or what `malloc` returned. -/
def initWrite (block : ByteMem) (size : Nat) : Buffer :=
  { mem := block, len := 0, cap := size }

@[simp] theorem bytes_initRead (block : ByteBlock) : (initRead block).bytes = block.data :=
  ByteMem.toList_ofList _

/-! ## Growth -/

/-- The answer of `realloc` for each size: failure, or a block whose new bytes are arbitrary. -/
abbrev Realloc := Nat → Option ByteMem

/-- Every request is granted. -/
def Realloc.Total (a : Realloc) : Prop := ∀ n, (a n).isSome

/-- A `realloc` that grants every request, whenever it is made. -/
def granting (_ _ : Nat) : Option ByteMem := some fun _ => 170

/-- The doubling loop of `nbuf_reserve`. The inner `none` is the `return false` on a capacity
that has become `0`; the outer one says that the fuel ran out. -/
def growCap (len inc : Nat) : Nat → Nat → Option (Option Nat)
  | 0, _ => none
  | fuel + 1, cap =>
      if inc > szSub cap len then
        if sizeT (cap * 2) = 0 then some none else growCap len inc fuel (sizeT (cap * 2))
      else some (some cap)

/-- `nbuf_reserve`. Doubling a 64-bit number 64 times gives `0`, so the loop needs at most 65
rounds. -/
def reserve (a : Realloc) (b : Buffer) (inc : Nat) : Option (Bool × Buffer) := do
  assertC (b.len ≤ b.cap)
  match ← growCap b.len inc 65 (if b.cap = 0 then 64 else b.cap) with
  | none => pure (false, b)
  | some cap =>
      if cap > b.cap then
        match a cap with
        | none => pure (false, b)
        | some fresh =>
            pure (true, { b with mem := ByteMem.copy fresh 0 b.mem 0 b.cap, cap := cap })
      else pure (true, b)

theorem growCap_spec {len inc : Nat} (h : len + inc ≤ 2 ^ 63) :
    ∀ (fuel cap : Nat), len ≤ cap → cap < 2 ^ 64 → 2 ^ 63 ≤ cap * 2 ^ fuel →
      ∃ cap', growCap len inc (fuel + 1) cap = some (some cap') ∧ cap ≤ cap' ∧
        len + inc ≤ cap' ∧ cap' < 2 ^ 64 := by
  intro fuel
  induction fuel with
  | zero =>
      intro cap hlen hlt hbig
      refine ⟨cap, ?_, Nat.le_refl _, by omega, hlt⟩
      rw [growCap, szSub_of_le hlen hlt, if_neg (by omega)]
  | succ fuel ih =>
      intro cap hlen hlt hbig
      rw [growCap, szSub_of_le hlen hlt]
      by_cases hfit : inc > cap - len
      · have hdouble : sizeT (cap * 2) = cap * 2 := sizeT_of_lt (by omega)
        have hpos : 0 < cap := by
          rcases Nat.eq_zero_or_pos cap with rfl | hpos
          · simp at hbig
          · exact hpos
        have hpow : cap * 2 * 2 ^ fuel = cap * 2 ^ (fuel + 1) := by ring
        obtain ⟨cap', hgrow, hge, hroom, hlt'⟩ := ih (cap * 2) (by omega) (by omega) (by omega)
        refine ⟨cap', ?_, by omega, hroom, hlt'⟩
        rw [if_pos hfit, hdouble, if_neg (by omega), hgrow]
      · exact ⟨cap, by rw [if_neg hfit], Nat.le_refl _, by omega, hlt⟩

/-- **A granted reservation** makes room and keeps the bytes of the buffer. -/
theorem reserve_spec {a : Realloc} (ha : a.Total) {b : Buffer} {inc : Nat}
    (hlen : b.len ≤ b.cap) (hcap : b.cap < 2 ^ 64) (hinc : b.len + inc ≤ 2 ^ 63) :
    ∃ b', reserve a b inc = some (true, b') ∧ b'.len = b.len ∧ b.len + inc ≤ b'.cap ∧
      b.cap ≤ b'.cap ∧ b'.cap < 2 ^ 64 ∧ ∀ i, i < b.cap → b'.mem i = b.mem i := by
  have hstart : ∃ cap', growCap b.len inc 65 (if b.cap = 0 then 64 else b.cap)
      = some (some cap') ∧ b.cap ≤ cap' ∧ b.len + inc ≤ cap' ∧ cap' < 2 ^ 64 := by
    by_cases h0 : b.cap = 0
    · obtain ⟨cap', hgrow, hge, hroom, hlt⟩ := growCap_spec hinc 64 64 (by omega) (by decide)
        (by decide)
      exact ⟨cap', by rw [if_pos h0, hgrow], by omega, hroom, hlt⟩
    · obtain ⟨cap', hgrow, hge, hroom, hlt⟩ := growCap_spec hinc 64 b.cap hlen hcap (by omega)
      exact ⟨cap', by rw [if_neg h0, hgrow], hge, hroom, hlt⟩
  obtain ⟨cap', hgrow, hge, hroom, hlt⟩ := hstart
  obtain ⟨fresh, hfresh⟩ := Option.isSome_iff_exists.mp (ha cap')
  by_cases hmore : cap' > b.cap
  · refine ⟨{ b with mem := ByteMem.copy fresh 0 b.mem 0 b.cap, cap := cap' },
      by simp [reserve, hlen, hgrow, hmore, hfresh], rfl, hroom, hge, hlt, ?_⟩
    intro i hi
    show ByteMem.copy fresh 0 b.mem 0 b.cap i = b.mem i
    rw [ByteMem.copy_inside fresh b.mem 0 (Nat.zero_le i) (by omega)]
    congr 1
    omega
  · exact ⟨b, by simp [reserve, hlen, hgrow, hmore], rfl, by omega, Nat.le_refl _, hcap,
      fun _ _ => rfl⟩

/-! ## Reading and writing numbers -/

/-- The widths `nbuf_read_int_unsafe` and `nbuf_write_int_unsafe` accept. -/
def scalarSize (sz : Nat) : Bool := sz == 1 || sz == 2 || sz == 4 || sz == 8

/-- `nbuf_bounds_check` -/
def boundsCheck (b : Buffer) (byteOffset sz : Nat) : Bool :=
  decide (byteOffset ≤ b.len) && decide (sizeT (byteOffset + sz) ≤ b.len)

theorem boundsCheck_iff {b : Buffer} {k sz : Nat} (h : k + sz < 2 ^ 64) :
    boundsCheck b k sz = true ↔ k + sz ≤ b.len := by
  rw [boundsCheck, sizeT_of_lt h, Bool.and_eq_true, decide_eq_true_eq, decide_eq_true_eq]
  omega

/-- In a buffer that ends well below `2 ^ 64` the sum in a bounds check does not wrap. -/
theorem boundsCheck_of_len_lt {b : Buffer} {k sz : Nat} (hlen : b.len < 2 ^ 63)
    (hsz : sz ≤ 2 ^ 63) : boundsCheck b k sz = true ↔ k + sz ≤ b.len := by
  by_cases hk : k ≤ b.len
  · exact boundsCheck_iff (by omega)
  · simp only [boundsCheck, Bool.and_eq_true, decide_eq_true_eq]
    omega

/-- `nbuf_read_int_unsafe(buf->base + k, sz)`: a sign-extended number. -/
def readIntUnsafe (b : Buffer) (k sz : Nat) : Option Int := do
  assertC (scalarSize sz = true)
  assertC (k + sz ≤ b.extent)
  pure ((b.mem.load k sz : Int).bmod (256 ^ sz))

/-- `nbuf_read_int_safe` -/
def readIntSafe (b : Buffer) (base sz : Nat) : Option Int := do
  assertC (boundsCheck b base sz = true)
  readIntUnsafe b base sz

/-- `nbuf_write_int_unsafe(buf->base + k, sz, v)` -/
def writeIntUnsafe (b : Buffer) (k sz v : Nat) : Option Buffer := do
  assertC (scalarSize sz = true)
  assertC (k + sz ≤ b.extent)
  pure { b with mem := b.mem.store k sz v }

/-- `nbuf_write_int_safe` -/
def writeIntSafe (b : Buffer) (base sz v : Nat) : Option Buffer := do
  assertC (boundsCheck b base sz = true)
  writeIntUnsafe b base sz v

/-- `memset(buf->base + k, c, n)` -/
def memsetC (b : Buffer) (k : Nat) (c : UInt8) (n : Nat) : Option Buffer := do
  assertC (k + n ≤ b.extent)
  pure { b with mem := b.mem.fill k n c }

/-- `memcpy(buf->base + k, src, n)` from a block of `srcLen` bytes -/
def memcpyC (b : Buffer) (k : Nat) (src : ByteMem) (srcLen n : Nat) : Option Buffer := do
  assertC (n ≤ srcLen)
  assertC (k + n ≤ b.extent)
  pure { b with mem := b.mem.copy k src 0 n }

/-- Reading `n` bytes at `buf->base + k` without a check, as the printers do. -/
def readBytes (b : Buffer) (k n : Nat) : Option (List UInt8) := do
  assertC (k + n ≤ b.extent)
  pure (b.mem.toList k n)

theorem len_le_extent (b : Buffer) : b.len ≤ b.extent := Nat.le_max_left _ _

theorem cap_le_extent (b : Buffer) : b.cap ≤ b.extent := Nat.le_max_right _ _

theorem readIntSafe_of_le {b : Buffer} {k sz : Nat} (hsz : scalarSize sz = true)
    (h : k + sz ≤ b.len) (hlen : b.len < 2 ^ 64) :
    readIntSafe b k sz = some ((b.mem.load k sz : Int).bmod (256 ^ sz)) := by
  have hchk : boundsCheck b k sz = true := (boundsCheck_iff (by omega)).mpr h
  have hext : k + sz ≤ b.extent := Nat.le_trans h (len_le_extent b)
  simp [readIntSafe, readIntUnsafe, hchk, hsz, hext]

theorem writeIntSafe_of_le {b : Buffer} {k sz : Nat} (v : Nat) (hsz : scalarSize sz = true)
    (h : k + sz ≤ b.len) (hlen : b.len < 2 ^ 64) :
    writeIntSafe b k sz v = some { b with mem := b.mem.store k sz v } := by
  have hchk : boundsCheck b k sz = true := (boundsCheck_iff (by omega)).mpr h
  have hext : k + sz ≤ b.extent := Nat.le_trans h (len_le_extent b)
  simp [writeIntSafe, writeIntUnsafe, hchk, hsz, hext]

/-- A write changes the bytes only. -/
theorem writeIntSafe_mem {b b' : Buffer} {k sz v : Nat} (h : writeIntSafe b k sz v = some b') :
    ∃ m, b' = { b with mem := m } := by
  rw [writeIntSafe, assertC_bind_eq_some] at h
  have h := h.2
  rw [writeIntUnsafe, assertC_bind_eq_some] at h
  have h := h.2
  rw [assertC_bind_eq_some] at h
  exact ⟨_, (Option.some.inj h.2).symm⟩

/-- **A checked read succeeds exactly inside the buffer.** -/
theorem readIntSafe_isSome_iff {b : Buffer} {k sz : Nat} (hsz : scalarSize sz = true)
    (hlen : b.len < 2 ^ 63) : (readIntSafe b k sz).isSome ↔ k + sz ≤ b.len := by
  have hle : sz ≤ 2 ^ 63 := by
    simp only [scalarSize, Bool.or_eq_true, beq_iff_eq] at hsz
    omega
  constructor
  · intro h
    by_contra hout
    have hchk : ¬ boundsCheck b k sz = true := fun hc =>
      hout ((boundsCheck_of_len_lt hlen hle).mp hc)
    simp [readIntSafe, hchk] at h
  · intro h
    rw [readIntSafe_of_le hsz h (by omega)]
    rfl

end Nbuf
