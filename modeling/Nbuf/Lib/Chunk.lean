import Nbuf.Lib.ByteMem

set_option autoImplicit false

/-! # Allocated chunks

A chunk is what `malloc` returns: bytes of arbitrary contents and their number. Bytes are
written one after the other, and a write behind the end stops the program (`none`). A C string
is a list of bytes and the terminator that `strcpy` writes after them.
-/

structure Chunk where
  data : ByteMem
  size : Nat

namespace Chunk

/-- `p[k] = c` -/
def put (p : Chunk) (k : Nat) (c : UInt8) : Option Chunk :=
  if k < p.size then some { p with data := Function.update p.data k c } else none

/-- The bytes of `s`, one after the other, from `k` on. -/
def puts (p : Chunk) (k : Nat) : List UInt8 → Option Chunk
  | [] => some p
  | c :: s => (p.put k c).bind fun p => p.puts (k + 1) s

/-- `strcpy(p + k, s)` -/
def strcpy (p : Chunk) (k : Nat) (s : List UInt8) : Option Chunk := p.puts k (s ++ [0])

@[simp] theorem puts_nil (p : Chunk) (k : Nat) : p.puts k [] = some p := rfl

theorem put_of_lt {p : Chunk} {k : Nat} (c : UInt8) (h : k < p.size) :
    p.put k c = some { p with data := Function.update p.data k c } := if_pos h

theorem put_of_le {p : Chunk} {k : Nat} (c : UInt8) (h : p.size ≤ k) : p.put k c = none :=
  if_neg (Nat.not_lt.mpr h)

theorem put_size {p q : Chunk} {k : Nat} {c : UInt8} (h : p.put k c = some q) :
    q.size = p.size := by
  by_cases hk : k < p.size
  · rw [put_of_lt c hk] at h
    rw [← Option.some.inj h]
  · rw [put_of_le c (Nat.not_lt.mp hk)] at h
    cases h

/-- A chunk that took bytes has the size it had. -/
theorem puts_size {p q : Chunk} {k : Nat} {s : List UInt8} (h : p.puts k s = some q) :
    q.size = p.size := by
  induction s generalizing p k with
  | nil => rw [← Option.some.inj h]
  | cons c s ih =>
      obtain ⟨p', hput, hrest⟩ := Option.bind_eq_some_iff.mp h
      rw [ih hrest, put_size hput]

/-- **Bytes can be written exactly where they fit.** -/
theorem puts_isSome_iff {p : Chunk} {k : Nat} {s : List UInt8} (hs : s ≠ []) :
    (p.puts k s).isSome ↔ k + s.length ≤ p.size := by
  induction s generalizing p k with
  | nil => exact absurd rfl hs
  | cons c s ih =>
      rw [puts, List.length_cons]
      by_cases hk : k < p.size
      · rw [put_of_lt c hk, Option.bind_some]
        by_cases hne : s = []
        · simp only [hne, puts_nil, Option.isSome_some, List.length_nil, true_iff]
          exact hk
        · rw [ih hne]
          show k + 1 + s.length ≤ p.size ↔ k + (s.length + 1) ≤ p.size
          omega
      · rw [put_of_le c (Nat.not_lt.mp hk), Option.bind_none]
        simp only [Option.isSome_none, Bool.false_eq_true, false_iff]
        omega

theorem puts_isSome {p : Chunk} {k : Nat} {s : List UInt8} (h : k + s.length ≤ p.size) :
    (p.puts k s).isSome := by
  by_cases hs : s = []
  · simp [hs]
  · exact (puts_isSome_iff hs).mpr h

/-- A string is copied exactly where it fits with its terminator. -/
theorem strcpy_isSome_iff {p : Chunk} {k : Nat} {s : List UInt8} :
    (p.strcpy k s).isSome ↔ k + s.length + 1 ≤ p.size := by
  rw [strcpy, puts_isSome_iff (by simp), List.length_append, List.length_singleton, Nat.add_assoc]

theorem strcpy_of_le {p : Chunk} {k : Nat} {s : List UInt8} (h : k + s.length + 1 ≤ p.size) :
    ∃ q, p.strcpy k s = some q ∧ q.size = p.size := by
  obtain ⟨q, hq⟩ := Option.isSome_iff_exists.mp (strcpy_isSome_iff.mpr h)
  exact ⟨q, hq, puts_size hq⟩

theorem strcpy_some {p q : Chunk} {k : Nat} {s : List UInt8} (h : p.strcpy k s = some q) :
    k + s.length + 1 ≤ p.size ∧ q.size = p.size :=
  ⟨strcpy_isSome_iff.mp (Option.isSome_of_eq_some h), puts_size h⟩

/-- Bytes written from `k` on leave the bytes before `k` alone and stand where they were written. -/
theorem puts_data {p q : Chunk} {k : Nat} {s : List UInt8} (h : p.puts k s = some q) :
    (∀ i < k, q.data i = p.data i) ∧ ∀ i, (hi : i < s.length) → q.data (k + i) = s[i] := by
  induction s generalizing p k with
  | nil =>
      obtain rfl := Option.some.inj h
      exact ⟨fun _ _ => rfl, fun i hi => absurd hi (Nat.not_lt_zero i)⟩
  | cons c s ih =>
      obtain ⟨p', hput, hrest⟩ := Option.bind_eq_some_iff.mp h
      have hdata : p'.data = Function.update p.data k c := by
        by_cases hk : k < p.size
        · rw [put_of_lt c hk] at hput
          rw [← Option.some.inj hput]
        · rw [put_of_le c (Nat.not_lt.mp hk)] at hput
          cases hput
      obtain ⟨hbefore, hat⟩ := ih hrest
      constructor
      · intro i hi
        rw [hbefore i (by omega), hdata, Function.update_of_ne (by omega)]
      · intro i hi
        cases i with
        | zero =>
            rw [Nat.add_zero, hbefore k (by omega), hdata, Function.update_self]
            rfl
        | succ i =>
            have hnext := hat i (by simpa using hi)
            rw [show k + (i + 1) = k + 1 + i by omega, hnext]
            rfl

/-- A copied string is found where it was copied to. -/
theorem strcpy_toList {p q : Chunk} {k : Nat} {s : List UInt8} (h : p.strcpy k s = some q) :
    q.data.toList k s.length = s := by
  refine List.ext_getElem (ByteMem.length_toList _ _ _) fun i _ hi => ?_
  have hat := (puts_data h).2 i (by rw [List.length_append]; omega)
  rw [List.getElem_append_left hi] at hat
  simpa [ByteMem.toList] using hat

end Chunk
