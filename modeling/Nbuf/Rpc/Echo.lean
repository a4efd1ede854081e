import Nbuf.Lib.Chunk
import Nbuf.Schema.Types
import Nbuf.Wire.ReaderSafety

set_option autoImplicit false

/-! # Terminated strings and the echo server (`rpc/echoserver.c`)

The length of a string is the number in its header less one; that the byte it does not count is
NUL is the writer's promise, and `nbuf_get_str` does not look at it. The echo server prints the
name of a request with `%s` into a block that it allocated for the announced length. The model
follows its `on_read` up to that `sprintf`; the reply that it then writes is left out.
-/

namespace Nbuf

/-! ## C strings -/

/-- The string that a C function finds at `buf->base + k`: the bytes before the first NUL in the
allocated memory. Without one the function reads on behind the buffer. -/
def cStrAt (b : Buffer) (k : Nat) : Option Text :=
  let s := b.mem.toList k (b.extent - k)
  if (0 : UInt8) ∈ s then some (s.take (s.idxOf 0)) else none

/-- The string that a C function finds at what `nbuf_get_str` returned. -/
def StrRef.cStr (b : Buffer) (s : StrRef) : Option Text :=
  match s.pos with
  | none => some []
  | some k => cStrAt b k

/-- The first NUL at or after the pointer comes no later than right behind the `len` bytes. -/
def StrRef.Terminated (b : Buffer) (s : StrRef) : Prop :=
  match s.pos with
  | none => True
  | some k => ∃ n, IsLeast {n | b.mem (k + n) = 0} n ∧ n ≤ s.len

/-- The object in slot `i` has no elements, or a zero byte among its first `nelem` bytes. -/
def SlotHoldsNul (b : Buffer) (r : Obj) (i : Nat) : Prop :=
  ∀ rr, getPtr b r i = some rr → rr.nelem = 0 ∨ ∃ n < rr.nelem, b.mem (rr.base + n) = 0

theorem cStrAt_some {b : Buffer} {k : Nat} {t : Text} (h : cStrAt b k = some t) :
    IsLeast {n | b.mem (k + n) = 0} t.length := by
  simp only [cStrAt] at h
  generalize hs : b.mem.toList k (b.extent - k) = s at h
  have hget : ∀ n (hn : n < s.length), s[n] = b.mem (k + n) := by
    intro n hn
    subst hs
    simp [ByteMem.toList]
  by_cases hnul : (0 : UInt8) ∈ s
  · rw [if_pos hnul] at h
    have hlt : s.idxOf 0 < s.length := List.idxOf_lt_length_of_mem hnul
    have hlen : t.length = s.idxOf 0 := by
      rw [← Option.some.inj h, List.length_take_of_le (Nat.le_of_lt hlt)]
    rw [hlen]
    constructor
    · show b.mem (k + s.idxOf 0) = 0
      rw [← hget _ hlt, List.getElem_idxOf hlt]
    · intro n hn
      by_contra hbefore
      have hn' : n < s.idxOf 0 := Nat.not_le.mp hbefore
      have hne := List.not_of_lt_findIdx hn'
      rw [hget] at hne
      simp [show b.mem (k + n) = 0 from hn] at hne
  · rw [if_neg hnul] at h
    cases h

/-- A NUL in the allocated memory ends the string. -/
theorem cStrAt_isSome {b : Buffer} {k n : Nat} (h : b.mem (k + n) = 0) (hn : k + n < b.extent) :
    (cStrAt b k).isSome := by
  have hmem : (0 : UInt8) ∈ b.mem.toList k (b.extent - k) :=
    List.mem_map.mpr ⟨n, List.mem_range.mpr (by omega), h⟩
  simp [cStrAt, hmem]

theorem StrRef.terminated_some_iff {b : Buffer} {k len : Nat} :
    (⟨some k, len⟩ : StrRef).Terminated b ↔ ∃ n ≤ len, b.mem (k + n) = 0 := by
  constructor
  · rintro ⟨n, hleast, hn⟩
    exact ⟨n, hn, hleast.1⟩
  · rintro ⟨n, hn, hnul⟩
    have hex : ∃ n, b.mem (k + n) = 0 := ⟨n, hnul⟩
    exact ⟨Nat.find hex, Nat.isLeast_find hex, Nat.le_trans (Nat.find_min' hex hnul) hn⟩

/-- What `nbuf_get_str` returns, seen from the object in the slot. -/
theorem getStr_target {b : Buffer} (hlen : b.len < 2 ^ 63) {r : Obj} {i : Nat} {s : StrRef}
    (h : getStr b r i = some s) :
    ∃ rr, getPtr b r i = some rr ∧
      (rr.nelem = 0 ∧ s = ⟨none, 0⟩ ∨
        s = ⟨some rr.base, rr.nelem - 1⟩ ∧ 0 < rr.nelem ∧ rr.base + rr.nelem ≤ b.len) := by
  obtain ⟨rr, hrr, h⟩ := Option.bind_eq_some_iff.mp h
  refine ⟨rr, hrr, ?_⟩
  by_cases hpos : rr.nelem > 0
  · have hbase := (getPtr_accepted hlen hrr).1
    have hnelem := rr.nelem_lt
    rw [if_pos hpos, assertC_bind_eq_some, sizeT_of_lt (by omega),
      boundsCheck_of_len_lt hlen (by decide)] at h
    exact Or.inr ⟨(Option.some.inj h.2).symm, hpos, by omega⟩
  · rw [if_neg hpos] at h
    exact Or.inl ⟨by omega, (Option.some.inj h).symm⟩

/-- A string is terminated if its writer put a NUL among the bytes that the header counts. -/
theorem StrRef.terminated_iff {b : Buffer} (hlen : b.len < 2 ^ 63) {r : Obj} {i : Nat} {s : StrRef}
    (h : getStr b r i = some s) : s.Terminated b ↔ SlotHoldsNul b r i := by
  obtain ⟨rr, hrr, hs⟩ := getStr_target hlen h
  have hslot : SlotHoldsNul b r i ↔ rr.nelem = 0 ∨ ∃ n < rr.nelem, b.mem (rr.base + n) = 0 := by
    simp [SlotHoldsNul, hrr]
  rw [hslot]
  rcases hs with ⟨hempty, rfl⟩ | ⟨rfl, hpos, -⟩
  · exact iff_of_true trivial (Or.inl hempty)
  · rw [StrRef.terminated_some_iff]
    constructor
    · rintro ⟨n, hn, hnul⟩
      exact Or.inr ⟨n, by omega, hnul⟩
    · rintro (hempty | ⟨n, hn, hnul⟩)
      · omega
      · exact ⟨n, by omega, hnul⟩

/-! ## The greeting -/

namespace Rpc

/-- `sprintf(msg, "hello, %s!", name)` -/
def sprintfHello (msg : Chunk) (name : Text) : Option Chunk :=
  msg.strcpy 0 (asc "hello, " ++ name ++ asc "!")

/-- The part of `on_read` that makes the greeting, with its `msglen`. `block` is the contents of
the memory that is allocated for it. -/
def greeting (block : ByteMem) (b : Buffer) (name : StrRef) : Option (Chunk × Nat) :=
  let namelen := name.len
  if namelen ≠ 0 then do
    let msglen := sizeT (namelen + 8)
    let msg : Chunk := ⟨block, sizeT (msglen + 1)⟩
    let msg ← sprintfHello msg (← name.cStr b)
    pure (msg, msglen)
  else some (⟨ByteMem.ofList (asc "hello!" ++ [0]), 7⟩, 6)

/-- `on_read` of the server up to the greeting: the request is the root of the buffer and its name
is in slot `0`. -/
def echoOnRead (block : ByteMem) (b : Buffer) : Option (Chunk × Nat) := do
  let req ← objInit b Obj.null 0
  let name ← getStr b req 0
  greeting block b name

/-- The formatted greeting is eight characters and a terminator longer than the name. -/
theorem sprintfHello_isSome_iff {msg : Chunk} {name : Text} :
    (sprintfHello msg name).isSome ↔ name.length + 9 ≤ msg.size := by
  have hlen : (asc "hello, " ++ name ++ asc "!").length = 7 + name.length + 1 := by
    rw [List.length_append, List.length_append]
    rfl
  rw [sprintfHello, Chunk.strcpy_isSome_iff, hlen]
  omega

/-- The greeting fits into its block if the name ends where its length says. -/
theorem greeting_isSome_iff (block : ByteMem) {b : Buffer} (hlen : b.len < 2 ^ 63) {r : Obj}
    {i : Nat} {s : StrRef} (h : getStr b r i = some s) :
    (greeting block b s).isSome ↔ s.len = 0 ∨ s.Terminated b := by
  obtain ⟨rr, -, hs⟩ := getStr_target hlen h
  rcases hs with ⟨-, rfl⟩ | ⟨rfl, hpos, hin⟩
  · exact iff_of_true rfl (Or.inl rfl)
  · by_cases hempty : rr.nelem - 1 = 0
    · exact iff_of_true (by simp [greeting, hempty]) (Or.inl hempty)
    · have hnelem := rr.nelem_lt
      have hsize : sizeT (sizeT (rr.nelem - 1 + 8) + 1) = rr.nelem - 1 + 9 := by
        rw [sizeT_of_lt (by omega : rr.nelem - 1 + 8 < 2 ^ 64), sizeT_of_lt (by omega)]
      have hgreet : (greeting block b ⟨some rr.base, rr.nelem - 1⟩).isSome ↔
          ∃ t, cStrAt b rr.base = some t ∧ t.length ≤ rr.nelem - 1 := by
        cases ht : cStrAt b rr.base with
        | none => simp [greeting, StrRef.cStr, hempty, ht]
        | some t =>
            have hfits : (sprintfHello ⟨block, rr.nelem - 1 + 9⟩ t).isSome ↔ t.length ≤ rr.nelem - 1 := by
              rw [sprintfHello_isSome_iff]
              show t.length + 9 ≤ rr.nelem - 1 + 9 ↔ _
              omega
            simp [greeting, StrRef.cStr, hempty, ht, hsize, hfits, Option.isSome_bind]
      rw [hgreet]
      constructor
      · rintro ⟨t, ht, hle⟩
        exact Or.inr ⟨t.length, cStrAt_some ht, hle⟩
      · rintro (h0 | ⟨n, hleast, hn⟩)
        · exact absurd h0 hempty
        · have hn : n ≤ rr.nelem - 1 := hn
          have hext := len_le_extent b
          have hsome := cStrAt_isSome (b := b) hleast.1 (by omega)
          obtain ⟨t, ht⟩ := Option.isSome_iff_exists.mp hsome
          have hlength : t.length = n := (cStrAt_some ht).unique hleast
          exact ⟨t, ht, by omega⟩

/-- **Strings handed to C callers.** What `nbuf_get_str` returns is terminated if and only if the
object in the slot is empty or has a NUL among the bytes its header counts, and the greeting of
the echo server stays inside its block if and only if that holds of the name of the request or the
name counts no byte before the terminator. -/
theorem received_str_terminated_iff (block : ByteMem) {b : Buffer} (hlen : b.len < 2 ^ 63) :
    (∀ r i s, getStr b r i = some s → (s.Terminated b ↔ SlotHoldsNul b r i)) ∧
      ∀ req name, objInit b Obj.null 0 = some req → getStr b req 0 = some name →
        ((echoOnRead block b).isSome ↔
          (∀ rr, getPtr b req 0 = some rr → rr.nelem ≤ 1) ∨ SlotHoldsNul b req 0) := by
  refine ⟨fun r i s hs => StrRef.terminated_iff hlen hs, ?_⟩
  intro req name hreq hname
  have hread : echoOnRead block b = greeting block b name := by
    simp [echoOnRead, hreq, hname]
  obtain ⟨rr, hrr, hs⟩ := getStr_target hlen hname
  have hempty : name.len = 0 ↔ ∀ rr, getPtr b req 0 = some rr → rr.nelem ≤ 1 := by
    simp only [hrr, Option.some.injEq, forall_eq']
    rcases hs with ⟨h0, rfl⟩ | ⟨rfl, hpos, -⟩
    · exact iff_of_true rfl (by omega)
    · show rr.nelem - 1 = 0 ↔ rr.nelem ≤ 1
      omega
  rw [hread, greeting_isSome_iff block hlen hname, hempty, StrRef.terminated_iff hlen hname]

/-- A request whose name announces two bytes, and a third one instead of the NUL. -/
def unterminated : ByteBlock :=
  ⟨[1, 0, 0, 0, 0, 0, 1, 0, 1, 0, 0, 0, 3, 0, 0, 0, 1, 0, 0, 0, 97, 98, 99, 100, 0], by decide⟩

/-- The name of that request has two bytes for the reader and four for `sprintf`, which writes
thirteen bytes into a block of eleven. -/
theorem unterminated_overflow : ∃ name,
    objInit (initRead unterminated) Obj.null 0 = some (Obj.ofFields 8 1 0 1) ∧
      getStr (initRead unterminated) (Obj.ofFields 8 1 0 1) 0 = some name ∧ name.len = 2 ∧
      ¬ name.Terminated (initRead unterminated) ∧
      name.cStr (initRead unterminated) = some (asc "abcd") ∧
      echoOnRead (fun _ => 170) (initRead unterminated) = none := by
  refine ⟨⟨some 20, 2⟩, by decide, by decide, rfl, ?_, by decide, by decide⟩
  rw [StrRef.terminated_some_iff]
  decide

theorem strBlock_terminated : (⟨some 20, 2⟩ : StrRef).Terminated (initRead strBlock) :=
  ((received_str_terminated_iff (fun _ => 0) (by decide)).1 (Obj.ofFields 8 1 0 1) 0 _
    (by decide)).mpr fun rr hrr => by
      have hptr : getPtr (initRead strBlock) (Obj.ofFields 8 1 0 1) 0
          = some (Obj.ofFields 20 3 1 0) := by decide
      rw [hptr, Option.some.injEq] at hrr
      subst hrr
      exact Or.inr ⟨2, by decide, by decide⟩

end Rpc

end Nbuf
