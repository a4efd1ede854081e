import Mathlib.Tactic

set_option autoImplicit false

/-! # Byte memory

A block of memory is a function from positions to bytes. Numbers are stored little-endian:
`load m k n` is the number in the `n` bytes from `k` on and `store m k n v` writes the low
`n` bytes of `v` there. `fill` and `copy` are the block operations of the C library. Every
operation comes with the bytes it writes and the bytes it leaves alone.
-/

/-- A block of bytes, by position. -/
abbrev ByteMem := Nat → UInt8

namespace ByteMem

/-! ## Loads -/

/-- The little-endian number in the `n` bytes from position `k` on. -/
def load (m : ByteMem) : Nat → Nat → Nat
  | _, 0 => 0
  | k, n + 1 => (m k).toNat + 256 * load m (k + 1) n

@[simp] theorem load_zero (m : ByteMem) (k : Nat) : load m k 0 = 0 := rfl

theorem load_succ (m : ByteMem) (k n : Nat) :
    load m k (n + 1) = (m k).toNat + 256 * load m (k + 1) n := rfl

theorem load_one (m : ByteMem) (k : Nat) : load m k 1 = (m k).toNat := by simp [load]

theorem load_lt (m : ByteMem) (k n : Nat) : load m k n < 256 ^ n := by
  induction n generalizing k with
  | zero => simp
  | succ n ih =>
      have hb : (m k).toNat < 256 := (m k).toNat_lt
      have hrest := ih (k + 1)
      rw [load_succ, pow_succ]
      omega

/-- A load depends only on the bytes it covers. -/
theorem load_congr {m m' : ByteMem} {k n : Nat}
    (h : ∀ i, k ≤ i → i < k + n → m i = m' i) : load m k n = load m' k n := by
  induction n generalizing k with
  | zero => rfl
  | succ n ih =>
      rw [load_succ, load_succ, h k (Nat.le_refl k) (by omega),
        ih (fun i h1 h2 => h i (by omega) (by omega))]

/-- A load in two parts. -/
theorem load_add (m : ByteMem) (k a b : Nat) :
    load m k (a + b) = load m k a + 256 ^ a * load m (k + a) b := by
  induction a generalizing k with
  | zero => simp
  | succ a ih =>
      have hassoc : k + 1 + a = k + (a + 1) := by omega
      rw [Nat.succ_add, load_succ, ih, load_succ, hassoc, pow_succ]
      ring

/-- The same load in two blocks that agree up to a shift. -/
theorem load_shift {m m' : ByteMem} {k k' n : Nat}
    (h : ∀ j, j < n → m (k + j) = m' (k' + j)) : load m k n = load m' k' n := by
  induction n generalizing k k' with
  | zero => rfl
  | succ n ih =>
      have h0 : m k = m' k' := h 0 (Nat.succ_pos n)
      have hrest : load m (k + 1) n = load m' (k' + 1) n := by
        apply ih
        intro j hj
        have := h (j + 1) (by omega)
        rwa [Nat.add_right_comm, Nat.add_right_comm k', Nat.add_assoc, Nat.add_assoc k']
      rw [load_succ, load_succ, h0, hrest]

theorem load_eq_zero {m : ByteMem} {k n : Nat} (h : ∀ j, j < n → m (k + j) = 0) :
    load m k n = 0 := by
  induction n generalizing k with
  | zero => rfl
  | succ n ih =>
      have h0 : m k = 0 := h 0 (Nat.succ_pos n)
      have hrest : load m (k + 1) n = 0 := by
        apply ih
        intro j hj
        have := h (j + 1) (by omega)
        rwa [Nat.add_right_comm, Nat.add_assoc]
      rw [load_succ, h0, hrest]
      rfl

/-- The `j`-th byte of a loaded number is the `j`-th byte of memory. -/
theorem byte_of_load (m : ByteMem) (k : Nat) {n j : Nat} (hj : j < n) :
    UInt8.ofNat (load m k n / 256 ^ j) = m (k + j) := by
  induction n generalizing k j with
  | zero => omega
  | succ n ih =>
      have hb : (m k).toNat < 256 := (m k).toNat_lt
      cases j with
      | zero =>
          rw [load_succ, pow_zero, Nat.div_one]
          apply UInt8.toNat_inj.mp
          show _ = (m k).toNat
          rw [UInt8.toNat_ofNat']
          omega
      | succ j =>
          have hdiv : load m k (n + 1) / 256 ^ (j + 1) = load m (k + 1) n / 256 ^ j := by
            rw [load_succ, pow_succ', ← Nat.div_div_eq_div_mul]
            congr 1
            omega
          rw [hdiv, ih (k + 1) (by omega)]
          congr 1
          omega

/-! ## Stores -/

/-- Write the low `n` bytes of `v` at position `k`. -/
def store (m : ByteMem) (k n v : Nat) : ByteMem := fun i =>
  if k ≤ i ∧ i < k + n then UInt8.ofNat (v / 256 ^ (i - k)) else m i

theorem store_at (m : ByteMem) (k v : Nat) {n j : Nat} (hj : j < n) :
    store m k n v (k + j) = UInt8.ofNat (v / 256 ^ j) := by
  simp [store, hj]

theorem store_outside (m : ByteMem) {k n v i : Nat} (h : i < k ∨ k + n ≤ i) :
    store m k n v i = m i := by
  rw [store, if_neg (by omega)]

theorem load_store_disjoint (m : ByteMem) {k n v k' n' : Nat} (h : k' + n' ≤ k ∨ k + n ≤ k') :
    load (store m k n v) k' n' = load m k' n' :=
  load_congr fun _ h1 h2 => store_outside m (by omega)

/-- A number is stored modulo `256 ^ n`. -/
theorem load_store (m : ByteMem) (k n v : Nat) : load (store m k n v) k n = v % 256 ^ n := by
  induction n generalizing m k v with
  | zero => simp [Nat.mod_one]
  | succ n ih =>
      have h0 : store m k (n + 1) v k = UInt8.ofNat v := by
        simpa using store_at m k v (Nat.succ_pos n)
      have hrest : load (store m k (n + 1) v) (k + 1) n
          = load (store m (k + 1) n (v / 256)) (k + 1) n := by
        apply load_shift
        intro j hj
        rw [store_at m (k + 1) (v / 256) hj, Nat.add_assoc, Nat.add_comm 1 j,
          store_at m k v (Nat.succ_lt_succ hj), pow_succ', Nat.div_div_eq_div_mul]
      have hbyte : (UInt8.ofNat v).toNat = v % 256 := UInt8.toNat_ofNat'
      rw [load_succ, h0, hrest, ih, hbyte, pow_succ', Nat.mod_mul]

/-- Storing what is already there changes nothing. -/
theorem store_load (m : ByteMem) (k n : Nat) : store m k n (load m k n) = m := by
  funext i
  by_cases hi : k ≤ i ∧ i < k + n
  · obtain ⟨j, rfl⟩ := Nat.exists_eq_add_of_le hi.1
    rw [store_at m k _ (by omega), byte_of_load m k (by omega)]
  · rw [store_outside m (by omega)]

theorem store_comm (m : ByteMem) {k n v k' n' v' : Nat} (h : k + n ≤ k' ∨ k' + n' ≤ k) :
    store (store m k n v) k' n' v' = store (store m k' n' v') k n v := by
  funext i
  simp only [store]
  split_ifs with h1 h2 <;> first | rfl | omega

/-- Only the low bytes of a number are stored. -/
theorem store_mod (m : ByteMem) (k n v : Nat) : store m k n (v % 256 ^ n) = store m k n v := by
  funext i
  by_cases hi : k ≤ i ∧ i < k + n
  · obtain ⟨j, rfl⟩ := Nat.exists_eq_add_of_le hi.1
    have hj : j < n := by omega
    rw [store_at m k _ hj, store_at m k _ hj]
    apply UInt8.toNat_inj.mp
    have hpow : (256 : Nat) ^ n = 256 ^ j * 256 ^ (n - j) := by rw [← pow_add]; congr 1; omega
    have hdvd : 256 ∣ 256 ^ (n - j) := dvd_pow_self 256 (by omega)
    rw [UInt8.toNat_ofNat', UInt8.toNat_ofNat', hpow, Nat.mod_mul_right_div_self]
    exact Nat.mod_mod_of_dvd _ hdvd
  · rw [store_outside m (by omega), store_outside m (by omega)]

/-- A store in two parts. -/
theorem store_add (m : ByteMem) (k a b v : Nat) :
    store m k (a + b) v = store (store m k a v) (k + a) b (v / 256 ^ a) := by
  funext i
  by_cases hi : k + a ≤ i ∧ i < k + a + b
  · obtain ⟨j, rfl⟩ := Nat.exists_eq_add_of_le hi.1
    rw [store_at _ (k + a) _ (by omega), Nat.add_assoc, store_at m k _ (by omega),
      Nat.div_div_eq_div_mul, ← pow_add]
  · have hsecond : store (store m k a v) (k + a) b (v / 256 ^ a) i = store m k a v i :=
      store_outside _ (by omega)
    rw [hsecond]
    by_cases hlow : k ≤ i ∧ i < k + a
    · obtain ⟨j, rfl⟩ := Nat.exists_eq_add_of_le hlow.1
      rw [store_at m k v (show j < a + b by omega), store_at m k v (show j < a by omega)]
    · have hboth : store m k (a + b) v i = m i := store_outside m (by omega)
      rw [hboth, store_outside m (by omega)]

/-! ## Block operations -/

/-- Set the `n` bytes from `k` on to `b`. -/
def fill (m : ByteMem) (k n : Nat) (b : UInt8) : ByteMem := fun i =>
  if k ≤ i ∧ i < k + n then b else m i

theorem fill_inside (m : ByteMem) {k n i : Nat} (b : UInt8) (h1 : k ≤ i) (h2 : i < k + n) :
    fill m k n b i = b := by
  rw [fill, if_pos ⟨h1, h2⟩]

theorem fill_outside (m : ByteMem) {k n i : Nat} (b : UInt8) (h : i < k ∨ k + n ≤ i) :
    fill m k n b i = m i := by
  rw [fill, if_neg (by omega)]

/-- Copy the `n` bytes of `src` from `j` on to position `k`. -/
def copy (m : ByteMem) (k : Nat) (src : ByteMem) (j n : Nat) : ByteMem := fun i =>
  if k ≤ i ∧ i < k + n then src (j + (i - k)) else m i

theorem copy_inside (m : ByteMem) {k n i : Nat} (src : ByteMem) (j : Nat) (h1 : k ≤ i)
    (h2 : i < k + n) : copy m k src j n i = src (j + (i - k)) := by
  rw [copy, if_pos ⟨h1, h2⟩]

theorem copy_outside (m : ByteMem) {k n i : Nat} (src : ByteMem) (j : Nat)
    (h : i < k ∨ k + n ≤ i) : copy m k src j n i = m i := by
  rw [copy, if_neg (by omega)]

/-! ## Bits -/

/-- Bit `j` of byte `k`. -/
def bit (m : ByteMem) (k j : Nat) : Bool := (m k).toNat.testBit j

/-- Set or clear bit `j` of byte `k`, as `|= 1 << j` and `&= ~(1 << j)` do. -/
def putBit (m : ByteMem) (k j : Nat) (v : Bool) : ByteMem := Function.update m k
  (if v then m k ||| (1 <<< UInt8.ofNat j) else m k &&& ~~~(1 <<< UInt8.ofNat j))

theorem putBit_outside (m : ByteMem) {k i : Nat} (j : Nat) (v : Bool) (h : i ≠ k) :
    putBit m k j v i = m i := Function.update_of_ne h _ _

theorem putBit_congr {m m' : ByteMem} {k j i : Nat} {v : Bool} (h : m i = m' i) :
    putBit m k j v i = putBit m' k j v i := by
  by_cases hk : i = k
  · subst hk
    unfold putBit
    rw [Function.update_self, Function.update_self, h]
  · rw [putBit_outside m j v hk, putBit_outside m' j v hk, h]

theorem bit_eq_getLsbD (m : ByteMem) (k j : Nat) : bit m k j = (m k).toBitVec.getLsbD j := rfl

private theorem getLsbD_one_shiftLeft {j : Nat} (hj : j < 8) (i : Nat) :
    ((1 : UInt8) <<< UInt8.ofNat j).toBitVec.getLsbD i = decide (i = j) := by
  have hmod : (UInt8.ofNat j).toBitVec.toNat % 8 = j := by
    show j % 256 % 8 = j
    omega
  have hone : (1 : UInt8).toBitVec = 1#8 := rfl
  rw [UInt8.toBitVec_shiftLeft, hone, BitVec.shiftLeft_eq', BitVec.toNat_umod]
  change (1#8 <<< ((UInt8.ofNat j).toBitVec.toNat % 8)).getLsbD i = _
  rw [hmod, BitVec.getLsbD_shiftLeft, BitVec.getLsbD_one]
  by_cases h1 : i = j
  · subst h1; simp [hj]
  · rw [decide_eq_false h1]
    by_cases h2 : i < j
    · simp [h2]
    · have : ¬ i - j = 0 := by omega
      simp [this]

/-- Writing one bit leaves every other bit, of the same byte or another, as it was. -/
theorem bit_putBit (m : ByteMem) {k j : Nat} (v : Bool) (hj : j < 8) (k' i : Nat) :
    bit (putBit m k j v) k' i = if k' = k ∧ i = j then v else bit m k' i := by
  by_cases hk : k' = k
  · subst hk
    have hset : putBit m k' j v k'
        = if v then m k' ||| (1 <<< UInt8.ofNat j) else m k' &&& ~~~(1 <<< UInt8.ofNat j) :=
      Function.update_self _ _ _
    rw [bit_eq_getLsbD, bit_eq_getLsbD, hset]
    cases v with
    | true =>
        rw [if_pos rfl, UInt8.toBitVec_or, BitVec.getLsbD_or, getLsbD_one_shiftLeft hj]
        by_cases hi : i = j <;> simp [hi]
    | false =>
        rw [if_neg (by decide), UInt8.toBitVec_and, UInt8.toBitVec_not, BitVec.getLsbD_and,
          BitVec.getLsbD_not, getLsbD_one_shiftLeft hj]
        by_cases hi : i = j
        · simp [hi]
        · by_cases h8 : i < 8
          · simp [hi, h8]
          · rw [BitVec.getLsbD_of_ge _ _ (Nat.le_of_not_lt h8)]
            simp [hi]
  · rw [bit, putBit_outside m j v hk, if_neg (by simp [hk]), bit]

/-- Two bytes with the same eight bits are the same byte. -/
theorem eq_of_bit {m m' : ByteMem} {k k' : Nat} (h : ∀ i, i < 8 → bit m k i = bit m' k' i) :
    m k = m' k' := by
  apply UInt8.toBitVec_inj.mp
  apply BitVec.eq_of_getLsbD_eq
  intro i hi
  exact h i hi

/-- The bits of a stored number. -/
theorem bit_store (m : ByteMem) (k n v p : Nat) {j : Nat} (hj : j < 8) :
    bit (store m k n v) p j
      = if k ≤ p ∧ p < k + n then v.testBit (8 * (p - k) + j) else bit m p j := by
  by_cases h : k ≤ p ∧ p < k + n
  · have hbyte : (UInt8.ofNat (v / 256 ^ (p - k))).toNat = v / 2 ^ (8 * (p - k)) % 2 ^ 8 := by
      rw [UInt8.toNat_ofNat', pow_mul]
      rfl
    rw [if_pos h, bit, store, if_pos h, hbyte, Nat.testBit_mod_two_pow, Nat.testBit_div_two_pow]
    simp [hj, Nat.add_comm]
  · rw [if_neg h, bit, store_outside m (by omega), bit]

/-- Memories with the same bits are the same. -/
theorem ext_bit {m m' : ByteMem} (h : ∀ p j, j < 8 → bit m p j = bit m' p j) : m = m' := by
  funext p
  exact eq_of_bit (h p)

theorem putBit_comm (m : ByteMem) {k j k' j' : Nat} (v v' : Bool) (hj : j < 8) (hj' : j' < 8)
    (h : k ≠ k' ∨ j ≠ j') :
    putBit (putBit m k j v) k' j' v' = putBit (putBit m k' j' v') k j v := by
  funext i
  apply eq_of_bit
  intro b _
  rw [bit_putBit _ _ hj', bit_putBit _ _ hj, bit_putBit _ _ hj, bit_putBit _ _ hj']
  split_ifs with h1 h2 <;> first | rfl | omega

/-! ## Lists of bytes -/

/-- The block that holds a list of bytes from position `0` on. -/
def ofList (l : List UInt8) : ByteMem := fun i => l.getD i 0

theorem ofList_getElem (l : List UInt8) {i : Nat} (h : i < l.length) : ofList l i = l[i] := by
  simp [ofList, List.getD, List.getElem?_eq_getElem h]

/-- The first `n` bytes as a list. -/
def toList (m : ByteMem) (k n : Nat) : List UInt8 := (List.range n).map fun i => m (k + i)

@[simp] theorem length_toList (m : ByteMem) (k n : Nat) : (toList m k n).length = n := by
  simp [toList]

theorem toList_congr {m m' : ByteMem} {k k' n : Nat} (h : ∀ j, j < n → m (k + j) = m' (k' + j)) :
    toList m k n = toList m' k' n := by
  apply List.map_congr_left
  intro j hj
  exact h j (List.mem_range.mp hj)

theorem take_toList (m : ByteMem) (k : Nat) {n j : Nat} (h : j ≤ n) :
    (toList m k n).take j = toList m k j := by
  unfold toList
  rw [← List.map_take, List.take_range, Nat.min_eq_left h]

theorem toList_ofList (l : List UInt8) : toList (ofList l) 0 l.length = l := by
  apply List.ext_getElem
  · simp
  · intro i h1 h2
    simp only [toList, List.getElem_map, List.getElem_range, Nat.zero_add]
    exact ofList_getElem l h2

end ByteMem
