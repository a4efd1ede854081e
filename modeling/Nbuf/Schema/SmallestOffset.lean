import Nbuf.Schema.Truncation

set_option autoImplicit false

/-! # The smallest offset

A new scalar goes to the smallest offset that meets its size and alignment. The padding spaces are
kept in the order of their offsets, each of them as large as it can be, and the byte with the last
bools lies before all of them, so the first space that is large enough has the smallest place. The
rule breaks where a space is lost: when the last space of the list is split, `pad_link` stays at
its first half, and the next space that is added takes the place of its second half.
-/

namespace Nbuf

namespace T2b

open Align Run Cover

/-! ## The list of padding spaces -/

/-- The padding spaces are in order and lie apart from each other and from the end. -/
structure Ordered (spaces : List PaddingSpace) (ssize : Nat) : Prop where
  sorted : spaces.Pairwise fun p q => p.offset + p.size < q.offset
  nonempty : ∀ p ∈ spaces, 0 < p.size
  below : ∀ p ∈ spaces, p.offset + p.size < ssize

/-- What is left of a space lies inside it, in order. -/
theorem rest_ordered {p : PaddingSpace} {size offset : Nat} (hsize : 0 < size)
    (h1 : p.offset ≤ offset) (h2 : offset + size ≤ p.offset + p.size) :
    (p.rest offset size).Pairwise (fun q r => q.offset + q.size < r.offset) ∧
      ∀ q ∈ p.rest offset size,
        0 < q.size ∧ p.offset ≤ q.offset ∧ q.offset + q.size ≤ p.offset + p.size := by
  unfold PaddingSpace.rest
  simp only
  split_ifs with hpad hremain hmore
  · constructor
    · simp only [List.pairwise_cons, List.mem_singleton, forall_eq, List.not_mem_nil,
        false_implies, implies_true, List.Pairwise.nil, and_true]
      omega
    · intro q hq
      rcases List.mem_cons.mp hq with rfl | hq
      · simp only
        omega
      · rw [List.mem_singleton.mp hq]
        simp only
        omega
  · refine ⟨List.pairwise_singleton _ _, fun q hq => ?_⟩
    rw [List.mem_singleton.mp hq]
    simp only
    omega
  · refine ⟨List.pairwise_singleton _ _, fun q hq => ?_⟩
    rw [List.mem_singleton.mp hq]
    simp only
    omega
  · exact ⟨List.Pairwise.nil, fun q hq => by cases hq⟩

/-- Taking bytes keeps the order. -/
theorem take_ordered {pads pads' : Pads} {size offset ssize : Nat} (hsize : 0 < size)
    (h : pads.take size = some (offset, pads')) (hord : Ordered pads.spaces ssize) :
    Ordered pads'.spaces ssize ∧
      ∀ q ∈ pads'.spaces, ∃ p ∈ pads.spaces, p.offset ≤ q.offset := by
  obtain ⟨⟨pre, p, o, post⟩, hfirst, heq⟩ := Option.map_eq_some_iff.mp h
  cases heq
  obtain ⟨hspaces, hfit⟩ := firstFit_spec hfirst
  obtain ⟨-, h1, h2⟩ := fit_spec hsize hfit
  obtain ⟨hsorted, hinside⟩ := rest_ordered hsize h1 h2
  obtain ⟨hsort, hpos, hbelow⟩ := hord
  rw [hspaces] at hsort hpos hbelow ⊢
  obtain ⟨hpre, htail, hacross⟩ := List.pairwise_append.mp hsort
  obtain ⟨hp, hpost⟩ := List.pairwise_cons.mp htail
  simp only [List.mem_append, List.mem_cons] at hpos hbelow hacross ⊢
  refine ⟨⟨?_, ?_, ?_⟩, ?_⟩
  · refine List.pairwise_append.mpr ⟨List.pairwise_append.mpr ⟨hpre, hsorted, ?_⟩, hpost, ?_⟩
    · intro q hq r hr
      have := hacross q hq p (Or.inl rfl)
      have := (hinside r hr).2.1
      omega
    · intro q hq r hr
      rcases List.mem_append.mp hq with hq | hq
      · exact hacross q hq r (Or.inr hr)
      · have := hp r hr
        have := (hinside q hq).2.2
        omega
  · intro q hq
    rcases List.mem_append.mp hq with hq | hq
    rcases List.mem_append.mp hq with hq | hq
    · exact hpos q (Or.inl hq)
    · exact (hinside q hq).1
    · exact hpos q (Or.inr (Or.inr hq))
  · intro q hq
    rcases List.mem_append.mp hq with hq | hq
    rcases List.mem_append.mp hq with hq | hq
    · exact hbelow q (Or.inl hq)
    · have := hbelow p (Or.inr (Or.inl rfl))
      have := (hinside q hq).2.2
      omega
    · exact hbelow q (Or.inr (Or.inr hq))
  · rintro q ((hq | hq) | hq)
    · exact ⟨q, Or.inl hq, Nat.le_refl _⟩
    · exact ⟨p, Or.inr (Or.inl rfl), (hinside q hq).2.1⟩
    · exact ⟨q, Or.inr (Or.inr hq), Nat.le_refl _⟩

/-- A space with room for a scalar has it at its first aligned offset. -/
theorem fit_of_room {p : PaddingSpace} {size o : Nat} (hdvd : size ∣ o) (h1 : p.offset ≤ o)
    (h2 : o + size ≤ p.offset + p.size) :
    p.fit size = some (roundUp p.offset size) ∧ roundUp p.offset size ≤ o := by
  have hup := roundUp_le hdvd h1
  refine ⟨?_, hup⟩
  unfold PaddingSpace.fit
  exact if_pos (by omega)

/-- **The first fit** is the smallest place in the spaces. -/
theorem firstFit_least {size : Nat} {spaces pre post : List PaddingSpace} {p q : PaddingSpace}
    {offset o : Nat} (hsize : 0 < size)
    (hsorted : spaces.Pairwise fun p q => p.offset + p.size < q.offset)
    (h : firstFit size spaces = some (pre, p, offset, post)) (hq : q ∈ spaces) (hdvd : size ∣ o)
    (h1 : q.offset ≤ o) (h2 : o + size ≤ q.offset + q.size) : offset ≤ o := by
  obtain ⟨hfit, hup⟩ := fit_of_room hdvd h1 h2
  induction spaces generalizing pre with
  | nil => cases h
  | cons r spaces ih =>
      obtain ⟨hr, hrest⟩ := List.pairwise_cons.mp hsorted
      rw [firstFit] at h
      cases hfr : r.fit size with
      | some o' =>
          rw [hfr] at h
          cases h
          obtain ⟨-, h3, h4⟩ := fit_spec hsize hfr
          rcases List.mem_cons.mp hq with rfl | hq
          · rw [hfit, Option.some.injEq] at hfr
            omega
          · -- a later space lies behind this one
            have := hr q hq
            omega
      | none =>
          rw [hfr] at h
          obtain ⟨⟨pre', p', o', post'⟩, hrec, heq⟩ := Option.map_eq_some_iff.mp h
          cases heq
          rcases List.mem_cons.mp hq with rfl | hq
          · rw [hfit] at hfr
            cases hfr
          · exact ih hrest hrec hq

theorem firstFit_eq_none {size : Nat} {spaces : List PaddingSpace} {q : PaddingSpace}
    (h : firstFit size spaces = none) (hq : q ∈ spaces) : q.fit size = none := by
  induction spaces with
  | nil => cases hq
  | cons r spaces ih =>
      rw [firstFit] at h
      cases hfr : r.fit size with
      | some o =>
          rw [hfr] at h
          cases h
      | none =>
          rw [hfr] at h
          rcases List.mem_cons.mp hq with rfl | hq
          · exact hfr
          · exact ih (Option.map_eq_none_iff.mp h) hq

/-! ## No free place is lost -/

/-- `c` counts the fields that cover a bit. The free places are exactly the bits inside the scalar
part that no field covers. -/
structure Complete (c : Nat → Nat) (ssize : Nat) (pads : Pads) : Prop where
  exact_cover : ∀ i, c i + cover pads.free i = if i < 8 * ssize then 1 else 0
  ordered : Ordered pads.spaces ssize
  open_first : pads.bitOffs % 8 ≠ 0 → ∀ p ∈ pads.spaces, pads.bitOffs ≤ 8 * p.offset

/-- The places where a scalar of the given size may lie. -/
def freePlaces (c : Nat → Nat) (size : Nat) : Set Nat :=
  {o | (0 < size → size ∣ o) ∧ ∀ i, (fieldBits size o).Has i → c i = 0}

/-- A free bit inside the scalar part is in the open byte or in a padding space. -/
theorem Complete.free_bit {c : Nat → Nat} {ssize : Nat} {pads : Pads} (h : Complete c ssize pads)
    {i : Nat} (hi : i < 8 * ssize) (hc : c i = 0) :
    (pads.bitOffs % 8 ≠ 0 ∧ pads.bitOffs ≤ i ∧ i < roundUp pads.bitOffs 8) ∨
      ∃ p ∈ pads.spaces, 8 * p.offset ≤ i ∧ i < 8 * (p.offset + p.size) := by
  have hcov := h.exact_cover i
  have hopen := openByte_cases pads i
  have hup : roundUp pads.bitOffs 8 = (pads.bitOffs + 7) / 8 * 8 := rfl
  rw [if_pos hi, hc, Pads.free, cover_append] at hcov
  by_cases hspaces : cover (pads.spaces.map PaddingSpace.bits) i = 0
  · left
    omega
  · right
    rw [cover_eq_zero_iff] at hspaces
    push Not at hspaces
    obtain ⟨r, hr, hhas⟩ := hspaces
    obtain ⟨p, hp, rfl⟩ := List.mem_map.mp hr
    refine ⟨p, hp, hhas.1, ?_⟩
    have : i < 8 * p.offset + 8 * p.size := hhas.2
    omega

/-- A free byte inside the scalar part is in a padding space. -/
theorem Complete.free_byte {c : Nat → Nat} {ssize : Nat} {pads : Pads} (h : Complete c ssize pads)
    {b : Nat} (hb : b < ssize) (hc : c (8 * b) = 0) :
    ∃ p ∈ pads.spaces, p.offset ≤ b ∧ b < p.offset + p.size := by
  have hup : roundUp pads.bitOffs 8 = (pads.bitOffs + 7) / 8 * 8 := rfl
  rcases h.free_bit (show 8 * b < 8 * ssize by omega) hc with hopen | ⟨p, hp, h1, h2⟩
  · omega
  · exact ⟨p, hp, by omega, by omega⟩

/-- Two spaces are the same, or one lies behind the other. -/
theorem Ordered.apart {spaces : List PaddingSpace} {ssize : Nat} (h : Ordered spaces ssize)
    {p q : PaddingSpace} (hp : p ∈ spaces) (hq : q ∈ spaces) :
    p = q ∨ p.offset + p.size < q.offset ∨ q.offset + q.size < p.offset := by
  have hsort := h.sorted
  clear h
  induction spaces with
  | nil => cases hp
  | cons r spaces ih =>
      obtain ⟨hr, hrest⟩ := List.pairwise_cons.mp hsort
      rcases List.mem_cons.mp hp with rfl | hp' <;> rcases List.mem_cons.mp hq with rfl | hq'
      · exact Or.inl rfl
      · exact Or.inr (Or.inl (hr q hq'))
      · exact Or.inr (Or.inr (hr p hp'))
      · exact ih hp' hq' hrest

/-- **Free bytes next to each other** lie in one padding space, or at the end. -/
theorem Complete.one_space {c : Nat → Nat} {ssize : Nat} {pads : Pads} (h : Complete c ssize pads)
    {o size : Nat} (hsize : 0 < size) (hfree : ∀ b, o ≤ b → b < o + size → c (8 * b) = 0) :
    ssize ≤ o ∨ ∃ q ∈ pads.spaces, q.offset ≤ o ∧ o + size ≤ q.offset + q.size := by
  by_cases hend : ssize ≤ o
  · exact Or.inl hend
  · obtain ⟨q, hq, hq1, hq2⟩ := h.free_byte (by omega) (hfree o (Nat.le_refl _) (by omega))
    refine Or.inr ⟨q, hq, hq1, ?_⟩
    by_contra hlong
    -- the byte behind the space would be free, in a second space
    have hlt := h.ordered.below q hq
    obtain ⟨r, hr, hr1, hr2⟩ := h.free_byte hlt (hfree _ (by omega) (by omega))
    rcases h.ordered.apart hq hr with rfl | hbehind | hbehind <;> omega

/-! ## One field -/

theorem freePlaces_bit {c : Nat → Nat} {o : Nat} : o ∈ freePlaces c 0 ↔ c o = 0 := by
  have hbits : fieldBits 0 o = ⟨o, 1⟩ := rfl
  constructor
  · intro h
    refine h.2 o ?_
    rw [hbits]
    exact ⟨Nat.le_refl _, Nat.lt_succ_self _⟩
  · intro h
    refine ⟨fun h0 => absurd h0 (Nat.lt_irrefl 0), fun i hi => ?_⟩
    rw [hbits] at hi
    have : i = o := Nat.le_antisymm (Nat.lt_succ_iff.mp hi.2) hi.1
    rw [this]
    exact h

theorem freePlaces_bytes {c : Nat → Nat} {size o : Nat} (hsize : 0 < size)
    (h : o ∈ freePlaces c size) :
    size ∣ o ∧ ∀ b, o ≤ b → b < o + size → c (8 * b) = 0 := by
  refine ⟨h.1 hsize, fun b hb1 hb2 => h.2 _ ?_⟩
  have hbits : fieldBits size o = ⟨8 * o, 8 * size⟩ := if_neg (by omega)
  rw [hbits]
  exact ⟨show 8 * o ≤ 8 * b by omega, show 8 * b < 8 * o + 8 * size by omega⟩

/-- The place of a field is free when the count with the field is still exact. -/
theorem mem_freePlaces {c : Nat → Nat} {size offset ssize : Nat} {pads : Pads}
    (hdvd : 0 < size → size ∣ offset)
    (h : ∀ i, c i + (fieldBits size offset).count i + cover pads.free i
      = if i < 8 * ssize then 1 else 0) : offset ∈ freePlaces c size := by
  refine ⟨hdvd, fun i hi => ?_⟩
  have hcov := h i
  have hone : (fieldBits size offset).count i = 1 := if_pos hi
  split_ifs at hcov <;> omega

/-- A place in the padding spaces is the smallest one. -/
theorem findPaddingSpace_complete {c : Nat → Nat} {size offset ssize : Nat} {pads pads' : Pads}
    (h : findPaddingSpace pads size = some (offset, pads')) (hall : Complete c ssize pads) :
    Complete (fun i => c i + (fieldBits size offset).count i) ssize pads' ∧
      IsLeast (freePlaces c size) offset := by
  obtain ⟨hdvd, hfree⟩ := findPaddingSpace_spec h
  have hexact : ∀ i, c i + (fieldBits size offset).count i + cover pads'.free i
      = if i < 8 * ssize then 1 else 0 := by
    intro i
    rw [← hall.exact_cover i, ← hfree i]
    omega
  have hmem := mem_freePlaces hdvd hexact
  have hup : roundUp pads.bitOffs 8 = (pads.bitOffs + 7) / 8 * 8 := rfl
  have hspaces := hall.ordered
  unfold findPaddingSpace at h
  by_cases h0 : size = 0
  · subst h0
    rw [if_pos rfl] at h
    have hin : offset < 8 * ssize := by
      by_contra hout
      have hcov := hexact offset
      have hone : (fieldBits 0 offset).count offset = 1 :=
        if_pos ⟨Nat.le_refl _, Nat.lt_succ_self _⟩
      rw [if_neg hout] at hcov
      omega
    by_cases hopen : pads.bitOffs % 8 = 0
    · -- the first byte of the first space
      rw [if_neg (by omega)] at h
      obtain ⟨⟨o, pads1⟩, htake, heq⟩ := Option.map_eq_some_iff.mp h
      cases heq
      obtain ⟨hspaces', hlow⟩ := take_ordered Nat.one_pos htake hspaces
      obtain ⟨⟨pre, p, o', post⟩, hfirst, heq⟩ := Option.map_eq_some_iff.mp htake
      have ho : o' = o := congrArg Prod.fst heq
      have hleast : ∀ q ∈ pads.spaces, o ≤ q.offset := fun q hq =>
        ho ▸ firstFit_least Nat.one_pos hspaces.sorted hfirst hq (one_dvd _) (Nat.le_refl _)
          (by have := hspaces.nonempty q hq; omega)
      refine ⟨⟨hexact, hspaces', fun _ q hq => ?_⟩, hmem, fun i hi => ?_⟩
      · -- the byte itself is gone from the spaces
        obtain ⟨r, hr, hrq⟩ := hlow q hq
        have hle := (hleast r hr).trans hrq
        rcases Nat.eq_or_lt_of_le hle with heq' | hlt
        · exfalso
          have hbyte := hexact (8 * o)
          have hone : (fieldBits 0 (8 * o)).count (8 * o) = 1 :=
            if_pos ⟨Nat.le_refl _, Nat.lt_succ_self _⟩
          have hcov : cover (pads1.spaces.map PaddingSpace.bits) (8 * o) ≠ 0 := by
            rw [Ne, cover_eq_zero_iff]
            push Not
            have := hspaces'.nonempty q hq
            exact ⟨q.bits, List.mem_map.mpr ⟨q, hq, rfl⟩, show 8 * q.offset ≤ 8 * o by omega,
              show 8 * o < 8 * q.offset + 8 * q.size by omega⟩
          rw [Pads.free, cover_append, if_pos hin] at hbyte
          simp only at hbyte
          omega
        · show 8 * o + 1 ≤ 8 * q.offset
          omega
      · rw [freePlaces_bit] at hi
        by_contra hlt
        rcases hall.free_bit (by omega) hi with hbit | ⟨q, hq, h1, -⟩
        · exact hbit.1 hopen
        · have := hleast q hq
          omega
    · -- the next bit of the open byte
      rw [if_pos hopen] at h
      cases h
      refine ⟨⟨hexact, hspaces, fun hopen' q hq => ?_⟩, hmem, fun i hi => ?_⟩
      · have := hall.open_first hopen q hq
        show pads.bitOffs + 1 ≤ 8 * q.offset
        omega
      · rw [freePlaces_bit] at hi
        by_contra hlt
        rcases hall.free_bit (by omega) hi with hbit | ⟨q, hq, h1, -⟩
        · omega
        · have := hall.open_first hopen q hq
          omega
  · have hpos := Nat.pos_of_ne_zero h0
    rw [if_neg h0] at h
    obtain ⟨hspaces', hlow⟩ := take_ordered hpos h hspaces
    have hbits := (take_spec hpos h).2.1
    obtain ⟨⟨pre, p, o', post⟩, hfirst, heq⟩ := Option.map_eq_some_iff.mp h
    have ho : o' = offset := congrArg Prod.fst heq
    obtain ⟨hsplit, hfit⟩ := firstFit_spec hfirst
    obtain ⟨-, -, hend⟩ := fit_spec hpos hfit
    have hp := hspaces.below p (by simp [hsplit])
    refine ⟨⟨hexact, hspaces', fun hopen q hq => ?_⟩, hmem, fun o hmem' => ?_⟩
    · rw [hbits] at hopen ⊢
      obtain ⟨r, hr, hrq⟩ := hlow q hq
      have := hall.open_first hopen r hr
      omega
    · obtain ⟨hdvd', hbytes⟩ := freePlaces_bytes hpos hmem'
      rcases hall.one_space hpos hbytes with hbehind | ⟨q, hq, h1, h2⟩
      · omega
      · exact ho ▸ firstFit_least hpos hspaces.sorted hfirst hq hdvd' h1 h2

/-- No space is too small for every place that is free in it. -/
theorem no_space_of_none {size : Nat} {pads : Pads} (h : pads.take size = none) {o : Nat}
    (hdvd : size ∣ o) {q : PaddingSpace} (hq : q ∈ pads.spaces) (h1 : q.offset ≤ o) :
    ¬ o + size ≤ q.offset + q.size := by
  intro h2
  have hnone := firstFit_eq_none (Option.map_eq_none_iff.mp h) hq
  rw [(fit_of_room hdvd h1 h2).1] at hnone
  cases hnone

/-- A bool that starts a new byte at the end has the smallest place. -/
theorem newByte_complete {c : Nat → Nat} {ssize : Nat} {pads : Pads}
    (h : findPaddingSpace pads 0 = none) (hall : Complete c ssize pads) :
    Complete (fun i => c i + (fieldBits 0 (8 * ssize)).count i) (ssize + 1)
        { pads with bitOffs := 8 * ssize + 1 } ∧ IsLeast (freePlaces c 0) (8 * ssize) := by
  unfold findPaddingSpace at h
  rw [if_pos rfl] at h
  have hclosed : pads.bitOffs % 8 = 0 := by
    by_contra hopen
    rw [if_pos hopen] at h
    cases h
  rw [if_neg (by omega), Option.map_eq_none_iff] at h
  -- a space has room for a byte
  have hempty : pads.spaces = [] := by
    refine List.eq_nil_iff_forall_not_mem.mpr fun q hq => ?_
    have := hall.ordered.nonempty q hq
    exact no_space_of_none h (one_dvd q.offset) hq (Nat.le_refl _) (by omega)
  have hbits : fieldBits 0 (8 * ssize) = ⟨8 * ssize, 1⟩ := rfl
  have hexact : ∀ i, c i + (fieldBits 0 (8 * ssize)).count i
      + cover (Pads.free { pads with bitOffs := 8 * ssize + 1 }) i
      = if i < 8 * (ssize + 1) then 1 else 0 := by
    intro i
    have hold := hall.exact_cover i
    have hopen := openByte_cases pads i
    have hnew := openByte_cases { pads with bitOffs := 8 * ssize + 1 } i
    have hone := Range.count_cases (8 * ssize) 1 i
    have hup (n : Nat) : roundUp n 8 = (n + 7) / 8 * 8 := rfl
    rw [hup] at hopen hnew
    rw [hbits]
    unfold Pads.free at hold ⊢
    rw [cover_append, hempty, List.map_nil, cover_nil] at hold ⊢
    simp only [hempty] at hnew
    split_ifs at hold ⊢ <;> omega
  refine ⟨⟨hexact, ?_, fun _ q hq => ?_⟩, ?_, fun i hi => ?_⟩
  · show Ordered pads.spaces (ssize + 1)
    rw [hempty]
    exact ⟨List.Pairwise.nil, fun p hp => (by cases hp), fun p hp => by cases hp⟩
  · have hq' : q ∈ pads.spaces := hq
    rw [hempty] at hq'
    cases hq'
  · exact mem_freePlaces (fun h0 => absurd h0 (Nat.lt_irrefl 0)) hexact
  · rw [freePlaces_bit] at hi
    by_contra hlt
    rcases hall.free_bit (by omega) hi with hbit | ⟨q, hq, -, -⟩
    · exact hbit.1 hclosed
    · rw [hempty] at hq
      cases hq

/-- Adding a space loses none when the link is behind the last one. -/
def KeepsSpaces (ssize : Nat) (pads : Pads) (size : Nat) : Prop :=
  findPaddingSpace pads size = none → 0 < size → ssize < roundUp ssize size →
    pads.spaces.length ≤ pads.link

instance (ssize : Nat) (pads : Pads) (size : Nat) : Decidable (KeepsSpaces ssize pads size) :=
  inferInstanceAs (Decidable (_ → _ → _ → _))

/-- A scalar behind all others has the smallest place. -/
theorem newScalar_complete {c : Nat → Nat} {ssize size : Nat} {pads : Pads} (hsize : 0 < size)
    (h : findPaddingSpace pads size = none) (hkeep : KeepsSpaces ssize pads size)
    (hall : Complete c ssize pads) :
    Complete (fun i => c i + (fieldBits size (roundUp ssize size)).count i)
        (ssize + (roundUp ssize size - ssize + size))
        (if roundUp ssize size - ssize > 0 then pads.add ssize (roundUp ssize size - ssize)
          else pads) ∧
      IsLeast (freePlaces c size) (roundUp ssize size) := by
  have hle := le_roundUp hsize ssize
  have hbits : fieldBits size (roundUp ssize size)
      = ⟨8 * roundUp ssize size, 8 * size⟩ := if_neg (by omega)
  have hold := hall.exact_cover
  have hord := hall.ordered
  have hmem : roundUp ssize size ∈ freePlaces c size := by
    refine ⟨fun _ => dvd_roundUp _ _, fun i hi => ?_⟩
    rw [hbits] at hi
    have h1 : 8 * roundUp ssize size ≤ i := hi.1
    have hcov := hold i
    rw [if_neg (by omega)] at hcov
    omega
  have hlow : roundUp ssize size ∈ lowerBounds (freePlaces c size) := by
    intro o ho
    obtain ⟨hdvd, hbytes⟩ := freePlaces_bytes hsize ho
    rcases hall.one_space hsize hbytes with hbehind | ⟨q, hq, h1, h2⟩
    · exact roundUp_le hdvd hbehind
    · unfold findPaddingSpace at h
      rw [if_neg (by omega)] at h
      exact absurd h2 (no_space_of_none h hdvd hq h1)
  refine ⟨?_, hmem, hlow⟩
  by_cases hpad : roundUp ssize size - ssize > 0
  · rw [if_pos hpad]
    have hkept : pads.spaces.take pads.link = pads.spaces :=
      List.take_of_length_le (hkeep h hsize (by omega))
    have hadd : pads.add ssize (roundUp ssize size - ssize)
        = ⟨pads.spaces ++ [⟨ssize, roundUp ssize size - ssize⟩], pads.spaces.length + 1,
          pads.bitOffs⟩ := by simp only [Pads.add, hkept]
    rw [hadd]
    refine ⟨fun i => ?_, ⟨?_, fun q hq => ?_, fun q hq => ?_⟩, fun hopen q hq => ?_⟩
    · have hcov := hold i
      have hfield := Range.count_cases (8 * roundUp ssize size) (8 * size) i
      have hspace := Range.count_cases (8 * ssize) (8 * (roundUp ssize size - ssize)) i
      rw [hbits]
      unfold Pads.free at hcov ⊢
      simp only [List.map_append, List.map_cons, List.map_nil, cover_append, cover_cons, cover_nil,
        PaddingSpace.bits, Pads.openByte] at hcov ⊢
      split_ifs at hcov ⊢ <;> omega
    · refine List.pairwise_append.mpr ⟨hord.sorted, List.pairwise_singleton _ _, ?_⟩
      intro q hq r hr
      rw [List.mem_singleton.mp hr]
      exact hord.below q hq
    · rcases List.mem_append.mp hq with hq | hq
      · exact hord.nonempty q hq
      · rw [List.mem_singleton.mp hq]
        exact hpad
    · rcases List.mem_append.mp hq with hq | hq
      · have := hord.below q hq
        omega
      · rw [List.mem_singleton.mp hq]
        simp only
        omega
    · rcases List.mem_append.mp hq with hq | hq
      · exact hall.open_first hopen q hq
      · -- the open byte lies inside the old scalar part
        have hcov := hold pads.bitOffs
        have hone := openByte_cases pads pads.bitOffs
        have hup : roundUp pads.bitOffs 8 = (pads.bitOffs + 7) / 8 * 8 := rfl
        rw [List.mem_singleton.mp hq]
        rw [Pads.free, cover_append] at hcov
        show pads.bitOffs ≤ 8 * ssize
        have hopen' : pads.bitOffs % 8 ≠ 0 := hopen
        split_ifs at hcov <;> omega
  · rw [if_neg hpad]
    refine ⟨fun i => ?_, ⟨hord.sorted, hord.nonempty, fun q hq => ?_⟩, hall.open_first⟩
    · have hcov := hold i
      have hfield := Range.count_cases (8 * roundUp ssize size) (8 * size) i
      rw [hbits]
      split_ifs at hcov ⊢ <;> omega
    · have := hord.below q hq
      omega

/-- **One field** gets the smallest place, and no free place is lost. -/
theorem calculateOffset_complete {c : Nat → Nat} {ssize ssize' offset size : Nat}
    {pads pads' : Pads} (h : calculateOffset ssize pads size = (offset, ssize', pads'))
    (hfit : ssize + growth ssize pads size < 2 ^ 16) (hkeep : KeepsSpaces ssize pads size)
    (hall : Complete c ssize pads) :
    Complete (fun i => c i + (fieldBits size offset).count i) ssize' pads' ∧
      IsLeast (freePlaces c size) offset := by
  unfold calculateOffset at h
  unfold growth at hfit
  cases hfind : findPaddingSpace pads size with
  | some x =>
      rw [hfind] at h
      cases h
      exact findPaddingSpace_complete hfind hall
  | none =>
      rw [hfind] at h hfit
      simp only at h hfit
      by_cases h0 : size = 0
      · subst h0
        rw [if_pos rfl] at h hfit
        cases h
        rw [Nat.mod_eq_of_lt hfit]
        exact newByte_complete hfind hall
      · rw [if_neg h0] at h hfit
        cases h
        rw [Nat.mod_eq_of_lt hfit]
        exact newScalar_complete (Nat.pos_of_ne_zero h0) hfind hkeep hall

/-! ## All fields of a message -/

/-- The offsets that `spec.txt` allows for a field behind the fields `used`. -/
def allowed (used : List FieldDesc) (f : FieldDesc) : Set Nat :=
  {o | (f.kind ≠ .bool → f.width ∣ o) ∧ ∀ g ∈ used, BitsDisjoint g { f with tag0 := o }}

/-- Every scalar has the smallest offset that is allowed behind the fields before it. -/
def SmallestOffsets (fields : List FieldDesc) : Prop :=
  ∀ k f, fields[k]? = some f → f.inPointers = false → IsLeast (allowed (fields.take k) f) f.tag0

/-- The places that no field before covers. -/
theorem allowed_fieldOf {ent : LookupEntry} {list : Bool} (h : ent.Wf)
    (hin : inPointers ent list = false) (name : Text) (offset : Nat) (used : List FieldDesc) :
    allowed used (fieldOf name ent list offset)
      = freePlaces (cover (used.filterMap FieldDesc.bits)) ent.size := by
  have hbits : ∀ o, { fieldOf name ent list offset with tag0 := o }.bits
      = some (fieldBits ent.size o) := fun o => fieldOf_bits h hin name o
  have hsize : (fieldOf name ent list offset).kind ≠ .bool ↔ 0 < ent.size := by
    show ent.kind ≠ .bool ↔ _
    constructor
    · intro hb
      have hscalar := h.scalarSize hin hb
      rcases Nat.eq_zero_or_pos ent.size with h0 | hpos
      · rw [h0] at hscalar
        exact absurd hscalar (by decide)
      · exact hpos
    · intro hpos hb
      rw [h.size_bool hb] at hpos
      exact absurd hpos (Nat.lt_irrefl 0)
  ext o
  refine and_congr ?_ ?_
  · rw [hsize, fieldOf_width h hin]
  · constructor
    · intro hdis i hi
      rw [cover_eq_zero_iff]
      intro r hr hhas
      obtain ⟨g, hg, hgr⟩ := List.mem_filterMap.mp hr
      exact hdis g hg r hgr _ (hbits o) i hhas hi
    · intro hfree g hg r hr r' hr' i hi hi'
      rw [hbits, Option.some.injEq] at hr'
      subst hr'
      exact cover_eq_zero_iff.mp (hfree i hi') r (List.mem_filterMap.mpr ⟨g, hg, hr⟩) hi

theorem SmallestOffsets.append {fields : List FieldDesc} {f : FieldDesc}
    (h : SmallestOffsets fields)
    (hf : f.inPointers = false → IsLeast (allowed fields f) f.tag0) :
    SmallestOffsets (fields ++ [f]) := by
  intro k g hg hin
  by_cases hk : k < fields.length
  · rw [List.getElem?_append_left hk] at hg
    rw [List.take_append_of_le_length (Nat.le_of_lt hk)]
    exact h k g hg hin
  · rw [List.getElem?_append_right (by omega)] at hg
    obtain ⟨hlt, hget⟩ := List.getElem?_eq_some_iff.mp hg
    rw [List.length_singleton] at hlt
    obtain rfl : k = fields.length := by omega
    simp only [Nat.sub_self, List.getElem_cons_zero] at hget
    subst hget
    rw [List.take_left]
    exact hf hin

/-- The size of the scalar part stays below `65536` when the field is laid out. -/
def ScalarFits (types : List LookupEntry) (st : MsgState) (d : FldDesc) : Prop :=
  ∀ ent, lookup types d.tname = some ent → inPointers ent d.list = false →
    st.ssize + growth st.ssize st.pads ent.size < 2 ^ 16

/-- No padding space is lost when the field is laid out. -/
def FieldKeeps (types : List LookupEntry) (st : MsgState) (d : FldDesc) : Prop :=
  ∀ ent, lookup types d.tname = some ent → inPointers ent d.list = false →
    KeepsSpaces st.ssize st.pads ent.size

instance (types : List LookupEntry) (st : MsgState) (d : FldDesc) :
    Decidable (ScalarFits types st d) :=
  inferInstanceAs (Decidable (∀ ent ∈ lookup types d.tname, inPointers ent d.list = false →
    st.ssize + growth st.ssize st.pads ent.size < 2 ^ 16))

instance (types : List LookupEntry) (st : MsgState) (d : FldDesc) :
    Decidable (FieldKeeps types st d) :=
  inferInstanceAs (Decidable (∀ ent ∈ lookup types d.tname, inPointers ent d.list = false →
    KeepsSpaces st.ssize st.pads ent.size))

/-- The invariant of the loop over the fields while no space is lost. -/
structure Smallest (st : MsgState) : Prop where
  offsets : SmallestOffsets st.fields
  complete : Complete (cover (st.fields.filterMap FieldDesc.bits)) st.ssize st.pads

theorem smallest_start (alignment : Nat) : Smallest (MsgState.start alignment) where
  offsets := fun k f hf => by simp [MsgState.start] at hf
  complete := ⟨fun i => by simp [MsgState.start, Pads.clear, Pads.free, Pads.openByte],
    ⟨List.Pairwise.nil, fun p hp => (by cases hp), fun p hp => by cases hp⟩,
    fun _ p hp => by cases hp⟩

/-- **One round of the loop** keeps the invariant when it loses no space. -/
theorem Smallest.step {types : List LookupEntry} (htypes : WfTypes types) {st st' : MsgState}
    {d : FldDesc} (h : Smallest st) (hfit : ScalarFits types st d) (hkeep : FieldKeeps types st d)
    (hstep : outfield types st d = some st') : Smallest st' := by
  obtain ⟨ent, hent, hcase⟩ := outfield_eq_some hstep
  have hwf := htypes _ _ hent
  rcases hcase with ⟨hin, rfl⟩ | ⟨hin, offset, ssize, pads, hcalc, rfl⟩
  · -- a pointer slot takes no place in the scalar part
    have hbits : (fieldOf d.name ent d.list st.psize).bits = none := if_pos hin
    have hin' : (fieldOf d.name ent d.list st.psize).inPointers = true := hin
    refine ⟨h.offsets.append fun hf => ?_, ?_⟩
    · rw [hin'] at hf
      cases hf
    · simp only [List.filterMap_append, List.filterMap_cons_none hbits, List.filterMap_nil,
        List.append_nil]
      exact h.complete
  · obtain ⟨hcomp, hleast⟩ :=
      calculateOffset_complete hcalc (hfit ent hent hin) (hkeep ent hent hin) h.complete
    have hbits := fieldOf_bits hwf hin d.name offset
    refine ⟨h.offsets.append fun _ => ?_, ?_⟩
    · rw [allowed_fieldOf hwf hin]
      exact hleast
    · have hcount : cover ((st.fields ++ [fieldOf d.name ent d.list offset]).filterMap
          FieldDesc.bits) = fun i => cover (st.fields.filterMap FieldDesc.bits) i
            + (fieldBits ent.size offset).count i := by
        funext i
        simp only [List.filterMap_append, List.filterMap_cons_some hbits, List.filterMap_nil,
          cover_append, cover_cons, cover_nil, Nat.add_zero]
      rw [hcount]
      exact hcomp

/-- **Fields get the smallest offsets** in every message, as long as the size of the scalar part is
below `65536` and no padding space is lost: whenever one is added, `pad_link` is the link of the
last one. -/
theorem offsets_smallest {schema : SchemaDesc} {types : List LookupEntry}
    (hlook : makelookup schema = some types) (flds : List FldDesc) (alignment : Nat) {st : MsgState}
    (hrun : run (outfield types) (MsgState.start alignment) flds = some st)
    (hfits : AllSteps (outfield types) (ScalarFits types) (MsgState.start alignment) flds)
    (hkeeps : AllSteps (outfield types) (FieldKeeps types) (MsgState.start alignment) flds) :
    SmallestOffsets st.fields := by
  have htypes : WfTypes types := fun _ _ hent => lookup_wf hlook hent
  have hall : Smallest st := run_preserves_of_allSteps Smallest
    (fun _ _ _ hs hok hstep => hs.step htypes hok.1 hok.2 hstep) (smallest_start alignment)
    (hfits.and hkeeps) hrun
  exact hall.offsets

/-- The fields of a message with the given types. -/
def fieldsOf (tnames : List Text) : List FldDesc := tnames.map fun tname => ⟨asc "f", tname, false⟩

/-- The types of a schema without messages. -/
def scalarTypes : List LookupEntry := (allTypes ⟨none, [], []⟩).insertionSort lookupLe

theorem padded_smallest : ∃ st, run (outfield scalarTypes) (MsgState.start 0)
    (fieldsOf [asc "int8", asc "int64", asc "bool", asc "int16"]) = some st ∧
      st.fields.map FieldDesc.tag0 = [0, 8, 8, 2] ∧ SmallestOffsets st.fields := by
  have hlook : makelookup ⟨none, [], []⟩ = some scalarTypes := by decide
  obtain ⟨st, hst⟩ : ∃ st, run (outfield scalarTypes) (MsgState.start 0)
      (fieldsOf [asc "int8", asc "int64", asc "bool", asc "int16"]) = some st := ⟨_, rfl⟩
  refine ⟨st, hst, ?_, offsets_smallest hlook _ 0 hst (by decide) (by decide)⟩
  cases hst
  decide

/-- Numbers of several sizes at the offsets they get. -/
def lostFields : List FieldDesc :=
  [⟨asc "f", .int, false, 0, 1⟩, ⟨asc "f", .int, false, 8, 8⟩, ⟨asc "f", .int, false, 2, 2⟩,
    ⟨asc "f", .int, false, 4, 2⟩, ⟨asc "f", .int, false, 16, 4⟩, ⟨asc "f", .int, false, 24, 8⟩,
    ⟨asc "f", .int, false, 20, 2⟩]

/-- **A padding space is lost** when it is the second half of the last one: the last number goes to
offset 20, and 6 is free. -/
theorem padding_space_lost : makelookup ⟨none, [], []⟩ = some scalarTypes ∧
    ∃ st, run (outfield scalarTypes) (MsgState.start 0) (fieldsOf [asc "int8", asc "int64",
        asc "int16", asc "int16", asc "int32", asc "int64", asc "int16"]) = some st ∧
      st.fields.map FieldDesc.tag0 = [0, 8, 2, 4, 16, 24, 20] ∧ ¬ SmallestOffsets st.fields := by
  refine ⟨by decide, ⟨32, 0, 8, ⟨[⟨1, 1⟩, ⟨22, 2⟩], 2, 0⟩, lostFields⟩, by decide, by decide, fun h => ?_⟩
  have hleast := h 6 ⟨asc "f", .int, false, 20, 2⟩ (by decide) (by decide)
  -- no field before has a bit from 48 to 63
  have hfree : ∀ g ∈ lostFields.take 6, ∀ r ∈ g.bits, r.start + r.len ≤ 48 ∨ 64 ≤ r.start := by
    decide
  have hsix : 6 ∈ allowed (lostFields.take 6) ⟨asc "f", .int, false, 20, 2⟩ := by
    refine ⟨fun _ => by decide, fun g hg r hr r' hr' i hi hi' => ?_⟩
    obtain rfl : (⟨48, 16⟩ : Range) = r' := Option.some.inj hr'
    obtain ⟨h1, h2⟩ := hi
    obtain ⟨h3, h4⟩ := hi'
    simp only at h3 h4
    rcases hfree g hg r hr with hlow | hhigh <;> omega
  exact absurd (hleast.2 hsix) (by decide)

end T2b

end Nbuf
