import Nbuf.Lib.Chunk
import Nbuf.Text.Lex

set_option autoImplicit false

/-! # Prefix and guard of a generated header (`nbufc/b2h.c`)

`makeprefix` allocates two buffers and fills them with the package name or the name of the
source file and with what the caller appends. The contents of new memory are arbitrary, and
`malloc` succeeds: its result is not looked at. A write outside an allocation is `none`.
-/

namespace Nbuf.Codegen

/-! ## The function -/

/-- A C string. With its terminator it is no larger than `PTRDIFF_MAX` bytes. -/
structure CStr where
  data : Text
  length_lt : data.length + 1 < 2 ^ 63

/-- `toupper` in the C locale -/
def toupper (c : UInt8) : UInt8 := if 97 ≤ c.toNat ∧ c.toNat ≤ 122 then c - 32 else c

/-- `if (!isalnum(ch)) ch = '_';` -/
def nameChar (c : UInt8) : UInt8 := if isalnum c then c else 95

/-- The members of `struct nbuf_b2h` that `makeprefix` sets. -/
structure Names where
  pfx : Chunk
  guard : Chunk

/-- What is written for a package without a name. -/
def fillGuard (srcname guardSuffix : Text) (g : Chunk) : Option Chunk := do
  let g ← g.puts 0 (srcname.map fun c => toupper (nameChar c))
  g.strcpy srcname.length guardSuffix

/-- The loop over the package name: each character goes into both buffers. -/
def copyName : Text → Nat → Names → Option Names
  | [], _, ctx => some ctx
  | c :: pkgName, i, ctx => do
      let p ← ctx.pfx.put i (nameChar c)
      let g ← ctx.guard.put i (toupper (nameChar c))
      copyName pkgName (i + 1) ⟨p, g⟩

/-- What is written for a package with a name. -/
def fillNames (pkgName prefixSuffix guardSuffix : Text) (ctx : Names) : Option Names := do
  let ctx ← copyName pkgName 0 ctx
  let p ← ctx.pfx.strcpy pkgName.length prefixSuffix
  let g ← ctx.guard.strcpy pkgName.length (asc "_NB")
  let g ← g.strcpy (pkgName.length + 3) guardSuffix
  pure ⟨p, g⟩

/-- `makeprefix`. The two blocks are the contents of the memory that is allocated. -/
def makePrefix (block₁ block₂ : ByteMem) (pkgName : Text) (srcname prefixSuffix guardSuffix : CStr) :
    Option Names :=
  let strlen := guardSuffix.data.length
  if pkgName.length = 0 then do
    -- `strdup("")`
    let p : Chunk := ⟨ByteMem.ofList [0], 1⟩
    let g ← fillGuard srcname.data guardSuffix.data
      ⟨block₂, sizeT (srcname.data.length + strlen + 1)⟩
    pure ⟨p, g⟩
  else
    fillNames pkgName prefixSuffix.data guardSuffix.data
      ⟨⟨block₁, sizeT (pkgName.length + 2)⟩, ⟨block₂, sizeT (pkgName.length + strlen + 3)⟩⟩

/-! ## The bytes that are written -/

/-- **The room that the name of the source file needs.** -/
theorem fillGuard_isSome_iff {srcname guardSuffix : Text} {g : Chunk} :
    (fillGuard srcname guardSuffix g).isSome ↔ srcname.length + guardSuffix.length + 1 ≤ g.size := by
  constructor
  · intro h
    obtain ⟨g', h⟩ := Option.isSome_iff_exists.mp h
    obtain ⟨g₁, hname, hsuffix⟩ := Option.bind_eq_some_iff.mp h
    have hroom := (Chunk.strcpy_some hsuffix).1
    rwa [Chunk.puts_size hname] at hroom
  · intro hroom
    have hname : (g.puts 0 (srcname.map fun c => toupper (nameChar c))).isSome := by
      apply Chunk.puts_isSome
      rw [List.length_map]
      omega
    obtain ⟨g₁, hname⟩ := Option.isSome_iff_exists.mp hname
    have hsize := Chunk.puts_size hname
    obtain ⟨g', hg', -⟩ := Chunk.strcpy_of_le (hsize ▸ hroom)
    simp [fillGuard, hname, hg']

theorem copyName_isSome {pkgName : Text} {i : Nat} {ctx : Names}
    (hp : i + pkgName.length ≤ ctx.pfx.size) (hg : i + pkgName.length ≤ ctx.guard.size) :
    (copyName pkgName i ctx).isSome := by
  induction pkgName generalizing i ctx with
  | nil => rfl
  | cons c pkgName ih =>
      rw [List.length_cons] at hp hg
      rw [copyName, Chunk.put_of_lt _ (by omega), Chunk.put_of_lt _ (by omega)]
      exact ih (by simp only; omega) (by simp only; omega)

theorem copyName_size {pkgName : Text} {i : Nat} {ctx ctx' : Names}
    (h : copyName pkgName i ctx = some ctx') :
    ctx'.pfx.size = ctx.pfx.size ∧ ctx'.guard.size = ctx.guard.size := by
  induction pkgName generalizing i ctx with
  | nil =>
      cases h
      exact ⟨rfl, rfl⟩
  | cons c pkgName ih =>
      obtain ⟨p, hp, h⟩ := Option.bind_eq_some_iff.mp h
      obtain ⟨g, hg, h⟩ := Option.bind_eq_some_iff.mp h
      obtain ⟨hpfx, hguard⟩ := ih h
      exact ⟨hpfx.trans (Chunk.put_size hp), hguard.trans (Chunk.put_size hg)⟩

/-- **The room that a package with a name needs**: the prefix takes the name, its suffix and a
terminator, the guard three more characters. -/
theorem fillNames_isSome_iff {pkgName prefixSuffix guardSuffix : Text} {ctx : Names} :
    (fillNames pkgName prefixSuffix guardSuffix ctx).isSome ↔
      pkgName.length + prefixSuffix.length + 1 ≤ ctx.pfx.size ∧
        pkgName.length + 3 + guardSuffix.length + 1 ≤ ctx.guard.size := by
  constructor
  · intro h
    obtain ⟨ctx', h⟩ := Option.isSome_iff_exists.mp h
    obtain ⟨ctx₁, hcopy, h⟩ := Option.bind_eq_some_iff.mp h
    obtain ⟨p, hp, h⟩ := Option.bind_eq_some_iff.mp h
    obtain ⟨g, hg, h⟩ := Option.bind_eq_some_iff.mp h
    obtain ⟨g', hg', -⟩ := Option.bind_eq_some_iff.mp h
    obtain ⟨hpfx, hguard⟩ := copyName_size hcopy
    have hp := (Chunk.strcpy_some hp).1
    have hg' := (Chunk.strcpy_some hg').1
    rw [(Chunk.strcpy_some hg).2] at hg'
    omega
  · rintro ⟨hpfx, hguard⟩
    have hnb : (asc "_NB").length = 3 := rfl
    have hname : (copyName pkgName 0 ctx).isSome := copyName_isSome (by omega) (by omega)
    obtain ⟨ctx₁, hcopy⟩ := Option.isSome_iff_exists.mp hname
    obtain ⟨hsize, hsize'⟩ := copyName_size hcopy
    have hroom : pkgName.length + prefixSuffix.length + 1 ≤ ctx₁.pfx.size := by omega
    have hroom' : pkgName.length + (asc "_NB").length + 1 ≤ ctx₁.guard.size := by omega
    obtain ⟨p, hp, -⟩ := Chunk.strcpy_of_le hroom
    obtain ⟨g, hg, hgsize⟩ := Chunk.strcpy_of_le hroom'
    have hroom'' : pkgName.length + 3 + guardSuffix.length + 1 ≤ g.size := by omega
    obtain ⟨g', hg', -⟩ := Chunk.strcpy_of_le hroom''
    simp [fillNames, hcopy, hp, hg, hg']

/-- **The buffers are large enough exactly without a package name.** -/
theorem makePrefix_isSome_iff (block₁ block₂ : ByteMem) (pkgName : Text)
    (srcname prefixSuffix guardSuffix : CStr) :
    (makePrefix block₁ block₂ pkgName srcname prefixSuffix guardSuffix).isSome ↔ pkgName = [] := by
  by_cases hpkg : pkgName = []
  · have h1 := srcname.length_lt
    have h2 := guardSuffix.length_lt
    have hroom : sizeT (srcname.data.length + guardSuffix.data.length + 1)
        = srcname.data.length + guardSuffix.data.length + 1 := sizeT_of_lt (by omega)
    have hfile : (fillGuard srcname.data guardSuffix.data
        ⟨block₂, srcname.data.length + guardSuffix.data.length + 1⟩).isSome :=
      fillGuard_isSome_iff.mpr (Nat.le_refl _)
    obtain ⟨g, hg⟩ := Option.isSome_iff_exists.mp hfile
    simp [makePrefix, hpkg, hroom, hg]
  · -- The guard is one byte short of the name, `_NB`, the suffix and the terminator.
    have hguard : sizeT (pkgName.length + guardSuffix.data.length + 3)
        ≤ pkgName.length + guardSuffix.data.length + 3 := Nat.mod_le _ _
    have hne : pkgName.length ≠ 0 := fun h => hpkg (List.eq_nil_of_length_eq_zero h)
    simp only [makePrefix, if_neg hne, fillNames_isSome_iff, hpkg, iff_false, not_and]
    omega

/-- The guard misses one byte only: with it, what `nbuf_b2h` (suffixes `_` and `_H`) and
`nbuf_b2hh` (none and `_HPP`) write fits for every package name. -/
theorem fillNames_of_one_more {pkgName prefixSuffix guardSuffix : Text} (block₁ block₂ : ByteMem)
    (h : prefixSuffix.length ≤ 1) :
    (fillNames pkgName prefixSuffix guardSuffix
      ⟨⟨block₁, pkgName.length + 2⟩,
        ⟨block₂, pkgName.length + guardSuffix.length + 3 + 1⟩⟩).isSome := by
  rw [fillNames_isSome_iff]
  exact ⟨by show _ ≤ pkgName.length + 2; omega, by show _ ≤ _ + 3 + 1; omega⟩

/-- The header of package `p`: the guard `P_NB_H` with its terminator takes seven bytes, and six are
allocated. -/
theorem makePrefix_overflow : ∃ (pkgName : Text) (srcname : CStr),
    ¬ (makePrefix (fun _ => 170) (fun _ => 170) pkgName srcname ⟨asc "_", by decide⟩
      ⟨asc "_H", by decide⟩).isSome :=
  ⟨asc "p", ⟨asc "p.nbs", by decide⟩, by decide⟩

end Nbuf.Codegen
