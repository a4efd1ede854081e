import Nbuf.Lib.Align
import Nbuf.Lib.Run
import Nbuf.Schema.Source

set_option autoImplicit false

/-! # Field layout (`nbufc/t2b.c`)

`outmsgs` gives each field of a message its place: a scalar gets a byte offset, a bool a bit
offset and everything else a pointer slot. Bytes left over by alignment are kept in a linked
list of padding spaces and are given to later fields.
-/

namespace Nbuf.T2b

open Align Run

/-! ## Padding spaces -/

/-- `struct padding_space` -/
structure PaddingSpace where
  offset : Nat
  size : Nat
  deriving DecidableEq

/-- The padding spaces of a message. `link` counts the spaces before the link that `pad_link`
points to, and `bitOffs` is `pad_bit_offs`: when it is not a multiple of 8, the bits from there
to the end of the byte are free. -/
structure Pads where
  spaces : List PaddingSpace
  link : Nat
  bitOffs : Nat
  deriving DecidableEq

/-- `clear_padding_spaces` -/
def Pads.clear : Pads := ⟨[], 0, 0⟩

/-- Where a scalar goes in a padding space that is large enough. The offsets have at most 32
bits, so the sum in `NBUF_ROUNDUP` does not wrap around. -/
def PaddingSpace.fit (p : PaddingSpace) (size : Nat) : Option Nat :=
  let offset := roundUp p.offset size
  let padding := offset - p.offset
  if p.size ≥ padding + size then some offset else none

/-- What is left of a padding space when `size` bytes at `offset` are taken. -/
def PaddingSpace.rest (p : PaddingSpace) (offset size : Nat) : List PaddingSpace :=
  let padding := offset - p.offset
  if padding ≠ 0 then
    let remain := p.size - padding - size
    ⟨p.offset, padding⟩ :: if remain ≠ 0 then [⟨p.offset + padding + size, remain⟩] else []
  else if p.size > size then [⟨p.offset + size, p.size - size⟩]
  else []

/-- The search loop of `find_padding_space`: the first space that is large enough, the offset in
it, and the spaces before and behind it. -/
def firstFit (size : Nat) :
    List PaddingSpace → Option (List PaddingSpace × PaddingSpace × Nat × List PaddingSpace)
  | [] => none
  | p :: spaces =>
      match p.fit size with
      | some offset => some ([], p, offset, spaces)
      | none => (firstFit size spaces).map fun (pre, q, offset, post) => (p :: pre, q, offset, post)

/-- `pad_link` after the space at position `k` is replaced by `n` spaces. A space is split behind
its own link, so a link that points right behind the split space stays there. -/
def relink (link k n : Nat) : Nat :=
  if link ≤ k then link
  else if n = 0 then link - 1
  else if n = 2 ∧ k + 1 < link then link + 1
  else link

/-- Take `size` bytes from the first padding space that is large enough. -/
def Pads.take (pads : Pads) (size : Nat) : Option (Nat × Pads) :=
  (firstFit size pads.spaces).map fun (pre, p, offset, post) =>
    let rest := p.rest offset size
    (offset, { pads with
      spaces := pre ++ rest ++ post
      link := relink pads.link pre.length rest.length })

/-- `find_padding_space`. A bool has size `0`; its offset counts bits. -/
def findPaddingSpace (pads : Pads) (size : Nat) : Option (Nat × Pads) :=
  if size = 0 then
    if pads.bitOffs % 8 ≠ 0 then
      some (pads.bitOffs, { pads with bitOffs := pads.bitOffs + 1 })
    else
      -- try to find a byte
      (pads.take 1).map fun (offset, pads) =>
        (8 * offset, { pads with bitOffs := 8 * offset + 1 })
  else pads.take size

/-- `add_padding_space`: what hangs on the link is dropped. -/
def Pads.add (pads : Pads) (offset size : Nat) : Pads :=
  let spaces := pads.spaces.take pads.link
  { pads with spaces := spaces ++ [⟨offset, size⟩], link := spaces.length + 1 }

/-- `calculate_offset`: the offset, the new size of the scalar part and the padding spaces. -/
def calculateOffset (ssize : Nat) (pads : Pads) (size : Nat) : Nat × Nat × Pads :=
  match findPaddingSpace pads size with
  | some (offset, pads) => (offset, ssize, pads)
  | none =>
      if size = 0 then
        (8 * ssize, (ssize + 1) % 2 ^ 16, { pads with bitOffs := 8 * ssize + 1 })
      else
        let offset := roundUp ssize size
        let padding := offset - ssize
        (offset, (ssize + (padding + size)) % 2 ^ 16,
          if padding > 0 then pads.add ssize padding else pads)

/-- What `calculate_offset` adds to the size of the scalar part, before the sum is cut to 16
bits. -/
def growth (ssize : Nat) (pads : Pads) (size : Nat) : Nat :=
  match findPaddingSpace pads size with
  | some _ => 0
  | none => if size = 0 then 1 else roundUp ssize size - ssize + size

/-! ## Messages -/

/-- The variables of the loop over the fields of a message. -/
structure MsgState where
  ssize : Nat
  psize : Nat
  alignment : Nat
  pads : Pads
  fields : List FieldDesc
  deriving DecidableEq

/-- The state before the first field. `alignment` is not reset between messages. -/
def MsgState.start (alignment : Nat) : MsgState := ⟨0, 0, alignment, Pads.clear, []⟩

/-- Does a field go into the pointer part? -/
def inPointers (ent : LookupEntry) (list : Bool) : Bool :=
  list || ent.kind == .str || ent.kind == .ptr

/-- `tag1` of a field -/
def tagOne (ent : LookupEntry) : Nat :=
  if ent.kind = .enum ∨ ent.kind = .ptr then ent.id else ent.size

/-- The record `outmsgs` writes for a field. -/
def fieldOf (name : Text) (ent : LookupEntry) (list : Bool) (tag0 : Nat) : FieldDesc :=
  ⟨name, ent.kind, list, tag0, tagOne ent⟩

/-- The body of the loop over the fields. It exits when the type is unknown. -/
def outfield (types : List LookupEntry) (st : MsgState) (d : FldDesc) : Option MsgState := do
  let ent ← lookup types d.tname
  if inPointers ent d.list = true then
    pure { st with
      psize := (st.psize + 1) % 2 ^ 16
      alignment := max st.alignment 4
      fields := st.fields ++ [fieldOf d.name ent d.list st.psize] }
  else
    let (offset, ssize, pads) := calculateOffset st.ssize st.pads ent.size
    pure { st with
      ssize := ssize
      alignment := max st.alignment ent.size
      pads := pads
      fields := st.fields ++ [fieldOf d.name ent d.list offset] }

/-- The size of the scalar part rounded up so that elements of a vector are aligned, before it is
cut to 16 bits. -/
def roundedSsize (st : MsgState) : Nat :=
  if st.alignment > 1 then roundUp (st.ssize + st.psize * 4) st.alignment - st.psize * 4
  else st.ssize

/-- The variables of the loop over the messages. -/
structure OutState where
  alignment : Nat
  msgs : List Nbuf.MsgType

/-- The body of the loop over the messages. -/
def outmsg (types : List LookupEntry) (st : OutState) (m : MsgType) : Option OutState := do
  let ms ← run (outfield types) (MsgState.start st.alignment) m.flds
  pure {
    alignment := ms.alignment
    msgs := st.msgs ++ [⟨m.name, ms.fields, roundedSsize ms % 2 ^ 16, ms.psize⟩] }

/-- `outmsgs`: the messages of the compiled schema. -/
def outmsgs (types : List LookupEntry) (msgs : List MsgType) : Option (List Nbuf.MsgType) :=
  (run (outmsg types) ⟨0, []⟩ msgs).map OutState.msgs

/-! ## Sizes that fit 16 bits -/

/-- The sizes stay below `65536` when the field is laid out. -/
def FieldFits (types : List LookupEntry) (st : MsgState) (d : FldDesc) : Prop :=
  ∀ ent, lookup types d.tname = some ent →
    if inPointers ent d.list = true then st.psize + 1 < 2 ^ 16
    else st.ssize + growth st.ssize st.pads ent.size < 2 ^ 16

instance (types : List LookupEntry) (st : MsgState) (d : FldDesc) :
    Decidable (FieldFits types st d) :=
  inferInstanceAs (Decidable (∀ ent ∈ lookup types d.tname,
    if inPointers ent d.list = true then st.psize + 1 < 2 ^ 16
    else st.ssize + growth st.ssize st.pads ent.size < 2 ^ 16))

/-- **No 16-bit overflow**: the running sizes stay below `65536` while the fields are laid out and
when the scalar part is rounded up. -/
def MsgFits (types : List LookupEntry) (alignment : Nat) (m : MsgType) : Prop :=
  AllSteps (outfield types) (FieldFits types) (MsgState.start alignment) m.flds ∧
    ∀ st, run (outfield types) (MsgState.start alignment) m.flds = some st →
      roundedSsize st < 2 ^ 16

instance (types : List LookupEntry) (alignment : Nat) (m : MsgType) :
    Decidable (MsgFits types alignment m) :=
  inferInstanceAs (Decidable (
    AllSteps (outfield types) (FieldFits types) (MsgState.start alignment) m.flds ∧
      ∀ st ∈ run (outfield types) (MsgState.start alignment) m.flds, roundedSsize st < 2 ^ 16))

end Nbuf.T2b
