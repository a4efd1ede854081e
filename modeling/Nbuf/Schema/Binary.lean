import Nbuf.Schema.Layout
import Nbuf.Schema.NbufNb

set_option autoImplicit false

/-! # Writing a binary schema (`nbufc/t2b.c`)

`nbuf_t2b` writes the schema of a syntax tree into a buffer with the generated setters. The layout
of the fields is that of `outfield` and `outmsg`; what they return as records is what is put into
the binary message.
-/

namespace Nbuf.T2b

open Run Nb

section

variable (alloc : Nat → Realloc)

/-- `makeschema` -/
def makeschema (b : Buffer) (schema : SchemaDesc) : Option (Out × Obj) := do
  let (w, o) ← newSchema alloc ⟨0, b⟩
  let w ← match schema.pkgName with
    | some name => schemaSetPkgName alloc w o name
    | none => pure w
  -- an empty list is not made: its slot stays null
  let w ← if schema.enums.length > 0 then schemaInitEnumTypes alloc w o schema.enums.length
    else pure w
  let w ← if schema.msgs.length > 0 then schemaInitMsgTypes alloc w o schema.msgs.length
    else pure w
  pure (w, o)

/-- The body of the inner loop of `outenums`. -/
def writeEnumDesc (en : Obj) (w : Out) (d : EnumDesc × Nat) : Option Out := do
  let de ← enumTypeValues w.buf en d.2
  let w ← enumDescSetName alloc w de d.1.name
  enumDescSetValue w de d.1.val

/-- The body of the outer loop of `outenums`. -/
def writeEnumType (o : Obj) (w : Out) (e : EnumType × Nat) : Option Out := do
  let en ← schemaEnumTypes w.buf o e.2
  let w ← enumTypeSetName alloc w en e.1.name
  -- this list is made in any case
  let w ← enumTypeInitValues alloc w en e.1.vals.length
  run (writeEnumDesc alloc en) w e.1.vals.zipIdx

/-- The setters of one field. -/
def setFieldDesc (de : Obj) (w : Out) (f : FieldDesc) : Option Out := do
  let w ← fieldDescSetName alloc w de f.name
  let w ← fieldDescSetList w de f.list
  let w ← fieldDescSetKind w de f.kind
  let w ← fieldDescSetTag0 w de f.tag0
  fieldDescSetTag1 w de f.tag1

/-- The body of the inner loop of `outmsgs`. -/
def writeFieldDesc (types : List LookupEntry) (ms : Obj) (s : Out × MsgState) (d : FldDesc × Nat) :
    Option (Out × MsgState) := do
  let de ← msgTypeFields s.1.buf ms d.2
  -- the layout does not look at the buffer, so the setters can wait for it
  let st ← outfield types s.2 d.1
  let f ← st.fields.getLast?
  let w ← setFieldDesc alloc de s.1 f
  pure (w, st)

/-- The body of the outer loop of `outmsgs`, with the alignment that is carried on. -/
def writeMsgType (types : List LookupEntry) (o : Obj) (s : Out × Nat) (m : MsgType × Nat) :
    Option (Out × Nat) := do
  let ms ← schemaMsgTypes s.1.buf o m.2
  let w ← msgTypeSetName alloc s.1 ms m.1.name
  let w ← msgTypeInitFields alloc w ms m.1.flds.length
  let (w, st) ← run (writeFieldDesc alloc types ms) (w, MsgState.start s.2) m.1.flds.zipIdx
  let w ← msgTypeSetSsize w ms (roundedSsize st)
  let w ← msgTypeSetPsize w ms st.psize
  pure (w, st.alignment)

/-- `nbuf_t2b` on an empty buffer. -/
def nbufT2b (b : Buffer) (schema : SchemaDesc) : Option Buffer := do
  let types ← makelookup schema
  let (w, o) ← makeschema alloc b schema
  let w ← run (writeEnumType alloc o) w schema.enums.zipIdx
  let (w, _) ← run (writeMsgType alloc types o) (w, 0) schema.msgs.zipIdx
  pure w.buf

end

/-! ## Its size -/

open Align

/-- The bytes of a string with its header. -/
def textSize (s : Text) : Nat := roundUp (8 + (s.length + 1)) 8

/-- The bytes of a table of `n` messages of `size` bytes, with its header. -/
def tableSize (n size : Nat) : Nat := roundUp (8 + n * size) 8

def enumTypeSize (e : EnumType) : Nat :=
  textSize e.name + tableSize e.vals.length 8 + (e.vals.map fun d => textSize d.name).sum

def msgTypeSize (m : MsgType) : Nat :=
  textSize m.name + tableSize m.flds.length 16 + (m.flds.map fun d => textSize d.name).sum

/-- The bytes of the binary schema. -/
def schemaSize (schema : SchemaDesc) : Nat :=
  tableSize 1 12 + (schema.pkgName.elim 0 textSize) +
    (if schema.enums.length > 0 then tableSize schema.enums.length 8 else 0) +
    (if schema.msgs.length > 0 then tableSize schema.msgs.length 12 else 0) +
    (schema.enums.map enumTypeSize).sum + (schema.msgs.map msgTypeSize).sum

end Nbuf.T2b
