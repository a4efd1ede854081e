import Nbuf.Schema.Types
import Nbuf.Wire.Writer

set_option autoImplicit false

/-! # The accessors of a binary schema (`include/nbuf.nb.h`)

A compiled schema is a message itself, of the types of `lib/nbuf.nbs`, and the generated code for
these types reads and writes it. A getter is a function of the buffer and a handle; a setter
returns the buffer that it leaves.
-/

namespace Nbuf.Nb

/-! ## Getters -/

section

variable (b : Buffer) (o : Obj)

/-- A field of type `string`. -/
def getStrField (slot : Nat) : Option Text := do
  let s ← getStr b o slot
  s.bytes b

/-- Element `i` of a list of messages. -/
def getMsgField (slot i : Nat) : Option Obj := do
  let list ← getPtr b o slot
  pure (getElem list i)

/-- The number of messages in a list. -/
def getSizeField (slot : Nat) : Option Nat := do
  let list ← getPtr b o slot
  pure list.nelem

/-- A field of an unsigned type of `sz` bytes. -/
def getUintField (offset sz : Nat) : Option Nat := do
  let v ← getInt b o offset sz
  pure (v % 256 ^ sz).toNat

/-- `nbuf_get_Schema` -/
def getSchema : Option Obj := objInit b Obj.null 0

/-- `nbuf_Schema_msgTypes` -/
def schemaMsgTypes (i : Nat) : Option Obj := getMsgField b o 0 i

/-- `nbuf_Schema_msgTypes_size` -/
def schemaMsgTypesSize : Option Nat := getSizeField b o 0

/-- `nbuf_Schema_enumTypes` -/
def schemaEnumTypes (i : Nat) : Option Obj := getMsgField b o 1 i

/-- `nbuf_Schema_enumTypes_size` -/
def schemaEnumTypesSize : Option Nat := getSizeField b o 1

/-- `nbuf_Schema_pkgName` -/
def schemaPkgName : Option Text := getStrField b o 2

/-- `nbuf_EnumDesc_name` -/
def enumDescName : Option Text := getStrField b o 0

/-- `nbuf_EnumDesc_value` -/
def enumDescValue : Option Nat := getUintField b o 0 2

/-- `nbuf_EnumType_name` -/
def enumTypeName : Option Text := getStrField b o 0

/-- `nbuf_EnumType_values` -/
def enumTypeValues (i : Nat) : Option Obj := getMsgField b o 1 i

/-- `nbuf_EnumType_values_size` -/
def enumTypeValuesSize : Option Nat := getSizeField b o 1

/-- `nbuf_FieldDesc_name` -/
def fieldDescName : Option Text := getStrField b o 0

/-- The kind with a number. -/
def kindOf : Nat → Option Kind
  | 0 => some .bool
  | 1 => some .enum
  | 2 => some .int
  | 3 => some .uint
  | 4 => some .float
  | 5 => some .str
  | 6 => some .ptr
  | _ => none

/-- `nbuf_FieldDesc_kind`, `none` on a number that is no kind. -/
def fieldDescKind : Option Kind := do
  let v ← getUintField b o 0 2
  kindOf v

/-- `nbuf_FieldDesc_list` -/
def fieldDescList : Option Bool := getBit b o 16

/-- `nbuf_FieldDesc_tag0` -/
def fieldDescTag0 : Option Nat := getUintField b o 4 4

/-- `nbuf_FieldDesc_tag1` -/
def fieldDescTag1 : Option Nat := getUintField b o 8 4

/-- `nbuf_MsgType_name` -/
def msgTypeName : Option Text := getStrField b o 0

/-- `nbuf_MsgType_fields` -/
def msgTypeFields (i : Nat) : Option Obj := getMsgField b o 1 i

/-- `nbuf_MsgType_fields_size` -/
def msgTypeFieldsSize : Option Nat := getSizeField b o 1

/-- `nbuf_MsgType_ssize` -/
def msgTypeSsize : Option Nat := getUintField b o 0 2

/-- `nbuf_MsgType_psize` -/
def msgTypePsize : Option Nat := getUintField b o 2 2

end

/-! ## Setters -/

/-- A buffer that is written, and how often `realloc` may have been asked. -/
structure Out where
  clock : Nat
  buf : Buffer

section

variable (alloc : Nat → Realloc) (w : Out) (o : Obj)

/-- `nbuf_create` -/
def Out.create (nelem ssize psize : Nat) : Option (Out × Obj) := do
  let (b, r) ← Nbuf.create (alloc w.clock) w.buf nelem ssize psize
  pure (⟨w.clock + 1, b⟩, r)

/-- A field of type `string` is put. The length `-1` stands for that of the C string. -/
def Out.setStrField (slot : Nat) (v : Text) : Option Out := do
  let (b, _) ← putStr (alloc w.clock) w.buf o slot (v ++ [0]) (2 ^ 64 - 1)
  pure ⟨w.clock + 1, b⟩

/-- A list of `n` messages is made. -/
def Out.initMsgField (slot n ssize psize : Nat) : Option Out := do
  -- the handle is not kept: the clients ask for the elements again
  let (w, oo) ← w.create alloc n ssize psize
  let b ← putPtr w.buf o slot oo
  pure { w with buf := b }

/-- A field of an unsigned type of `sz` bytes is put. -/
def Out.setUintField (offset sz v : Nat) : Option Out := do
  let b ← putInt w.buf o offset sz (v % 256 ^ sz)
  pure { w with buf := b }

/-- `nbuf_new_Schema` -/
def newSchema : Option (Out × Obj) := w.create alloc 1 0 3

/-- `nbuf_Schema_init_msgTypes` -/
def schemaInitMsgTypes (n : Nat) : Option Out := w.initMsgField alloc o 0 n 4 2

/-- `nbuf_Schema_init_enumTypes` -/
def schemaInitEnumTypes (n : Nat) : Option Out := w.initMsgField alloc o 1 n 0 2

/-- `nbuf_Schema_set_pkgName` -/
def schemaSetPkgName (v : Text) : Option Out := w.setStrField alloc o 2 v

/-- `nbuf_EnumDesc_set_name` -/
def enumDescSetName (v : Text) : Option Out := w.setStrField alloc o 0 v

/-- `nbuf_EnumDesc_set_value` -/
def enumDescSetValue (v : Nat) : Option Out := w.setUintField o 0 2 v

/-- `nbuf_EnumType_set_name` -/
def enumTypeSetName (v : Text) : Option Out := w.setStrField alloc o 0 v

/-- `nbuf_EnumType_init_values` -/
def enumTypeInitValues (n : Nat) : Option Out := w.initMsgField alloc o 1 n 4 1

/-- `nbuf_FieldDesc_set_name` -/
def fieldDescSetName (v : Text) : Option Out := w.setStrField alloc o 0 v

/-- `nbuf_FieldDesc_set_kind` -/
def fieldDescSetKind (v : Kind) : Option Out := w.setUintField o 0 2 v.toNat

/-- `nbuf_FieldDesc_set_list` -/
def fieldDescSetList (v : Bool) : Option Out := do
  let b ← putBit w.buf o 16 v
  pure { w with buf := b }

/-- `nbuf_FieldDesc_set_tag0` -/
def fieldDescSetTag0 (v : Nat) : Option Out := w.setUintField o 4 4 v

/-- `nbuf_FieldDesc_set_tag1` -/
def fieldDescSetTag1 (v : Nat) : Option Out := w.setUintField o 8 4 v

/-- `nbuf_MsgType_set_name` -/
def msgTypeSetName (v : Text) : Option Out := w.setStrField alloc o 0 v

/-- `nbuf_MsgType_init_fields` -/
def msgTypeInitFields (n : Nat) : Option Out := w.initMsgField alloc o 1 n 12 1

/-- `nbuf_MsgType_set_ssize` -/
def msgTypeSetSsize (v : Nat) : Option Out := w.setUintField o 0 2 v

/-- `nbuf_MsgType_set_psize` -/
def msgTypeSetPsize (v : Nat) : Option Out := w.setUintField o 2 2 v

end

/-! ## A whole schema

The clients of a schema call the getters when they need them. `readSchema` calls all of them. -/

section

variable (b : Buffer)

/-- All messages of a list, each read by `read`. -/
def readList {α : Type} (size : Option Nat) (elem : Nat → Option Obj) (read : Obj → Option α) :
    Option (List α) := do
  let n ← size
  (List.range n).mapM fun i => do
    let o ← elem i
    read o

def readEnumDesc (o : Obj) : Option EnumDesc := do
  let name ← enumDescName b o
  let value ← enumDescValue b o
  pure ⟨name, value⟩

def readEnumType (o : Obj) : Option EnumType := do
  let name ← enumTypeName b o
  let values ← readList (enumTypeValuesSize b o) (enumTypeValues b o) (readEnumDesc b)
  pure ⟨name, values⟩

def readFieldDesc (o : Obj) : Option FieldDesc := do
  let name ← fieldDescName b o
  let kind ← fieldDescKind b o
  let list ← fieldDescList b o
  let tag0 ← fieldDescTag0 b o
  let tag1 ← fieldDescTag1 b o
  pure ⟨name, kind, list, tag0, tag1⟩

def readMsgType (o : Obj) : Option MsgType := do
  let name ← msgTypeName b o
  let fields ← readList (msgTypeFieldsSize b o) (msgTypeFields b o) (readFieldDesc b)
  let ssize ← msgTypeSsize b o
  let psize ← msgTypePsize b o
  pure ⟨name, fields, ssize, psize⟩

/-- Everything that the getters find in a binary schema. -/
def readSchema : Option Schema := do
  let o ← getSchema b
  let pkgName ← schemaPkgName b o
  let enumTypes ← readList (schemaEnumTypesSize b o) (schemaEnumTypes b o) (readEnumType b)
  let msgTypes ← readList (schemaMsgTypesSize b o) (schemaMsgTypes b o) (readMsgType b)
  pure ⟨pkgName, enumTypes, msgTypes⟩

end

end Nbuf.Nb
