import Nbuf.Lib.Outcome
import Nbuf.Schema.Types
import Nbuf.Wire.Reader

set_option autoImplicit false

/-! # The printers (`lib/print.c`) and the field references they use (`include/libnbuf.h`)

`doPrintNotype` prints an object from its header alone, `doPrint` with the help of a schema.
Both follow pointers recursively. A printer returns the bytes it writes to its file; the number
of bytes, which the C functions return, is their length.
-/

namespace Nbuf

open Outcome

/-! ## Formatting -/

/-- The text of a number in decimal. -/
def decimal (n : Nat) : Text :=
  if n = 0 then asc "0" else (Nat.digits 10 n).reverse.map fun d => UInt8.ofNat (48 + d)

/-- `%d` for a signed number. -/
def decimalInt (v : Int) : Text :=
  if v < 0 then asc "-" ++ decimal v.natAbs else decimal v.toNat

/-- A hexadecimal digit. -/
def hexDigit (d : Nat) : UInt8 := UInt8.ofNat (if d < 10 then 48 + d else 87 + d)

/-- `isprint` in the C locale -/
def isprint (c : UInt8) : Bool := decide (32 ≤ c.toNat ∧ c.toNat < 127)

/-- How `dumpstr` shows one byte: a quote is escaped, a byte that is not printable becomes
`\xhh`. -/
def dumpchr (c : UInt8) : Text :=
  if c = 34 then asc "\\\""
  else if isprint c then [c]
  else asc "\\x" ++ [hexDigit (c.toNat / 16), hexDigit (c.toNat % 16)]

/-- `dumpstr` -/
def dumpstr (s : Text) : Text := asc "\"" ++ s.flatMap dumpchr ++ asc "\""

/-- `do_indent` -/
def doIndent (n : Int) : Text := List.replicate n.toNat 32

/-- The character after a field: a newline, or a blank when everything is printed on one
line. -/
def newline (indentInc : Int) : UInt8 := if indentInc ≥ 0 then 10 else 32

/-! ## Printing without a schema -/

/-- The handle moved to the next element: `o.base += nbuf_elemsz(&o)`. -/
def Obj.next (r : Obj) : Obj := { r with base := sizeT (r.base + r.elemsz) }

/-- How `do_print_notype` looks at an object a pointer leads to: a vector of bits or bytes
becomes one element. -/
def asOneElement (oo : Obj) : Obj :=
  if oo.ssize ≤ 1 ∧ oo.psize = 0 ∧ oo.nelem > 0 then
    Obj.ofFields oo.base 1 (if oo.ssize = 0 then bitBytes oo.nelem else oo.nelem) oo.psize
  else oo

/-- The loop of a printer over the elements of a list: it stops at the first element whose
scalar part is out of bounds. -/
def elemLoop (b : Buffer) (body : Obj → Outcome Text) : Nat → Obj → Outcome Text
  | 0, _ => done []
  | n + 1, oo =>
      if boundsCheck b oo.base oo.ssize = false then done []
      else do
        let out ← body oo
        let rest ← elemLoop b body n oo.next
        pure (out ++ rest)

/-- The scalar part of an object, as field `0`. -/
def rawScalars (b : Buffer) (nl : UInt8) (indent : Int) (o : Obj) : Outcome Text :=
  if o.ssize > 0 then do
    let s ← ofOption (readBytes b o.base o.ssize)
    pure (doIndent indent ++ asc "0: " ++ dumpstr s ++ [nl])
  else pure []

/-- What follows the number of a pointer: a string, or an object in braces that `inner` prints. -/
def rawValue (b : Buffer) (nl : UInt8) (inner : Obj → Outcome Text) (indent : Int) (oo : Obj) :
    Outcome Text :=
  if oo.psize = 0 then do
    let s ← ofOption (readBytes b oo.base oo.ssize)
    pure (dumpstr s)
  else do
    let body ← inner oo
    pure (asc "\x7b" ++ [nl] ++ body ++ doIndent indent ++ asc "\x7d")

/-- The elements pointer `i` leads to. -/
def rawSlot (b : Buffer) (nl : UInt8) (inner : Obj → Outcome Text) (indent : Int) (o : Obj)
    (i : Nat) : Outcome Text := do
  let oo ← ofOption (getPtr b o i)
  elemLoop b (fun oo => do
      let value ← rawValue b nl inner indent oo
      pure (doIndent indent ++ decimal (i + 1) ++ asc ": " ++ value ++ [nl]))
    (asOneElement oo).nelem (asOneElement oo)

/-- `do_print_notype` -/
def doPrintNotype (b : Buffer) (indentInc : Int) : Nat → Int → Obj → Outcome Text
  | 0, _, _ => outOfFuel
  | fuel + 1, indent, o => do
      let nl := newline indentInc
      let inner := doPrintNotype b indentInc fuel (indent + indentInc)
      let scalars ← rawScalars b nl indent o
      let slots ← concat (rawSlot b nl inner indent o) (List.range o.psize)
      pure (scalars ++ slots)

/-- `nbuf_raw_print` -/
def rawPrint (b : Buffer) (fuel : Nat) (o : Obj) (indent : Int) : Outcome Text :=
  doPrintNotype b indent fuel 0 o

/-! ## References to fields -/

/-- `struct nbuf_ref` -/
structure Ref where
  o : Obj
  kind : Kind
  list : Bool
  tag0 : Nat
  tag1 : Nat

/-- `nbuf_get_ref` -/
def getRef (o : Obj) (fld : FieldDesc) : Ref :=
  { o := o, kind := fld.kind, list := fld.list, tag0 := fld.tag0, tag1 := fld.tag1 }

/-- The width of the number a reference stands for. -/
def Ref.sz (ref : Ref) : Nat := if ref.kind = .enum then 2 else ref.tag1

/-- `nbuf_ref_get_int` -/
def refGetInt (b : Buffer) (ref : Ref) : Option Int := do
  assertC (ref.kind = .int ∨ ref.kind = .uint ∨ ref.kind = .enum)
  let v ← getInt b ref.o ref.tag0 ref.sz
  if ref.kind = .uint then
    -- v &= ~(uint64_t) 0 >> (8-sz) * 8, and back to int64_t
    pure (((toU64 v % 256 ^ ref.sz : Nat) : Int).bmod (2 ^ 64))
  else pure v

/-- `nbuf_ref_get_bit` -/
def refGetBit (b : Buffer) (ref : Ref) : Option Bool := do
  assertC (ref.kind = .bool)
  getBit b ref.o ref.tag0

/-- `nbuf_ref_get_float`: the bits of the number. -/
def refGetFloat (b : Buffer) (ref : Ref) : Option Int := do
  assertC (ref.kind = .float)
  assertC (ref.tag1 = 4 ∨ ref.tag1 = 8)
  getInt b ref.o ref.tag0 ref.tag1

/-- `nbuf_ref_get_str`, with the bytes of the string. -/
def refGetStr (b : Buffer) (ref : Ref) : Option Text := do
  assertC (ref.kind = .str)
  let s ← getStr b ref.o ref.tag0
  s.bytes b

/-- `nbuf_ref_get_ptr` -/
def refGetPtr (b : Buffer) (ref : Ref) : Option Ref := do
  assertC (ref.list = true ∨ ref.kind = .ptr)
  let o ← getPtr b ref.o ref.tag0
  let o := if ref.kind = .bool then Obj.ofFields o.base o.nelem 1 o.psize else o
  pure { ref with o := o, tag0 := 0 }

/-- `nbuf_ref_advance(ref, n)` on a list: `none` at its end. -/
def refAdvance (ref : Ref) (n : Nat) : Option Ref :=
  if ref.o.nelem ≤ n then none
  else if ref.kind = .bool then
    let m := ref.tag0 + n
    some { ref with
      o := Obj.ofFields (sizeT (ref.o.base + m / 8)) (ref.o.nelem - n) ref.o.ssize ref.o.psize
      tag0 := m % 8 }
  else
    some { ref with
      o := Obj.ofFields (sizeT (ref.o.base + n * ref.o.elemsz)) (ref.o.nelem - n) ref.o.ssize
        ref.o.psize }

/-- `nbuf_enum_name` -/
def enumName (enm : EnumType) (val : Nat) : Option Text :=
  (enm.values.find? fun d => val == d.value).map EnumDesc.name

/-! ## Printing with a schema -/

section

variable (b : Buffer) (schema : Schema) (fmtFloat : Nat → Int → Text) (indentInc : Int)

/-- The value of a field, as the `switch` of `do_print` writes it. `fmtFloat` is what `%.*lg`
prints for the bits of a `float` (width 4) or `double` (width 8). -/
def printValue (inner : Obj → MsgType → Outcome Text) (indent : Int) (ref : Ref) :
    Outcome Text :=
  match ref.kind with
  | .bool => do
      let v ← ofOption (refGetBit b ref)
      pure (if v then asc "true" else asc "false")
  | .int => do
      let v ← ofOption (refGetInt b ref)
      pure (decimalInt v)
  | .uint => do
      let v ← ofOption (refGetInt b ref)
      pure (decimal (toU64 v))
  | .float => do
      let v ← ofOption (refGetFloat b ref)
      pure (fmtFloat ref.tag1 v)
  | .str => do
      let s ← ofOption (refGetStr b ref)
      pure (dumpstr s)
  | .enum => do
      let v ← ofOption (refGetInt b ref)
      let enumVal := toU64 v % 2 ^ 16
      match enumName (schema.enumType ref.tag1) enumVal with
      | some name => pure (cstr name)
      | none => pure (decimal enumVal)
  | .ptr => do
      let body ← inner ref.o (schema.msgType ref.tag1)
      pure (asc "\x7b" ++ [newline indentInc] ++ body ++ doIndent indent ++ asc "\x7d")

/-- What stands between the name of a field and its value. -/
def fieldSep (kind : Kind) : Text := if kind = .ptr then asc " " else asc ": "

/-- The `do … while` loop over the elements of a field. The count bounds the calls of
`nbuf_ref_advance`, each of which uses up an element. -/
def printElems (inner : Obj → MsgType → Outcome Text) (name : Text) (indent : Int) :
    Nat → Ref → Outcome Text
  | n, ref =>
      if boundsCheck b ref.o.base ref.o.ssize = false then done []
      else do
        let value ← printValue b schema fmtFloat indentInc inner indent ref
        let out := doIndent indent ++ cstr name ++ fieldSep ref.kind ++ value
          ++ [newline indentInc]
        match n with
        | 0 => pure out
        | n + 1 =>
            if ref.list then
              match refAdvance ref 1 with
              | none => pure out
              | some ref' => do
                  let rest ← printElems inner name indent n ref'
                  pure (out ++ rest)
            else pure out

/-- One field of a message. -/
def printField (inner : Obj → MsgType → Outcome Text) (indent : Int) (o : Obj)
    (fld : FieldDesc) : Outcome Text :=
  let ref := getRef o fld
  if ref.list = true ∨ ref.kind = .ptr then do
    let ref ← ofOption (refGetPtr b ref)
    if ref.o.nelem = 0 then pure []
    else printElems b schema fmtFloat indentInc inner fld.name indent ref.o.nelem ref
  else printElems b schema fmtFloat indentInc inner fld.name indent ref.o.nelem ref

/-- `do_print` -/
def doPrint : Nat → Int → Obj → MsgType → Outcome Text
  | 0, _, _, _ => outOfFuel
  | fuel + 1, indent, o, msgType =>
      concat (printField b schema fmtFloat indentInc (doPrint fuel (indent + indentInc)) indent o)
        msgType.fields

end

/-- `nbuf_print` -/
def print (b : Buffer) (fuel : Nat) (o : Obj) (fmtFloat : Nat → Int → Text) (indent : Int)
    (schema : Schema) (msgType : MsgType) : Outcome Text :=
  doPrint b schema fmtFloat indent fuel 0 o msgType

end Nbuf
