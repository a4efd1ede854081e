import Mathlib.Data.List.TakeWhile
import Mathlib.Tactic

set_option autoImplicit false

/-! # The compiled schema (`lib/nbuf.nbs`)

The records of a compiled schema as its accessors show them. Names and texts are lists of
bytes without the terminating NUL.
-/

namespace Nbuf

/-- A text, byte by byte. -/
abbrev Text := List UInt8

/-- The bytes of a text in ASCII. -/
def asc (s : String) : Text := s.toList.map fun c => UInt8.ofNat c.toNat

/-- `nbuf_Kind` -/
inductive Kind where
  | bool
  | enum
  | int
  | uint
  | float
  | str
  | ptr
  deriving DecidableEq, Repr

/-- The number of a kind. -/
def Kind.toNat : Kind → Nat
  | .bool => 0
  | .enum => 1
  | .int => 2
  | .uint => 3
  | .float => 4
  | .str => 5
  | .ptr => 6

/-- `nbuf_EnumDesc`: a named value of an enumeration. -/
structure EnumDesc where
  name : Text
  value : Nat
  deriving DecidableEq

/-- `nbuf_EnumType` -/
structure EnumType where
  name : Text
  values : List EnumDesc
  deriving DecidableEq

/-- `nbuf_FieldDesc`. `tag0` is the byte offset, bit offset or slot of the field and `tag1` its
size or the index of its type. -/
structure FieldDesc where
  name : Text
  kind : Kind
  list : Bool
  tag0 : Nat
  tag1 : Nat
  deriving DecidableEq

/-- `nbuf_MsgType` -/
structure MsgType where
  name : Text
  fields : List FieldDesc
  ssize : Nat
  psize : Nat
  deriving DecidableEq

/-- `nbuf_Schema` -/
structure Schema where
  pkgName : Text
  enumTypes : List EnumType
  msgTypes : List MsgType
  deriving DecidableEq

/-- `nbuf_Schema_enumTypes(schema, i)`: an index outside the list gives an empty object. -/
def Schema.enumType (s : Schema) (i : Nat) : EnumType := s.enumTypes.getD i ⟨[], []⟩

/-- `nbuf_Schema_msgTypes(schema, i)` -/
def Schema.msgType (s : Schema) (i : Nat) : MsgType := s.msgTypes.getD i ⟨[], [], 0, 0⟩

/-- The part of a C string before its first NUL. -/
def cstr (s : Text) : Text := s.takeWhile (· ≠ 0)

theorem cstr_eq {s : Text} (h : ∀ c ∈ s, c ≠ 0) : cstr s = s :=
  List.takeWhile_eq_self_iff.mpr fun c hc => decide_eq_true (h c hc)

end Nbuf
