import Mathlib.Data.List.Sort
import Nbuf.Lib.Bsearch
import Nbuf.Schema.Types

set_option autoImplicit false

/-! # Schema sources and their types (`nbufc/t2b.h`, `makelookup` in `nbufc/t2b.c`)

The grammar actions of `nbuf.y` build a `SchemaDesc`. Its type names are then resolved with a
table of the built-in types, the enumerations and the messages, sorted by name.
-/

namespace Nbuf.T2b

/-! ## Syntax trees -/

/-- `struct enumDesc` -/
structure EnumDesc where
  name : Text
  val : Nat
  deriving DecidableEq

/-- `struct enumType` -/
structure EnumType where
  name : Text
  vals : List EnumDesc
  deriving DecidableEq

/-- `struct fldDesc` -/
structure FldDesc where
  name : Text
  tname : Text
  list : Bool
  deriving DecidableEq

/-- `struct msgType` -/
structure MsgType where
  name : Text
  flds : List FldDesc
  deriving DecidableEq

/-- `struct schemaDesc` -/
structure SchemaDesc where
  pkgName : Option Text
  enums : List EnumType
  msgs : List MsgType
  deriving DecidableEq

/-! ## The table of types -/

/-- `struct lookup_entry` -/
structure LookupEntry where
  name : Text
  kind : Kind
  size : Nat
  id : Nat
  deriving DecidableEq

/-- The initial contents of `types`. -/
def builtinTypes : List LookupEntry :=
  [⟨asc "bool", .bool, 0, 0⟩,
   ⟨asc "int8", .int, 1, 0⟩,
   ⟨asc "int16", .int, 2, 0⟩,
   ⟨asc "int32", .int, 4, 0⟩,
   ⟨asc "int64", .int, 8, 0⟩,
   ⟨asc "uint8", .uint, 1, 0⟩,
   ⟨asc "uint16", .uint, 2, 0⟩,
   ⟨asc "uint32", .uint, 4, 0⟩,
   ⟨asc "uint64", .uint, 8, 0⟩,
   ⟨asc "float", .float, 4, 0⟩,
   ⟨asc "double", .float, 8, 0⟩,
   ⟨asc "string", .str, 1, 0⟩]

/-- `MAX_TYPES` -/
def maxTypes : Nat := 8192

def enumEntry (e : EnumType × Nat) : LookupEntry := ⟨e.1.name, .enum, 2, e.2⟩

def msgEntry (m : MsgType × Nat) : LookupEntry := ⟨m.1.name, .ptr, 4, m.2⟩

/-- All types of a schema, in the order in which `makelookup` enters them. -/
def allTypes (schema : SchemaDesc) : List LookupEntry :=
  builtinTypes ++ schema.enums.zipIdx.map enumEntry ++ schema.msgs.zipIdx.map msgEntry

/-- Two neighbours with one name. -/
def redefined : List LookupEntry → Bool
  | a :: b :: l => a.name == b.name || redefined (b :: l)
  | _ => false

/-- `lookup_cmp(a, b) <= 0`. Names contain no NUL, so `strcmp` is the lexicographic order. -/
def lookupLe (a b : LookupEntry) : Prop := (compare a.name b.name).isLE = true

instance : DecidableRel lookupLe := fun a b =>
  inferInstanceAs (Decidable ((compare a.name b.name).isLE = true))

/-- `makelookup`. It exits when there are too many types or two of them have one name. -/
def makelookup (schema : SchemaDesc) : Option (List LookupEntry) :=
  let types := (allTypes schema).insertionSort lookupLe
  if types.length > maxTypes ∨ redefined types = true then none else some types

/-- `lookup` -/
def lookup (types : List LookupEntry) (key : Text) : Option LookupEntry :=
  Bsearch.bsearch LookupEntry.name key types

/-! ## What the table contains -/

theorem makelookup_eq_some {schema : SchemaDesc} {types : List LookupEntry}
    (h : makelookup schema = some types) :
    types = (allTypes schema).insertionSort lookupLe ∧ types.length ≤ maxTypes ∧ redefined types = false := by
  unfold makelookup at h
  simp only at h
  split_ifs at h with hbad
  cases h
  rw [not_or, Bool.not_eq_true] at hbad
  exact ⟨rfl, by omega, hbad.2⟩

theorem makelookup_perm {schema : SchemaDesc} {types : List LookupEntry}
    (h : makelookup schema = some types) : types.Perm (allTypes schema) := by
  rw [(makelookup_eq_some h).1]
  exact List.perm_insertionSort _ _

instance : IsTrans LookupEntry lookupLe :=
  ⟨fun _ _ _ hab hbc => Std.TransCmp.isLE_trans hab hbc⟩

instance : Std.Total lookupLe := ⟨fun a b => by
  have hswap : compare b.name a.name = (compare a.name b.name).swap := Std.OrientedCmp.eq_swap
  unfold lookupLe
  rw [hswap]
  cases compare a.name b.name <;> simp⟩

/-- Sorted names of which no two neighbours agree increase strictly. -/
theorem increasing_of_sorted {types : List LookupEntry}
    (hsort : types.Pairwise lookupLe) (hred : redefined types = false) : Bsearch.Increasing LookupEntry.name types := by
  induction types with
  | nil => exact List.Pairwise.nil
  | cons a l ih =>
      cases l with
      | nil => exact List.pairwise_singleton _ _
      | cons b l =>
          rw [redefined, Bool.or_eq_false_iff] at hred
          rw [List.pairwise_cons] at hsort
          have hinc := ih hsort.2 hred.2
          have hne : ¬ compare a.name b.name = .eq := fun heq => by
            have := Std.LawfulEqCmp.eq_of_compare heq
            simp [this] at hred
          have hab : compare a.name b.name = .lt := by
            have hle : (compare a.name b.name).isLE = true := hsort.1 b (by simp)
            cases hc : compare a.name b.name with
            | lt => rfl
            | eq => exact absurd hc hne
            | gt => rw [hc] at hle; cases hle
          unfold Bsearch.Increasing at hinc ⊢
          rw [List.pairwise_cons]
          refine ⟨fun c hc => ?_, hinc⟩
          rcases List.mem_cons.mp hc with rfl | hc
          · exact hab
          · exact Std.TransCmp.lt_trans hab ((List.pairwise_cons.mp hinc).1 c hc)

theorem makelookup_increasing {schema : SchemaDesc} {types : List LookupEntry}
    (h : makelookup schema = some types) : Bsearch.Increasing LookupEntry.name types := by
  obtain ⟨heq, -, hred⟩ := makelookup_eq_some h
  refine increasing_of_sorted ?_ hred
  rw [heq]
  exact List.pairwise_insertionSort _ _

/-- **Looking up a name** in the table of an accepted schema. -/
theorem lookup_eq_some_iff {schema : SchemaDesc} {types : List LookupEntry}
    (h : makelookup schema = some types) {key : Text} {ent : LookupEntry} :
    lookup types key = some ent ↔ ent ∈ allTypes schema ∧ ent.name = key := by
  unfold lookup
  rw [Bsearch.bsearch_eq_some_iff (makelookup_increasing h), (makelookup_perm h).mem_iff]

/-- The kinds and sizes a table contains. -/
def LookupEntry.Wf (ent : LookupEntry) : Prop :=
  match ent.kind with
  | .bool => ent.size = 0
  | .enum => ent.size = 2
  | .int | .uint => ent.size = 1 ∨ ent.size = 2 ∨ ent.size = 4 ∨ ent.size = 8
  | .float => ent.size = 4 ∨ ent.size = 8
  | .str => ent.size = 1
  | .ptr => ent.size = 4

theorem allTypes_wf {schema : SchemaDesc} {ent : LookupEntry} (h : ent ∈ allTypes schema) :
    ent.Wf := by
  unfold allTypes at h
  rw [List.mem_append, List.mem_append] at h
  rcases h with (h | h) | h
  · simp only [builtinTypes, List.mem_cons, List.not_mem_nil, or_false] at h
    rcases h with rfl | rfl | rfl | rfl | rfl | rfl | rfl | rfl | rfl | rfl | rfl | rfl <;>
      simp [LookupEntry.Wf]
  · obtain ⟨e, -, rfl⟩ := List.mem_map.mp h
    rfl
  · obtain ⟨m, -, rfl⟩ := List.mem_map.mp h
    rfl

theorem lookup_wf {schema : SchemaDesc} {types : List LookupEntry}
    (h : makelookup schema = some types) {key : Text} {ent : LookupEntry}
    (hent : lookup types key = some ent) : ent.Wf :=
  allTypes_wf ((lookup_eq_some_iff h).mp hent).1

end Nbuf.T2b
