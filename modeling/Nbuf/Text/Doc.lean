import Nbuf.Schema.Compiled
import Nbuf.Text.Refl

set_option autoImplicit false

/-! # Documents

What the objects of a builder are for: messages with their scalar bytes and, for each list, string
or submessage field, its elements. `View.Shows` says that a heap holds a document. Each object of
the heap is given a sort, and each message the place where its element lies.
-/

namespace Nbuf

open Align ByteMem

/-! ## Documents -/

/-- An element of a list, a string or a submessage. A number is as it is stored, a message is known
by its number. -/
inductive Item where
  | num (v : Nat)
  | bit (v : Bool)
  | str (s : Text)
  | msg (m : Nat)
  deriving DecidableEq

/-- A message of type `type` with the bytes of its scalar part and the elements of its other
fields. -/
structure DocMsg where
  type : Nat
  scal : ByteMem
  vals : FieldDesc → List Item

/-- A message in which nothing is set. -/
def DocMsg.new (type : Nat) : DocMsg := ⟨type, fun _ => 0, fun _ => []⟩

/-- The messages in the order in which they are made, the number of objects they are kept in, and
the bytes these take up. -/
structure Doc where
  msgs : List DocMsg
  objects : Nat
  bytes : Nat

/-- The bytes of an object with `n` elements of the given `ssize` and `psize`. -/
def blockBytes (size : Nat × Nat) (n : Nat) : Nat :=
  roundUp (8 + if size.1 = 0 ∧ size.2 = 0 then (n + 7) / 8 else n * (size.1 + size.2 * 4)) 8

/-- The document of a message in which nothing is set. -/
def Doc.start (schema : Schema) (type : Nat) : Doc :=
  ⟨[DocMsg.new type], 1,
    blockBytes ((schema.msgType type).ssize, (schema.msgType type).psize) 1⟩

namespace DocMsg

/-- One more element. -/
def push (M : DocMsg) (f : FieldDesc) (x : Item) : DocMsg :=
  { M with vals := Function.update M.vals f (M.vals f ++ [x]) }

/-- Another last element. -/
def setLast (M : DocMsg) (f : FieldDesc) (x : Item) : DocMsg :=
  { M with vals := Function.update M.vals f ((M.vals f).dropLast ++ [x]) }

/-- One element only. -/
def setOnly (M : DocMsg) (f : FieldDesc) (x : Item) : DocMsg :=
  { M with vals := Function.update M.vals f [x] }

end DocMsg

namespace Doc

/-- The elements of a field. -/
def items (d : Doc) (m : Nat) (f : FieldDesc) : List Item :=
  (d.msgs[m]?).elim [] fun M => M.vals f

/-- A new element of a field: zero, an empty string or a new message. -/
def blank (d : Doc) (f : FieldDesc) : Item :=
  match f.kind with
  | .bool => .bit false
  | .str => .str []
  | .ptr => .msg d.msgs.length
  | _ => .num 0

/-- A message in which nothing is set is created, and nothing leads to it. -/
def add (schema : Schema) (d : Doc) (type : Nat) : Doc where
  msgs := d.msgs ++ [DocMsg.new type]
  objects := d.objects + 1
  bytes := d.bytes + blockBytes ((schema.msgType type).ssize, (schema.msgType type).psize) 1

/-- What `nbuf_ref_init_ptr` does to a document: the field gets one more element. -/
def init (schema : Schema) (d : Doc) (m : Nat) (f : FieldDesc) : Doc :=
  let size := getSize schema f.kind f.tag1
  let n := (d.items m f).length
  { msgs := (d.msgs.modify m fun M => M.push f (d.blank f))
      ++ if f.kind = .ptr then [DocMsg.new f.tag1] else []
    objects := if n = 0 then d.objects + 1 else d.objects
    bytes := d.bytes + (blockBytes size (n + 1) - if n = 0 then 0 else blockBytes size n) }

/-- A field is made ready for a put: lists and submessages get one more element. -/
def ready (schema : Schema) (d : Doc) (m : Nat) (f : FieldDesc) : Doc :=
  if f.list = true ∨ f.kind = .ptr then d.init schema m f else d

/-- A number is put into a field, or into the last element of a list. -/
def putNum (d : Doc) (m : Nat) (f : FieldDesc) (v : Nat) : Doc :=
  { d with msgs := d.msgs.modify m fun M =>
      if f.list = true then M.setLast f (.num (v % 256 ^ f.width))
      else { M with scal := M.scal.store f.tag0 f.width v } }

/-- A boolean is put into a field, or into the last element of a list. The handle of a new list has
no scalar part, so the first boolean of a list is dropped. -/
def putBit (d : Doc) (m : Nat) (f : FieldDesc) (v : Bool) : Doc :=
  { d with msgs := d.msgs.modify m fun M =>
      if f.list = true then (if (M.vals f).length = 1 then M else M.setLast f (.bit v))
      else { M with scal := M.scal.putBit (f.tag0 / 8) (f.tag0 % 8) v } }

/-- A string is put into a field, or into the last element of a list. -/
def putStr (d : Doc) (m : Nat) (f : FieldDesc) (s : Text) : Doc :=
  { msgs := d.msgs.modify m fun M =>
      if f.list = true then M.setLast f (.str s) else M.setOnly f (.str s)
    objects := d.objects + 1
    bytes := d.bytes + blockBytes (1, 0) (s.length + 1) }

end Doc

/-! ## Heaps that hold a document -/

/-- What an object is: elements of a kind of field, or the bytes of a string. The messages are the
elements of kind `ptr`. -/
inductive Srt where
  | elems (kind : Kind)
  | text
  deriving DecidableEq

/-- A heap with the sorts of its objects, and with the object and the index of the element for each
message of a document. -/
structure View where
  heap : Heap
  sorts : List Srt
  places : List (Nat × Nat)

/-- No two slots lead to one object. -/
def Heap.Injective (h : Heap) : Prop :=
  ∀ (i i' : Nat) (c c' : Cell) (k k' x x' t : Nat), h[i]? = some c → h[i']? = some c' →
    k < c.rows → k' < c'.rows → x < c.psize → x' < c'.psize → c.ptr k x = some t →
    c'.ptr k' x' = some t → (i, k, x) = (i', k', x')

namespace View

/-- What a view promises about strings, besides their bytes: it depends on the shape of the object
that a string hangs on, and stays when this object grows. -/
structure Room where
  holds : Shape → Text → Prop
  grows : ∀ (sh sh' : Shape) (s : Text), sh'.ssize = sh.ssize → sh'.psize = sh.psize →
    sh.nelem ≤ sh'.nelem → holds sh s → holds sh' s

/-- Nothing is promised. -/
def Room.any : Room := ⟨fun _ _ => True, fun _ _ _ _ _ _ _ => trivial⟩

variable (R : Room) (schema : Schema) (v : View)

/-- The slot leads to the string `s`. A slot without a pointer reads as an empty string. -/
def TextAt (c : Cell) (k x : Nat) (s : Text) : Prop :=
  match c.ptr k x with
  | none => s = []
  | some t => v.heap[t]? = some (strCell s) ∧ v.sorts[t]? = some .text ∧ R.holds c.toShape s

/-- Element `n` of the object `t`, which belongs to the field `f`. -/
def ItemAt (t : Nat) (c : Cell) (n : Nat) (f : FieldDesc) : Item → Prop
  | .num x => f.kind ≠ .bool ∧ f.kind ≠ .str ∧ f.kind ≠ .ptr ∧ (c.scal n).load 0 f.width = x
  | .bit b => f.kind = .bool ∧ (c.scal (n / 8)).bit 0 (n % 8) = b
  | .str s => f.kind = .str ∧ v.TextAt R c n 0 s
  | .msg m => f.kind = .ptr ∧ v.places[m]? = some (t, n)

/-- The object `t` has the elements of the field `f`, and the bits behind the last boolean are
zero. -/
structure ListAt (t : Nat) (c : Cell) (f : FieldDesc) (l : List Item) : Prop where
  cell : v.heap[t]? = some c
  sort : v.sorts[t]? = some (.elems f.kind)
  size : getSize schema f.kind f.tag1 = (c.ssize, c.psize)
  length : c.nelem = l.length
  item : ∀ n x, l[n]? = some x → v.ItemAt R t c n f x
  spare : f.kind = .bool → ∀ n, c.nelem ≤ n → n / 8 < c.rows → (c.scal (n / 8)).bit 0 (n % 8) = false

/-- The slot of the field `f` in row `k` leads to its elements. -/
def FieldAt (c : Cell) (k : Nat) (f : FieldDesc) (l : List Item) : Prop :=
  if f.list = true ∨ f.kind = .ptr then
    match c.ptr k f.tag0 with
    | none => l = []
    | some t => l ≠ [] ∧ ∃ ct, v.ListAt R schema t ct f l
  else if f.kind = .str then
    (l = [] ∧ c.ptr k f.tag0 = none) ∨ ∃ s, l = [.str s] ∧ v.TextAt R c k f.tag0 s
  else l = []

/-- Element `k` of the object `i` is the message `M`. -/
structure MsgAt (i k : Nat) (c : Cell) (M : DocMsg) : Prop where
  cell : v.heap[i]? = some c
  sort : v.sorts[i]? = some (.elems .ptr)
  inside : k < c.nelem
  ssize : c.ssize = (schema.msgType M.type).ssize
  psize : c.psize = (schema.msgType M.type).psize
  scal : ∀ j, j < c.ssize → c.scal k j = M.scal j
  field : ∀ f ∈ (schema.msgType M.type).fields, v.FieldAt R schema c k f (M.vals f)
  type : M.type < schema.msgTypes.length

/-- **The heap holds the document.** -/
structure Shows (d : Doc) : Prop where
  sorts_length : v.sorts.length = v.heap.length
  places_length : v.places.length = d.msgs.length
  nodup : v.places.Nodup
  forward : v.heap.Forward
  injective : v.heap.Injective
  objects : v.heap.length = d.objects
  bytes : v.heap.total = d.bytes
  msg : ∀ (m : Nat) (M : DocMsg), d.msgs[m]? = some M →
    ∃ i k c, v.places[m]? = some (i, k) ∧ v.MsgAt R schema i k c M

end View

end Nbuf
