import Nbuf.Text.Client

set_option autoImplicit false

/-! # The parser (`lib/parse.c`)

`nbuf_parse` reads a message from the tokens of a lexer and fills it in on a builder. The model takes
the list of the tokens that `nbuf_lex` returns until the end of the file; the head of the list is
`p->token` with its payload in the union of the lexer.
-/

namespace Nbuf

open Outcome

/-! ## Tokens -/

/-- A token with its payload: the text of an identifier or a string without the final NUL, the
`int64_t` of a number, or the bits of a number with a fraction as a `float` and as a `double`. All
other tokens are characters. -/
inductive Token where
  | id (s : Text)
  | int (v : Int)
  | flt (single double : Int)
  | str (s : Text)
  | chr (c : Nat)
  deriving DecidableEq

/-- `nbuf_find_field`, for the name before its first NUL. -/
def findField (msg : MsgType) (name : Text) : Option FieldDesc :=
  msg.fields.find? fun f => cstr name == f.name

/-- `nbuf_enum_value` -/
def enumValue (enm : EnumType) (name : Text) : Nat :=
  match enm.values.find? fun d => cstr name == d.name with
  | some d => d.value % 2 ^ 16
  | none => 2 ^ 32 - 1

/-! ## The state of the parser -/

/-- `struct nbuf_parser`, with the tokens to come and the messages of `l->error`. The clock counts
allocations. -/
structure Parser where
  pool : Pool
  clock : Nat
  toks : List Token
  errs : List Text

namespace Parser

/-- `p->l->error` -/
def error (s : Parser) (msg : Text) : Parser := { s with errs := s.errs ++ [msg] }

/-- `NEXT` -/
def next (s : Parser) : Parser := { s with toks := s.toks.tail }

/-- `p->token == c` for a character -/
def sees (s : Parser) (c : Nat) : Bool := s.toks.head? == some (.chr c)

/-- `OPTIONAL` -/
def optional (s : Parser) (c : Nat) : Parser := if s.sees c then s.next else s

/-- The end of a field: `,` and `;` may follow. -/
def separator (s : Parser) : Parser := if s.sees 44 || s.sees 59 then s.next else s

/-- The end of a value parser: the value is put and its token is dropped. -/
def accept (s : Parser) (put : Option Pool) : Option (Bool × Parser) :=
  put.map fun p => (true, { s with pool := p, clock := s.clock + 1 }.next)

/-- The other end of a value parser: an error. -/
def refuse (s : Parser) (msg : Text) : Option (Bool × Parser) := some (false, s.error msg)

end Parser

/-- A text in quotes, as `\"%s\"` prints it. -/
def quoted (s : Text) : Text := asc "\"" ++ cstr s ++ asc "\""

/-! ## Values -/

section

variable (alloc : Nat → Realloc) (schema : Schema) (ofInt : Int → Int × Int)

/-- `parse_bool` -/
def parseBool (s : Parser) (j : Nat) (ref : Ref) (fieldName : Text) : Option (Bool × Parser) :=
  let put := fun v => s.accept (s.pool.onBuf j fun b => refPutBit b ref v)
  let err := s.refuse (asc "expecting true or false for " ++ quoted fieldName)
  match s.toks with
  | .int v :: _ => put (decide (v ≠ 0))
  | .id t :: _ =>
      if cstr t = asc "true" then put true
      else if cstr t = asc "false" then put false
      else err
  | _ => err

/-- `parse_enum`. The last error message takes the number of a token for a string, which is undefined
behaviour: the parser does not come back from it. -/
def parseEnum (s : Parser) (j : Nat) (ref : Ref) : Option (Bool × Parser) :=
  let put := fun v : Nat => s.accept (s.pool.onBuf j fun b => refPutInt b ref v)
  match s.toks with
  | .int v :: _ => put (v % 2 ^ 32).toNat
  | .id t :: _ =>
      let etype := schema.enumType ref.tag1
      let v := enumValue etype t
      if v = 2 ^ 32 - 1 then
        s.refuse (asc "enum " ++ cstr etype.name ++ asc " has no value " ++ cstr t)
      else put v
  | _ => none

/-- `parse_int` -/
def parseInt (s : Parser) (j : Nat) (ref : Ref) (fieldName : Text) : Option (Bool × Parser) :=
  match s.toks with
  | .int v :: _ => s.accept (s.pool.onBuf j fun b => refPutInt b ref v)
  | _ => s.refuse (asc "expecting integer for " ++ quoted fieldName)

/-- The bits of a number in the width of a field. -/
def floatBits (v : Int × Int) (width : Nat) : Int := if width = 4 then v.1 else v.2

/-- `parse_float`. `ofInt` gives the bits of an `int64_t` that is made a `double`. -/
def parseFloat (s : Parser) (j : Nat) (ref : Ref) (fieldName : Text) : Option (Bool × Parser) :=
  let put := fun v => s.accept (s.pool.onBuf j fun b => refPutFloat b ref fun w =>
    toU64 (floatBits v w))
  match s.toks with
  | .int v :: _ => put (ofInt v)
  | .flt single double :: _ => put (single, double)
  | _ => s.refuse (asc "expecting number for " ++ quoted fieldName)

/-- `parse_str`, which does not look at the kind of the token. The union holds a buffer for an
identifier or a string; for any other token the parser reads what is not there. -/
def parseStr (s : Parser) (j : Nat) (ref : Ref) : Option (Bool × Parser) :=
  match s.toks with
  | .str t :: _ => s.accept (s.pool.refPutStr (alloc s.clock) j ref (t ++ [0]) t.length)
  | .id t :: _ => s.accept (s.pool.refPutStr (alloc s.clock) j ref (t ++ [0]) t.length)
  | _ => none

/-- The `switch` of `parse_msg`, submessages left out. -/
def parseValue (s : Parser) (j : Nat) (ref : Ref) (fieldName : Text) : Option (Bool × Parser) :=
  match ref.kind with
  | .bool => parseBool s j ref fieldName
  | .enum => parseEnum schema s j ref
  | .int | .uint => parseInt s j ref fieldName
  | .float => parseFloat ofInt s j ref fieldName
  | .str => parseStr alloc s j ref
  | .ptr => none

/-! ## Messages -/

/-- Is the field a submessage that is there already? -/
def Parser.twice (s : Parser) (i : Nat) (ref : Ref) : Option Bool :=
  if ref.kind = .ptr ∧ ref.list = false then do
    let b ← s.pool.getbuffer i
    hasPtr b ref.o ref.tag0
  else some false

/-- `nbuf_get_ref` and `nbuf_ref_init_ptr`, and on to the token behind the name of the field. -/
def Parser.field (s : Parser) (i : Nat) (o : Obj) (fld : FieldDesc) :
    Option (Parser × Nat × Ref) :=
  (s.pool.fieldRef (alloc s.clock) schema i o fld).map fun x =>
    ({ s with pool := x.1, clock := s.clock + 1 }.next, x.2)

/-- `parse_msg` on the message `o` in buffer `i`. An unknown field, or a submessage that is given
twice, ends it with `true`, the name of the field still to come. -/
def parseMsg : Nat → Parser → Nat → Obj → MsgType → Outcome (Bool × Parser)
  | 0, _, _, _, _ => outOfFuel
  | fuel + 1, s, i, o, msgType =>
      match s.toks with
      | .id fieldName :: _ =>
          match findField msgType fieldName with
          | none => done (true, s.error (asc "message " ++ cstr msgType.name ++
              asc " has no field named " ++ quoted fieldName))
          | some fld => do
              let twice ← ofOption (s.twice i (getRef o fld))
              if twice = true then
                done (true, s.error (asc "non-list field " ++ cstr fieldName ++
                  asc " specified more than once"))
              else do
                let (s, j, ref) ← ofOption (s.field alloc schema i o fld)
                if ref.kind = .ptr then
                  let s := s.optional 58
                  if s.sees 123 = false then
                    done (false, s.error (asc "missing '\x7b' for " ++ quoted fieldName))
                  else do
                    let (ok, s) ← parseMsg fuel s.next j ref.o (schema.msgType ref.tag1)
                    if ok = false then done (ok, s)
                    else if s.sees 125 = false then
                      done (false, s.error (asc "missing '\x7d' for " ++ quoted fieldName))
                    else parseMsg fuel s.next.separator i o msgType
                else if s.sees 58 = false then
                  done (false, s.error (asc "missing ':' after " ++ quoted fieldName))
                else do
                  let (ok, s) ← ofOption (parseValue alloc schema ofInt s.next j ref fieldName)
                  if ok = false then done (ok, s)
                  else parseMsg fuel s.separator i o msgType
      | _ => done (true, s)

/-- What `nbuf_parse` returns, with the serialized buffer (`none` when there is no memory for it) and
the errors. -/
structure Parsed where
  ok : Bool
  buf : Option Buffer
  errs : List Text

/-- `nbuf_parse` on a builder at the address `addr`. Every token is read at most once, so the fuel
does not run out. -/
def nbufParse (addr : Nat) (haddr : addr < 2 ^ 64) (msgType : MsgType) (toks : List Token) :
    Outcome Parsed := do
  let p := initBuilder addr haddr
  let (p, o) ← ofOption (p.create (alloc 0) 1 msgType.ssize msgType.psize)
  let (ok, s) ← parseMsg alloc schema ofInt (toks.length + 1) ⟨p, 1, toks, []⟩ 0 o msgType
  let (ok, s) := if ok = true ∧ s.toks ≠ [] then (false, s.error (asc "expecting end of file"))
    else (ok, s)
  let b ← ofOption (s.pool.serialize (alloc s.clock))
  pure ⟨ok, b, s.errs⟩

end

end Nbuf
