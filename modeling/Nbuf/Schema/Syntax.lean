import Nbuf.Schema.Source
import Nbuf.Text.Lex

set_option autoImplicit false

/-! # The schema language (`nbufc/nbuf.y`, `nbufc/lex.stub.c`)

`yylex` makes the terminals of the grammar from the tokens of the lexer. The grammar is a relation
with one constructor for each rule, which carries what the rule's action builds; `yyparse` reads
the terminals from left to right as the parser that is generated from the grammar does. A syntax
error exits.
-/

namespace Nbuf.T2b

/-! ## Terminals -/

/-- The tokens of the grammar. `undef` is a number that no rule mentions. -/
inductive Terminal where
  | package
  | enum
  | message
  | id (s : Text)
  | int (i : Int)
  | chr (c : Nat)
  | undef
  deriving DecidableEq

/-- `yylex` on the next token of the file. The number `0` is the end of the input, also when it is a
character of the file, and an `int64_t` is cut to an `int`. -/
def yylex : Token → Option Terminal
  | .id s =>
      if cstr s = asc "package" then some .package
      else if cstr s = asc "message" then some .message
      else if cstr s = asc "enum" then some .enum
      else some (.id s)
  | .int i => some (.int (i.bmod (2 ^ 32)))
  | .str _ => some .undef
  | .flt _ _ => some .undef
  | .chr c => if c = 0 then none else some (.chr c)

/-- The terminals of a schema file, up to the first end of the input. -/
def terminals : List Token → List Terminal
  | [] => []
  | t :: toks =>
      match yylex t with
      | none => []
      | some a => a :: terminals toks

/-! ## The grammar -/

/-- A value as a `uint16_t`. -/
def toU16 (i : Int) : Nat := (i % 2 ^ 16).toNat

/-- `eq_int_opt`, with `nextEnumVal` before it: the value `$$` and `nextEnumVal` behind it. -/
inductive EqIntOpt (next : Nat) : List Terminal → Int → Nat → Prop
  | empty : EqIntOpt next [] next (toU16 (next + 1))
  | int (i : Int) : EqIntOpt next [.chr 61, .int i] i (toU16 (i + 1))

/-- `enum_field_list`: the list so far and `nextEnumVal`. -/
inductive EnumFieldList : List Terminal → List EnumDesc → Nat → Prop
  | empty : EnumFieldList [] [] 0
  | field {ts eq : List Terminal} {vals : List EnumDesc} {next next' : Nat} {name : Text} {v : Int}
      (hlist : EnumFieldList ts vals next) (heq : EqIntOpt next eq v next') :
      EnumFieldList (ts ++ .id name :: eq) (vals ++ [⟨name, toU16 v⟩]) next'

/-- `list_spec` -/
inductive ListSpec : List Terminal → Int → Prop
  | empty : ListSpec [] (-1)
  | brackets : ListSpec [.chr 91, .chr 93] 0

/-- `msg_field_list` -/
inductive MsgFieldList : List Terminal → List FldDesc → Prop
  | empty : MsgFieldList [] []
  | field {ts spec : List Terminal} {flds : List FldDesc} {name tname : Text} {l : Int}
      (hlist : MsgFieldList ts flds) (hspec : ListSpec spec l) :
      MsgFieldList (ts ++ .id name :: .chr 58 :: (spec ++ [.id tname]))
        (flds ++ [⟨name, tname, decide (l = 0)⟩])

/-- `dcl_list`: the declarations at the ends of `schema.enums` and `schema.msgs`. -/
inductive DclList : List Terminal → List EnumType → List MsgType → Prop
  | empty : DclList [] [] []
  | enum {ts body : List Terminal} {enums : List EnumType} {msgs : List MsgType} {name : Text}
      {vals : List EnumDesc} {next : Nat} (hlist : DclList ts enums msgs)
      (hbody : EnumFieldList body vals next) :
      DclList (ts ++ .enum :: .id name :: .chr 123 :: (body ++ [.chr 125]))
        (enums ++ [⟨name, vals⟩]) msgs
  | message {ts body : List Terminal} {enums : List EnumType} {msgs : List MsgType} {name : Text}
      {flds : List FldDesc} (hlist : DclList ts enums msgs) (hbody : MsgFieldList body flds) :
      DclList (ts ++ .message :: .id name :: .chr 123 :: (body ++ [.chr 125])) enums
        (msgs ++ [⟨name, flds⟩])

/-- `package_opt` -/
inductive PackageOpt : List Terminal → Option Text → Prop
  | empty : PackageOpt [] none
  | package (s : Text) : PackageOpt [.package, .id s] (some s)

/-- **The grammar**: `input` derives the terminals, and its actions build the schema. -/
inductive Input : List Terminal → SchemaDesc → Prop
  | input {pkg ts : List Terminal} {pkgName : Option Text} {enums : List EnumType}
      {msgs : List MsgType} (hpkg : PackageOpt pkg pkgName) (hdcl : DclList ts enums msgs) :
      Input (pkg ++ ts) ⟨pkgName, enums, msgs⟩

/-! ## The parser -/

/-- The rest of an `enum_field_list` and its closing brace, behind the fields `vals`. -/
def enumFieldList (vals : List EnumDesc) (next : Nat) :
    List Terminal → Option (List EnumDesc × List Terminal)
  | .chr 125 :: ts => some (vals, ts)
  | .id name :: .chr 61 :: .int i :: ts =>
      enumFieldList (vals ++ [⟨name, toU16 i⟩]) (toU16 (i + 1)) ts
  | .id name :: ts => enumFieldList (vals ++ [⟨name, toU16 next⟩]) (toU16 (next + 1)) ts
  | _ => none

/-- The rest of a `msg_field_list` and its closing brace, behind the fields `flds`. -/
def msgFieldList (flds : List FldDesc) : List Terminal → Option (List FldDesc × List Terminal)
  | .chr 125 :: ts => some (flds, ts)
  | .id name :: .chr 58 :: .chr 91 :: .chr 93 :: .id tname :: ts =>
      msgFieldList (flds ++ [⟨name, tname, true⟩]) ts
  | .id name :: .chr 58 :: .id tname :: ts => msgFieldList (flds ++ [⟨name, tname, false⟩]) ts
  | _ => none

theorem enumFieldList_length {ts rest : List Terminal} {vals out : List EnumDesc} {next : Nat}
    (h : enumFieldList vals next ts = some (out, rest)) : rest.length < ts.length := by
  fun_induction enumFieldList vals next ts with
  | case1 vals next ts =>
      cases h
      exact Nat.lt_succ_self _
  | case2 vals next name i ts ih =>
      have := ih h
      simp only [List.length_cons]
      omega
  | case3 vals next name ts _ ih =>
      have := ih h
      simp only [List.length_cons]
      omega
  | case4 => cases h

theorem msgFieldList_length {ts rest : List Terminal} {flds out : List FldDesc}
    (h : msgFieldList flds ts = some (out, rest)) : rest.length < ts.length := by
  fun_induction msgFieldList flds ts with
  | case1 flds ts =>
      cases h
      exact Nat.lt_succ_self _
  | case2 flds name tname ts ih =>
      have := ih h
      simp only [List.length_cons]
      omega
  | case3 flds name tname ts ih =>
      have := ih h
      simp only [List.length_cons]
      omega
  | case4 => cases h

/-- The rest of a `dcl_list`, up to the end of the input. -/
def dclList (enums : List EnumType) (msgs : List MsgType) (ts : List Terminal) :
    Option (List EnumType × List MsgType) :=
  match ts with
  | [] => some (enums, msgs)
  | .enum :: .id name :: .chr 123 :: ts =>
      match _h : enumFieldList [] 0 ts with
      | some (vals, rest) => dclList (enums ++ [⟨name, vals⟩]) msgs rest
      | none => none
  | .message :: .id name :: .chr 123 :: ts =>
      match _h : msgFieldList [] ts with
      | some (flds, rest) => dclList enums (msgs ++ [⟨name, flds⟩]) rest
      | none => none
  | _ => none
termination_by ts.length
decreasing_by
  · have := enumFieldList_length _h
    simp only [List.length_cons]
    omega
  · have := msgFieldList_length _h
    simp only [List.length_cons]
    omega

/-- `yyparse`: the schema that it leaves in `schema`. -/
def yyparse (ts : List Terminal) : Option SchemaDesc :=
  match ts with
  | .package :: .id s :: ts => (dclList [] [] ts).map fun d => ⟨some s, d.1, d.2⟩
  | ts => (dclList [] [] ts).map fun d => ⟨none, d.1, d.2⟩

/-! ## The parser reads the grammar -/

/-- The parser has read the fields that are derived, when no `=` comes next. -/
theorem EnumFieldList.parse {ts : List Terminal} {vals : List EnumDesc} {next : Nat}
    (h : EnumFieldList ts vals next) (rest : List Terminal) (hrest : rest.head? ≠ some (.chr 61)) :
    enumFieldList [] 0 (ts ++ rest) = enumFieldList vals next rest := by
  induction h generalizing rest with
  | empty => rfl
  | field _ heq ih =>
      rw [List.append_assoc, List.cons_append, ih _ (by simp)]
      cases heq with
      | int i => rfl
      | empty =>
          rw [List.nil_append]
          conv_lhs => unfold enumFieldList
          split
          next h => cases h
          next h =>
            cases h
            exact absurd rfl hrest
          next h =>
            cases h
            rfl
          next h => exact absurd rfl (h _ _)

theorem EnumFieldList.of_parse {pre ts rest : List Terminal} {vals out : List EnumDesc} {next : Nat}
    (hpre : EnumFieldList pre vals next) (h : enumFieldList vals next ts = some (out, rest)) :
    ∃ body next', ts = body ++ .chr 125 :: rest ∧ EnumFieldList (pre ++ body) out next' := by
  fun_induction enumFieldList vals next ts generalizing pre with
  | case1 vals next ts =>
      cases h
      exact ⟨[], next, rfl, by rwa [List.append_nil]⟩
  | case2 vals next name i ts ih =>
      obtain ⟨body, next', rfl, hbody⟩ := ih (hpre.field (.int i)) h
      exact ⟨.id name :: .chr 61 :: .int i :: body, next', rfl, by simpa using hbody⟩
  | case3 vals next name ts _ ih =>
      obtain ⟨body, next', rfl, hbody⟩ := ih (hpre.field .empty) h
      exact ⟨.id name :: body, next', rfl, by simpa using hbody⟩
  | case4 => cases h

theorem MsgFieldList.parse {ts : List Terminal} {flds : List FldDesc} (h : MsgFieldList ts flds)
    (rest : List Terminal) : msgFieldList [] (ts ++ rest) = msgFieldList flds rest := by
  induction h generalizing rest with
  | empty => rfl
  | field _ hspec ih =>
      rw [List.append_assoc, List.cons_append, ih]
      cases hspec <;> rfl

theorem MsgFieldList.of_parse {pre ts rest : List Terminal} {flds out : List FldDesc}
    (hpre : MsgFieldList pre flds) (h : msgFieldList flds ts = some (out, rest)) :
    ∃ body, ts = body ++ .chr 125 :: rest ∧ MsgFieldList (pre ++ body) out := by
  fun_induction msgFieldList flds ts generalizing pre with
  | case1 flds ts =>
      cases h
      exact ⟨[], rfl, by rwa [List.append_nil]⟩
  | case2 flds name tname ts ih =>
      obtain ⟨body, rfl, hbody⟩ := ih (hpre.field .brackets) h
      exact ⟨_ :: _ :: _ :: _ :: _ :: body, rfl, by simpa using hbody⟩
  | case3 flds name tname ts ih =>
      obtain ⟨body, rfl, hbody⟩ := ih (hpre.field .empty) h
      exact ⟨_ :: _ :: _ :: body, rfl, by simpa using hbody⟩
  | case4 => cases h

theorem dclList_enum {ts rest : List Terminal} {vals : List EnumDesc} (enums : List EnumType)
    (msgs : List MsgType) (name : Text) (h : enumFieldList [] 0 ts = some (vals, rest)) :
    dclList enums msgs (.enum :: .id name :: .chr 123 :: ts)
      = dclList (enums ++ [⟨name, vals⟩]) msgs rest := by
  rw [dclList]
  split
  next h' =>
    rw [h] at h'
    cases h'
    rfl
  next h' =>
    rw [h] at h'
    cases h'

theorem dclList_message {ts rest : List Terminal} {flds : List FldDesc} (enums : List EnumType)
    (msgs : List MsgType) (name : Text) (h : msgFieldList [] ts = some (flds, rest)) :
    dclList enums msgs (.message :: .id name :: .chr 123 :: ts)
      = dclList enums (msgs ++ [⟨name, flds⟩]) rest := by
  rw [dclList]
  split
  next h' =>
    rw [h] at h'
    cases h'
    rfl
  next h' =>
    rw [h] at h'
    cases h'

theorem DclList.parse {ts : List Terminal} {enums : List EnumType} {msgs : List MsgType}
    (h : DclList ts enums msgs) (rest : List Terminal) :
    dclList [] [] (ts ++ rest) = dclList enums msgs rest := by
  induction h generalizing rest with
  | empty => rfl
  | @enum ts body enums msgs name vals next _ hbody ih =>
      have hread := hbody.parse (.chr 125 :: rest) (by simp)
      calc dclList [] [] (ts ++ .enum :: .id name :: .chr 123 :: (body ++ [.chr 125]) ++ rest)
          = dclList [] [] (ts ++ (.enum :: .id name :: .chr 123 :: (body ++ .chr 125 :: rest))) := by
            simp
        _ = dclList enums msgs (.enum :: .id name :: .chr 123 :: (body ++ .chr 125 :: rest)) := ih _
        _ = dclList (enums ++ [⟨name, vals⟩]) msgs rest := dclList_enum enums msgs name hread
  | @message ts body enums msgs name flds _ hbody ih =>
      have hread := hbody.parse (.chr 125 :: rest)
      calc dclList [] [] (ts ++ .message :: .id name :: .chr 123 :: (body ++ [.chr 125]) ++ rest)
          = dclList [] []
              (ts ++ (.message :: .id name :: .chr 123 :: (body ++ .chr 125 :: rest))) := by simp
        _ = dclList enums msgs (.message :: .id name :: .chr 123 :: (body ++ .chr 125 :: rest)) :=
            ih _
        _ = dclList enums (msgs ++ [⟨name, flds⟩]) rest := dclList_message enums msgs name hread

theorem DclList.of_parse {pre ts : List Terminal} {enums enums' : List EnumType}
    {msgs msgs' : List MsgType} (hpre : DclList pre enums msgs)
    (h : dclList enums msgs ts = some (enums', msgs')) : DclList (pre ++ ts) enums' msgs' := by
  fun_induction dclList enums msgs ts generalizing pre with
  | case1 enums msgs =>
      cases h
      rwa [List.append_nil]
  | case2 enums msgs name ts vals rest hread ih =>
      obtain ⟨body, next, rfl, hbody⟩ := EnumFieldList.empty.of_parse hread
      simpa using ih (hpre.enum hbody) h
  | case3 => cases h
  | case4 enums msgs name ts flds rest hread ih =>
      obtain ⟨body, rfl, hbody⟩ := MsgFieldList.empty.of_parse hread
      simpa using ih (hpre.message hbody) h
  | case5 => cases h
  | case6 => cases h

/-- Declarations do not start with `package`. -/
theorem DclList.head {ts : List Terminal} {enums : List EnumType} {msgs : List MsgType}
    (h : DclList ts enums msgs) : ts.head? ≠ some .package := by
  induction h with
  | empty => simp
  | enum _ _ ih | message _ _ ih =>
      rw [List.head?_append]
      intro hhead
      cases hts : List.head? _ with
      | none =>
          rw [hts] at hhead
          simp at hhead
      | some a => exact ih (by rw [hts] at hhead ⊢; exact hhead)

/-- What the parser builds is what the actions of some derivation build. -/
theorem Input.of_yyparse {ts : List Terminal} {d : SchemaDesc} (h : yyparse ts = some d) :
    Input ts d := by
  unfold yyparse at h
  split at h
  next s ts =>
    obtain ⟨⟨enums, msgs⟩, hdcl, rfl⟩ := Option.map_eq_some_iff.mp h
    exact .input (.package s) (DclList.empty.of_parse hdcl)
  next =>
    obtain ⟨⟨enums, msgs⟩, hdcl, rfl⟩ := Option.map_eq_some_iff.mp h
    exact .input .empty (DclList.empty.of_parse hdcl)

/-- The parser finds every derivation. -/
theorem Input.yyparse {ts : List Terminal} {d : SchemaDesc} (h : Input ts d) :
    yyparse ts = some d := by
  obtain ⟨hpkg, hdcl⟩ := h
  have hread := hdcl.parse []
  rw [List.append_nil, dclList] at hread
  cases hpkg with
  | package s => exact congrArg (Option.map fun d => (⟨some s, d.1, d.2⟩ : SchemaDesc)) hread
  | empty =>
      rw [List.nil_append]
      unfold T2b.yyparse
      split
      next => exact absurd rfl hdcl.head
      next => rw [hread]; rfl

/-- **The parser accepts what the grammar derives**, and it builds what the actions build. -/
theorem yyparse_eq_some_iff (ts : List Terminal) (d : SchemaDesc) :
    yyparse ts = some d ↔ Input ts d :=
  ⟨Input.of_yyparse, Input.yyparse⟩

end Nbuf.T2b
