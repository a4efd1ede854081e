import Nbuf.Schema.Compiled
import Nbuf.Schema.Syntax
import Nbuf.Text.PrintedTokens

set_option autoImplicit false

/-! # Schemas as text (`nbufc/b2t.c`)

`nbuf_b2t` prints a compiled schema in the language of schemas. Reading the text again gives the
syntax tree from which the schema was compiled, so that compiling it again gives the same schema.
-/

namespace Nbuf

open Run

/-! ## The printer -/

/-- `print_enum` -/
def printEnum (e : EnumType) : Text :=
  asc "\nenum " ++ cstr e.name ++ asc " \x7b\n" ++
    e.values.flatMap (fun d => asc "\t" ++ cstr d.name ++ asc " = " ++ decimal d.value ++ asc "\n") ++
    asc "\x7d\n"

/-- `typestr`. The product with `8` is a `uint32_t`, which is printed as an `int`. -/
def typestr (schema : Schema) (kind : Kind) (tag1 : Nat) : Text :=
  match kind with
  | .bool => asc "bool"
  | .int => asc "int" ++ decimalInt (((tag1 * 8 : Nat) : Int).bmod (2 ^ 32))
  | .uint => asc "uint" ++ decimalInt (((tag1 * 8 : Nat) : Int).bmod (2 ^ 32))
  | .float => if tag1 = 4 then asc "float" else asc "double"
  | .str => asc "string"
  | .enum => cstr (schema.enumType tag1).name
  | .ptr => cstr (schema.msgType tag1).name

/-- The letter in the comment behind a field. -/
def placeLetter (f : FieldDesc) : Text :=
  if f.kind = .ptr ∨ f.kind = .str ∨ f.list = true then asc "p"
  else if f.kind = .bool then asc "b" else asc "s"

/-- One line of `print_msgtype` -/
def printFieldDesc (schema : Schema) (f : FieldDesc) : Text :=
  asc "\t" ++ cstr f.name ++ asc ": " ++ (if f.list = true then asc "[]" else []) ++
    typestr schema f.kind f.tag1 ++ asc "  // " ++ placeLetter f ++ decimal f.tag0 ++ asc "\n"

/-- `print_msgtype` -/
def printMsgtype (schema : Schema) (ms : MsgType) : Text :=
  asc "\nmessage " ++ cstr ms.name ++ asc " \x7b\n" ++ ms.fields.flatMap (printFieldDesc schema) ++
    asc "\x7d  // (" ++ decimal ms.ssize ++ asc "s, " ++ decimal ms.psize ++ asc "p)\n"

/-- `print_schema`, and `nbuf_b2t` -/
def b2t (schema : Schema) : Text :=
  (if schema.pkgName.length > 0 then asc "package " ++ cstr schema.pkgName ++ asc "\n" else []) ++
    schema.enumTypes.flatMap printEnum ++ schema.msgTypes.flatMap (printMsgtype schema)

namespace T2b

/-- `nbufc b`: the compiled schema of a file. -/
def nbufcB (strtod : Text → Int × Int) (file : Text) : Option Nbuf.Schema := do
  let schema ← yyparse (terminals (tokens (Number.token strtod) file))
  t2b schema

/-! ## What comes out of the parser -/

/-- An identifier that is no keyword. -/
structure IsName (s : Text) : Prop where
  ident : IsIdent s
  package : s ≠ asc "package"
  message : s ≠ asc "message"
  enum : s ≠ asc "enum"

instance (s : Text) : Decidable (IsName s) :=
  decidable_of_iff (IsIdent s ∧ s ≠ asc "package" ∧ s ≠ asc "message" ∧ s ≠ asc "enum")
    ⟨fun h => ⟨h.1, h.2.1, h.2.2.1, h.2.2.2⟩, fun h => ⟨h.ident, h.package, h.message, h.enum⟩⟩

theorem yylex_id {s : Text} (h : IsName s) : yylex (.id s) = some (.id s) := by
  rw [yylex, cstr_eq h.ident.no_nul, if_neg h.package, if_neg h.message, if_neg h.enum]

theorem yylex_keyword {s : Text} (hs : IsIdent s) {a : Text} (h : yylex (.id s) = some (.id a)) :
    IsName a := by
  rw [yylex, cstr_eq hs.no_nul] at h
  split_ifs at h with h1 h2 h3 <;> cases h
  exact ⟨hs, h1, h2, h3⟩

/-- The names among the terminals of a file. -/
theorem isName_of_mem_terminals {toks : List Token} (h : ∀ name, .id name ∈ toks → IsIdent name)
    {a : Text} (ha : .id a ∈ terminals toks) : IsName a := by
  induction toks with
  | nil => cases ha
  | cons t toks ih =>
      rw [terminals] at ha
      cases ht : yylex t with
      | none =>
          rw [ht] at ha
          cases ha
      | some b =>
          simp only [ht, List.mem_cons] at ha
          rcases ha with rfl | ha
          · cases t with
            | id s => exact yylex_keyword (h s List.mem_cons_self) ht
            | chr c =>
                rw [yylex] at ht
                split_ifs at ht
                cases ht
            | int i => cases ht
            | str s => cases ht
            | flt x y => cases ht
          · exact ih (fun name hname => h name (List.mem_cons_of_mem t hname)) ha

/-- The names of a syntax tree are names, and the values fit 16 bits. -/
structure SchemaDesc.Wf (d : SchemaDesc) : Prop where
  package : ∀ s, d.pkgName = some s → IsName s
  enum : ∀ e ∈ d.enums, IsName e.name ∧ ∀ v ∈ e.vals, IsName v.name ∧ v.val < 2 ^ 16
  msg : ∀ m ∈ d.msgs, IsName m.name ∧ ∀ f ∈ m.flds, IsName f.name ∧ IsName f.tname

theorem toU16_lt (i : Int) : toU16 i < 2 ^ 16 := by
  unfold toU16
  omega

section

variable {ts : List Terminal}

theorem EnumFieldList.wf {vals : List EnumDesc} {next : Nat} (h : EnumFieldList ts vals next)
    (hnames : ∀ a, .id a ∈ ts → IsName a) : ∀ v ∈ vals, IsName v.name ∧ v.val < 2 ^ 16 := by
  induction h with
  | empty => simp
  | field _ _ ih =>
      simp only [List.mem_append, List.mem_cons] at hnames
      intro v hv
      rcases List.mem_append.mp hv with hv | hv
      · exact ih (fun a ha => hnames a (Or.inl ha)) v hv
      · obtain rfl := List.mem_singleton.mp hv
        exact ⟨hnames _ (Or.inr (Or.inl rfl)), toU16_lt _⟩

theorem MsgFieldList.wf {flds : List FldDesc} (h : MsgFieldList ts flds)
    (hnames : ∀ a, .id a ∈ ts → IsName a) : ∀ f ∈ flds, IsName f.name ∧ IsName f.tname := by
  induction h with
  | empty => simp
  | field _ _ ih =>
      simp only [List.mem_append, List.mem_cons, List.not_mem_nil, or_false] at hnames
      intro f hf
      rcases List.mem_append.mp hf with hf | hf
      · exact ih (fun a ha => hnames a (Or.inl ha)) f hf
      · obtain rfl := List.mem_singleton.mp hf
        exact ⟨hnames _ (Or.inr (Or.inl rfl)), hnames _ (Or.inr (Or.inr (Or.inr (Or.inr rfl))))⟩

theorem DclList.wf {enums : List EnumType} {msgs : List MsgType} (h : DclList ts enums msgs)
    (hnames : ∀ a, .id a ∈ ts → IsName a) :
    (∀ e ∈ enums, IsName e.name ∧ ∀ v ∈ e.vals, IsName v.name ∧ v.val < 2 ^ 16) ∧
      ∀ m ∈ msgs, IsName m.name ∧ ∀ f ∈ m.flds, IsName f.name ∧ IsName f.tname := by
  induction h with
  | empty => simp
  | enum _ hbody ih =>
      simp only [List.mem_append, List.mem_cons, List.not_mem_nil, or_false] at hnames
      obtain ⟨henums, hmsgs⟩ := ih fun a ha => hnames a (Or.inl ha)
      refine ⟨fun e he => ?_, hmsgs⟩
      rcases List.mem_append.mp he with he | he
      · exact henums e he
      · obtain rfl := List.mem_singleton.mp he
        exact ⟨hnames _ (Or.inr (Or.inr (Or.inl rfl))), hbody.wf fun a ha =>
          hnames a (Or.inr (Or.inr (Or.inr (Or.inr (Or.inl ha)))))⟩
  | message _ hbody ih =>
      simp only [List.mem_append, List.mem_cons, List.not_mem_nil, or_false] at hnames
      obtain ⟨henums, hmsgs⟩ := ih fun a ha => hnames a (Or.inl ha)
      refine ⟨henums, fun m hm => ?_⟩
      rcases List.mem_append.mp hm with hm | hm
      · exact hmsgs m hm
      · obtain rfl := List.mem_singleton.mp hm
        exact ⟨hnames _ (Or.inr (Or.inr (Or.inl rfl))), hbody.wf fun a ha =>
          hnames a (Or.inr (Or.inr (Or.inr (Or.inr (Or.inl ha)))))⟩

/-- **What the parser makes of a file** has names where names are due. -/
theorem Input.wf {d : SchemaDesc} (h : Input ts d) (hnames : ∀ a, .id a ∈ ts → IsName a) : d.Wf := by
  obtain ⟨hpkg, hdcl⟩ := h
  obtain ⟨henums, hmsgs⟩ := hdcl.wf fun a ha => hnames a (List.mem_append_right _ ha)
  refine ⟨fun s hs => ?_, henums, hmsgs⟩
  cases hpkg with
  | empty => cases hs
  | package s' =>
      obtain rfl := Option.some.inj hs
      exact hnames s' (by simp)

end

theorem yyparse_wf {strtod : Text → Int × Int} {file : Text} {d : SchemaDesc}
    (h : yyparse (terminals (tokens (Number.token strtod) file)) = some d) : d.Wf :=
  (Input.of_yyparse h).wf fun _ ha =>
    isName_of_mem_terminals (fun _ hname => isIdent_of_mem_tokens hname) ha

/-! ## The terminals of a syntax tree -/

/-- A value of an enumeration with its number. -/
def EnumDesc.spell (v : EnumDesc) : List Terminal := [.id v.name, .chr 61, .int v.val]

/-- A field with its type. -/
def FldDesc.spell (f : FldDesc) : List Terminal :=
  .id f.name :: .chr 58 :: ((if f.list = true then [.chr 91, .chr 93] else []) ++ [.id f.tname])

def EnumType.spell (e : EnumType) : List Terminal :=
  .enum :: .id e.name :: .chr 123 :: (e.vals.flatMap EnumDesc.spell ++ [.chr 125])

def MsgType.spell (m : MsgType) : List Terminal :=
  .message :: .id m.name :: .chr 123 :: (m.flds.flatMap FldDesc.spell ++ [.chr 125])

/-- A schema with its enumerations in front of its messages. -/
def SchemaDesc.spell (d : SchemaDesc) : List Terminal :=
  (d.pkgName.map fun s => [.package, .id s]).getD [] ++
    (d.enums.flatMap EnumType.spell ++ d.msgs.flatMap MsgType.spell)

theorem enumFieldList_spell {vals : List EnumDesc} (h : ∀ v ∈ vals, v.val < 2 ^ 16) :
    ∃ next, EnumFieldList (vals.flatMap EnumDesc.spell) vals next := by
  induction vals using List.reverseRecOn with
  | nil => exact ⟨0, .empty⟩
  | append_singleton vals v ih =>
      obtain ⟨next, hlist⟩ := ih fun u hu => h u (List.mem_append_left _ hu)
      have hv : toU16 v.val = v.val := by
        have := h v (by simp)
        unfold toU16
        omega
      have hfield : EnumFieldList (vals.flatMap EnumDesc.spell ++ v.spell)
          (vals ++ [⟨v.name, toU16 v.val⟩]) (toU16 (v.val + 1)) := hlist.field (.int v.val)
      rw [hv] at hfield
      rw [List.flatMap_append, List.flatMap_singleton]
      exact ⟨_, hfield⟩

theorem msgFieldList_spell (flds : List FldDesc) :
    MsgFieldList (flds.flatMap FldDesc.spell) flds := by
  induction flds using List.reverseRecOn with
  | nil => exact .empty
  | append_singleton flds f ih =>
      obtain ⟨name, tname, list⟩ := f
      rw [List.flatMap_append, List.flatMap_singleton]
      cases list with
      | true => exact ih.field .brackets
      | false => exact ih.field .empty

theorem dclList_enums {enums : List EnumType} (h : ∀ e ∈ enums, ∀ v ∈ e.vals, v.val < 2 ^ 16) :
    DclList (enums.flatMap EnumType.spell) enums [] := by
  induction enums using List.reverseRecOn with
  | nil => exact .empty
  | append_singleton enums e ih =>
      obtain ⟨next, hbody⟩ := enumFieldList_spell (h e (by simp))
      rw [List.flatMap_append, List.flatMap_singleton]
      exact (ih fun e' he' => h e' (List.mem_append_left _ he')).enum hbody

theorem DclList.messages {ts : List Terminal} {enums : List EnumType} (h : DclList ts enums [])
    (msgs : List MsgType) : DclList (ts ++ msgs.flatMap MsgType.spell) enums msgs := by
  induction msgs using List.reverseRecOn with
  | nil => simpa using h
  | append_singleton msgs m ih =>
      rw [List.flatMap_append, List.flatMap_singleton, ← List.append_assoc]
      exact ih.message (msgFieldList_spell m.flds)

/-- **A syntax tree is derived** from its terminals. -/
theorem input_spell {d : SchemaDesc} (h : d.Wf) : Input d.spell d := by
  obtain ⟨pkgName, enums, msgs⟩ := d
  have hdcl := (dclList_enums fun e he v hv => ((h.enum e he).2 v hv).2).messages msgs
  cases pkgName with
  | none => exact .input .empty hdcl
  | some s => exact .input (.package s) hdcl

/-! ## Reading printed text -/

section

variable (strtod : Text → Int × Int)

/-- The text gives these terminals, whatever comes behind it. -/
def Lexes (s : Text) (ts : List Terminal) : Prop :=
  ∀ rest, terminals (tokens (Number.token strtod) (s ++ rest))
    = ts ++ terminals (tokens (Number.token strtod) rest)

variable {strtod}

theorem lexes_nil : Lexes strtod [] [] := fun _ => rfl

theorem Lexes.append {s s' : Text} {ts ts' : List Terminal} (h : Lexes strtod s ts)
    (h' : Lexes strtod s' ts') : Lexes strtod (s ++ s') (ts ++ ts') := by
  intro rest
  rw [List.append_assoc, h, h', List.append_assoc]

theorem lexes_flatMap {α β : Type} {l : List α} {g : α → β} {text : β → Text}
    {spell : α → List Terminal} (h : ∀ a ∈ l, Lexes strtod (text (g a)) (spell a)) :
    Lexes strtod ((l.map g).flatMap text) (l.flatMap spell) := by
  induction l with
  | nil => exact lexes_nil
  | cons a l ih =>
      rw [List.map_cons, List.flatMap_cons, List.flatMap_cons]
      exact (h a List.mem_cons_self).append (ih fun b hb => h b (List.mem_cons_of_mem a hb))

theorem Lexes.space {c : UInt8} {s : Text} {ts : List Terminal} (h : Lexes strtod s ts)
    (hc : isspace c = true) : Lexes strtod (c :: s) ts := by
  intro rest
  rw [List.cons_append, tokens_space hc, h]

theorem Lexes.sign {c : UInt8} {s : Text} {ts : List Terminal} (h : Lexes strtod s ts)
    (hc : IsSign c) (h0 : c.toNat ≠ 0) : Lexes strtod (c :: s) (.chr c.toNat :: ts) := by
  intro rest
  rw [List.cons_append, tokens_sign hc, terminals, yylex, if_neg h0, h]
  rfl

theorem Lexes.line {body s : Text} {ts : List Terminal} (h : Lexes strtod s ts)
    (hbody : 10 ∉ body) : Lexes strtod (47 :: 47 :: (body ++ 10 :: s)) ts := by
  intro rest
  have htext : 47 :: 47 :: (body ++ 10 :: s) ++ rest = 47 :: 47 :: (body ++ 10 :: (s ++ rest)) := by
    simp
  rw [htext, tokens_line hbody, h]

/-- A word, in front of a character that does not continue it. -/
theorem Lexes.word {name s : Text} {c : UInt8} {a : Terminal} {ts : List Terminal}
    (h : Lexes strtod (c :: s) ts) (hname : IsIdent name) (hlex : yylex (.id name) = some a)
    (hc : isident c = false ∧ c ≠ 46) : Lexes strtod (name ++ c :: s) (a :: ts) := by
  intro rest
  rw [List.append_assoc, List.cons_append, tokens_ident hname (wordEnd_cons _ hc), terminals, hlex,
    ← List.cons_append, h]
  rfl

/-- A number of 16 bits. -/
theorem Lexes.int {n : Nat} {s : Text} {c : UInt8} {ts : List Terminal}
    (h : Lexes strtod (c :: s) ts) (hn : n < 2 ^ 16) (hc : isident c = false ∧ c ≠ 46) :
    Lexes strtod (decimal n ++ c :: s) (.int n :: ts) := by
  intro rest
  have hdec : decimal n = decimalInt n := by
    rw [decimalInt, if_neg (by omega), Int.toNat_natCast]
  have h64 : (n : Int).bmod (2 ^ 64) = n := Int.bmod_eq_of_le (by omega) (by omega)
  have h32 : (n : Int).bmod (2 ^ 32) = n := Int.bmod_eq_of_le (by omega) (by omega)
  rw [List.append_assoc, List.cons_append, hdec, tokens_decimalInt _ (wordEnd_cons _ hc),
    token_decimalInt strtod (by omega) (by omega), h64, terminals, yylex, h32, ← List.cons_append, h]
  rfl

end

/-! ## The printed parts -/

section

variable {strtod : Text → Int × Int}

theorem package_keyword : IsIdent (asc "package") ∧
    yylex (.id (asc "package")) = some .package :=
  ⟨by decide, rfl⟩

theorem message_keyword : IsIdent (asc "message") ∧
    yylex (.id (asc "message")) = some .message :=
  ⟨by decide, rfl⟩

theorem enum_keyword : IsIdent (asc "enum") ∧ yylex (.id (asc "enum")) = some .enum :=
  ⟨by decide, rfl⟩

/-- A line `name = value`. -/
theorem lexes_enumDesc {v : EnumDesc} (hname : IsName v.name) (hval : v.val < 2 ^ 16) :
    Lexes strtod (asc "\t" ++ cstr v.name ++ asc " = " ++ decimal (v.val % 2 ^ 16) ++ asc "\n")
      v.spell := by
  have hend : Lexes strtod [10] [] := lexes_nil.space rfl
  have hnum : Lexes strtod (decimal v.val ++ [10]) [.int v.val] := hend.int hval (by decide)
  have heq : Lexes strtod (32 :: 61 :: 32 :: (decimal v.val ++ [10])) [.chr 61, .int v.val] :=
    ((hnum.space (c := 32) rfl).sign (c := 61) (by decide) (by decide)).space rfl
  have hword := (heq.word hname.ident (yylex_id hname) (by decide)).space (c := 9) rfl
  rw [cstr_eq hname.ident.no_nul, Nat.mod_eq_of_lt hval]
  simpa [EnumDesc.spell, show asc "\t" = [9] from rfl, show asc " = " = [32, 61, 32] from rfl,
    show asc "\n" = [10] from rfl] using hword

/-- A declaration of an enumeration. -/
theorem lexes_enum {e : EnumType} (hname : IsName e.name)
    (hvals : ∀ v ∈ e.vals, IsName v.name ∧ v.val < 2 ^ 16) :
    Lexes strtod (printEnum (outenum e)) e.spell := by
  have hend : Lexes strtod [125, 10] [.chr 125] :=
    (lexes_nil.space (c := 10) rfl).sign (c := 125) (by decide) (by decide)
  have hlines : Lexes strtod _ (e.vals.flatMap EnumDesc.spell) :=
    lexes_flatMap (g := fun v => v) fun v hv => lexes_enumDesc (hvals v hv).1 (hvals v hv).2
  have hbody := hlines.append hend
  have hopen := ((hbody.space (c := 10) rfl).sign (c := 123) (by decide) (by decide)).space
    (c := 32) rfl
  have hword := (hopen.word hname.ident (yylex_id hname) (by decide)).space (c := 32) rfl
  have hkey := (hword.word enum_keyword.1 enum_keyword.2 (by decide)).space (c := 10) rfl
  unfold printEnum outenum EnumType.spell
  rw [cstr_eq hname.ident.no_nul]
  simpa [List.flatMap_map, show asc "\nenum " = 10 :: (asc "enum" ++ [32]) from rfl,
    show asc " \x7b\n" = [32, 123, 10] from rfl, show asc "\x7d\n" = [125, 10] from rfl] using hkey

/-- The comment behind the type of a field. -/
theorem lexes_comment {body s : Text} {ts : List Terminal} (h : Lexes strtod s ts)
    (hbody : 10 ∉ body) : Lexes strtod (32 :: 32 :: 47 :: 47 :: 32 :: (body ++ 10 :: s)) ts := by
  have hline : Lexes strtod (47 :: 47 :: (32 :: body ++ 10 :: s)) ts :=
    h.line (by simpa using hbody)
  exact (hline.space (c := 32) rfl).space rfl

theorem no_newline_decimal (n : Nat) : 10 ∉ decimal n := by
  intro h
  have := isdigit_decimal n 10 h
  cases this

/-- A line with a field, whose type is printed as in the source. -/
theorem lexes_field {s : Nbuf.Schema} {f : FldDesc} {g : FieldDesc} (hname : IsName f.name)
    (htname : IsName f.tname) (hg : g.name = f.name) (hlist : g.list = f.list)
    (htype : typestr s g.kind g.tag1 = f.tname) :
    Lexes strtod (printFieldDesc s g) f.spell := by
  have hbody : 10 ∉ placeLetter g ++ decimal g.tag0 := by
    rw [List.mem_append, not_or]
    refine ⟨?_, no_newline_decimal _⟩
    unfold placeLetter
    split_ifs <;> decide
  have htail : Lexes strtod (f.tname ++ 32 :: 32 :: 47 :: 47 :: 32 ::
      (placeLetter g ++ decimal g.tag0 ++ [10])) [.id f.tname] :=
    (lexes_comment lexes_nil hbody).word htname.ident (yylex_id htname) (by decide)
  have hspec : Lexes strtod ((if f.list = true then asc "[]" else []) ++ (f.tname ++ 32 :: 32 :: 47 ::
      47 :: 32 :: (placeLetter g ++ decimal g.tag0 ++ [10])))
      ((if f.list = true then [.chr 91, .chr 93] else []) ++ [.id f.tname]) := by
    split_ifs
    · exact (htail.sign (c := 93) (by decide) (by decide)).sign (c := 91) (by decide) (by decide)
    · exact htail
  have hcolon := (hspec.space (c := 32) rfl).sign (c := 58) (by decide) (by decide)
  have hword := (hcolon.word hname.ident (yylex_id hname) (by decide)).space (c := 9) rfl
  unfold printFieldDesc FldDesc.spell
  rw [hg, hlist, htype, cstr_eq hname.ident.no_nul]
  simpa [show asc "\t" = [9] from rfl, show asc ": " = [58, 32] from rfl,
    show asc "  // " = [32, 32, 47, 47, 32] from rfl, show asc "\n" = [10] from rfl] using hword

/-- A declaration of a message. -/
theorem lexes_message {s : Nbuf.Schema} {m : MsgType} {ms : Nbuf.MsgType} (hname : IsName m.name)
    (hms : ms.name = m.name)
    (hflds : Lexes strtod (ms.fields.flatMap (printFieldDesc s)) (m.flds.flatMap FldDesc.spell)) :
    Lexes strtod (printMsgtype s ms) m.spell := by
  have hbody : 10 ∉ asc "(" ++ decimal ms.ssize ++ asc "s, " ++ decimal ms.psize ++ asc "p)" := by
    simp only [List.mem_append, not_or]
    exact ⟨⟨⟨⟨by decide, no_newline_decimal _⟩, by decide⟩, no_newline_decimal _⟩, by decide⟩
  have hcomment : Lexes strtod _ [] := lexes_comment lexes_nil hbody
  have hend := hcomment.sign (c := 125) (by decide) (by decide)
  have hopen := (((hflds.append hend).space (c := 10) rfl).sign (c := 123) (by decide)
    (by decide)).space (c := 32) rfl
  have hword := (hopen.word hname.ident (yylex_id hname) (by decide)).space (c := 32) rfl
  have hkey := (hword.word message_keyword.1 message_keyword.2 (by decide)).space (c := 10) rfl
  unfold printMsgtype MsgType.spell
  rw [hms, cstr_eq hname.ident.no_nul]
  simpa [show asc "\nmessage " = 10 :: (asc "message" ++ [32]) from rfl,
    show asc " \x7b\n" = [32, 123, 10] from rfl,
    show asc "\x7d  // (" = 125 :: 32 :: 32 :: 47 :: 47 :: 32 :: asc "(" from rfl,
    show asc "p)\n" = asc "p)" ++ [10] from rfl] using hkey

end

/-! ## What a compiled schema shows of its source -/

/-- The compiled messages are those of the source, in order. -/
theorem run_outmsg_compiled {types : List LookupEntry} {msgs : List MsgType} {st st' : OutState}
    (h : run (outmsg types) st msgs = some st') : ∃ out, st'.msgs = st.msgs ++ out ∧
      List.Forall₂ (fun m ms => ms.name = m.name ∧ CompiledFields types m.flds ms.fields) msgs out := by
  induction msgs generalizing st with
  | nil =>
      cases h
      exact ⟨[], (List.append_nil _).symm, .nil⟩
  | cons m msgs ih =>
      rw [run_cons, Option.bind_eq_some_iff] at h
      obtain ⟨st1, hst1, hrest⟩ := h
      obtain ⟨ms, hms, -, hmsgs⟩ := outmsg_eq_some hst1
      obtain ⟨out, hout, hall⟩ := ih hrest
      obtain ⟨fields, hfields, hcomp⟩ := run_outfield_fields hms
      have hcomp' : CompiledFields types m.flds ms.fields := by
        rw [hfields]
        exact hcomp
      refine ⟨_, ?_, .cons (b := ⟨m.name, ms.fields, roundedSsize ms % 2 ^ 16, ms.psize⟩)
        ⟨rfl, hcomp'⟩ hall⟩
      rw [hout, hmsgs, List.append_assoc, List.singleton_append]

theorem outmsgs_compiled {types : List LookupEntry} {msgs : List MsgType} {out : List Nbuf.MsgType}
    (h : outmsgs types msgs = some out) :
    List.Forall₂ (fun m ms => ms.name = m.name ∧ CompiledFields types m.flds ms.fields) msgs out := by
  obtain ⟨st, hrun, rfl⟩ := Option.map_eq_some_iff.mp h
  obtain ⟨out, hout, hall⟩ := run_outmsg_compiled hrun
  rw [hout]
  exact hall

section

variable {d : SchemaDesc} {s : Nbuf.Schema}

theorem t2b_parts (h : t2b d = some s) : ∃ types, makelookup d = some types ∧
    s.pkgName = d.pkgName.getD [] ∧ s.enumTypes = d.enums.map outenum ∧
    List.Forall₂ (fun m ms => ms.name = m.name ∧ CompiledFields types m.flds ms.fields) d.msgs
      s.msgTypes := by
  unfold t2b at h
  simp only [Option.bind_eq_bind, Option.bind_eq_some_iff] at h
  obtain ⟨types, htypes, msgs, hmsgs, h⟩ := h
  cases h
  exact ⟨types, htypes, rfl, rfl, outmsgs_compiled hmsgs⟩

/-- **`typestr` gives back the name of the type**: a built-in type by its kind and size, another one by
its index. -/
theorem typestr_eq (h : t2b d = some s) (hwf : d.Wf) {ent : LookupEntry} (hent : ent ∈ allTypes d) :
    typestr s ent.kind (tagOne ent) = ent.name := by
  obtain ⟨types, -, -, henums, hmsgs⟩ := t2b_parts h
  unfold allTypes at hent
  rw [List.mem_append, List.mem_append] at hent
  rcases hent with (hent | hent) | hent
  · have hbuiltin : ∀ s, ∀ e ∈ builtinTypes, typestr s e.kind (tagOne e) = e.name := by
      intro s e he
      simp only [builtinTypes, List.mem_cons, List.not_mem_nil, or_false] at he
      rcases he with rfl | rfl | rfl | rfl | rfl | rfl | rfl | rfl | rfl | rfl | rfl | rfl <;> rfl
    exact hbuiltin s ent hent
  · obtain ⟨⟨e, i⟩, hei, rfl⟩ := List.mem_map.mp hent
    have hget := List.mem_zipIdx_iff_getElem?.mp hei
    show cstr (s.enumTypes.getD i _).name = e.name
    rw [henums, List.getD_eq_getElem?_getD, List.getElem?_map, hget]
    exact cstr_eq (hwf.enum e (List.mem_of_getElem? hget)).1.ident.no_nul
  · obtain ⟨⟨m, i⟩, hmi, rfl⟩ := List.mem_map.mp hent
    have hget := List.mem_zipIdx_iff_getElem?.mp hmi
    obtain ⟨hlen, hall⟩ := List.forall₂_iff_get.mp hmsgs
    obtain ⟨hi, hm⟩ := List.getElem?_eq_some_iff.mp hget
    have hi' : i < s.msgTypes.length := hlen ▸ hi
    have hname : (s.msgTypes[i]).name = m.name := (hall i hi hi').1.trans (congrArg MsgType.name hm)
    show cstr (s.msgTypes.getD i _).name = m.name
    rw [List.getD_eq_getElem?_getD, List.getElem?_eq_getElem hi', Option.getD_some, hname]
    exact cstr_eq (hwf.msg _ (List.mem_of_getElem? hget)).1.ident.no_nul

variable {strtod : Text → Int × Int}

/-- The lines of a message spell its fields. -/
theorem lexes_fields (h : t2b d = some s) (hwf : d.Wf) {types : List LookupEntry}
    (htypes : makelookup d = some types) {flds : List FldDesc} {fields : List FieldDesc}
    (hnames : ∀ f ∈ flds, IsName f.name ∧ IsName f.tname) (hcomp : CompiledFields types flds fields) :
    Lexes strtod (fields.flatMap (printFieldDesc s)) (flds.flatMap FldDesc.spell) := by
  induction hcomp with
  | nil => exact lexes_nil
  | @cons f g flds fields hfg _ ih =>
      obtain ⟨hname, hlist, ent, hent, hkind, htag⟩ := hfg
      obtain ⟨hmem, hentname⟩ := (lookup_eq_some_iff htypes).mp hent
      have htype : typestr s g.kind g.tag1 = f.tname := by
        rw [hkind, htag, typestr_eq h hwf hmem, hentname]
      obtain ⟨hf, hft⟩ := hnames f List.mem_cons_self
      rw [List.flatMap_cons, List.flatMap_cons]
      exact (lexes_field hf hft hname hlist htype).append
        (ih fun f' hf' => hnames f' (List.mem_cons_of_mem f hf'))

/-- The printed messages spell those of the source. -/
theorem lexes_messages (h : t2b d = some s) (hwf : d.Wf) {types : List LookupEntry}
    (htypes : makelookup d = some types) {msgs : List MsgType} {out : List Nbuf.MsgType}
    (hsub : ∀ m ∈ msgs, m ∈ d.msgs)
    (hcomp : List.Forall₂ (fun m ms => ms.name = m.name ∧ CompiledFields types m.flds ms.fields)
      msgs out) : Lexes strtod (out.flatMap (printMsgtype s)) (msgs.flatMap MsgType.spell) := by
  induction hcomp with
  | nil => exact lexes_nil
  | @cons m ms msgs out hms _ ih =>
      obtain ⟨hname, hfields⟩ := hms
      obtain ⟨hm, hflds⟩ := hwf.msg m (hsub m List.mem_cons_self)
      rw [List.flatMap_cons, List.flatMap_cons]
      exact (lexes_message hm hname (lexes_fields h hwf htypes hflds hfields)).append
        (ih fun m' hm' => hsub m' (List.mem_cons_of_mem m hm'))

/-- **The printed schema spells its source.** -/
theorem lexes_b2t (h : t2b d = some s) (hwf : d.Wf) : Lexes strtod (b2t s) d.spell := by
  obtain ⟨types, htypes, hpkg, henums, hmsgs⟩ := t2b_parts h
  have hpackage : Lexes strtod
      (if s.pkgName.length > 0 then asc "package " ++ cstr s.pkgName ++ asc "\n" else [])
      ((d.pkgName.map fun s => [Terminal.package, .id s]).getD []) := by
    rw [hpkg]
    cases hname : d.pkgName with
    | none => exact lexes_nil
    | some name =>
        have hn := hwf.package name hname
        have hpos : 0 < name.length := List.length_pos_iff.mpr hn.ident.ne_nil
        have hend : Lexes strtod [10] [] := lexes_nil.space rfl
        have hword := (hend.word hn.ident (yylex_id hn) (by decide)).space (c := 32) rfl
        have hkey := hword.word package_keyword.1 package_keyword.2 (by decide)
        rw [Option.getD_some, if_pos hpos, cstr_eq hn.ident.no_nul]
        simpa [show asc "package " = asc "package" ++ [32] from rfl,
          show asc "\n" = [10] from rfl] using hkey
  have henum : Lexes strtod (s.enumTypes.flatMap printEnum) (d.enums.flatMap EnumType.spell) := by
    rw [henums]
    exact lexes_flatMap fun e he => lexes_enum (hwf.enum e he).1 (hwf.enum e he).2
  unfold b2t SchemaDesc.spell
  rw [List.append_assoc]
  exact hpackage.append (henum.append (lexes_messages h hwf htypes (fun _ hm => hm) hmsgs))

end

/-! ## The round trip -/

/-- **A schema survives being printed**: the text that `nbuf_b2t` prints for the schema compiled from
a file is parsed to the syntax tree of the file, and compiled to the same schema. -/
theorem schema_text_round_trip (strtod : Text → Int × Int) {file : Text} {s : Nbuf.Schema}
    (h : nbufcB strtod file = some s) :
    yyparse (terminals (tokens (Number.token strtod) (b2t s)))
        = yyparse (terminals (tokens (Number.token strtod) file)) ∧
      nbufcB strtod (b2t s) = some s := by
  unfold nbufcB at h ⊢
  simp only [Option.bind_eq_bind, Option.bind_eq_some_iff] at h ⊢
  obtain ⟨d, hd, hs⟩ := h
  have hwf := yyparse_wf hd
  have hread : yyparse (terminals (tokens (Number.token strtod) (b2t s))) = some d := by
    have hlex : terminals (tokens (Number.token strtod) (b2t s ++ [])) = _ := lexes_b2t hs hwf []
    rw [List.append_nil, tokens_nil, terminals, List.append_nil] at hlex
    rw [hlex]
    exact (input_spell hwf).yyparse
  exact ⟨hread.trans hd.symm, d, hread, hs⟩

/-- A message with a list of itself. -/
def listFile : Text := asc "message A\x7bx:[]A\x7d"

def listTree : SchemaDesc := ⟨none, [], [⟨asc "A", [⟨asc "x", asc "A", true⟩]⟩]⟩

def listSchema : Nbuf.Schema := ⟨[], [], [⟨asc "A", [⟨asc "x", .ptr, true, 0, 0⟩], 0, 1⟩]⟩

theorem listTree_wf : listTree.Wf :=
  ⟨fun _ h => (nomatch h), fun _ h => (nomatch h), by decide⟩

theorem nbufcB_listFile (strtod : Text → Int × Int) : nbufcB strtod listFile = some listSchema := by
  have hA : IsName (asc "A") := (listTree_wf.msg _ (List.mem_singleton_self _)).1
  have hx : IsName (asc "x") :=
    ((listTree_wf.msg _ (List.mem_singleton_self _)).2 _ (List.mem_singleton_self _)).1
  have hend : Lexes strtod [125] [.chr 125] := lexes_nil.sign (c := 125) (by decide) (by decide)
  have htype := ((hend.word hA.ident (yylex_id hA) (by decide)).sign (c := 93) (by decide)
    (by decide)).sign (c := 91) (by decide) (by decide)
  have hfield := (htype.sign (c := 58) (by decide) (by decide)).word hx.ident (yylex_id hx)
    (by decide)
  have hbody := (hfield.sign (c := 123) (by decide) (by decide)).word hA.ident (yylex_id hA)
    (by decide)
  have hfile := ((hbody.space (c := 32) rfl).word message_keyword.1 message_keyword.2
    (by decide)) []
  rw [tokens_nil, List.append_nil] at hfile
  have htokens : terminals (tokens (Number.token strtod) listFile) = listTree.spell := hfile
  have hparse := (input_spell listTree_wf).yyparse
  have hcompile : t2b listTree = some listSchema := by decide +kernel
  unfold nbufcB
  rw [htokens, hparse]
  exact hcompile

theorem listSchema_round_trip : nbufcB (fun _ => (0, 0)) (b2t listSchema) = some listSchema :=
  (schema_text_round_trip (fun _ => (0, 0)) (nbufcB_listFile _)).2

end T2b

end Nbuf
