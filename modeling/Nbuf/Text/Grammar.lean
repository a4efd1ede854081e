import Nbuf.Text.Parse

set_option autoImplicit false

/-! # The grammar of messages

What a text message is: fields in any order, each with a value that suits its kind, and submessages
in braces. The tokens that may stand for a string are a parameter `S`.
-/

namespace Nbuf

/-- The token `STR`. -/
def Token.IsStr (t : Token) : Prop := ∃ s, t = .str s

/-- A token whose payload is a buffer: `STR` or `ID`. -/
def Token.IsText (t : Token) : Prop := ∃ s, t = .str s ∨ t = .id s

/-- The token `INT`. -/
def Token.IsInt (t : Token) : Prop := ∃ v, t = .int v

section

variable (schema : Schema) (S : Token → Prop)

/-- The token is a value for the field. -/
def IsValue (f : FieldDesc) (t : Token) : Prop :=
  match f.kind with
  | .bool => t.IsInt ∨ ∃ s, t = .id s ∧ (cstr s = asc "true" ∨ cstr s = asc "false")
  | .enum => t.IsInt ∨ ∃ s, t = .id s ∧ ∃ d ∈ (schema.enumType f.tag1).values, d.name = cstr s
  | .int | .uint => t.IsInt
  | .float => t.IsInt ∨ ∃ single double, t = .flt single double
  | .str => S t
  | .ptr => False

/-- `[',' or ';']` -/
def IsSep (toks : List Token) : Prop := toks = [] ∨ toks = [.chr 44] ∨ toks = [.chr 59]

/-- `[':']` -/
def IsColon (toks : List Token) : Prop := toks = [] ∨ toks = [.chr 58]

/-- **The grammar.** The fields of a message of type `type`, when the fields in `seen` have a
submessage already: `name ':' value` or `name [':'] '{' msg '}'`, each with `,` or `;` behind it or
not. A name stands for the field that `nbuf_find_field` finds. -/
inductive Msg : Nat → List FieldDesc → List Token → Prop
  | nil {type : Nat} {seen : List FieldDesc} : Msg type seen []
  | value {type : Nat} {seen : List FieldDesc} {name : Text} {f : FieldDesc} {t : Token}
      {sep rest : List Token} (hf : findField (schema.msgType type) name = some f)
      (ht : IsValue schema S f t) (hsep : IsSep sep) (hrest : Msg type seen rest) :
      Msg type seen (.id name :: .chr 58 :: t :: (sep ++ rest))
  | sub {type : Nat} {seen : List FieldDesc} {name : Text} {f : FieldDesc}
      {colon body sep rest : List Token} (hf : findField (schema.msgType type) name = some f)
      (hk : f.kind = .ptr) (hnew : f.list = false → f ∉ seen) (hcolon : IsColon colon)
      (hbody : Msg f.tag1 [] body) (hsep : IsSep sep) (hrest : Msg type (f :: seen) rest) :
      Msg type seen (.id name :: (colon ++ .chr 123 :: (body ++ .chr 125 :: (sep ++ rest))))

/-- The fields of a message in the order in which they are given, with the tokens of their values and
the fields of their submessages. -/
inductive Fields where
  | nil
  | value (f : FieldDesc) (t : Token) (rest : Fields)
  | sub (f : FieldDesc) (body rest : Fields)

/-- **What the tokens spell**: the grammar with the fields that it derives. -/
inductive Spells : Nat → List FieldDesc → List Token → Fields → Prop
  | nil {type : Nat} {seen : List FieldDesc} : Spells type seen [] .nil
  | value {type : Nat} {seen : List FieldDesc} {name : Text} {f : FieldDesc} {t : Token}
      {sep rest : List Token} {T : Fields} (hf : findField (schema.msgType type) name = some f)
      (ht : IsValue schema S f t) (hsep : IsSep sep) (hrest : Spells type seen rest T) :
      Spells type seen (.id name :: .chr 58 :: t :: (sep ++ rest)) (.value f t T)
  | sub {type : Nat} {seen : List FieldDesc} {name : Text} {f : FieldDesc}
      {colon body sep rest : List Token} {B T : Fields}
      (hf : findField (schema.msgType type) name = some f) (hk : f.kind = .ptr)
      (hnew : f.list = false → f ∉ seen) (hcolon : IsColon colon) (hbody : Spells f.tag1 [] body B)
      (hsep : IsSep sep) (hrest : Spells type (f :: seen) rest T) :
      Spells type seen (.id name :: (colon ++ .chr 123 :: (body ++ .chr 125 :: (sep ++ rest))))
        (.sub f B T)

/-- The whole stream is one message. -/
def Derives (type : Nat) (toks : List Token) : Prop := Msg schema S type [] toks

/-- Behind some fields of the message, and inside some of its submessages, there is the name of the
field `f` with `:`, and `rest` comes where its value is due. -/
inductive Expects : Nat → List FieldDesc → List Token → FieldDesc → List Token → Prop
  | here {type : Nat} {seen : List FieldDesc} {name : Text} {f : FieldDesc} {rest : List Token}
      (hf : findField (schema.msgType type) name = some f) (hk : f.kind ≠ .ptr) :
      Expects type seen (.id name :: .chr 58 :: rest) f rest
  | value {type : Nat} {seen : List FieldDesc} {name : Text} {f g : FieldDesc} {t : Token}
      {sep rest due : List Token} (hf : findField (schema.msgType type) name = some f)
      (ht : IsValue schema S f t) (hsep : IsSep sep) (hrest : Expects type seen rest g due) :
      Expects type seen (.id name :: .chr 58 :: t :: (sep ++ rest)) g due
  | inside {type : Nat} {seen : List FieldDesc} {name : Text} {f g : FieldDesc}
      {colon body due : List Token} (hf : findField (schema.msgType type) name = some f)
      (hk : f.kind = .ptr) (hnew : f.list = false → f ∉ seen) (hcolon : IsColon colon)
      (hbody : Expects f.tag1 [] body g due) :
      Expects type seen (.id name :: (colon ++ .chr 123 :: body)) g due
  | after {type : Nat} {seen : List FieldDesc} {name : Text} {f g : FieldDesc}
      {colon body sep rest due : List Token}
      (hf : findField (schema.msgType type) name = some f) (hk : f.kind = .ptr)
      (hnew : f.list = false → f ∉ seen) (hcolon : IsColon colon) (hbody : Msg schema S f.tag1 [] body)
      (hsep : IsSep sep) (hrest : Expects type (f :: seen) rest g due) :
      Expects type seen (.id name :: (colon ++ .chr 123 :: (body ++ .chr 125 :: (sep ++ rest)))) g due

/-- A string is due where there is a buffer, and a value of an enumeration where there is a number
or a name. -/
def Suits (f : FieldDesc) (due : List Token) : Prop :=
  (f.kind = .str → ∃ t ∈ due.head?, t.IsText) ∧
    (f.kind = .enum → ∃ t ∈ due.head?, t.IsInt ∨ ∃ s, t = .id s)

end

section

variable {schema : Schema} {S : Token → Prop}

theorem IsValue.not_ptr {f : FieldDesc} {t : Token} (h : IsValue schema S f t) : f.kind ≠ .ptr := by
  intro hk
  unfold IsValue at h
  rw [hk] at h
  exact h

theorem IsValue.mono {S' : Token → Prop} (hS : ∀ t, S t → S' t) {f : FieldDesc} {t : Token}
    (h : IsValue schema S f t) : IsValue schema S' f t := by
  unfold IsValue at h ⊢
  cases hk : f.kind <;> rw [hk] at h
  case str => exact hS t h
  all_goals exact h

/-- More tokens that may stand for a string derive more. -/
theorem Msg.mono {S' : Token → Prop} (hS : ∀ t, S t → S' t) {type : Nat} {seen : List FieldDesc}
    {toks : List Token} (h : Msg schema S type seen toks) : Msg schema S' type seen toks := by
  induction h with
  | nil => exact .nil
  | value hf ht hsep _ ih => exact .value hf (ht.mono hS) hsep ih
  | sub hf hk hnew hcolon _ hsep _ ihbody ihrest => exact .sub hf hk hnew hcolon ihbody hsep ihrest

/-- A message spells some fields. -/
theorem Msg.spells {type : Nat} {seen : List FieldDesc} {toks : List Token}
    (h : Msg schema S type seen toks) : ∃ T, Spells schema S type seen toks T := by
  induction h with
  | nil => exact ⟨.nil, .nil⟩
  | @value _ _ _ f t _ _ hf ht hsep _ ih =>
      obtain ⟨T, hT⟩ := ih
      exact ⟨.value f t T, .value hf ht hsep hT⟩
  | @sub _ _ _ f _ _ _ _ hf hk hnew hcolon _ hsep _ ihbody ihrest =>
      obtain ⟨B, hB⟩ := ihbody
      obtain ⟨T, hT⟩ := ihrest
      exact ⟨.sub f B T, .sub hf hk hnew hcolon hB hsep hT⟩

theorem Spells.msg {type : Nat} {seen : List FieldDesc} {toks : List Token} {T : Fields}
    (h : Spells schema S type seen toks T) : Msg schema S type seen toks := by
  induction h with
  | nil => exact .nil
  | value hf ht hsep _ ih => exact .value hf ht hsep ih
  | sub hf hk hnew hcolon _ hsep _ ihbody ihrest => exact .sub hf hk hnew hcolon ihbody hsep ihrest

/-- A message is empty or starts with a name. -/
theorem Msg.head {type : Nat} {seen : List FieldDesc} {toks : List Token}
    (h : Msg schema S type seen toks) : toks = [] ∨ ∃ name rest, toks = .id name :: rest := by
  cases h with
  | nil => exact Or.inl rfl
  | value => exact Or.inr ⟨_, _, rfl⟩
  | sub => exact Or.inr ⟨_, _, rfl⟩

theorem Expects.head {type : Nat} {seen : List FieldDesc} {toks due : List Token} {g : FieldDesc}
    (h : Expects schema S type seen toks g due) : ∃ name rest, toks = .id name :: rest := by
  cases h <;> exact ⟨_, _, rfl⟩

end

end Nbuf
