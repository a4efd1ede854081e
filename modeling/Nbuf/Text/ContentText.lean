import Nbuf.Text.Content
import Nbuf.Text.Integers
import Nbuf.Text.Literals
import Nbuf.Text.PrintedTokens

set_option autoImplicit false

/-! # The text of a content

The lexer makes of a printed content the tokens that spell it: names, values in the tokens of their
kinds, and submessages in braces. Only numbers with a fraction are left out, and strings that do
not come back from their literals.
-/

namespace Nbuf

open Outcome

/-! ## Which contents there are -/

/-- The value is one of the field: it has its kind, and a number is in its range. -/
def FieldDesc.Shows (f : FieldDesc) : FieldValue → Prop
  | .bool _ => f.kind = .bool
  | .int v => f.kind = .int ∧ f.InRange v
  | .uint v => f.kind = .uint ∧ f.InRange v
  | .enum v => f.kind = .enum ∧ v < 2 ^ 16
  | .float _ => f.kind = .float
  | .str _ => f.kind = .str
  | .msg .. => False

/-- The fields to come behind an element of the field `f`: a list goes on. -/
def FieldDesc.onward (f : FieldDesc) (l : List FieldDesc) : List FieldDesc :=
  if f.list = true then f :: l else l

/-- **A content of some fields**, with submessages that are nested up to a depth: lists and
submessages may be left out, everything else is there once. -/
inductive Content.Of (schema : Schema) : Nat → List FieldDesc → Content → Prop
  | nil {n : Nat} : Of schema n [] .nil
  | none {n : Nat} {f : FieldDesc} {l : List FieldDesc} {T : Content}
      (hopt : f.list = true ∨ f.kind = .ptr) (hrest : Of schema n l T) : Of schema n (f :: l) T
  | value {n : Nat} {f : FieldDesc} {l : List FieldDesc} {x : FieldValue} {T : Content}
      (hx : f.Shows x) (hrest : Of schema n (f.onward l) T) : Of schema n (f :: l) (.value f x T)
  | sub {n : Nat} {f : FieldDesc} {l : List FieldDesc} {B T : Content} (hk : f.kind = .ptr)
      (hbody : Of schema n (schema.msgType f.tag1).fields B)
      (hrest : Of schema (n + 1) (f.onward l) T) : Of schema (n + 1) (f :: l) (.sub f B T)

section

variable {b : Buffer} {schema : Schema} {o : Obj} {f : FieldDesc} {ref : Ref} {x : FieldValue}

theorem FieldDesc.Shows.not_ptr (h : f.Shows x) : f.kind ≠ .ptr := by
  cases x with
  | int v | uint v | enum v => exact fun hk => nomatch h.1.symm.trans hk
  | bool v | float v | str v => exact fun hk => nomatch h.symm.trans hk
  | msg => exact h.elim

/-- A number of the width of a signed field is in its range. -/
theorem FieldDesc.inRange_of_bmod {v : Int} (hw : scalarSize f.width = true) (hk : f.kind = .int)
    (h : v.bmod (256 ^ f.width) = v) : f.InRange v := by
  have hpos : 0 < 256 ^ f.width := Nat.pow_pos (by decide)
  have hlo := Int.le_bmod (x := v) hpos
  have hhi := Int.bmod_lt (x := v) hpos
  rw [h] at hlo hhi
  unfold FieldDesc.InRange
  rw [if_pos hk]
  simp only [scalarSize, Bool.or_eq_true, beq_iff_eq] at hw
  rcases hw with ((hw | hw) | hw) | hw
  all_goals
    rw [hw] at hlo hhi ⊢
    norm_num at hlo hhi ⊢
    omega

/-- **A value that is found** is one of the field. -/
theorem refValue_shows (hw : f.HasWidth) (hkind : ref.kind = f.kind) (htag : ref.tag1 = f.tag1)
    (hptr : f.kind ≠ .ptr) (h : refValue b ref = some x) : f.Shows x := by
  have hplace : SamePlace f ref.o ref.tag0 ref := ⟨hkind, htag, rfl, .refl _⟩
  unfold refValue at h
  rw [hkind] at h
  cases hk : f.kind with
  | ptr => exact absurd hk hptr
  | bool | float | str =>
      rw [hk] at h
      obtain ⟨v, -, rfl⟩ := Option.map_eq_some_iff.mp h
      exact hk
  | int =>
      simp only [hk, hplace.refGetInt_signed hk] at h
      obtain ⟨v, hv, rfl⟩ := Option.map_eq_some_iff.mp h
      have hwidth : f.width = f.tag1 := if_neg (by simp [hk])
      have hrange := getInt_bmod hv
      rw [← hwidth] at hrange
      exact ⟨hk, f.inRange_of_bmod (hwidth ▸ hw.number (.inl hk)) hk hrange⟩
  | uint =>
      simp only [hk, hplace.refGetInt_unsigned hk, Option.map_map] at h
      obtain ⟨v, -, rfl⟩ := Option.map_eq_some_iff.mp h
      have hwidth : f.width = f.tag1 := if_neg (by simp [hk])
      refine ⟨hk, ?_⟩
      show f.InRange (toU64 (((toU64 v % 256 ^ f.tag1 : Nat) : Int).bmod (2 ^ 64)) : Nat)
      rw [toU64_masked (hw.number (.inr hk)), toUintN, ← hwidth]
      have hpos : (0 : Int) < 256 ^ f.width := by positivity
      have hnn := Int.emod_nonneg v hpos.ne'
      have hlt := Int.emod_lt_of_pos v hpos
      unfold FieldDesc.InRange
      rw [if_neg (by simp [hk]), Int.toNat_of_nonneg hnn]
      exact ⟨hnn, hlt⟩
  | enum =>
      simp only [hk] at h
      obtain ⟨v, -, rfl⟩ := Option.map_eq_some_iff.mp h
      exact ⟨hk, Nat.mod_lt _ (by decide)⟩

theorem advance_keeps {n : Nat} {ref' : Ref} (h : advance n ref = some ref') :
    ref'.kind = ref.kind ∧ ref'.tag1 = ref.tag1 := by
  induction n generalizing ref' with
  | zero =>
      cases h
      exact ⟨rfl, rfl⟩
  | succ n ih =>
      obtain ⟨mid, hmid, hstep⟩ := Option.bind_eq_some_iff.mp h
      have hkeep := ih hmid
      unfold refAdvance at hstep
      split_ifs at hstep <;> cases hstep <;> exact hkeep

/-- The reference to an element keeps the kind of the field and its type. -/
theorem elemRef_keeps {i : Nat} (h : elemRef b o f i = some ref) :
    ref.kind = f.kind ∧ ref.tag1 = f.tag1 := by
  unfold elemRef at h
  simp only at h
  split_ifs at h with hptr
  · rw [refGetPtr_eq hptr] at h
    obtain ⟨ref', href', h⟩ := Option.bind_eq_some_iff.mp h
    obtain ⟨list, -, rfl⟩ := Option.map_eq_some_iff.mp href'
    split_ifs at h
    · exact advance_keeps h
    · cases h
      exact ⟨rfl, rfl⟩
  · cases h
    exact ⟨rfl, rfl⟩

/-- An element that is found is a value of the field or a content of its message. -/
theorem readElem_of {fuel i : Nat} {E T : Content} {l : List FieldDesc} (hw : f.HasWidth)
    (hinner : f.kind = .ptr → ∀ o B, readMessage b schema fuel o (schema.msgType f.tag1) = done B →
      ∃ n, fuel = n + 1 ∧ B.Of schema n (schema.msgType f.tag1).fields)
    (h : readElem b schema (readMessage b schema fuel) o f i = done E)
    (hT : T.Of schema fuel (f.onward l)) : (E ++ T).Of schema fuel (f :: l) := by
  obtain ⟨ref, href, h⟩ := ofOption_bind_eq_done.mp h
  obtain ⟨hkind, htag⟩ := elemRef_keeps href
  unfold readEntry at h
  split_ifs at h with hk
  · obtain ⟨B, hB, h⟩ := bind_eq_done.mp h
    cases h
    obtain ⟨n, rfl, hof⟩ := hinner hk _ _ hB
    exact .sub hk hof hT
  · obtain ⟨x, hx, h⟩ := ofOption_bind_eq_done.mp h
    cases h
    exact .value (refValue_shows hw hkind htag hk hx) hT

/-- All elements of a field, in front of a content of the other fields. -/
theorem readField_of {fuel : Nat} {S T : Content} {l : List FieldDesc} (hw : f.HasWidth)
    (hinner : f.kind = .ptr → ∀ o B, readMessage b schema fuel o (schema.msgType f.tag1) = done B →
      ∃ n, fuel = n + 1 ∧ B.Of schema n (schema.msgType f.tag1).fields)
    (h : readField b schema (readMessage b schema fuel) o f = done S)
    (hT : T.Of schema fuel l) : (S ++ T).Of schema fuel (f :: l) := by
  replace h := ofOption_bind_eq_done.mp h
  obtain ⟨n, hn, h⟩ := h
  by_cases hl : f.list = true
  · have hend : T.Of schema fuel (f :: l) := .none (Or.inl hl) hT
    rw [List.range_eq_range'] at h
    clear hn
    generalize 0 = i at h
    induction n generalizing i S with
    | zero =>
        cases h
        exact hend
    | succ n ih =>
        rw [List.range'_succ] at h
        obtain ⟨E, hE, h⟩ := bind_eq_done.mp h
        obtain ⟨S', hS', h⟩ := bind_eq_done.mp h
        cases h
        rw [Content.append_assoc]
        refine readElem_of hw hinner hE ?_
        rw [FieldDesc.onward, if_pos hl]
        exact ih (i + 1) hS'
  · have hT' : T.Of schema fuel (f.onward l) := by
      rw [FieldDesc.onward, if_neg hl]
      exact hT
    have hone : joined (readElem b schema (readMessage b schema fuel) o f) (List.range 1) = done S →
        (S ++ T).Of schema fuel (f :: l) := by
      intro h
      obtain ⟨E, hE, h⟩ := bind_eq_done.mp h
      cases h
      rw [Content.append_nil]
      exact readElem_of hw hinner hE hT'
    unfold elemCount at hn
    split_ifs at hn with hptr
    · obtain ⟨list, -, hn⟩ := Option.bind_eq_some_iff.mp hn
      cases hn
      by_cases h0 : list.nelem = 0
      · rw [h0] at h
        cases h
        exact .none hptr hT
      · rw [Nat.min_eq_right (by omega)] at h
        exact hone h
    · cases hn
      exact hone h

/-- **What is found in a message** is a content of its fields. -/
theorem readMessage_of (hs : schema.Sound) {fuel type : Nat} (htype : type < schema.msgTypes.length)
    {T : Content} (h : readMessage b schema (fuel + 1) o (schema.msgType type) = done T) :
    T.Of schema fuel (schema.msgType type).fields := by
  induction fuel using Nat.strong_induction_on generalizing type o T with
  | _ fuel ih =>
      have hmem := schema.msgType_mem htype
      have hinner : ∀ f ∈ (schema.msgType type).fields, f.kind = .ptr → ∀ o B,
          readMessage b schema fuel o (schema.msgType f.tag1) = done B →
          ∃ n, fuel = n + 1 ∧ B.Of schema n (schema.msgType f.tag1).fields := by
        intro f hf hk o B hB
        cases fuel with
        | zero => cases hB
        | succ n => exact ⟨n, rfl, ih n (Nat.lt_succ_self n) (hs.target _ hmem f hf hk) hB⟩
      have hall : ∀ (l : List FieldDesc) (T : Content), l ⊆ (schema.msgType type).fields →
          joined (readField b schema (readMessage b schema fuel) o) l = done T →
          T.Of schema fuel l := by
        intro l
        induction l with
        | nil =>
            intro T _ hT
            cases hT
            exact .nil
        | cons f l ihl =>
            intro T hsub hT
            obtain ⟨hf, hsub⟩ := List.cons_subset.mp hsub
            obtain ⟨S, hS, hT⟩ := bind_eq_done.mp hT
            obtain ⟨T', hT', hT⟩ := bind_eq_done.mp hT
            cases hT
            exact readField_of (hs.width _ hmem f hf) (hinner f hf) hS (ihl T' hsub hT')
      exact hall _ T (List.Subset.refl _) h

end

/-! ## Tokens -/

/-- A value that the printer writes so that the lexer reads it back. -/
def FieldValue.Printable : FieldValue → Prop
  | .str s => ∀ c ∈ s, Legible c
  | .float _ => False
  | _ => True

instance : (x : FieldValue) → Decidable x.Printable
  | .str s => decidable_of_iff (s.all (fun c => decide (Legible c)) = true) (by
      simp only [List.all_eq_true, decide_eq_true_eq]
      rfl)
  | .float _ => isFalse id
  | .bool _ | .int _ | .uint _ | .enum _ | .msg .. => isTrue trivial

/-- A content of such values, without elements of lists of booleans. -/
def Content.Printable : Content → Prop
  | .nil => True
  | .value f x rest => (f.kind = .bool → f.list = false) ∧ x.Printable ∧ rest.Printable
  | .sub _ body rest => body.Printable ∧ rest.Printable

instance Content.decidablePrintable : (T : Content) → Decidable T.Printable
  | .nil => isTrue trivial
  | .value f x rest =>
      haveI := rest.decidablePrintable
      inferInstanceAs (Decidable ((f.kind = .bool → f.list = false) ∧ x.Printable ∧ rest.Printable))
  | .sub _ body rest =>
      haveI := body.decidablePrintable
      haveI := rest.decidablePrintable
      inferInstanceAs (Decidable (body.Printable ∧ rest.Printable))

/-- The names in the schema are identifiers, and those of the fields of a message and of the values of
an enumeration are distinct. -/
structure Schema.Named (schema : Schema) : Prop where
  fields : ∀ ms ∈ schema.msgTypes, (ms.fields.map FieldDesc.name).Nodup ∧
    ∀ f ∈ ms.fields, IsIdent f.name
  values : ∀ e ∈ schema.enumTypes, (e.values.map EnumDesc.name).Nodup ∧
    ∀ d ∈ e.values, IsIdent d.name

section

variable (schema : Schema)

/-- The token of a value. -/
def FieldDesc.valueToken (f : FieldDesc) : FieldValue → Token
  | .bool v => .id (if v then asc "true" else asc "false")
  | .int v => .int v
  | .uint v => .int ((v : Int).bmod (2 ^ 64))
  | .enum v =>
      match enumName (schema.enumType f.tag1) v with
      | some name => .id name
      | none => .int v
  | .str s => .str s
  -- not in a content that is printable
  | .float _ | .msg .. => .chr 0

/-- The tokens of a content. -/
def Content.spell : Content → List Token
  | .nil => []
  | .value f x rest => .id f.name :: .chr 58 :: f.valueToken schema x :: rest.spell
  | .sub f body rest => .id f.name :: .chr 123 :: (body.spell ++ .chr 125 :: rest.spell)

/-- The fields that the tokens spell. -/
def Content.fields : Content → Fields
  | .nil => .nil
  | .value f x rest => .value f (f.valueToken schema x) rest.fields
  | .sub f body rest => .sub f body.fields rest.fields

end

section

variable {schema : Schema} {conv : Number → Token} {strtod : Text → Int × Int} {f : FieldDesc}
  {x : FieldValue} {s : Text}

/-- A signed number fits into an `int64_t`. -/
theorem FieldDesc.InRange.int_bounds {v : Int} (h : f.InRange v) (hw : f.HasWidth)
    (hk : f.kind = .int) : -2 ^ 63 ≤ v ∧ v < 2 ^ 63 := by
  have hwidth : f.width = f.tag1 := if_neg (by simp [hk])
  have hsize := hw.number (.inl hk)
  unfold FieldDesc.InRange at h
  rw [if_pos hk, hwidth] at h
  simp only [scalarSize, Bool.or_eq_true, beq_iff_eq] at hsize
  rcases hsize with ((hsize | hsize) | hsize) | hsize
  all_goals
    rw [hsize] at h
    norm_num at h ⊢
    omega

/-- An unsigned number fits into a `uint64_t`. -/
theorem FieldDesc.InRange.uint_bound {v : Nat} (h : f.InRange v) (hw : f.HasWidth)
    (hk : f.kind = .uint) : v < 2 ^ 64 := by
  have hwidth : f.width = f.tag1 := if_neg (by simp [hk])
  have hsize := hw.number (.inr hk)
  unfold FieldDesc.InRange at h
  rw [if_neg (by simp [hk]), hwidth] at h
  simp only [scalarSize, Bool.or_eq_true, beq_iff_eq] at hsize
  rcases hsize with ((hsize | hsize) | hsize) | hsize
  all_goals
    rw [hsize] at h
    norm_num at h ⊢
    omega

theorem decimalInt_natCast (n : Nat) : decimalInt n = decimal n := by
  unfold decimalInt
  rw [if_neg (by omega), Int.toNat_natCast]

/-- The constant that has the name of a value. -/
theorem enumName_mem {enm : EnumType} {v : Nat} {name : Text} (h : enumName enm v = some name) :
    ∃ d ∈ enm.values, d.name = name ∧ d.value = v := by
  obtain ⟨d, hd, rfl⟩ := Option.map_eq_some_iff.mp h
  have hv := List.find?_some hd
  exact ⟨d, List.mem_of_find?_eq_some hd, rfl, (beq_iff_eq.mp hv).symm⟩

theorem Schema.enumType_mem (schema : Schema) {i : Nat} {d : EnumDesc}
    (h : d ∈ (schema.enumType i).values) : schema.enumType i ∈ schema.enumTypes := by
  unfold Schema.enumType at h ⊢
  rw [List.getD_eq_getElem?_getD] at h ⊢
  cases he : schema.enumTypes[i]? with
  | none =>
      rw [he] at h
      cases h
  | some e => exact List.mem_of_getElem? he

/-- No string literal is continued here. -/
def Closed (s : Text) : Prop := (skipspaces s).head? ≠ some 34

theorem closed_space {c : UInt8} (hc : isspace c = true) (h : Closed s) : Closed (c :: s) := by
  unfold Closed
  rw [skipspaces_space s hc]
  exact h

theorem closed_spaces {l : Text} (hl : ∀ c ∈ l, isspace c = true) (h : Closed s) :
    Closed (l ++ s) := by
  induction l with
  | nil => exact h
  | cons c l ih =>
      exact closed_space (hl c List.mem_cons_self) (ih fun d hd => hl d (List.mem_cons_of_mem c hd))

theorem closed_cons {c : UInt8} (hspace : isspace c = false) (hc : c ≠ 34) (s : Text) :
    Closed (c :: s) := by
  unfold Closed
  rw [skipspaces_cons s hspace]
  simpa using hc

theorem IsIdent.closed {name : Text} (h : IsIdent name) (s : Text) : Closed (name ++ s) := by
  obtain ⟨c, l, rfl, hc, -⟩ := h
  refine closed_cons ?_ ?_ (l ++ s)
  · rcases hc with hc | rfl
    · simp only [isalpha, decide_eq_true_eq] at hc
      exact decide_eq_false (by omega)
    · rfl
  · rcases hc with hc | rfl
    · exact ne_of_class hc rfl
    · decide

theorem isspace_newline (indentInc : Int) : isspace (newline indentInc) = true := by
  unfold newline
  split_ifs <;> rfl

theorem isspace_doIndent (n : Int) : ∀ c ∈ doIndent n, isspace c = true := by
  intro c hc
  rw [List.eq_of_mem_replicate hc]
  rfl

/-- **The token of a value** that is printed. -/
theorem tokens_valueText (hn : schema.Named) (hw : f.HasWidth) (hx : f.Shows x) (hprint : x.Printable)
    (fmtFloat : Nat → Int → Text) (hend : WordEnd s) (hclosed : Closed s) :
    tokens (Number.token strtod) (f.valueText schema fmtFloat x ++ s)
      = f.valueToken schema x :: tokens (Number.token strtod) s := by
  have hnum : ∀ v : Int, -2 ^ 63 ≤ v → v < 2 ^ 64 →
      tokens (Number.token strtod) (decimalInt v ++ s)
        = .int (v.bmod (2 ^ 64)) :: tokens (Number.token strtod) s := by
    intro v hlo hhi
    rw [tokens_decimalInt v hend, token_decimalInt strtod hlo hhi]
  cases x with
  | bool v =>
      cases v with
      | true => exact tokens_ident (show IsIdent (asc "true") by decide) hend
      | false => exact tokens_ident (show IsIdent (asc "false") by decide) hend
  | int v =>
      obtain ⟨hk, hrange⟩ := hx
      obtain ⟨hlo, hhi⟩ := hrange.int_bounds hw hk
      show tokens _ (decimalInt v ++ s) = .int v :: _
      rw [hnum v (by omega) (by omega), Int.bmod_eq_of_le (by omega) (by omega)]
  | uint v =>
      obtain ⟨hk, hrange⟩ := hx
      have hhi := hrange.uint_bound hw hk
      show tokens _ (decimal v ++ s) = .int ((v : Int).bmod (2 ^ 64)) :: _
      rw [← decimalInt_natCast, hnum v (by omega) (by omega)]
  | enum v =>
      obtain ⟨hk, hlt⟩ := hx
      cases hname : enumName (schema.enumType f.tag1) v with
      | none =>
          simp only [FieldDesc.valueText, FieldDesc.valueToken, hname]
          rw [← decimalInt_natCast, hnum v (by omega) (by omega),
            Int.bmod_eq_of_le (by omega) (by omega)]
      | some name =>
          obtain ⟨d, hd, rfl, -⟩ := enumName_mem hname
          have hident := (hn.values _ (schema.enumType_mem hd)).2 d hd
          simp only [FieldDesc.valueText, FieldDesc.valueToken, hname]
          rw [cstr_eq hident.no_nul, tokens_ident hident hend]
  | float v => exact hprint.elim
  | str t =>
      have hlex := (roundTrips_iff (Number.token strtod) t).mpr hprint s hclosed
      show tokens _ (dumpstr t ++ s) = .str t :: _
      rw [tokens_cons [] hlex, tokens_skipspaces]
  | msg => exact hx.elim

/-- A field of some message of the schema. -/
def Schema.HasField (schema : Schema) (f : FieldDesc) : Prop := ∃ ms ∈ schema.msgTypes, f ∈ ms.fields

theorem Schema.hasField {type : Nat} (htype : type < schema.msgTypes.length) :
    ∀ f ∈ (schema.msgType type).fields, schema.HasField f :=
  fun _ hf => ⟨_, schema.msgType_mem htype, hf⟩

theorem Schema.HasField.ident (h : schema.HasField f) (hn : schema.Named) : IsIdent f.name := by
  obtain ⟨ms, hms, hf⟩ := h
  exact (hn.fields ms hms).2 f hf

theorem Schema.HasField.target (h : schema.HasField f) (hs : schema.Sound) (hk : f.kind = .ptr) :
    f.tag1 < schema.msgTypes.length := by
  obtain ⟨ms, hms, hf⟩ := h
  exact hs.target ms hms f hf hk

theorem Schema.HasField.width (h : schema.HasField f) (hs : schema.Sound) : f.HasWidth := by
  obtain ⟨ms, hms, hf⟩ := h
  exact hs.width ms hms f hf

theorem FieldDesc.forall_onward {P : FieldDesc → Prop} {l : List FieldDesc}
    (h : ∀ g ∈ f :: l, P g) : ∀ g ∈ f.onward l, P g := by
  unfold FieldDesc.onward
  split_ifs
  · exact h
  · exact fun g hg => h g (List.mem_cons_of_mem f hg)

theorem FieldDesc.nodup_onward {l : List FieldDesc} (h : (f :: l).Nodup) : (f.onward l).Nodup := by
  unfold FieldDesc.onward
  split_ifs
  · exact h
  · exact h.of_cons

theorem Content.closed_render (fmtFloat : Nat → Int → Text) (indentInc indent : Int) {n : Nat}
    {l : List FieldDesc} {T : Content} (h : T.Of schema n l) (hl : ∀ f ∈ l, IsIdent f.name)
    (hs : Closed s) : Closed (T.render schema fmtFloat indentInc indent ++ s) := by
  induction h with
  | nil => exact hs
  | none _ _ ih => exact ih fun g hg => hl g (List.mem_cons_of_mem _ hg)
  | value | sub =>
      have hident := hl _ List.mem_cons_self
      unfold Content.render
      simp only [List.append_assoc, cstr_eq hident.no_nul]
      exact closed_spaces (isspace_doIndent indent) (hident.closed _)

/-- **The tokens of a printed content.** -/
theorem tokens_render (hs : schema.Sound) (hn : schema.Named) (fmtFloat : Nat → Int → Text)
    (indentInc : Int) {n : Nat} {l : List FieldDesc} {T : Content} (h : T.Of schema n l)
    (hprint : T.Printable) (hl : ∀ f ∈ l, schema.HasField f) {indent : Int}
    (hclosed : Closed s) :
    tokens (Number.token strtod) (T.render schema fmtFloat indentInc indent ++ s)
      = T.spell schema ++ tokens (Number.token strtod) s := by
  have hspace := isspace_newline indentInc
  have hline : ∀ r, WordEnd (newline indentInc :: r) := fun r => wordEnd_cons r (by
    unfold newline
    split_ifs <;> decide)
  induction h generalizing indent s with
  | nil => rfl
  | none _ _ ih => exact ih hprint (fun g hg => hl g (List.mem_cons_of_mem _ hg)) hclosed
  | @value n f l x T hx hrest ih =>
      have hf := hl f List.mem_cons_self
      have hident := hf.ident hn
      have hrestl := FieldDesc.forall_onward hl
      have hend := T.closed_render fmtFloat indentInc indent hrest
        (fun g hg => (hrestl g hg).ident hn) hclosed
      unfold Content.render Content.spell
      simp only [List.append_assoc, cstr_eq hident.no_nul, show asc ": " = [58, 32] from rfl,
        List.cons_append, List.nil_append]
      rw [tokens_spaces (isspace_doIndent indent), tokens_ident hident (wordEnd_cons _ (by decide)),
        tokens_sign (by decide), tokens_space rfl,
        tokens_valueText hn (hf.width hs) hx hprint.2.1 fmtFloat (hline _) (closed_space hspace hend),
        tokens_space hspace, ih hprint.2.2 hrestl hclosed]
      rfl
  | @sub n f l B T hk hbody hrest ihB ihT =>
      have hf := hl f List.mem_cons_self
      have hident := hf.ident hn
      have hrestl := FieldDesc.forall_onward hl
      have hbodyl := schema.hasField (hf.target hs hk)
      unfold Content.render Content.spell
      simp only [List.append_assoc, cstr_eq hident.no_nul, show asc " " = [32] from rfl,
        show asc "\x7b" = [123] from rfl, show asc "\x7d" = [125] from rfl, List.cons_append,
        List.nil_append]
      rw [tokens_spaces (isspace_doIndent indent), tokens_ident hident (wordEnd_cons _ (by decide)),
        tokens_space rfl, tokens_sign (by decide), tokens_space hspace,
        ihB hprint.1 hbodyl (closed_spaces (isspace_doIndent indent)
          (closed_cons (by decide) (by decide) _)),
        tokens_spaces (isspace_doIndent indent), tokens_sign (by decide), tokens_space hspace,
        ihT hprint.2 hrestl hclosed]
      rfl

/-! ## What the tokens spell -/

/-- An element is found by a key that no other element has. -/
theorem find?_key {α β : Type} [BEq β] [LawfulBEq β] {g : α → β} {l : List α}
    (h : (l.map g).Nodup) {a : α} (ha : a ∈ l) : l.find? (fun c => g a == g c) = some a := by
  cases hfind : l.find? fun c => g a == g c with
  | none => simpa using List.find?_eq_none.mp hfind a ha
  | some c =>
      have hkey := List.find?_some hfind
      rw [List.inj_on_of_nodup_map h ha (List.mem_of_find?_eq_some hfind) (beq_iff_eq.mp hkey)]

theorem Schema.Named.findField (hn : schema.Named) {ms : MsgType} (hms : ms ∈ schema.msgTypes)
    (hf : f ∈ ms.fields) : Nbuf.findField ms f.name = some f := by
  obtain ⟨hnodup, hident⟩ := hn.fields ms hms
  unfold Nbuf.findField
  rw [cstr_eq (hident f hf).no_nul]
  exact find?_key hnodup hf

/-- The token of a value is one for its field. -/
theorem FieldDesc.Shows.isValue (hx : f.Shows x) (hn : schema.Named) (hprint : x.Printable) :
    IsValue schema Token.IsText f (f.valueToken schema x) := by
  unfold IsValue
  cases x with
  | bool v =>
      rw [show f.kind = .bool from hx]
      refine Or.inr ⟨_, rfl, ?_⟩
      cases v
      · exact Or.inr rfl
      · exact Or.inl rfl
  | int v =>
      rw [hx.1]
      exact ⟨v, rfl⟩
  | uint v =>
      rw [hx.1]
      exact ⟨_, rfl⟩
  | enum v =>
      rw [hx.1]
      simp only [FieldDesc.valueToken]
      cases hname : enumName (schema.enumType f.tag1) v with
      | none => exact Or.inl ⟨v, rfl⟩
      | some name =>
          obtain ⟨d, hd, rfl, -⟩ := enumName_mem hname
          have hident := (hn.values _ (schema.enumType_mem hd)).2 d hd
          exact Or.inr ⟨_, rfl, d, hd, (cstr_eq hident.no_nul).symm⟩
  | float v => exact hprint.elim
  | str t =>
      rw [show f.kind = .str from hx]
      exact ⟨t, Or.inl rfl⟩
  | msg => exact hx.elim

/-- **The tokens of a content spell it.** -/
theorem Content.Of.spells (hs : schema.Sound) (hn : schema.Named) {n type : Nat}
    {l seen : List FieldDesc} {T : Content} (h : T.Of schema n l) (hprint : T.Printable)
    (htype : type < schema.msgTypes.length) (hl : ∀ f ∈ l, f ∈ (schema.msgType type).fields)
    (hnodup : l.Nodup) (hseen : ∀ f ∈ l, f.list = false → f ∉ seen) :
    Spells schema Token.IsText type seen (T.spell schema) (T.fields schema) := by
  induction h generalizing type seen with
  | nil => exact .nil
  | none _ _ ih =>
      exact ih hprint htype (fun g hg => hl g (List.mem_cons_of_mem _ hg)) hnodup.of_cons
        fun g hg => hseen g (List.mem_cons_of_mem _ hg)
  | @value n f l x T hx hrest ih =>
      have hfind := hn.findField (schema.msgType_mem htype) (hl f List.mem_cons_self)
      exact .value hfind (hx.isValue hn hprint.2.1) (Or.inl rfl) (ih hprint.2.2 htype
        (FieldDesc.forall_onward hl) (FieldDesc.nodup_onward hnodup) (FieldDesc.forall_onward hseen))
  | @sub n f l B T hk hbody hrest ihB ihT =>
      have hf := hl f List.mem_cons_self
      have hfind := hn.findField (schema.msgType_mem htype) hf
      have htarget := (schema.hasField htype f hf).target hs hk
      have hB : Spells schema Token.IsText f.tag1 [] (B.spell schema) (B.fields schema) :=
        ihB hprint.1 htarget (fun _ hg => hg)
          ((hn.fields _ (schema.msgType_mem htarget)).1.of_map _) fun _ _ _ => List.not_mem_nil
      refine .sub hfind hk (hseen f List.mem_cons_self) (Or.inl rfl) hB (Or.inl rfl) (ihT hprint.2 htype
        (FieldDesc.forall_onward hl) (FieldDesc.nodup_onward hnodup) fun g hg hgl => ?_)
      -- a list stays among the fields to come, any other field does not
      rintro (_ | ⟨_, hmem⟩)
      · unfold FieldDesc.onward at hg
        rw [hgl, if_neg (by decide)] at hg
        exact (List.nodup_cons.mp hnodup).1 hg
      · exact FieldDesc.forall_onward hseen g hg hgl hmem

end

end Nbuf
