import Nbuf.Text.ReadingDoc

set_option autoImplicit false

/-! # Readings and the grammar

A reading accepts what the grammar derives when identifiers may stand for strings, and it does not
come to an end where a value is due that does not suit its field.
-/

namespace Nbuf

/-! ## Tokens -/

theorem separator_eq (toks : List Token) : ∃ sep, IsSep sep ∧ toks = sep ++ separator toks := by
  unfold separator
  split_ifs with h
  · cases toks with
    | nil => rcases h with h | h <;> cases h
    | cons t l =>
        rcases h with h | h <;> rw [List.head?_cons, Option.some.injEq] at h <;> subst h
        · exact ⟨[.chr 44], Or.inr (Or.inl rfl), rfl⟩
        · exact ⟨[.chr 59], Or.inr (Or.inr rfl), rfl⟩
  · exact ⟨[], Or.inl rfl, rfl⟩

theorem colon_eq (toks : List Token) : ∃ c, IsColon c ∧ toks = c ++ colon toks := by
  unfold colon
  cases h : expect 58 toks with
  | none => exact ⟨[], Or.inl rfl, rfl⟩
  | some rest => exact ⟨[.chr 58], Or.inr rfl, expect_eq_some h⟩

/-- The tokens behind a field or a message: the next field, the end of the message or of the file. -/
def Ends (toks : List Token) : Prop := toks = [] ∨ ∃ rest, toks = .chr 125 :: rest

theorem separator_append {sep l : List Token} (hsep : IsSep sep)
    (hl : Ends l ∨ ∃ name rest, l = .id name :: rest) : separator (sep ++ l) = l := by
  unfold separator
  rcases hsep with rfl | rfl | rfl
  · rcases hl with (rfl | ⟨rest, rfl⟩) | ⟨name, rest, rfl⟩ <;> simp
  · simp
  · simp

theorem colon_append {c l : List Token} (hc : IsColon c) :
    colon (c ++ .chr 123 :: l) = .chr 123 :: l := by
  unfold colon expect
  rcases hc with rfl | rfl <;> simp

theorem Msg.append_ends {schema : Schema} {S : Token → Prop} {type : Nat} {seen : List FieldDesc}
    {toks k : List Token} (h : Msg schema S type seen toks) (hk : Ends k) :
    Ends (toks ++ k) ∨ ∃ name rest, toks ++ k = .id name :: rest := by
  rcases h.head with rfl | ⟨name, rest, rfl⟩
  · exact Or.inl hk
  · exact Or.inr ⟨name, rest ++ k, rfl⟩

/-! ## Values -/

section

variable {schema : Schema} {ofInt : Int → Int × Int} {f : FieldDesc}

theorem enumValue_ne (enm : EnumType) (name : Text) :
    enumValue enm name ≠ 2 ^ 32 - 1 ↔ ∃ d ∈ enm.values, d.name = cstr name := by
  unfold enumValue
  cases h : enm.values.find? fun d => cstr name == d.name with
  | none =>
      have hnone := List.find?_eq_none.mp h
      simp only [ne_eq, not_true, false_iff, not_exists, not_and]
      intro d hd heq
      exact hnone d hd (beq_iff_eq.mpr heq.symm)
  | some d =>
      have hd := List.find?_some h
      have hmem := List.mem_of_find?_eq_some h
      have hlt : d.value % 2 ^ 16 < 2 ^ 16 := Nat.mod_lt _ (by decide)
      simp only [ne_eq]
      exact ⟨fun _ => ⟨d, hmem, (beq_iff_eq.mp hd).symm⟩, fun _ => by omega⟩

/-- The value of a constant has 16 bits. -/
theorem enumValue_lt {enm : EnumType} {name : Text} (h : enumValue enm name ≠ 2 ^ 32 - 1) :
    enumValue enm name < 2 ^ 16 := by
  unfold enumValue at h ⊢
  split at h
  · exact Nat.mod_lt _ (by decide)
  · exact absurd rfl h

/-- A token is taken for a value if it is one, identifiers being strings. -/
theorem taken_value_iff (ofInt : Int → Int × Int) (hk : f.kind ≠ .ptr) (t : Token) :
    (∃ x, taken schema ofInt f (some t) = .value x) ↔ IsValue schema Token.IsText f t := by
  unfold taken IsValue
  cases hkind : f.kind with
  | bool =>
      cases t with
      | id s => simp [Token.IsInt]; split_ifs <;> simp_all
      | _ => simp [Token.IsInt]
  | enum =>
      cases t with
      | id s =>
          have hiff := enumValue_ne (schema.enumType f.tag1) s
          simp only [Token.IsInt, reduceCtorEq, exists_false, false_or, Token.id.injEq,
            exists_eq_left', ← hiff]
          split_ifs with h
          · refine ⟨?_, fun hne => absurd h hne⟩
            rintro ⟨_, hx⟩
            cases hx
          · exact ⟨fun _ => h, fun _ => ⟨_, rfl⟩⟩
      | _ => simp [Token.IsInt]
  | int | uint => cases t <;> simp [Token.IsInt]
  | float => cases t <;> simp [Token.IsInt]
  | str => cases t <;> simp [Token.IsText]
  | ptr => exact absurd hkind hk

theorem taken_none_value (x : Val) : taken schema ofInt f none ≠ .value x := by
  unfold taken
  cases f.kind <;> simp

/-- The parser does not come back where the value does not suit the field. -/
theorem taken_stuck_iff (hk : f.kind ≠ .ptr) (due : List Token) :
    taken schema ofInt f due.head? = .stuck ↔ ¬ Suits f due := by
  unfold taken Suits
  cases hkind : f.kind with
  | bool =>
      cases due.head? with
      | none => simp
      | some t =>
          cases t with
          | id s => simp; split_ifs <;> simp
          | _ => simp
  | enum =>
      cases due.head? with
      | none => simp
      | some t =>
          cases t with
          | id s => simp [Token.IsInt]; split_ifs <;> simp
          | _ => simp [Token.IsInt]
  | int | uint | float => cases due.head? with
      | none => simp
      | some t => cases t <;> simp
  | str => cases due.head? with
      | none => simp
      | some t => cases t <;> simp [Token.IsText]
  | ptr => exact absurd hkind hk

end

/-! ## Filling in -/

/-- The fields are filled into message `m` of a draft. -/
def Fields.fill (schema : Schema) (ofInt : Int → Int × Int) : Fields → Nat → Draft → Draft
  | .nil, _, D => D
  | .value f t rest, m, D =>
      match taken schema ofInt f (some t) with
      | .value x => rest.fill schema ofInt m ((D.ready schema m f).put m f x)
      | _ => D
  | .sub f body rest, m, D =>
      rest.fill schema ofInt m (body.fill schema ofInt D.doc.msgs.length (D.ready schema m f))

theorem Fields.fill_value {schema : Schema} {ofInt : Int → Int × Int} {f : FieldDesc} {t : Token}
    {x : Val} (hx : taken schema ofInt f (some t) = .value x) (rest : Fields) (m : Nat) (D : Draft) :
    (Fields.value f t rest).fill schema ofInt m D
      = rest.fill schema ofInt m ((D.ready schema m f).put m f x) := by
  rw [Fields.fill, hx]

/-! ## Submessages that are there already -/

/-- The list has the fields of the message that have a submessage. -/
def Draft.Seen (schema : Schema) (D : Draft) (m type : Nat) (seen : List FieldDesc) : Prop :=
  ∀ f ∈ (schema.msgType type).fields, f.kind = .ptr → f.list = false →
    (f ∈ seen ↔ D.doc.items m f ≠ [])

section

variable {schema : Schema} {ofInt : Int → Int × Int} {m type : Nat} {D D' : Draft}
  {seen : List FieldDesc} {f : FieldDesc}

theorem findField_mem {ms : MsgType} {name : Text} (h : findField ms name = some f) :
    f ∈ ms.fields := List.mem_of_find?_eq_some h

theorem Draft.Seen.twice_iff (h : D.Seen schema m type seen)
    (hf : f ∈ (schema.msgType type).fields) :
    D.Twice m f ↔ f.kind = .ptr ∧ f.list = false ∧ f ∈ seen := by
  constructor
  · rintro ⟨hk, hl, hne⟩
    exact ⟨hk, hl, (h f hf hk hl).mpr hne⟩
  · rintro ⟨hk, hl, hmem⟩
    exact ⟨hk, hl, (h f hf hk hl).mp hmem⟩

theorem Draft.Seen.not_twice (h : D.Seen schema m type seen)
    (hf : f ∈ (schema.msgType type).fields) (hnew : f.list = false → f ∉ seen) : ¬ D.Twice m f :=
  fun htwice => hnew htwice.2.1 ((h.twice_iff hf).mp htwice).2.2

theorem Draft.Seen.new (h : D.Seen schema m type seen) (hf : f ∈ (schema.msgType type).fields)
    (hk : f.kind = .ptr) (hnew : ¬ D.Twice m f) : f.list = false → f ∉ seen :=
  fun hl hmem => hnew ((h.twice_iff hf).mpr ⟨hk, hl, hmem⟩)

/-- A value is put. -/
theorem Draft.Seen.value (h : D.Seen schema m type seen) (hm : m < D.doc.msgs.length)
    (hk : f.kind ≠ .ptr) (x : Val) : ((D.ready schema m f).put m f x).Seen schema m type seen := by
  intro f' hf' hk' hl'
  have hne : f' ≠ f := by
    rintro rfl
    exact hk hk'
  have hitems : ((D.ready schema m f).put m f x).doc.items m f' = D.doc.items m f' := by
    refine ((Doc.next_putVal _ m f x).items ?_ (Or.inr hne)).trans
      ((Doc.next_ready schema D.doc m f).items hm (Or.inr hne))
    exact Nat.lt_of_lt_of_le hm (Doc.next_ready ..).le.length
  rw [hitems]
  exact h f' hf' hk' hl'

/-- A submessage is given and read. -/
theorem Draft.Seen.sub (h : D.Seen schema m type seen) (hm : m < D.doc.msgs.length)
    (hk : f.kind = .ptr) {inner rest : List Token} {v : Option Bool}
    (hin : Reads schema ofInt D.doc.msgs.length f.tag1 (D.ready schema m f) inner v D' rest) :
    D'.Seen schema m type (f :: seen) := by
  intro f' hf' hk' hl'
  have hlen : (D.ready schema m f).doc.msgs.length = D.doc.msgs.length + 1 := Doc.ready_length hk
  rw [List.mem_cons, hin.items (by omega) (by omega) (Nat.ne_of_lt hm)]
  by_cases hne : f' = f
  · subst hne
    have hready : (D.ready schema m f').doc.items m f' = D.doc.items m f' ++ [D.doc.blank f'] :=
      Doc.ready_items hm (Or.inr hk)
    simp [hready]
  · have hready : (D.ready schema m f).doc.items m f' = D.doc.items m f' :=
      (Doc.next_ready schema D.doc m f).items hm (Or.inr hne)
    rw [hready, ← h f' hf' hk' hl']
    simp [hne]

/-- A new submessage has no fields. -/
theorem Draft.seen_new (hk : f.kind = .ptr) (type : Nat) :
    (D.ready schema m f).Seen schema D.doc.msgs.length type [] := by
  intro f' _ _ _
  have hitems : (D.ready schema m f).doc.items D.doc.msgs.length f' = [] :=
    Doc.items_eq (Doc.ready_new hk) f'
  simp [hitems]

end

/-! ## What is read is derived -/

section

variable {schema : Schema} {ofInt : Int → Int × Int} {m type : Nat} {D D' : Draft}
  {seen : List FieldDesc} {toks rest : List Token} {v : Option Bool}

/-- **An accepted reading** is a derivation of the tokens that are read. -/
theorem Reads.derives (h : Reads schema ofInt m type D toks v D' rest) (hv : v = some true)
    (hm : m < D.doc.msgs.length) (hseen : D.Seen schema m type seen) :
    ∃ pre, toks = pre ++ rest ∧ Msg schema Token.IsText type seen pre := by
  induction h generalizing seen with
  | stop | unknown | twice => exact ⟨[], rfl, .nil⟩
  | noColon | refused | stuck | noOpen | noClose => cases hv
  | inner _ _ _ _ _ hne => exact absurd hv hne
  | @value m type D _ name rest due rest' f x v hf hk h ht _ ih =>
      obtain ⟨pre, hpre, hmsg⟩ := ih hv (Nat.lt_of_lt_of_le hm
        ((Doc.next_ready ..).le.trans (Doc.next_putVal ..).le).length) (hseen.value hm hk x)
      cases due with
      | nil => exact absurd ht (taken_none_value x)
      | cons t due =>
          obtain ⟨sep, hsep, hdue⟩ := separator_eq due
          refine ⟨.id name :: .chr 58 :: t :: (sep ++ pre), ?_, .value hf ?_ hsep hmsg⟩
          · rw [expect_eq_some h, hdue]
            show _ = .id name :: .chr 58 :: t :: (sep ++ pre ++ rest')
            rw [List.append_assoc, ← hpre]
            rfl
          · exact (taken_value_iff ofInt hk t).mp ⟨x, ht⟩
  | @sub m type D D1 _ name rest body rest1 rest2 rest' f v hf hk hnew h hin hclose _ ih ih' =>
      have hlen : (D.ready schema m f).doc.msgs.length = D.doc.msgs.length + 1 := Doc.ready_length hk
      obtain ⟨pre, hpre, hmsg⟩ := ih rfl (by omega) (Draft.seen_new hk f.tag1)
      obtain ⟨pre', hpre', hmsg'⟩ := ih' hv (Nat.lt_of_lt_of_le hm
        ((Doc.next_ready ..).le.trans hin.le).length) (hseen.sub hm hk hin)
      obtain ⟨c, hc, hcolon⟩ := colon_eq rest
      obtain ⟨sep, hsep, hrest2⟩ := separator_eq rest2
      refine ⟨.id name :: (c ++ .chr 123 :: (pre ++ .chr 125 :: (sep ++ pre'))), ?_,
        .sub hf hk (hseen.new (findField_mem hf) hk hnew) hc hmsg hsep hmsg'⟩
      calc .id name :: rest = .id name :: (c ++ .chr 123 :: body) := by
            rw [← expect_eq_some h, ← hcolon]
        _ = .id name :: (c ++ .chr 123 :: (pre ++ .chr 125 :: rest2)) := by
            rw [← expect_eq_some hclose, ← hpre]
        _ = .id name :: (c ++ .chr 123 :: (pre ++ .chr 125 :: (sep ++ (pre' ++ rest')))) := by
            rw [← hpre', ← hrest2]
        _ = _ := by simp

/-- **A reading that gets stuck** comes to a value that does not suit its field. -/
theorem Reads.expects (h : Reads schema ofInt m type D toks v D' rest) (hv : v = none)
    (hm : m < D.doc.msgs.length) (hseen : D.Seen schema m type seen) :
    ∃ g due, Expects schema Token.IsText type seen toks g due ∧ ¬ Suits g due := by
  induction h generalizing seen with
  | stop | unknown | twice | noColon | refused | noOpen | noClose => cases hv
  | stuck hf hk h ht =>
      rw [expect_eq_some h]
      exact ⟨_, _, .here hf hk, (taken_stuck_iff hk _).mp ht⟩
  | @value m type D _ name rest due rest' f x v hf hk h ht _ ih =>
      obtain ⟨g, due', hexp, hsuits⟩ := ih hv (Nat.lt_of_lt_of_le hm
        ((Doc.next_ready ..).le.trans (Doc.next_putVal ..).le).length) (hseen.value hm hk x)
      cases due with
      | nil => exact absurd ht (taken_none_value x)
      | cons t due =>
          obtain ⟨sep, hsep, hdue⟩ := separator_eq due
          refine ⟨g, due', ?_, hsuits⟩
          rw [expect_eq_some h, hdue]
          exact .value hf ((taken_value_iff ofInt hk t).mp ⟨x, ht⟩) hsep hexp
  | @inner m type D _ name rest body _ f _ hf hk hnew h _ _ ih =>
      have hlen : (D.ready schema m f).doc.msgs.length = D.doc.msgs.length + 1 := Doc.ready_length hk
      obtain ⟨g, due, hexp, hsuits⟩ := ih hv (by omega) (Draft.seen_new hk f.tag1)
      obtain ⟨c, hc, hcolon⟩ := colon_eq rest
      refine ⟨g, due, ?_, hsuits⟩
      rw [hcolon, expect_eq_some h]
      exact .inside hf hk (hseen.new (findField_mem hf) hk hnew) hc hexp
  | @sub m type D D1 _ name rest body rest1 rest2 rest' f v hf hk hnew h hin hclose _ _ ih' =>
      have hlen : (D.ready schema m f).doc.msgs.length = D.doc.msgs.length + 1 := Doc.ready_length hk
      obtain ⟨pre, hpre, hmsg⟩ := hin.derives rfl (by omega) (Draft.seen_new hk f.tag1)
      obtain ⟨g, due, hexp, hsuits⟩ := ih' hv (Nat.lt_of_lt_of_le hm
        ((Doc.next_ready ..).le.trans hin.le).length) (hseen.sub hm hk hin)
      obtain ⟨c, hc, hcolon⟩ := colon_eq rest
      obtain ⟨sep, hsep, hrest2⟩ := separator_eq rest2
      refine ⟨g, due, ?_, hsuits⟩
      rw [hcolon, expect_eq_some h, hpre, expect_eq_some hclose, hrest2]
      exact .after hf hk (hseen.new (findField_mem hf) hk hnew) hc hmsg hsep hexp

/-! ## What is derived is read -/

/-- **What the tokens spell** is filled in, up to the end of the message. -/
theorem Spells.reads (ofInt : Int → Int × Int) {pre : List Token} {T : Fields}
    (h : Spells schema Token.IsText type seen pre T) :
    ∀ {m : Nat} {D : Draft} {k : List Token}, m < D.doc.msgs.length → D.Seen schema m type seen →
      Ends k → Reads schema ofInt m type D (pre ++ k) (some true) (T.fill schema ofInt m D) k := by
  induction h with
  | nil =>
      intro m D k _ _ hk
      refine .stop fun name rest => ?_
      rcases hk with rfl | ⟨rest', rfl⟩ <;> simp
  | @value type seen name f t sep rest T hf ht hsep hrest ih =>
      intro m D k hm hseen hk
      have hnp := ht.not_ptr
      obtain ⟨x, hx⟩ := (taken_value_iff ofInt hnp t).mpr ht
      have hreads := ih (D := (D.ready schema m f).put m f x) (Nat.lt_of_lt_of_le hm
        ((Doc.next_ready ..).le.trans (Doc.next_putVal ..).le).length) (hseen.value hm hnp x) hk
      rw [Fields.fill_value hx]
      refine .value hf hnp (expect_cons _ _) hx ?_
      show Reads schema ofInt m type _ (separator (sep ++ rest ++ k)) _ _ _
      rw [List.append_assoc, separator_append hsep (hrest.msg.append_ends hk)]
      exact hreads
  | @sub type seen name f c body sep rest B T hf hk hnew hc hbody hsep hrest ih ih' =>
      intro m D k hm hseen hend
      have hlen : (D.ready schema m f).doc.msgs.length = D.doc.msgs.length + 1 := Doc.ready_length hk
      have hin := ih (m := D.doc.msgs.length) (D := D.ready schema m f)
        (k := .chr 125 :: (sep ++ rest ++ k)) (by omega) (Draft.seen_new hk f.tag1)
        (Or.inr ⟨_, rfl⟩)
      have hreads := ih' (D := B.fill schema ofInt D.doc.msgs.length (D.ready schema m f))
        (Nat.lt_of_lt_of_le hm ((Doc.next_ready ..).le.trans hin.le).length) (hseen.sub hm hk hin) hend
      have htoks : Token.id name :: (c ++ .chr 123 :: (body ++ .chr 125 :: (sep ++ rest))) ++ k
          = .id name :: (c ++ .chr 123 :: (body ++ .chr 125 :: (sep ++ rest ++ k))) := by simp
      rw [htoks]
      refine .sub hf hk (hseen.not_twice (findField_mem hf) hnew) ?_ hin (expect_cons _ _) ?_
      · rw [colon_append hc, expect_cons]
      · rw [List.append_assoc, separator_append hsep (hrest.msg.append_ends hend)]
        exact hreads

/-- **A derivation** is read, up to the end of the message. -/
theorem Msg.reads (ofInt : Int → Int × Int) {pre : List Token}
    (h : Msg schema Token.IsText type seen pre) {m : Nat} {D : Draft} {k : List Token}
    (hm : m < D.doc.msgs.length) (hseen : D.Seen schema m type seen) (hk : Ends k) :
    ∃ D', Reads schema ofInt m type D (pre ++ k) (some true) D' k := by
  obtain ⟨T, hT⟩ := h.spells
  exact ⟨_, hT.reads ofInt hm hseen hk⟩

/-- **A value that does not suit its field** is a reading that gets stuck. -/
theorem Expects.reads (ofInt : Int → Int × Int) {g : FieldDesc} {due : List Token}
    (h : Expects schema Token.IsText type seen toks g due) (hsuits : ¬ Suits g due) :
    ∀ {m : Nat} {D : Draft}, m < D.doc.msgs.length → D.Seen schema m type seen →
      ∃ D' rest, Reads schema ofInt m type D toks none D' rest := by
  induction h with
  | here hf hk =>
      intro m D _ _
      exact ⟨_, _, .stuck hf hk (expect_cons _ _) ((taken_stuck_iff hk _).mpr hsuits)⟩
  | @value type seen name f g t sep rest due hf ht hsep hrest ih =>
      intro m D hm hseen
      have hnp := ht.not_ptr
      obtain ⟨x, hx⟩ := (taken_value_iff ofInt hnp t).mpr ht
      obtain ⟨D', rest', hreads⟩ := ih hsuits (D := (D.ready schema m f).put m f x)
        (Nat.lt_of_lt_of_le hm ((Doc.next_ready ..).le.trans (Doc.next_putVal ..).le).length)
        (hseen.value hm hnp x)
      refine ⟨D', rest', .value hf hnp (expect_cons _ _) hx ?_⟩
      show Reads schema ofInt m type _ (separator (sep ++ rest)) _ _ _
      rw [separator_append hsep (Or.inr hrest.head)]
      exact hreads
  | @inside type seen name f g c body due hf hk hnew hc hbody ih =>
      intro m D hm hseen
      have hlen : (D.ready schema m f).doc.msgs.length = D.doc.msgs.length + 1 := Doc.ready_length hk
      obtain ⟨D', rest', hreads⟩ := ih hsuits (m := D.doc.msgs.length) (D := D.ready schema m f)
        (by omega) (Draft.seen_new hk f.tag1)
      refine ⟨D', rest', .inner hf hk (hseen.not_twice (findField_mem hf) hnew) ?_ hreads (by simp)⟩
      rw [colon_append hc, expect_cons]
  | @after type seen name f g c body sep rest due hf hk hnew hc hbody hsep hrest ih =>
      intro m D hm hseen
      have hlen : (D.ready schema m f).doc.msgs.length = D.doc.msgs.length + 1 := Doc.ready_length hk
      obtain ⟨D1, hin⟩ := hbody.reads ofInt (m := D.doc.msgs.length)
        (D := D.ready schema m f) (k := .chr 125 :: (sep ++ rest)) (by omega)
        (Draft.seen_new hk f.tag1) (Or.inr ⟨_, rfl⟩)
      obtain ⟨D', rest', hreads⟩ := ih hsuits (D := D1) (Nat.lt_of_lt_of_le hm
        ((Doc.next_ready ..).le.trans hin.le).length) (hseen.sub hm hk hin)
      refine ⟨D', rest', .sub hf hk (hseen.not_twice (findField_mem hf) hnew) ?_ hin
        (expect_cons _ _) ?_⟩
      · rw [colon_append hc, expect_cons]
      · rw [separator_append hsep (Or.inr hrest.head)]
        exact hreads

end

end Nbuf
