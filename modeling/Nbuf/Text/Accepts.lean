import Nbuf.Text.Appends
import Nbuf.Text.Derivations
import Nbuf.Text.ParseReads
import Nbuf.Wire.Serialize

set_option autoImplicit false

/-! # What the parser accepts

On a text whose document is within bounds, `nbuf_parse` returns, and it returns true exactly for what
the grammar derives, if every value that it comes to suits its field and no identifier stands for a
string.
-/

namespace Nbuf

open Outcome

section

variable {schema : Schema} {ofInt : Int → Int × Int} {alloc : Nat → Realloc}

/-! ## The whole text -/

/-- A document with one message, as `nbuf_parse` starts with. -/
theorem Doc.add_empty (schema : Schema) (type : Nat) :
    Doc.add schema ⟨[], 0, 0⟩ type = Doc.start schema type := by
  unfold Doc.add Doc.start
  simp

/-- **`nbuf_parse`** of a text whose document is within bounds: it gets stuck where the reading does,
or it returns true exactly if the reading accepts all tokens, and its buffer holds the document. -/
theorem nbufParse_spec (hs : schema.Sound) (ha : ∀ n, (alloc n).Total) {addr : Nat}
    (haddr : addr < 2 ^ 64) {type : Nat} (htype : type < schema.msgTypes.length) {D : Draft}
    {toks rest : List Token} {v : Option Bool}
    (h : Reads schema ofInt 0 type (Draft.start schema type) toks v D rest)
    (hbound : D.doc.Bounded schema) (hbytes : D.doc.bytes < 2 ^ 34) (hshort : ∀ t ∈ toks, t.Short) :
    match v with
    | none => nbufParse alloc schema ofInt addr haddr (schema.msgType type) toks = .abort
    | some ok => ∃ (r : Parsed) (b : Buffer) (w : View),
        nbufParse alloc schema ofInt addr haddr (schema.msgType type) toks = .done r ∧
        (r.ok = true ↔ ok = true ∧ rest = []) ∧ r.buf = some b ∧ w.heap.Holds b ∧
        w.Shows View.Room.any schema D.doc ∧ w.places[0]? = some (0, 0) := by
  have hrel := Build.rel_init addr haddr
  have hempty : (⟨[], [], []⟩ : View).Shows View.Room.any schema ⟨[], 0, 0⟩ := by
    refine ⟨rfl, rfl, List.nodup_nil, fun i c hc => ?_, fun i i' c c' k k' x x' t hc => ?_, rfl, rfl,
      fun m M hM => ?_⟩
    · cases hc
    · cases hc
    · cases hM
  obtain ⟨p, o, w, hcreate, hp, hd, -, hplace, hmsg⟩ := View.add_spec hs (ha 0) hrel.rep hempty htype
    (by decide)
  rw [Doc.add_empty] at hd
  have hat : Parser.At schema ⟨p, 1, toks, []⟩ w 0 o 0 type (Draft.start schema type) toks :=
    ⟨rfl, hshort, hp, hd, hmsg, DocMsg.new type, rfl, rfl⟩
  have hends := h.parse hs ha _ hat (Nat.lt_succ_self toks.length) hbound
  cases v with
  | none =>
      have hends' : parseMsg alloc schema ofInt (toks.length + 1) ⟨p, 1, toks, []⟩ 0 o
        (schema.msgType type) = .abort := hends
      simp only [nbufParse, hcreate, ofOption_some, done_bind, hends', abort_bind]
  | some ok =>
      obtain ⟨s', w', hr, htoks, hp', hd', hg⟩ := hends
      have hserial : ∀ s'' : Parser, s''.pool = s'.pool → ∃ b,
          s''.pool.serialize (alloc s''.clock) = some (some b) ∧ w'.heap.Holds b := by
        intro s'' hpool
        obtain ⟨b, hb, hholds, -⟩ := hp'.serialize (by rw [hd'.bytes]; exact hbytes) (ha s''.clock)
        exact ⟨b, by rw [hpool]; exact hb, hholds⟩
      simp only [nbufParse, hcreate, ofOption_some, done_bind, hr, htoks]
      by_cases hend : ok = true ∧ rest ≠ []
      · obtain ⟨b, hb, hholds⟩ := hserial (s'.error (asc "expecting end of file")) rfl
        refine ⟨⟨false, some b, (s'.error (asc "expecting end of file")).errs⟩, b, w', ?_, ?_, rfl,
          hholds, hd', hg.place _ _ hplace⟩
        · simp only [if_pos hend, hb, ofOption_some, done_bind, pure_eq]
        · simp [hend.1, hend.2]
      · obtain ⟨b, hb, hholds⟩ := hserial s' rfl
        refine ⟨⟨ok, some b, s'.errs⟩, b, w', ?_, ?_, rfl, hholds, hd', hg.place _ _ hplace⟩
        · simp only [if_neg hend, hb, ofOption_some, done_bind, pure_eq]
        · have hrest : ok = true → rest = [] := fun h => by
            by_contra hne
            exact hend ⟨h, hne⟩
          exact ⟨fun h => ⟨h, hrest h⟩, fun h => h.1⟩

/-! ## Texts and their readings -/

/-- A new message with no fields. -/
theorem Draft.seen_start (type : Nat) : (Draft.start schema type).Seen schema 0 type [] := by
  intro f _ _ _
  have hitems : (Draft.start schema type).doc.items 0 f = [] :=
    Doc.items_eq (show _ = some (DocMsg.new type) from rfl) f
  simp [hitems]

section

variable {type : Nat} {toks rest : List Token} {v : Option Bool} {D : Draft}

/-- A reading accepts all tokens exactly if the grammar derives them, identifiers being strings. -/
theorem Reads.accepts_iff (h : Reads schema ofInt 0 type (Draft.start schema type) toks v D rest) :
    (v = some true ∧ rest = []) ↔ Derives schema Token.IsText type toks := by
  have hlen : 0 < (Draft.start schema type).doc.msgs.length := Nat.zero_lt_one
  constructor
  · rintro ⟨rfl, rfl⟩
    obtain ⟨pre, hpre, hmsg⟩ := h.derives rfl hlen (Draft.seen_start type)
    rw [List.append_nil] at hpre
    exact hpre ▸ hmsg
  · intro hmsg
    obtain ⟨D', hreads⟩ := hmsg.reads ofInt hlen (Draft.seen_start type) (k := []) (Or.inl rfl)
    rw [List.append_nil] at hreads
    have h1 := h.readMsg_eq _ (Nat.lt_succ_self _)
    have h2 := hreads.readMsg_eq _ (Nat.lt_succ_self _)
    rw [h1, Option.some.injEq, Prod.mk.injEq, Prod.mk.injEq] at h2
    exact ⟨h2.1, h2.2.2⟩

/-- A reading gets stuck exactly if it comes to a value that does not suit its field. -/
theorem Reads.stuck_iff (h : Reads schema ofInt 0 type (Draft.start schema type) toks v D rest) :
    v = none ↔ ∃ f due, Expects schema Token.IsText type [] toks f due ∧ ¬ Suits f due := by
  have hlen : 0 < (Draft.start schema type).doc.msgs.length := Nat.zero_lt_one
  constructor
  · rintro rfl
    exact h.expects rfl hlen (Draft.seen_start type)
  · rintro ⟨f, due, hexp, hsuits⟩
    obtain ⟨D', rest', hreads⟩ := hexp.reads ofInt hsuits hlen (Draft.seen_start type)
    have h1 := h.readMsg_eq _ (Nat.lt_succ_self _)
    have h2 := hreads.readMsg_eq _ (Nat.lt_succ_self _)
    rw [h1, Option.some.injEq, Prod.mk.injEq] at h2
    exact h2.1

end

/-! ## The grammar and the parser -/

variable (schema ofInt)

/-- The document that a text describes: its messages, and the objects that they are kept in. -/
def textDoc (type : Nat) (toks : List Token) : Doc :=
  (readMsg schema ofInt (toks.length + 1) 0 type (Draft.start schema type) toks).elim ⟨[], 0, 0⟩
    fun r => r.2.1.doc

/-- The text describes at most `2 ^ 31` objects, which take up less than `2 ^ 34` bytes, its lists
are not too long for a builder, and its strings and names have fewer than `2 ^ 32 - 1` bytes. -/
structure TextBounded (type : Nat) (toks : List Token) : Prop where
  doc : (textDoc schema ofInt type toks).Bounded schema
  bytes : (textDoc schema ofInt type toks).bytes < 2 ^ 34
  short : ∀ t ∈ toks, t.Short

instance (d : Doc) : Decidable (d.Bounded schema) :=
  decidable_of_iff (d.objects ≤ 2 ^ 31 ∧ ∀ M ∈ d.msgs, ∀ f ∈ (schema.msgType M.type).fields,
      f.list = true → (M.vals f).length < 2 ^ 32 - 1 ∧
        (getSize schema f.kind f.tag1 = (0, 0) → (M.vals f).length < 2 ^ 32 - 7))
    ⟨fun h => ⟨h.1, h.2⟩, fun h => ⟨h.objects, h.list⟩⟩

instance : (t : Token) → Decidable t.Short
  | .str s => inferInstanceAs (Decidable (s.length + 1 < 2 ^ 32))
  | .id s => inferInstanceAs (Decidable (s.length + 1 < 2 ^ 32))
  | .int _ => inferInstanceAs (Decidable True)
  | .flt _ _ => inferInstanceAs (Decidable True)
  | .chr _ => inferInstanceAs (Decidable True)

instance (type : Nat) (toks : List Token) : Decidable (TextBounded schema ofInt type toks) :=
  decidable_of_iff ((textDoc schema ofInt type toks).Bounded schema ∧
      (textDoc schema ofInt type toks).bytes < 2 ^ 34 ∧ ∀ t ∈ toks, t.Short)
    ⟨fun h => ⟨h.1, h.2.1, h.2.2⟩, fun h => ⟨h.doc, h.bytes, h.short⟩⟩

/-- The parser comes back from the text, and returns true exactly if the grammar derives it. -/
def AcceptsGrammar (alloc : Nat → Realloc) (addr : Nat) (haddr : addr < 2 ^ 64) (type : Nat)
    (toks : List Token) : Prop :=
  ∃ r, nbufParse alloc schema ofInt addr haddr (schema.msgType type) toks = .done r ∧
    (r.ok = true ↔ Derives schema Token.IsStr type toks)

/-- Where the parser comes to a value, it suits the field, and the text is not one that the grammar
derives only if it takes identifiers for strings. -/
def WellPlaced (type : Nat) (toks : List Token) : Prop :=
  (∀ f due, Expects schema Token.IsText type [] toks f due → Suits f due) ∧
    (Derives schema Token.IsText type toks → Derives schema Token.IsStr type toks)

variable {schema ofInt}

/-- The document of a text is the one that its reading fills in. -/
theorem Reads.textDoc_eq {type : Nat} {toks rest : List Token} {v : Option Bool} {D : Draft}
    (h : Reads schema ofInt 0 type (Draft.start schema type) toks v D rest) :
    textDoc schema ofInt type toks = D.doc := by
  unfold textDoc
  rw [h.readMsg_eq _ (Nat.lt_succ_self _)]
  rfl

/-- **The verdict of the parser.** It does not come back from a text with a value that does not suit its
field. From any other it does, and returns true exactly if the grammar derives it, identifiers being
strings. -/
theorem nbufParse_verdict {desc : T2b.SchemaDesc} (hschema : T2b.t2b desc = some schema)
    (hfits : T2b.Fits desc) (ha : ∀ n, (alloc n).Total) {addr : Nat} (haddr : addr < 2 ^ 64)
    {type : Nat} (htype : type < schema.msgTypes.length) {toks : List Token}
    (hbound : TextBounded schema ofInt type toks) :
    (nbufParse alloc schema ofInt addr haddr (schema.msgType type) toks = .abort ∧
      ¬ Derives schema Token.IsText type toks ∧
      ∃ f due, Expects schema Token.IsText type [] toks f due ∧ ¬ Suits f due) ∨
    ∃ r, nbufParse alloc schema ofInt addr haddr (schema.msgType type) toks = .done r ∧
      (r.ok = true ↔ Derives schema Token.IsText type toks) ∧
      ∀ f due, Expects schema Token.IsText type [] toks f due → Suits f due := by
  have hs := T2b.t2b_sound hschema hfits
  obtain ⟨⟨v, D, rest⟩, hread⟩ := readMsg_total schema ofInt (toks.length + 1) 0 type
    (Draft.start schema type) toks (Nat.lt_succ_self _)
  have hreads := readMsg_sound hread
  have hdoc := hreads.textDoc_eq
  have hspec := nbufParse_spec hs ha haddr htype hreads (hdoc ▸ hbound.doc) (hdoc ▸ hbound.bytes)
    hbound.short
  have hacc := hreads.accepts_iff
  have hstuck := hreads.stuck_iff
  cases v with
  | none => exact Or.inl ⟨hspec, fun h => absurd (hacc.mpr h).1 (by simp), hstuck.mp rfl⟩
  | some ok =>
      obtain ⟨r, b, w, hr, hok, -⟩ := hspec
      refine Or.inr ⟨r, hr, by rw [hok, ← hacc, Option.some.injEq], fun f due hexp => ?_⟩
      by_contra hsuits
      exact absurd (hstuck.mpr ⟨f, due, hexp, hsuits⟩) (by simp)

/-- **What the parser accepts.** It keeps to the grammar exactly on texts whose values are well
placed. -/
theorem acceptsGrammar_iff {desc : T2b.SchemaDesc} (hschema : T2b.t2b desc = some schema)
    (hfits : T2b.Fits desc) (ha : ∀ n, (alloc n).Total) {addr : Nat} (haddr : addr < 2 ^ 64)
    {type : Nat} (htype : type < schema.msgTypes.length) {toks : List Token}
    (hbound : TextBounded schema ofInt type toks) :
    AcceptsGrammar schema ofInt alloc addr haddr type toks ↔ WellPlaced schema type toks := by
  have hmono : Derives schema Token.IsStr type toks → Derives schema Token.IsText type toks :=
    Msg.mono fun t ⟨s, ht⟩ => ⟨s, Or.inl ht⟩
  rcases nbufParse_verdict hschema hfits ha haddr htype hbound with
    ⟨habort, -, f, due, hexp, hsuits⟩ | ⟨r, hr, hok, hplaced⟩
  · constructor
    · rintro ⟨r, hr, -⟩
      rw [habort] at hr
      cases hr
    · exact fun h => absurd (h.1 f due hexp) hsuits
  · constructor
    · rintro ⟨r', hr', hiff⟩
      rw [hr, Outcome.done.injEq] at hr'
      subst hr'
      exact ⟨hplaced, fun h => hiff.mp (hok.mpr h)⟩
    · exact fun h => ⟨r, hr, fun h' => h.2 (hok.mp h'), fun h' => hok.mpr (hmono h')⟩

end

/-- A node with a number and a string, and with a child. -/
def nodeToks : List Token :=
  [.id (asc "id"), .chr 58, .int 7, .chr 44, .id (asc "tags"), .chr 58, .str (asc "ab"),
    .id (asc "kids"), .chr 123, .id (asc "id"), .chr 58, .int (-3), .chr 125]

theorem nodeToks_accepted : TextBounded treeSchema (fun v => (v, v)) 0 nodeToks ∧
    (AcceptsGrammar treeSchema (fun v => (v, v)) granting 4096 (by decide) 0 nodeToks ↔
      WellPlaced treeSchema 0 nodeToks) :=
  ⟨by decide +kernel, acceptsGrammar_iff (show T2b.t2b treeDesc = some treeSchema by decide +kernel)
    (show T2b.Fits treeDesc by decide +kernel) (fun _ _ => rfl) (by decide) (by decide)
    (by decide +kernel)⟩

/-- `tags: x` -/
def nameToks : List Token := [.id (asc "tags"), .chr 58, .id (asc "x")]

/-- The grammar takes no identifier for a string. -/
theorem nameToks_not_derived : ¬ Derives treeSchema Token.IsStr 0 nameToks := by
  unfold Derives
  generalize htoks : nameToks = toks
  intro h
  cases h with
  | nil => cases htoks
  | @value _ _ name f t sep rest hf ht _ _ =>
      unfold nameToks at htoks
      rw [List.cons.injEq, List.cons.injEq, List.cons.injEq, Token.id.injEq] at htoks
      obtain ⟨rfl, -, rfl, -⟩ := htoks
      have hfield : findField (treeSchema.msgType 0) (asc "tags") = some tagsField := by decide +kernel
      rw [hfield, Option.some.injEq] at hf
      subst hf
      obtain ⟨s, hs⟩ : Token.IsStr (.id (asc "x")) := ht
      cases hs
  | @sub _ _ name f c body sep rest hf hk _ hc _ _ _ =>
      unfold nameToks at htoks
      rw [List.cons.injEq] at htoks
      rcases hc with rfl | rfl <;> cases htoks.2

/-- **An identifier is accepted for a string**, and a number is read as a string: there the parser
does not come back. -/
theorem name_accepted_as_string : T2b.t2b treeDesc = some treeSchema ∧
    ¬ AcceptsGrammar treeSchema (fun v => (v, v)) granting 4096 (by decide) 0 nameToks ∧
    (∃ r, nbufParse granting treeSchema (fun v => (v, v)) 4096 (by decide) (treeSchema.msgType 0)
      nameToks = .done r ∧ r.ok = true) ∧
    nbufParse granting treeSchema (fun v => (v, v)) 4096 (by decide) (treeSchema.msgType 0)
      [.id (asc "tags"), .chr 58, .int 3] = .abort := by
  have hrun : ∃ r, nbufParse granting treeSchema (fun v => (v, v)) 4096 (by decide)
      (treeSchema.msgType 0) nameToks = .done r ∧ r.ok = true := by
    have h : (match nbufParse granting treeSchema (fun v => (v, v)) 4096 (by decide)
        (treeSchema.msgType 0) nameToks with
      | .done r => r.ok
      | _ => false) = true := by decide +kernel
    split at h
    next r hr => exact ⟨r, hr, h⟩
    next => cases h
  refine ⟨by decide +kernel, ?_, hrun, ?_⟩
  · rintro ⟨r, hr, hiff⟩
    obtain ⟨r', hr', hok⟩ := hrun
    rw [hr, Outcome.done.injEq] at hr'
    subst hr'
    exact nameToks_not_derived (hiff.mp hok)
  · have h : (match nbufParse granting treeSchema (fun v => (v, v)) 4096 (by decide)
        (treeSchema.msgType 0) [.id (asc "tags"), .chr 58, .int 3] with
      | .abort => true
      | _ => false) = true := by decide +kernel
    split at h
    next hr => exact hr
    next => cases h

end Nbuf
