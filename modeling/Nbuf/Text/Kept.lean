import Nbuf.Text.Derivations
import Nbuf.Text.ParseReads

set_option autoImplicit false

/-! # What a document keeps of a text

The fields that a text spells are filled into a document one after the other. A value is kept until
the field is given again, and an element of a list is kept for good.
-/

namespace Nbuf

open ByteMem

/-! ## Values of a message -/

/-- The element that a list gets for a value. The first boolean of a list is dropped. -/
def Val.element (f : FieldDesc) (k : Nat) : Val → Item
  | .bit v => .bit (decide (k ≠ 0) && v)
  | x => x.item f

/-- The message has the value as element `k` of a list, or as the value of any other field. -/
def DocMsg.Keeps (M : DocMsg) (f : FieldDesc) (k : Nat) (x : Val) : Prop :=
  if f.list = true then (M.vals f)[k]? = some (x.element f k)
  else match x with
    | .num v => M.scal.load f.tag0 f.width = toU64 v % 256 ^ f.width
    | .bit v => M.scal.bit (f.tag0 / 8) (f.tag0 % 8) = v
    | .str s => M.vals f = [.str s]
    | .msg m => M.vals f = [.msg m]

/-- A value of the kind of the field. -/
def FieldDesc.Takes (f : FieldDesc) : Val → Prop
  | .num _ => f.IsNum
  | .bit _ => f.kind = .bool
  | .str _ => f.kind = .str
  | .msg _ => f.kind = .ptr

/-- The message after the field is given a value. -/
def DocMsg.take (M : DocMsg) (f : FieldDesc) (x : Val) : DocMsg :=
  if f.list = true then M.push f (x.element f (M.vals f).length)
  else match x with
    | .num v => { M with scal := M.scal.store f.tag0 f.width (toU64 v) }
    | .bit v => { M with scal := M.scal.putBit (f.tag0 / 8) (f.tag0 % 8) v }
    | .str s => M.setOnly f (.str s)
    | .msg m => M.setOnly f (.msg m)

section

variable {schema : Schema} {ofInt : Int → Int × Int} {M : DocMsg} {f f' : FieldDesc} {x x' : Val}
  {k : Nat}

theorem takes_of_taken {t : Option Token} (h : taken schema ofInt f t = .value x) : f.Takes x := by
  have hval := taken_value h
  cases x with
  | num | bit => exact hval
  | str => exact hval.1
  | msg => exact hval.elim

@[simp] theorem DocMsg.take_type (M : DocMsg) (f : FieldDesc) (x : Val) : (M.take f x).type = M.type := by
  unfold DocMsg.take
  split_ifs
  · rfl
  · cases x <;> rfl

theorem DocMsg.take_vals_ne (hne : f' ≠ f) : (M.take f x).vals f' = M.vals f' := by
  unfold DocMsg.take
  split_ifs
  · exact M.push_vals_ne hne _
  · cases x with
    | num | bit => rfl
    | str | msg => exact Function.update_of_ne hne ..

theorem DocMsg.take_length (hl : f.list = true) :
    ((M.take f x).vals f).length = (M.vals f).length + 1 := by
  unfold DocMsg.take
  rw [if_pos hl, M.push_vals, List.length_append, List.length_singleton]

/-- The value that is given is kept. -/
theorem DocMsg.keeps_take (M : DocMsg) (x : Val) (hk : f.list = true → k = (M.vals f).length) :
    (M.take f x).Keeps f k x := by
  unfold DocMsg.Keeps DocMsg.take
  by_cases hl : f.list = true
  · rw [if_pos hl, if_pos hl, M.push_vals, hk hl, List.getElem?_concat_length]
  · rw [if_neg hl, if_neg hl]
    cases x with
    | num v => exact load_store ..
    | bit v =>
        show ByteMem.bit (ByteMem.putBit _ _ _ _) _ _ = v
        rw [bit_putBit _ _ (Nat.mod_lt _ (by decide)), if_pos ⟨rfl, rfl⟩]
    | str | msg => exact Function.update_self ..

/-- A submessage that is given is kept. -/
theorem DocMsg.keeps_push {m : Nat} (M : DocMsg) (hk : f.list = true → k = (M.vals f).length)
    (h0 : f.list = false → M.vals f = []) : (M.push f (.msg m)).Keeps f k (.msg m) := by
  unfold DocMsg.Keeps
  rw [M.push_vals]
  by_cases hl : f.list = true
  · rw [if_pos hl, hk hl, List.getElem?_concat_length]
    rfl
  · rw [if_neg hl, h0 (by simpa using hl), List.nil_append]

/-- One more element keeps the others. -/
theorem DocMsg.Keeps.push (h : M.Keeps f' k x') (hne : f'.list = true ∨ f' ≠ f) (y : Item) :
    (M.push f y).Keeps f' k x' := by
  by_cases heq : f' = f
  · subst heq
    have hl := hne.resolve_right (not_not.mpr rfl)
    unfold DocMsg.Keeps at h ⊢
    rw [if_pos hl] at h ⊢
    rw [M.push_vals, List.getElem?_append_left (List.getElem?_eq_some_iff.mp h).1, h]
  · unfold DocMsg.Keeps at h ⊢
    rw [M.push_vals_ne heq]
    exact h

/-- A value for another field, or one more element, keeps a value. -/
theorem DocMsg.Keeps.take (h : M.Keeps f' k x') (hms : (schema.msgType M.type).SoundLayout)
    (hf : f ∈ (schema.msgType M.type).fields) (hf' : f' ∈ (schema.msgType M.type).fields)
    (hx : f.Takes x) (hx' : f'.Takes x') (hne : f'.list = true ∨ f' ≠ f) :
    (M.take f x).Keeps f' k x' := by
  by_cases hl : f.list = true
  · unfold DocMsg.take
    rw [if_pos hl]
    exact h.push hne _
  · have hother : f' ≠ f := by
      rintro rfl
      exact hl (hne.resolve_right (not_not.mpr rfl))
    have hscal : f'.inPointers = false →
        (f'.kind ≠ .bool → load (M.take f x).scal f'.tag0 f'.width = load M.scal f'.tag0 f'.width) ∧
        (f'.kind = .bool → bit (M.take f x).scal (f'.tag0 / 8) (f'.tag0 % 8)
          = bit M.scal (f'.tag0 / 8) (f'.tag0 % 8)) := by
      intro hin'
      unfold DocMsg.take
      rw [if_neg hl]
      cases x with
      | num v =>
          obtain ⟨hb, hstr, hptr⟩ : f.IsNum := hx
          have hin : f.inPointers = false := by simp [FieldDesc.inPointers, hl, hstr, hptr]
          exact scalar_keeps hms ⟨hf, hin⟩ ⟨hf', hin'⟩ hother (FieldDesc.bits_scalar hin hb)
            (bit_store_ne _ _ _ _)
      | bit v =>
          have hb : f.kind = .bool := hx
          have hin : f.inPointers = false := by simp [FieldDesc.inPointers, hl, hb]
          exact scalar_keeps hms ⟨hf, hin⟩ ⟨hf', hin'⟩ hother (FieldDesc.bits_bool hin hb)
            (bit_putBit_ne _ _ _)
      | str | msg => exact ⟨fun _ => rfl, fun _ => rfl⟩
    unfold DocMsg.Keeps at h ⊢
    rw [DocMsg.take_vals_ne hother]
    by_cases hl' : f'.list = true
    · rw [if_pos hl'] at h ⊢
      exact h
    · rw [if_neg hl'] at h ⊢
      cases x' with
      | num v =>
          obtain ⟨hb, hstr, hptr⟩ : f'.IsNum := hx'
          exact ((hscal (by simp [FieldDesc.inPointers, hl', hstr, hptr])).1 hb).trans h
      | bit v =>
          have hb : f'.kind = .bool := hx'
          exact ((hscal (by simp [FieldDesc.inPointers, hl', hb])).2 hb).trans h
      | str | msg => exact h

end

/-! ## Texts -/

/-- The fields that are given, without those of submessages. -/
def Fields.descs : Fields → List FieldDesc
  | .nil => []
  | .value f _ rest => f :: rest.descs
  | .sub f _ rest => f :: rest.descs

/-- The tokens of the values that a field is given. -/
def Fields.givenTo (f : FieldDesc) : Fields → List Token
  | .nil => []
  | .value g t rest => if g = f then t :: rest.givenTo f else rest.givenTo f
  | .sub _ _ rest => rest.givenTo f

/-- Message `m` has the value. -/
def Doc.Keeps (d : Doc) (m : Nat) (f : FieldDesc) (k : Nat) (x : Val) : Prop :=
  ∃ M, d.msgs[m]? = some M ∧ M.Keeps f k x

/-- **The document keeps what a text gives** to message `m`, when the fields in `prior` were given to it
before: the elements of its lists, and no others, the last values of its other fields, and its
submessages. -/
def Fields.Kept (schema : Schema) (ofInt : Int → Int × Int) (d : Doc) :
    Fields → Nat → List FieldDesc → Prop
  | .nil, m, prior =>
      ∃ M, d.msgs[m]? = some M ∧ ∀ f : FieldDesc, f.list = true → (M.vals f).length = prior.count f
  | .value f t rest, m, prior =>
      (f.list = true ∨ f ∉ rest.descs →
        ∃ x, taken schema ofInt f (some t) = .value x ∧ d.Keeps m f (prior.count f) x) ∧
      rest.Kept schema ofInt d m (f :: prior)
  | .sub f body rest, m, prior =>
      (∃ m' M', m < m' ∧ d.msgs[m']? = some M' ∧ M'.type = f.tag1 ∧
        d.Keeps m f (prior.count f) (.msg m') ∧ body.Kept schema ofInt d m' []) ∧
      rest.Kept schema ofInt d m (f :: prior)

section

variable {schema : Schema} {ofInt : Int → Int × Int} {type m : Nat} {seen prior : List FieldDesc}
  {toks : List Token} {T : Fields} {D : Draft} {M : DocMsg} {f : FieldDesc} {x : Val} {k : Nat}

/-- What is kept depends on the message and on those that are made after it. -/
theorem Fields.Kept.mono {d d' : Doc} (h : T.Kept schema ofInt d m prior)
    (hsame : ∀ m' M, m ≤ m' → d.msgs[m']? = some M → d'.msgs[m']? = some M) :
    T.Kept schema ofInt d' m prior := by
  have hkeeps : ∀ {m f k x}, d.Keeps m f k x → (∀ M, d.msgs[m]? = some M → d'.msgs[m]? = some M) →
      d'.Keeps m f k x := fun ⟨M, hM, hx⟩ hm => ⟨M, hm M hM, hx⟩
  induction T generalizing m prior with
  | nil =>
      obtain ⟨M, hM, hlen⟩ := h
      exact ⟨M, hsame m M (Nat.le_refl m) hM, hlen⟩
  | value f t rest ih =>
      refine ⟨fun hlast => ?_, ih h.2 hsame⟩
      obtain ⟨x, hx, hkept⟩ := h.1 hlast
      exact ⟨x, hx, hkeeps hkept fun M => hsame m M (Nat.le_refl m)⟩
  | sub f body rest ihbody ihrest =>
      obtain ⟨⟨m', M', hlt, hM', htype, hkept, hbody⟩, hrest⟩ := h
      refine ⟨⟨m', M', hlt, hsame m' M' (Nat.le_of_lt hlt) hM', htype,
        hkeeps hkept fun M => hsame m M (Nat.le_refl m), ihbody hbody fun m'' M hle => ?_⟩,
        ihrest hrest hsame⟩
      exact hsame m'' M ((Nat.le_of_lt hlt).trans hle)

/-- The message after a value is put into one of its fields. -/
theorem Draft.put_msg (schema : Schema) (hM : D.doc.msgs[m]? = some M) (hk : f.kind ≠ .ptr) (hx : f.Takes x) :
    ((D.ready schema m f).put m f x).doc.msgs[m]? = some (M.take f x) := by
  have hmodify : ∀ g : DocMsg → DocMsg, ((D.doc.ready schema m f).msgs.modify m g)[m]?
      = some (g (if f.list = true then M.push f (D.doc.blank f) else M)) := by
    intro g
    rw [Doc.ready_modify schema D.doc m hk, List.getElem?_modify_eq, hM]
    rfl
  unfold DocMsg.take
  cases x with
  | msg m' => exact absurd hx hk
  | num v =>
      refine (hmodify _).trans ?_
      by_cases hl : f.list = true
      · simp only [if_pos hl, DocMsg.setLast_push]
        rfl
      · simp only [if_neg hl]
  | str s =>
      refine (hmodify _).trans ?_
      by_cases hl : f.list = true
      · simp only [if_pos hl, DocMsg.setLast_push]
        rfl
      · simp only [if_neg hl]
  | bit v =>
      refine (hmodify _).trans ?_
      by_cases hl : f.list = true
      · simp only [if_pos hl, M.push_vals, List.length_append, List.length_singleton]
        have hblank : D.doc.blank f = .bit false := by
          unfold Doc.blank
          rw [show f.kind = .bool from hx]
        by_cases h0 : (M.vals f).length = 0
        · rw [if_pos (by omega), hblank, h0]
          rfl
        · rw [if_neg (by omega), DocMsg.setLast_push]
          simp [Val.element, h0]
      · simp only [if_neg hl]

/-- A message while one of its submessages is filled in. -/
theorem Spells.fill_other {B : Fields} (h : Spells schema Token.IsText f.tag1 [] toks B)
    (hM : D.doc.msgs[m]? = some M) (hk : f.kind = .ptr) :
    (B.fill schema ofInt D.doc.msgs.length (D.ready schema m f)).doc.msgs[m]?
      = some (M.push f (.msg D.doc.msgs.length)) := by
  have hlen : (D.ready schema m f).doc.msgs.length = D.doc.msgs.length + 1 := Doc.ready_length hk
  have hm := (List.getElem?_eq_some_iff.mp hM).1
  have hreads := h.reads ofInt (D := D.ready schema m f) (k := []) (m := D.doc.msgs.length)
    (by omega) (Draft.seen_new hk f.tag1) (Or.inl rfl)
  refine hreads.other (by omega) ?_ (Nat.ne_of_lt hm)
  have hready : (D.ready schema m f).doc.msgs[m]? = _ := View.ready_msg hM
  rw [if_pos (Or.inr hk)] at hready
  rw [hready]
  unfold Doc.blank
  rw [hk]

/-! ## What is spelled is kept -/

/-- A submessage is given once. -/
theorem Spells.not_mem (h : Spells schema Token.IsText type seen toks T) (hf : f ∈ seen)
    (hk : f.kind = .ptr) (hl : f.list = false) : f ∉ T.descs := by
  induction h with
  | nil => exact List.not_mem_nil
  | value _ ht _ _ ih =>
      rintro (_ | ⟨_, hmem⟩)
      · exact ht.not_ptr hk
      · exact ih hf hmem
  | sub _ _ hnew _ _ _ _ _ ih =>
      rintro (_ | ⟨_, hmem⟩)
      · exact hnew hl hf
      · exact ih (List.mem_cons_of_mem _ hf) hmem

/-- A field that is given no values, and is no submessage. -/
theorem Spells.not_mem_descs (h : Spells schema Token.IsText type seen toks T) (hk : f.kind ≠ .ptr)
    (h0 : T.givenTo f = []) : f ∉ T.descs := by
  induction h with
  | nil => exact List.not_mem_nil
  | @value _ _ _ g _ _ _ _ _ _ _ _ ih =>
      unfold Fields.givenTo at h0
      split_ifs at h0 with heq
      rintro (_ | ⟨_, hmem⟩)
      · exact heq rfl
      · exact ih h0 hmem
  | sub _ hk' _ _ _ _ _ _ ih =>
      rintro (_ | ⟨_, hmem⟩)
      · exact hk hk'
      · exact ih h0 hmem

theorem DocMsg.keeps_index (hl : f.list = false) (k k' : Nat) : M.Keeps f k x ↔ M.Keeps f k' x := by
  unfold DocMsg.Keeps
  rw [hl, if_neg (by decide), if_neg (by decide)]

/-- A field that is no list keeps the last of its values. -/
theorem Spells.kept_last {d : Doc} {t : Token} (h : Spells schema Token.IsText type seen toks T)
    (hkept : T.Kept schema ofInt d m prior) (hl : f.list = false) (hk : f.kind ≠ .ptr)
    (ht : (T.givenTo f).getLast? = some t) (k : Nat) :
    ∃ x, taken schema ofInt f (some t) = .value x ∧ d.Keeps m f k x := by
  induction h generalizing m prior with
  | nil => cases ht
  | @value _ _ _ g t' _ _ T _ _ _ hrest ih =>
      unfold Fields.givenTo at ht
      split_ifs at ht with heq
      · subst heq
        cases hgiven : T.givenTo g with
        | nil =>
            rw [hgiven, List.getLast?_singleton, Option.some.injEq] at ht
            subst ht
            obtain ⟨x, hx, M, hM, hmem⟩ := hkept.1 (Or.inr (hrest.not_mem_descs hk hgiven))
            exact ⟨x, hx, M, hM, (DocMsg.keeps_index hl _ _).mp hmem⟩
        | cons t'' l =>
            rw [hgiven, List.getLast?_cons_cons, ← hgiven] at ht
            exact ih hkept.2 ht
      · exact ih hkept.2 ht
  | sub _ _ _ _ _ _ _ _ ih => exact ih hkept.2 ht

/-- A list keeps an element for each of its values. -/
theorem Spells.kept_element {d : Doc} {t : Token} {i : Nat}
    (h : Spells schema Token.IsText type seen toks T) (hkept : T.Kept schema ofInt d m prior)
    (hl : f.list = true) (hk : f.kind ≠ .ptr) (ht : (T.givenTo f)[i]? = some t) :
    ∃ x, taken schema ofInt f (some t) = .value x ∧ d.Keeps m f (prior.count f + i) x := by
  induction h generalizing m prior i with
  | nil => cases ht
  | @value _ _ _ g t' _ _ T _ _ _ _ ih =>
      unfold Fields.givenTo at ht
      split_ifs at ht with heq
      · subst heq
        cases i with
        | zero =>
            rw [List.getElem?_cons_zero, Option.some.injEq] at ht
            exact ht ▸ hkept.1 (Or.inl hl)
        | succ i =>
            have hrest := ih hkept.2 ht
            rwa [List.count_cons_self, Nat.add_assoc, Nat.add_comm 1] at hrest
      · have hrest := ih hkept.2 ht
        rwa [List.count_cons_of_ne heq] at hrest
  | @sub _ _ _ g _ _ _ _ _ _ _ hk' _ _ _ _ _ _ ih =>
      have hrest := ih hkept.2 ht
      rwa [List.count_cons_of_ne fun heq : g = f => hk (heq ▸ hk')] at hrest

/-- A list keeps no other elements. -/
theorem Spells.kept_length {d : Doc} (h : Spells schema Token.IsText type seen toks T)
    (hkept : T.Kept schema ofInt d m prior) (hl : f.list = true) (hk : f.kind ≠ .ptr)
    (hM : d.msgs[m]? = some M) : (M.vals f).length = prior.count f + (T.givenTo f).length := by
  induction h generalizing m prior with
  | nil =>
      obtain ⟨M', hM', hlen⟩ := hkept
      rw [hM, Option.some.injEq] at hM'
      rw [hM', hlen f hl]
      rfl
  | @value _ _ _ g _ _ _ T _ _ _ _ ih =>
      rw [ih hkept.2 hM, Fields.givenTo]
      split_ifs with heq
      · rw [heq, List.count_cons_self, List.length_cons]
        omega
      · rw [List.count_cons_of_ne heq]
  | @sub _ _ _ g _ _ _ _ _ _ _ hk' _ _ _ _ _ _ ih =>
      rw [ih hkept.2 hM, List.count_cons_of_ne fun heq : g = f => hk (heq ▸ hk')]
      rfl

/-- A value is kept while other fields are filled in, and an element of a list at any time. -/
theorem Spells.frame (hs : schema.Sound) (h : Spells schema Token.IsText type seen toks T) :
    ∀ {D : Draft} {M : DocMsg}, D.doc.msgs[m]? = some M → M.type = type →
      type < schema.msgTypes.length → f ∈ (schema.msgType type).fields → f.Takes x → M.Keeps f k x →
      f.list = true ∨ f ∉ T.descs → (T.fill schema ofInt m D).doc.Keeps m f k x := by
  -- the next field is another one, unless this is a list
  have hsplit : ∀ {g : FieldDesc} {l : List FieldDesc}, f.list = true ∨ f ∉ g :: l →
      (f.list = true ∨ f ≠ g) ∧ (f.list = true ∨ f ∉ l) := by
    rintro g l (hl | hno)
    · exact ⟨Or.inl hl, Or.inl hl⟩
    · exact ⟨Or.inr fun heq => hno (heq ▸ List.mem_cons_self),
        Or.inr fun hmem => hno (List.mem_cons_of_mem _ hmem)⟩
  induction h with
  | nil => exact fun hM _ _ _ _ hkept _ => ⟨_, hM, hkept⟩
  | @value type _ name g t _ _ T hg ht _ _ ih =>
      intro D M hM htype hlt hf hx hkept hnot
      obtain ⟨y, hy⟩ := (taken_value_iff ofInt ht.not_ptr t).mpr ht
      rw [Fields.fill_value hy]
      have hnot' := hsplit hnot
      subst htype
      exact ih (Draft.put_msg schema hM ht.not_ptr (takes_of_taken hy)) (M.take_type g y) hlt hf hx
        (hkept.take (hs.layout _ (schema.msgType_mem hlt)) (findField_mem hg) hf (takes_of_taken hy) hx
          hnot'.1) hnot'.2
  | @sub type _ name g _ _ _ _ B T hg hk _ _ hbody _ _ _ ih =>
      intro D M hM htype hlt hf hx hkept hnot
      have hnot' := hsplit hnot
      rw [Fields.fill]
      exact ih (hbody.fill_other hM hk) htype hlt hf hx (hkept.push hnot'.1 _) hnot'.2

/-- **What is spelled is kept.** -/
theorem Spells.kept (hs : schema.Sound) (h : Spells schema Token.IsText type seen toks T) :
    ∀ {m : Nat} {D : Draft} {M : DocMsg} {prior : List FieldDesc}, D.doc.msgs[m]? = some M →
      M.type = type → type < schema.msgTypes.length → D.Seen schema m type seen →
      (∀ f : FieldDesc, f.list = true → (M.vals f).length = prior.count f) →
      T.Kept schema ofInt (T.fill schema ofInt m D).doc m prior := by
  induction h with
  | nil => exact fun hM _ _ _ hlen => ⟨_, hM, hlen⟩
  | @value type seen name f t _ _ T hf ht _ hrest ih =>
      intro m D M prior hM htype hlt hseen hlen
      have hm := (List.getElem?_eq_some_iff.mp hM).1
      obtain ⟨x, hx⟩ := (taken_value_iff ofInt ht.not_ptr t).mpr ht
      have htakes := takes_of_taken hx
      have hM' := Draft.put_msg schema hM ht.not_ptr htakes
      have htype' := (M.take_type f x).trans htype
      rw [Fields.fill_value hx]
      refine ⟨fun hlast => ⟨x, hx, ?_⟩, ih hM' htype' hlt (hseen.value hm ht.not_ptr x) fun g hl => ?_⟩
      · exact hrest.frame hs hM' htype' hlt (findField_mem hf) htakes
          (M.keeps_take x fun hl => (hlen f hl).symm) hlast
      · by_cases heq : g = f
        · subst heq
          rw [DocMsg.take_length hl, hlen g hl, List.count_cons_self]
        · rw [DocMsg.take_vals_ne heq, hlen g hl, List.count_cons_of_ne (Ne.symm heq)]
  | @sub type seen name f _ _ _ _ B T hf hk hnew _ hbody _ hrest ih ih' =>
      intro m D M prior hM htype hlt hseen hlen
      have hm := (List.getElem?_eq_some_iff.mp hM).1
      have hready : (D.ready schema m f).doc.msgs.length = D.doc.msgs.length + 1 := Doc.ready_length hk
      have hreads := hbody.reads ofInt (D := D.ready schema m f) (k := []) (m := D.doc.msgs.length)
        (by omega) (Draft.seen_new hk f.tag1) (Or.inl rfl)
      have hM' : (B.fill schema ofInt D.doc.msgs.length (D.ready schema m f)).doc.msgs[m]? = _ :=
        hbody.fill_other hM hk
      have hrests := hrest.reads ofInt (k := []) (Nat.lt_of_lt_of_le hm
        ((Doc.next_ready ..).le.trans hreads.le).length) (hseen.sub hm hk hreads) (Or.inl rfl)
      have hptr : f.tag1 < schema.msgTypes.length :=
        hs.target _ (schema.msgType_mem hlt) f (findField_mem hf) hk
      rw [Fields.fill]
      obtain ⟨B', hB', hBtype, -⟩ := hreads.le.msg _ _ (Doc.ready_new hk)
      have hbodyKept : B.Kept schema ofInt
          (B.fill schema ofInt D.doc.msgs.length (D.ready schema m f)).doc D.doc.msgs.length [] :=
        ih (Doc.ready_new hk) rfl hptr (Draft.seen_new hk f.tag1) fun g _ => rfl
      have hpush : (M.push f (.msg D.doc.msgs.length)).Keeps f (prior.count f)
          (.msg D.doc.msgs.length) := by
        refine M.keeps_push (fun hl => (hlen f hl).symm) fun hl => ?_
        by_contra hne
        refine hnew hl ((hseen f (findField_mem hf) hk hl).mpr ?_)
        rwa [Doc.items_eq hM]
      refine ⟨⟨D.doc.msgs.length, B', hm, hrests.other ?_ hB' (Nat.ne_of_gt hm), hBtype,
        hrest.frame hs hM' htype hlt (findField_mem hf) hk hpush ?_, hbodyKept.mono fun m' M'' hle hM'' =>
          hrests.other ?_ hM'' ?_⟩, ih' hM' htype hlt (hseen.sub hm hk hreads) fun g hl => ?_⟩
      · exact (List.getElem?_eq_some_iff.mp hM').1
      · by_cases hl : f.list = true
        · exact Or.inl hl
        · exact Or.inr (hrest.not_mem List.mem_cons_self hk (by simpa using hl))
      · exact (List.getElem?_eq_some_iff.mp hM').1
      · exact Nat.ne_of_gt (Nat.lt_of_lt_of_le hm hle)
      · by_cases heq : g = f
        · subst heq
          rw [M.push_vals, List.length_append, List.length_singleton, hlen g hl, List.count_cons_self]
        · rw [M.push_vals_ne heq, hlen g hl, List.count_cons_of_ne (Ne.symm heq)]

end

end Nbuf
