import Nbuf.Text.Accepts

set_option autoImplicit false

/-! # Errors of the parser

`parse_msg` ends with `true` after two of its errors: an unknown field, and a submessage that is given
twice. The name of the field is then still to come, so that whoever called it finds no `}` and no
end of the file.
-/

namespace Nbuf

open Outcome

section

variable {alloc : Nat → Realloc} {schema : Schema} {ofInt : Int → Int × Int}

namespace Parser

/-- The token to come is an identifier. -/
def Named (s : Parser) : Prop := ∃ name, s.toks.head? = some (.id name)

/-- From `s` to `s'` a part of the parser either reported no error, or it failed, or it left an
identifier behind. -/
def Reported (s s' : Parser) (ok : Bool) : Prop := ok = false ∨ s'.errs = s.errs ∨ s'.Named

theorem Reported.trans {s s' s'' : Parser} {ok : Bool} (h : s'.errs = s.errs)
    (h' : s'.Reported s'' ok) : s.Reported s'' ok := by
  rcases h' with hok | herrs | hname
  · exact Or.inl hok
  · exact Or.inr (Or.inl (herrs.trans h))
  · exact Or.inr (Or.inr hname)

/-- An identifier is no character. -/
theorem Named.sees {s : Parser} (h : s.Named) (c : Nat) : s.sees c = false := by
  obtain ⟨name, hname⟩ := h
  simp [Parser.sees, hname]

theorem Named.toks_ne_nil {s : Parser} (h : s.Named) : s.toks ≠ [] := by
  obtain ⟨name, hname⟩ := h
  intro hnil
  simp [hnil] at hname

@[simp] theorem next_errs (s : Parser) : s.next.errs = s.errs := rfl

@[simp] theorem optional_errs (s : Parser) (c : Nat) : (s.optional c).errs = s.errs := by
  unfold optional
  split_ifs <;> rfl

@[simp] theorem separator_errs (s : Parser) : s.separator.errs = s.errs := by
  unfold separator
  split_ifs <;> rfl

theorem field_errs {s s1 : Parser} {i j : Nat} {o : Obj} {fld : FieldDesc} {ref : Ref}
    (h : s.field alloc schema i o fld = some (s1, j, ref)) : s1.errs = s.errs := by
  obtain ⟨x, -, hx⟩ := Option.map_eq_some_iff.mp h
  rw [Prod.mk.injEq] at hx
  rw [← hx.1]
  rfl

/-- A value parser that ends well reported nothing. -/
theorem accept_errs {s s' : Parser} {put : Option Pool} {ok : Bool}
    (h : s.accept put = some (ok, s')) : s'.errs = s.errs := by
  obtain ⟨p, -, hp⟩ := Option.map_eq_some_iff.mp h
  rw [Prod.mk.injEq] at hp
  rw [← hp.2]
  rfl

theorem refuse_ok {s s' : Parser} {msg : Text} {ok : Bool}
    (h : s.refuse msg = some (ok, s')) : ok = false := by
  rw [refuse, Option.some.injEq, Prod.mk.injEq] at h
  exact h.1.symm

end Parser

/-! ## Values and messages -/

/-- **A value parser** that ends well reported no error. -/
theorem parseValue_errs {s s' : Parser} {j : Nat} {ref : Ref} {name : Text}
    (h : parseValue alloc schema ofInt s j ref name = some (true, s')) : s'.errs = s.errs := by
  have hrefuse : ∀ msg, s.refuse msg ≠ some (true, s') := fun msg hmsg =>
    absurd (Parser.refuse_ok hmsg) (by decide)
  unfold parseValue at h
  cases hkind : ref.kind with
  | bool =>
      simp only [hkind, parseBool] at h
      split at h
      · exact Parser.accept_errs h
      · split_ifs at h
        · exact Parser.accept_errs h
        · exact Parser.accept_errs h
        · exact absurd h (hrefuse _)
      · exact absurd h (hrefuse _)
  | enum =>
      simp only [hkind, parseEnum] at h
      split at h
      · exact Parser.accept_errs h
      · split_ifs at h
        · exact absurd h (hrefuse _)
        · exact Parser.accept_errs h
      · cases h
  | int | uint =>
      simp only [hkind, parseInt] at h
      split at h
      · exact Parser.accept_errs h
      · exact absurd h (hrefuse _)
  | float =>
      simp only [hkind, parseFloat] at h
      split at h
      · exact Parser.accept_errs h
      · exact Parser.accept_errs h
      · exact absurd h (hrefuse _)
  | str =>
      simp only [hkind, parseStr] at h
      split at h
      · exact Parser.accept_errs h
      · exact Parser.accept_errs h
      · cases h
  | ptr =>
      simp only [hkind] at h
      cases h

/-- **An error of a message** makes it fail or leaves an identifier behind. -/
theorem parseMsg_reported {fuel : Nat} : ∀ {s s' : Parser} {i : Nat} {o : Obj} {msgType : MsgType}
    {ok : Bool}, parseMsg alloc schema ofInt fuel s i o msgType = done (ok, s') →
    s.Reported s' ok := by
  induction fuel with
  | zero =>
      intro s s' i o msgType ok h
      cases h
  | succ fuel ih =>
      intro s s' i o msgType ok h
      unfold parseMsg at h
      split at h
      next name rest htoks =>
        -- the two errors that leave the name of the field behind
        have hnamed : ∀ msg, (s.error msg).Named := fun msg => ⟨name, by simp [Parser.error, htoks]⟩
        cases hf : findField msgType name with
        | none =>
            simp only [hf, done.injEq, Prod.mk.injEq] at h
            exact h.2 ▸ Or.inr (Or.inr (hnamed _))
        | some fld =>
            simp only [hf] at h
            obtain ⟨twice, -, h⟩ := ofOption_bind_eq_done.mp h
            split_ifs at h
            · simp only [done.injEq, Prod.mk.injEq] at h
              exact h.2 ▸ Or.inr (Or.inr (hnamed _))
            · obtain ⟨⟨s1, j, ref⟩, hfield, h⟩ := ofOption_bind_eq_done.mp h
              have herrs := Parser.field_errs hfield
              simp only at h
              split_ifs at h
              · simp only [done.injEq, Prod.mk.injEq] at h
                exact Or.inl h.1.symm
              · obtain ⟨⟨ok1, s2⟩, hin, h⟩ := bind_eq_done.mp h
                have hrep := ih hin
                simp only at h
                split_ifs at h with hok hsees
                · simp only [done.injEq, Prod.mk.injEq] at h
                  exact Or.inl (h.1.symm.trans hok)
                · simp only [done.injEq, Prod.mk.injEq] at h
                  exact Or.inl h.1.symm
                · -- the submessage ended before a brace, so it reported nothing
                  have hs2 : s2.errs = s.errs := by
                    rcases hrep with hok' | heq | hname
                    · exact absurd hok' hok
                    · simpa [herrs] using heq
                    · exact absurd (hname.sees 125) hsees
                  exact .trans (by simpa using hs2) (ih h)
              · simp only [done.injEq, Prod.mk.injEq] at h
                exact Or.inl h.1.symm
              · obtain ⟨⟨ok1, s2⟩, hparse, h⟩ := ofOption_bind_eq_done.mp h
                simp only at h
                split_ifs at h with hok
                · simp only [done.injEq, Prod.mk.injEq] at h
                  exact Or.inl (h.1.symm.trans hok)
                · obtain rfl : ok1 = true := by simpa using hok
                  have hs2 := parseValue_errs hparse
                  exact .trans (by simpa [herrs] using hs2) (ih h)
      next =>
        simp only [done.injEq, Prod.mk.injEq] at h
        exact Or.inr (Or.inl (by rw [h.2]))

/-- **No error is swallowed**: a run that reports one and comes back returns `false`. -/
theorem nbufParse_error_rejected {addr : Nat} {haddr : addr < 2 ^ 64} {msgType : MsgType}
    {toks : List Token} {r : Parsed}
    (h : nbufParse alloc schema ofInt addr haddr msgType toks = done r) (herr : r.errs ≠ []) :
    r.ok = false := by
  unfold nbufParse at h
  obtain ⟨⟨p, o⟩, -, h⟩ := ofOption_bind_eq_done.mp h
  obtain ⟨⟨ok, s⟩, hmsg, h⟩ := bind_eq_done.mp h
  have hrep := parseMsg_reported hmsg
  simp only at h
  split_ifs at h with hend
  · obtain ⟨b, -, h⟩ := ofOption_bind_eq_done.mp h
    rw [pure_eq, done.injEq] at h
    rw [← h]
  · obtain ⟨b, -, h⟩ := ofOption_bind_eq_done.mp h
    rw [pure_eq, done.injEq] at h
    subst h
    rcases hrep with hok | heq | hname
    · exact hok
    · exact absurd heq herr
    · show ok = false
      by_contra hok
      exact hend ⟨by simpa using hok, hname.toks_ne_nil⟩

end

/-- `kids { x` -/
def unknownToks : List Token := [.id (asc "kids"), .chr 123, .id (asc "x")]

theorem unknownToks_rejected : ∃ r, nbufParse granting treeSchema (fun v => (v, v)) 4096 (by decide)
    (treeSchema.msgType 0) unknownToks = done r ∧ r.errs ≠ [] ∧ r.ok = false := by
  have h : (match nbufParse granting treeSchema (fun v => (v, v)) 4096 (by decide)
      (treeSchema.msgType 0) unknownToks with
    | .done r => !r.errs.isEmpty
    | _ => false) = true := by decide +kernel
  split at h
  next r hr =>
    have herr : r.errs ≠ [] := fun hnil => by simp [hnil] at h
    exact ⟨r, hr, herr, nbufParse_error_rejected hr herr⟩
  next => cases h

end Nbuf
