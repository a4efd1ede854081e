import Nbuf.Schema.BinaryWrites
import Nbuf.Schema.SchemaText

set_option autoImplicit false

/-! # The binary schema is the compiled schema

The records of a compiled schema are what the getters find in the buffer that `nbuf_t2b` writes.
-/

namespace Nbuf.Nb

open Align ByteMem

/-! ## The root message -/

/-- The new root message. -/
def rootCell : Cell := Cell.new (Shape.ofCounts 1 0 3 rfl)

/-- The root message is being filled in. Its slots lead to different objects. -/
structure Root (o : Obj) (w : Out) (h : Heap) (c : Cell) : Prop where
  cursor : Cursor 0 0 o [rootCell] rootCell w h c
  lt : ∀ x t, c.ptr 0 x = some t → t < h.length
  apart : ∀ x y t, x ≠ y → c.ptr 0 x = some t → c.ptr 0 y ≠ some t

section

variable {alloc : Nat → Realloc} {o : Obj} {w : Out} {h : Heap} {c : Cell} {x : Nat}

theorem Root.psize (hr : Root o w h c) : c.psize = 3 := hr.cursor.psize_eq

/-- Pointers lead behind the root message. -/
theorem Root.pos (hr : Root o w h c) (hx : x < 3) {t : Nat} (hptr : c.ptr 0 x = some t) : 0 < t := by
  obtain ⟨objs, hrel⟩ := hr.cursor.rel
  have hrow := Shape.row_lt_rows hr.cursor.inside
  rw [hr.cursor.row] at hrow
  exact (hrel.forward 0 c hr.cursor.step.cell 0 hrow x (by rw [hr.psize]; exact hx) t hptr).1

/-- A slot gets a new object. -/
theorem Root.put (hr : Root o w h c) {w' : Out} {h' : Heap} {c' : Cell}
    (hcur : Cursor 0 0 o [rootCell] rootCell w' h' c') (hle : h.length ≤ h'.length)
    (hother : ∀ y, y ≠ x → c'.ptr 0 y = c.ptr 0 y)
    (hnew : ∀ t, c'.ptr 0 x = some t → h.length ≤ t ∧ t < h'.length) : Root o w' h' c' where
  cursor := hcur
  lt := by
    intro y t ht
    by_cases hy : y = x
    · subst hy
      exact (hnew t ht).2
    · rw [hother y hy] at ht
      exact (hr.lt y t ht).trans_le hle
  apart := by
    intro y z t hyz hy hz
    by_cases hyx : y = x
    · -- the new object is behind the old ones
      subst hyx
      rw [hother z (Ne.symm hyz)] at hz
      exact absurd (hr.lt z t hz) (Nat.not_lt.mpr (hnew t hy).1)
    · rw [hother y hyx] at hy
      by_cases hzx : z = x
      · subst hzx
        exact absurd (hr.lt y t hy) (Nat.not_lt.mpr (hnew t hz).1)
      · rw [hother z hzx] at hz
        exact hr.apart y z t hyz hy hz

/-- `nbuf_new_Schema` on an empty buffer. -/
theorem newSchema_root (ha : ∀ n, (alloc n).Total) {b : Buffer} (h0 : b.len = 0)
    (hcap : b.cap < 2 ^ 64) : ∃ w, newSchema alloc ⟨0, b⟩ = some (w, rootCell.obj 8) ∧
      Root (rootCell.obj 8) w [rootCell] rootCell := by
  have hempty : Out.Rel ⟨0, b⟩ [] := ⟨[], Plain.rel_init h0 hcap⟩
  obtain ⟨w, hcreate, hrel⟩ := hempty.create ha (Shape.ofCounts 1 0 3 rfl) (by decide)
  refine ⟨w, hcreate, Cursor.start hrel rfl (by decide) (rootCell.row_eq (by decide) 0), ?_, ?_⟩
  · intro x t ht
    cases ht
  · intro x y t _ ht
    cases ht

/-- The package name is put when there is one. -/
theorem Root.setPkgName (hr : Root o w h c) (ha : ∀ n, (alloc n).Total) (hnull : c.ptr 0 2 = none)
    {name : Option Text} (hname : ∀ s, name = some s → (0 : UInt8) ∉ s)
    (hfit : h.total + name.elim 0 T2b.textSize ≤ 2 ^ 32) :
    ∃ w' h' c', (match name with | some s => schemaSetPkgName alloc w o s | none => pure w)
        = some w' ∧ Root o w' h' c' ∧ h'.total = h.total + name.elim 0 T2b.textSize ∧
      (∀ y, y ≠ 2 → c'.ptr 0 y = c.ptr 0 y) ∧ h'.SlotStr c' 0 2 (name.getD []) := by
  cases name with
  | none =>
      refine ⟨w, h, c, rfl, hr, rfl, fun _ _ => rfl, fun _ => rfl, fun t ht => ?_⟩
      rw [hnull] at ht
      cases ht
  | some s =>
      obtain ⟨w', h', c', hset, hcur, htot, -, hother, hstr, hstep⟩ :=
        hr.cursor.setStr ha (show 2 < c.psize by rw [hr.psize]; decide) (hname s rfl) hfit
      have hat := hstr h.length (Nat.le_refl _)
      refine ⟨w', h', c', hset, hr.put hcur hstep.length_le hother ?_, htot, hother, hat.slot⟩
      intro t ht
      obtain ⟨t', ct, hle, ht', hct, -⟩ := hat
      rw [ht', Option.some.injEq] at ht
      subst ht
      exact ⟨hle, (List.getElem?_eq_some_iff.mp hct).1⟩

/-- A table is made when there is something to put into it. -/
theorem Root.initTable {α : Type} (hr : Root o w h c) (ha : ∀ n, (alloc n).Total) (hx : x < 3)
    (hnull : c.ptr 0 x = none) {ssize psize size : Nat} (hss : ssize < 2 ^ 16) (hdvd : ssize % 4 = 0)
    (hps : psize < 2 ^ 16) (hpos : 0 < psize) (hsize : size = ssize + psize * 4) (l : List α)
    (hfit : h.total + (if l.length > 0 then T2b.tableSize l.length size else 0) ≤ 2 ^ 32) :
    ∃ w' h' c', (if l.length > 0 then w.initMsgField alloc o x l.length ssize psize else pure w)
        = some w' ∧ Root o w' h' c' ∧
      h'.total = h.total + (if l.length > 0 then T2b.tableSize l.length size else 0) ∧
      (∀ y, y ≠ x → c'.ptr 0 y = c.ptr 0 y) ∧ Heap.TableStep 0 h c h' c' ∧
      h'.SlotRows (fun (_ : α) _ _ _ _ => True) 1 c' 0 x ssize psize l := by
  subst hsize
  by_cases hl : l.length > 0
  · rw [if_pos hl] at hfit ⊢
    have hfits : Shape.fits l.length ssize psize = true :=
      fits_of_tableSize hss hdvd hps hpos rfl (by omega)
    obtain ⟨w', h', c', hset, ht, htot, -, hother, hstep⟩ :=
      hr.cursor.newTable ha (show x < c.psize by rw [hr.psize]; exact hx)
        (Shape.ofCounts l.length ssize psize hfits) (fun hne => absurd hne.2 (Nat.ne_of_gt hpos)) hfit
    rw [if_pos hl]
    refine ⟨w', h', c', hset, hr.put ht.cursor hstep.length_le hother ?_, htot, hother, hstep,
      .of_table ht.ptr ht.cell rfl rfl rfl fun _ _ _ => trivial⟩
    intro t hptr
    rw [ht.ptr, Option.some.injEq] at hptr
    subst hptr
    exact ⟨Nat.le_refl _, (List.getElem?_eq_some_iff.mp ht.cell).1⟩
  · rw [if_neg hl, if_neg hl]
    refine ⟨w, h, c, rfl, hr, rfl, fun _ _ => rfl, .refl hr.cursor.step.cell, fun _ => ?_, ?_⟩
    · exact List.length_eq_zero_iff.mp (by omega)
    · intro t ht
      rw [hnull] at ht
      cases ht

/-- A table of the root message is filled in. -/
theorem Root.fill {α β : Type} (hr : Root o w h c) (hx : x < 3) {ssize psize : Nat}
    (hps : 0 < psize) (step : Out → α × Nat → Option Out)
    (Row : β → Nat → Heap → Cell → Nat → Prop) (f : α → β) (Ok : α → Prop) (cost : α → Nat)
    (hlocal : ∀ b, RowLocal (Row b))
    (hstep : ∀ t w' h' ct a j, Cursor.Table 0 0 x t o [rootCell] rootCell w' h' c ct →
      ct.ssize = ssize → ct.psize = psize → j < ct.nelem → Ok a → h'.total + cost a ≤ 2 ^ 32 →
      h.length ≤ h'.length → ∃ w'' h'' ct', step w' (a, j) = some w'' ∧
        Cursor 0 0 o [rootCell] rootCell w'' h'' c ∧ Heap.RowStep t j h' ct h'' ct' ∧
        h''.total = h'.total + cost a ∧ Row (f a) h.length h'' ct' j)
    {l : List α} (hl : h.SlotRows (fun (_ : α) _ _ _ _ => True) 1 c 0 x ssize psize l)
    (hok : ∀ a ∈ l, Ok a) (hfit : h.total + (l.map cost).sum ≤ 2 ^ 32) :
    ∃ w' h', Run.run step w l.zipIdx = some w' ∧ Root o w' h' c ∧
      h'.total = h.total + (l.map cost).sum ∧
      h'.SlotRows Row h.length c 0 x ssize psize (l.map f) ∧
      ∀ t cj, c.ptr 0 x ≠ some t → h[t]? = some cj → h'[t]? = some cj := by
  cases hptr : c.ptr 0 x with
  | none =>
      have hnil := hl.null hptr
      subst hnil
      exact ⟨w, h, rfl, hr, rfl, ⟨fun _ => rfl, fun t ht => by simp [hptr] at ht⟩,
        fun _ _ _ hcj => hcj⟩
  | some t =>
      obtain ⟨ct, hct, hn, hss, hps', -⟩ := hl.table t hptr
      have ht : Cursor.Table 0 0 x t o [rootCell] rootCell w h c ct :=
        ⟨hr.cursor, by rw [hr.psize]; exact hx, hptr, hr.pos hx hptr, hct, fun hne => by omega⟩
      have hloop := ht.fill step (fun a => Row (f a)) Ok cost (fun a => hlocal (f a))
        (hr.lt x t hptr)
        (Nat.le_refl _) ?step hok hn.symm hfit
      case step =>
        intro w' h' ct' a j ht' hsh hj ha hfit' hm
        exact hstep t w' h' ct' a j ht' ((congrArg Shape.ssize hsh).trans hss)
          ((congrArg Shape.psize hsh).trans hps') hj ha hfit' hm
      obtain ⟨w', h', ct', hrun, hcur, htable, htot, hrows⟩ := hloop
      have hn' : ct'.nelem = (l.map f).length := by
        rw [List.length_map, ← hn]
        exact congrArg Shape.nelem htable.shape
      refine ⟨w', h', hrun, ⟨hcur, ?_, hr.apart⟩, htot, .of_table hptr htable.cell hn'
        ((congrArg Shape.ssize htable.shape).trans hss)
        ((congrArg Shape.psize htable.shape).trans hps') fun j b hj => rows_map hrows hj, ?_⟩
      · intro y t' ht'
        exact (hr.lt y t' ht').trans_le htable.length_le
      · intro t' cj hne hcj
        exact htable.other t' cj (fun heq => hne (congrArg some heq.symm)) hcj

end

/-! ## The numbers of a compiled schema -/

section

variable {d : T2b.SchemaDesc} {types : List T2b.LookupEntry} {out : List MsgType}

theorem name_no_nul {s : Text} (h : T2b.IsName s) : (0 : UInt8) ∉ s :=
  fun h0 => h.1.no_nul 0 h0 rfl

/-- Sizes and indexes of types are small. -/
theorem tagOne_lt (hlook : T2b.makelookup d = some types) {ent : T2b.LookupEntry}
    (hent : ent ∈ T2b.allTypes d) : T2b.tagOne ent < 2 ^ 32 := by
  obtain ⟨htypes, hmax, -⟩ := T2b.makelookup_eq_some hlook
  have hlen : d.enums.length + d.msgs.length ≤ 8192 := by
    rw [htypes, List.length_insertionSort] at hmax
    simp only [T2b.allTypes, List.length_append, List.length_map, List.length_zipIdx] at hmax
    have hmax' : T2b.maxTypes = 8192 := rfl
    omega
  unfold T2b.allTypes at hent
  rw [List.mem_append, List.mem_append] at hent
  rcases hent with (hent | hent) | hent
  · have hbuiltin : ∀ e ∈ T2b.builtinTypes, T2b.tagOne e < 2 ^ 32 := by decide
    exact hbuiltin ent hent
  · obtain ⟨⟨e, i⟩, he, rfl⟩ := List.mem_map.mp hent
    have hi := (List.mem_zipIdx' he).1
    show i < 2 ^ 32
    omega
  · obtain ⟨⟨m, i⟩, hm, rfl⟩ := List.mem_map.mp hent
    have hi := (List.mem_zipIdx' hm).1
    show i < 2 ^ 32
    omega

/-- Offsets are those of a part of at most 65535 bytes. -/
theorem tag0_lt {ms : MsgType} (hms : ms.SoundLayout) {f : FieldDesc} (hf : f ∈ ms.fields) :
    f.tag0 < 2 ^ 32 := by
  have hssize := hms.ssize_lt
  have hpsize := hms.psize_lt
  by_cases hin : f.inPointers = true
  · have hslot := hms.slot_lt hf hin
    omega
  · rw [Bool.not_eq_true] at hin
    by_cases hbool : f.kind = .bool
    · have hbit := hms.bit_inside f hf ⟨hin, hbool⟩
      omega
    · have hinside := hms.inside f hf ⟨hin, hbool⟩
      omega

/-- The records of the messages can be stored. -/
theorem messageOk (hwf : d.Wf) (hlook : T2b.makelookup d = some types) (hfits : T2b.Fits d)
    (hout : T2b.outmsgs types d.msgs = some out) (hnames : List.Forall₂ SameNames d.msgs out)
    {ms : MsgType} (hms : ms ∈ out) : MessageOk ms := by
  -- the sizes are those of a sound layout
  have hs : T2b.t2b d = some ⟨d.pkgName.getD [], d.enums.map T2b.outenum, out⟩ := by
    simp [T2b.t2b, hlook, hout]
  have hsound := (T2b.t2b_sound hs hfits).layout ms hms
  obtain ⟨m, hm, hname, hflds⟩ : ∃ m ∈ d.msgs, SameNames m ms := by
    obtain ⟨i, hi, rfl⟩ := List.mem_iff_getElem.mp hms
    obtain ⟨hlen, hget⟩ := List.forall₂_iff_get.mp hnames
    exact ⟨d.msgs[i], List.getElem_mem _, hget i (by omega) hi⟩
  obtain ⟨hmname, hfnames⟩ := hwf.msg m hm
  refine ⟨hname ▸ name_no_nul hmname, fun f hf => ⟨?_, tag0_lt hsound hf, ?_⟩, hsound.ssize_lt,
    hsound.psize_lt⟩
  · obtain ⟨i, hi, rfl⟩ := List.mem_iff_getElem.mp hf
    obtain ⟨hlen, hget⟩ := List.forall₂_iff_get.mp hflds
    have hnamei : ms.fields[i].name = m.flds[i].name := hget i (by omega) hi
    rw [hnamei]
    exact name_no_nul (hfnames _ (List.getElem_mem _)).1
  · obtain ⟨ent, hent, -, htag⟩ := T2b.outmsgs_field hlook hout hms hf
    rw [htag]
    exact tagOne_lt hlook hent

end

/-! ## The whole schema -/

/-- Object 0 is the root message of the binary schema. -/
def IsSchema (h : Heap) (s : Schema) : Prop :=
  ∃ c m m', h[0]? = some c ∧ c.toShape = rootCell.toShape ∧ h.SlotStr c 0 2 s.pkgName ∧
    h.SlotRows EnumRow m c 0 1 0 2 s.enumTypes ∧ h.SlotRows MsgRow m' c 0 0 4 2 s.msgTypes

section

variable {alloc : Nat → Realloc} {d : T2b.SchemaDesc} {o : Obj}

/-- The parts of `makeschema`, one after the other. -/
theorem makeschema_eq (b : Buffer) : T2b.makeschema alloc b d =
    (newSchema alloc ⟨0, b⟩).bind fun p =>
      (match d.pkgName with | some s => schemaSetPkgName alloc p.1 p.2 s | none => pure p.1).bind
        fun w => (if d.enums.length > 0 then schemaInitEnumTypes alloc w p.2 d.enums.length
          else pure w).bind
        fun w => (if d.msgs.length > 0 then schemaInitMsgTypes alloc w p.2 d.msgs.length
          else pure w).bind
        fun w => some (w, p.2) := by
  unfold T2b.makeschema
  cases newSchema alloc ⟨0, b⟩ with
  | none => rfl
  | some p =>
      by_cases henums : d.enums.length > 0 <;> by_cases hmsgs : d.msgs.length > 0 <;>
        cases d.pkgName <;> simp only [henums, hmsgs, if_true, if_false] <;> rfl

/-- `makeschema`: the package name and two tables whose elements are not filled in. -/
theorem makeschema_root (ha : ∀ n, (alloc n).Total)
    (hname : ∀ s, d.pkgName = some s → (0 : UInt8) ∉ s) {b : Buffer} (h0 : b.len = 0) (hcap : b.cap < 2 ^ 64) {size : Nat}
    (hsize : size = T2b.tableSize 1 12 + d.pkgName.elim 0 T2b.textSize +
      (if d.enums.length > 0 then T2b.tableSize d.enums.length 8 else 0) +
      (if d.msgs.length > 0 then T2b.tableSize d.msgs.length 12 else 0)) (hfit : size ≤ 2 ^ 32) :
    ∃ w o h c, T2b.makeschema alloc b d = some (w, o) ∧ Root o w h c ∧ h.total = size ∧
      h.SlotStr c 0 2 (d.pkgName.getD []) ∧
      h.SlotRows (fun (_ : T2b.EnumType) _ _ _ _ => True) 1 c 0 1 0 2 d.enums ∧
      h.SlotRows (fun (_ : T2b.MsgType) _ _ _ _ => True) 1 c 0 0 4 2 d.msgs := by
  obtain ⟨w₀, hw₀, hr₀⟩ := newSchema_root ha h0 hcap
  have htot₀ : Heap.total [rootCell] = T2b.tableSize 1 12 := rfl
  obtain ⟨w₁, h₁, c₁, hw₁, hr₁, htot₁, hother₁, hpkg₁⟩ :=
    hr₀.setPkgName ha rfl hname (by omega)
  obtain ⟨w₂, h₂, c₂, hw₂, hr₂, htot₂, hother₂, hstep₂, henums₂⟩ :=
    hr₁.initTable ha (show 1 < 3 by decide) (hother₁ 1 (by decide)) (show 0 < 2 ^ 16 by decide) rfl
      (show 2 < 2 ^ 16 by decide) (by decide) (show 8 = 0 + 2 * 4 from rfl) d.enums (by omega)
  obtain ⟨w₃, h₃, c₃, hw₃, hr₃, htot₃, hother₃, hstep₃, hmsgs₃⟩ :=
    hr₂.initTable ha (show 0 < 3 by decide) ((hother₂ 0 (by decide)).trans (hother₁ 0 (by decide)))
      (show 4 < 2 ^ 16 by decide) rfl (show 2 < 2 ^ 16 by decide) (by decide)
      (show 12 = 4 + 2 * 4 from rfl) d.msgs (by omega)
  have hpkg₂ := hpkg₁.keep (hother₂ 2 (by decide)) fun t cj ht hcj =>
    hstep₂.other t cj (Nat.ne_of_gt (hr₁.pos (by decide) ht)) hcj
  have hpkg₃ := hpkg₂.keep (hother₃ 2 (by decide)) fun t cj ht hcj =>
    hstep₃.other t cj (Nat.ne_of_gt (hr₂.pos (by decide) ht)) hcj
  have henums₃ := henums₂.keep (fun _ _ _ _ _ _ _ _ _ _ _ _ _ => trivial) (hother₃ 1 (by decide))
    (hstep₃.keepsFrom Nat.zero_lt_one) fun t cj ht hcj =>
      hstep₃.other t cj (Nat.ne_of_gt (hr₂.pos (by decide) ht)) hcj
  -- the package name and the first table have stayed as they were
  refine ⟨w₃, _, h₃, c₃, ?_, hr₃, by omega, hpkg₃, henums₃, hmsgs₃⟩
  simp only [makeschema_eq, hw₀, Option.bind_some, hw₁, schemaInitEnumTypes, schemaInitMsgTypes, hw₂,
    hw₃]

/-- **The heap that `nbuf_t2b` writes** is the compiled schema, and its size is known in advance. -/
theorem nbufT2b_holds (ha : ∀ n, (alloc n).Total) (hwf : d.Wf) {s : Schema}
    (hs : T2b.t2b d = some s) (hfits : T2b.Fits d) (hsize : T2b.schemaSize d ≤ 2 ^ 32) {b : Buffer}
    (h0 : b.len = 0) (hcap : b.cap < 2 ^ 64) :
    ∃ b' h, T2b.nbufT2b alloc b d = some b' ∧ h.Holds b' ∧ h.total = T2b.schemaSize d ∧
      IsSchema h s := by
  have hs' := hs
  unfold T2b.t2b at hs'
  simp only [Option.bind_eq_bind, Option.bind_eq_some_iff] at hs'
  obtain ⟨types, hlook, out, hout, hs'⟩ := hs'
  cases hs'
  unfold T2b.schemaSize at hsize ⊢
  obtain ⟨w, o, h, c, hmake, hr, htot, hpkg, henums, hmsgs⟩ := makeschema_root ha
    (fun name hname => name_no_nul (hwf.package name hname)) h0 hcap rfl
    (le_trans (by omega) hsize)
  -- the enumerations
  have hloop₁ := hr.fill (show 1 < 3 by decide) (by decide) (T2b.writeEnumType alloc o) EnumRow
    T2b.outenum EnumNames T2b.enumTypeSize enumRow_local ?step₁ henums ?ok₁ (by omega)
  case step₁ =>
    intro t w' h' ct e j ht _ hps hj he hfit hm
    exact writeEnumType_step ha ht hps hj he hfit hm
  case ok₁ =>
    intro e he
    obtain ⟨hname, hvals⟩ := hwf.enum e he
    exact ⟨name_no_nul hname, fun v hv => name_no_nul (hvals v hv).1⟩
  obtain ⟨w₁, h₁, hw₁, hr₁, htot₁, henums₁, hkeep₁⟩ := hloop₁
  -- the loop over the messages writes the compiled messages
  obtain ⟨st, hrun, hst⟩ := Option.map_eq_some_iff.mp hout
  obtain ⟨out', hnames, hout', hemit⟩ := Run.run_emits T2b.OutState.msgs T2b.OutState.alignment
    (fun _ _ _ hstep => writeMsgType_emits alloc o hstep) hrun
  have houteq : out = out' := by
    rw [← hst, hout']
    rfl
  subst houteq
  have hcosts : out.map messageSize = d.msgs.map T2b.msgTypeSize :=
    sizes_congr messageSize T2b.msgTypeSize (hnames.imp fun _ _ hm => hm.size_eq)
  -- the enumerations have not touched the table of the messages
  have hmsgs₁ : h₁.SlotRows (fun (_ : MsgType) _ _ _ _ => True) 1 c 0 0 4 2 out := by
    constructor
    · intro hnone
      have hnil := hnames.length_eq
      rw [hmsgs.null hnone] at hnil
      exact List.length_eq_zero_iff.mp hnil.symm
    · intro t ht
      obtain ⟨ct, hct, hn, hss, hps, -⟩ := hmsgs.table t ht
      have hother := hr.apart 0 1 t (by decide) ht
      exact ⟨ct, hkeep₁ t ct hother hct, hn.trans hnames.length_eq, hss, hps, fun _ _ _ => trivial⟩
  have hloop₂ := hr₁.fill (show 0 < 3 by decide) (by decide) (writeMessage alloc o) MsgRow id
    MessageOk messageSize msgRow_local ?step₂ hmsgs₁ ?ok₂ (by rw [hcosts]; omega)
  case step₂ =>
    intro t w' h' ct ms j ht hss hps hj hms hfit hm
    exact writeMessage_step ha ht hss hps hj hms hfit hm
  case ok₂ => exact fun ms hms => messageOk hwf hlook hfits hout hnames hms
  obtain ⟨w₂, h₂, hw₂, hr₂, htot₂, hmsgs₂, hkeep₂⟩ := hloop₂
  rw [hcosts] at htot₂
  rw [List.map_id] at hmsgs₂
  refine ⟨w₂.buf, h₂, ?_, hr₂.cursor.rel.holds (by omega), by omega, c, h.length, h₁.length,
    hr₂.cursor.step.cell, hr₂.cursor.step.shape, ?_, ?_, hmsgs₂⟩
  · have hw₂' := hemit w₁ 0
    rw [hw₂] at hw₂'
    unfold T2b.nbufT2b
    simp only [hlook, hmake, hw₁, Option.bind_eq_bind, Option.bind_some]
    rw [show (w₁, 0) = (w₁, T2b.OutState.alignment ⟨0, []⟩) from rfl, hw₂']
    rfl
  · -- the name of the package is in neither table
    refine hpkg.keep rfl fun t cj ht hcj => hkeep₂ t cj (hr.apart 2 0 t (by decide) ht) ?_
    exact hkeep₁ t cj (hr.apart 2 1 t (by decide) ht) hcj
  · -- the table of the messages was there before the enumerations
    refine henums₁.keep enumRow_local rfl (fun j cj hj hcj => hkeep₂ j cj ?_ hcj) fun t cj ht hcj =>
      hkeep₂ t cj (hr.apart 1 0 t (by decide) ht) hcj
    intro hptr
    exact absurd (hr.lt 0 j hptr) (Nat.not_lt.mpr hj)

end

/-! ## Reading the records -/

/-- Element `k` of an object of the heap, and its handle. -/
structure IsElem (h : Heap) (o : Obj) (c : Cell) (k : Nat) : Prop where
  handle : ∃ i, h[i]? = some c ∧ o = getElem (h.handle i c) k
  inside : k < c.nelem
  row : c.row k = k

/-- A list that is computed element by element. -/
theorem mapM_range' {α : Type} (f : Nat → Option α) {l : List α} {i : Nat}
    (hf : ∀ j a, l[j]? = some a → f (i + j) = some a) : (List.range' i l.length).mapM f = some l := by
  induction l generalizing i with
  | nil => rfl
  | cons a l ih =>
      have ha : f i = some a := hf 0 a rfl
      have hl := ih (i := i + 1) fun j a' hj => by
        rw [Nat.add_assoc, Nat.add_comm 1 j]
        exact hf (j + 1) a' hj
      rw [List.length_cons, List.range'_succ, List.mapM_cons, ha, hl]
      rfl

section

variable {h : Heap} {b : Buffer} {o : Obj} {c : Cell} {k x m ssize psize : Nat}

theorem IsElem.getPtr (he : IsElem h o c k) (hb : h.Holds b) (htot : h.total ≤ 2 ^ 32)
    (hx : x < c.psize) : Nbuf.getPtr b o x = some (h.target (c.ptr k x)) := by
  obtain ⟨i, hc, rfl⟩ := he.handle
  have hget := hb.getPtr hc he.inside hx fun t ht =>
    hb.near (by omega) hc (Shape.row_lt_rows he.inside) hx ht
  rwa [he.row] at hget

/-- A string is read. -/
theorem IsElem.getStrField (he : IsElem h o c k) (hb : h.Holds b) (htot : h.total ≤ 2 ^ 32)
    (hx : x < c.psize) {s : Text} (hs : h.SlotStr c k x s) : Nb.getStrField b o x = some s := by
  unfold Nb.getStrField
  cases hptr : c.ptr k x with
  | none =>
      have hget := he.getPtr hb htot hx
      rw [hptr] at hget
      obtain rfl := hs.null hptr
      unfold Nbuf.getStr
      simp only [hget, Heap.target, Option.bind_eq_bind, Option.bind_some, Obj.null_nelem]
      rfl
  | some t =>
      obtain ⟨ct, hct, hstr⟩ := hs.str t hptr
      obtain ⟨i, hc, rfl⟩ := he.handle
      have hptr' : c.ptr (c.row k) x = some t := by rw [he.row, hptr]
      obtain ⟨ref, hget, -, hbytes⟩ := hb.getStr hc he.inside hx hptr' hct
        (hb.near (by omega) hc (Shape.row_lt_rows he.inside) hx hptr') hstr
      rw [hget, Option.bind_eq_bind, Option.bind_some, hbytes]

/-- A number is read. -/
theorem IsElem.getUintField (he : IsElem h o c k) (hb : h.Holds b) {off sz : Nat}
    (hsz : scalarSize sz = true) (hdvd : sz ∣ off) (hin : off + sz ≤ c.width) :
    Nb.getUintField b o off sz = some ((c.scal k).load off sz) := by
  obtain ⟨i, hc, rfl⟩ := he.handle
  have hget := hb.getInt hc he.inside hsz hdvd hin
  have hlt : (c.scal k).load off sz < 256 ^ sz := load_lt _ _ _
  rw [he.row] at hget
  unfold Nb.getUintField
  -- the conversion to an unsigned type undoes the sign
  have hunsigned : ((c.scal k).load off sz : Int).bmod (256 ^ sz) % 256 ^ sz
      = (c.scal k).load off sz :=
    calc ((c.scal k).load off sz : Int).bmod (256 ^ sz) % 256 ^ sz
        = ((c.scal k).load off sz : Int).bmod (256 ^ sz) % (256 ^ sz : Nat) := by push_cast; rfl
      _ = ((c.scal k).load off sz : Int) % (256 ^ sz : Nat) := Int.bmod_emod
      _ = ((c.scal k).load off sz % 256 ^ sz : Nat) := (Int.natCast_emod _ _).symm
      _ = (c.scal k).load off sz := by rw [Nat.mod_eq_of_lt hlt]
  rw [hget, Option.bind_eq_bind, Option.bind_some, Option.pure_def, hunsigned, Int.toNat_natCast]

/-- A list of messages is read. -/
theorem IsElem.readList {α : Type} (he : IsElem h o c k) (hb : h.Holds b) (htot : h.total ≤ 2 ^ 32)
    (hx : x < c.psize) {Row : α → Nat → Heap → Cell → Nat → Prop} {l : List α}
    (hl : h.SlotRows Row m c k x ssize psize l) (hps : 0 < psize) {read : Obj → Option α}
    (hread : ∀ a o' ct j, IsElem h o' ct j → ct.ssize = ssize → ct.psize = psize → Row a m h ct j →
      read o' = some a) : Nb.readList (getSizeField b o x) (getMsgField b o x) read = some l := by
  have hget := he.getPtr hb htot hx
  unfold Nb.readList getSizeField getMsgField
  cases hptr : c.ptr k x with
  | none =>
      rw [hptr] at hget
      obtain rfl := hl.null hptr
      simp only [hget, Heap.target, Option.bind_eq_bind, Option.bind_some]
      rfl
  | some t =>
      obtain ⟨ct, hct, hn, hss, hps', hrows⟩ := hl.table t hptr
      rw [hptr, Heap.target_some hct] at hget
      simp only [hget, Option.bind_eq_bind, Option.bind_some, Option.pure_def, Heap.handle_nelem, hn]
      rw [List.range_eq_range']
      refine mapM_range' _ fun j a hj => ?_
      have hlt := (List.getElem?_eq_some_iff.mp hj).1
      rw [Nat.zero_add]
      exact hread a _ ct j ⟨⟨t, hct, rfl⟩, by omega, ct.row_eq (fun hne => by omega) j⟩ hss hps'
        (hrows j a hj)

theorem kindOf_toNat (kind : Kind) : kindOf kind.toNat = some kind := by cases kind <;> rfl

/-- The scalar bytes of an element of a table. -/
theorem width_of_table (c : Cell) {n p : Nat} (hss : c.ssize = n) (hps : c.psize = p) (hp : 0 < p) :
    c.width = n := by
  rw [c.width_eq, if_neg (by omega), hss]

theorem readEnumDesc_eq (hb : h.Holds b) (htot : h.total ≤ 2 ^ 32) {d : EnumDesc}
    (he : IsElem h o c k) (hss : c.ssize = 4) (hps : c.psize = 1) (hd : DescRow d m h c k) :
    readEnumDesc b o = some d := by
  obtain ⟨hname, hvalue⟩ := hd
  have hwidth := width_of_table c hss hps (by decide)
  have hgetName := he.getStrField hb htot (show 0 < c.psize by omega) hname.slot
  have hgetValue := he.getUintField hb (show scalarSize 2 = true by decide) (Nat.dvd_zero 2)
    (show 0 + 2 ≤ c.width by omega)
  rw [hvalue] at hgetValue
  simp only [readEnumDesc, enumDescName, enumDescValue, hgetName, hgetValue, Option.bind_eq_bind,
    Option.bind_some, Option.pure_def]

theorem readEnumType_eq (hb : h.Holds b) (htot : h.total ≤ 2 ^ 32) {e : EnumType}
    (he : IsElem h o c k) (hps : c.psize = 2) (hrow : EnumRow e m h c k) :
    readEnumType b o = some e := by
  obtain ⟨hname, hvalues⟩ := hrow
  have hgetName := he.getStrField hb htot (show 0 < c.psize by omega) hname.slot
  have hgetValues := he.readList hb htot (show 1 < c.psize by omega) hvalues.slot (by decide)
    fun d o' ct j he' hss' hps' hd => readEnumDesc_eq hb htot he' hss' hps' hd
  have hlist : Nb.readList (enumTypeValuesSize b o) (enumTypeValues b o) (readEnumDesc b)
      = some e.values := hgetValues
  simp only [readEnumType, enumTypeName, hgetName, hlist, Option.bind_eq_bind, Option.bind_some,
    Option.pure_def]

theorem readFieldDesc_eq (hb : h.Holds b) (htot : h.total ≤ 2 ^ 32) {f : FieldDesc}
    (he : IsElem h o c k) (hss : c.ssize = 12) (hps : c.psize = 1) (hf : FieldRow f m h c k) :
    readFieldDesc b o = some f := by
  obtain ⟨hname, hkind, hlist, htag0, htag1⟩ := hf
  have hwidth := width_of_table c hss hps (by decide)
  have hgetName := he.getStrField hb htot (show 0 < c.psize by omega) hname.slot
  have hgetKind := he.getUintField hb (show scalarSize 2 = true by decide) (Nat.dvd_zero 2)
    (show 0 + 2 ≤ c.width by omega)
  have hgetTag0 := he.getUintField hb (show scalarSize 4 = true by decide) (Nat.dvd_refl 4)
    (show 4 + 4 ≤ c.width by omega)
  have hgetTag1 := he.getUintField hb (show scalarSize 4 = true by decide) (show 4 ∣ 8 by decide)
    (show 8 + 4 ≤ c.width by omega)
  have hgetList : getBit b o 16 = some f.list := by
    obtain ⟨i, hc, rfl⟩ := he.handle
    have hget := hb.getBit hc he.inside (show 16 / 8 < c.width by omega)
    rw [he.row] at hget
    rw [hget]
    exact congrArg some hlist
  rw [hkind] at hgetKind
  rw [htag0] at hgetTag0
  rw [htag1] at hgetTag1
  simp only [readFieldDesc, fieldDescName, fieldDescKind, fieldDescList, fieldDescTag0, fieldDescTag1,
    hgetName, hgetKind, hgetList, hgetTag0, hgetTag1, kindOf_toNat, Option.bind_eq_bind,
    Option.bind_some, Option.pure_def]

theorem readMsgType_eq (hb : h.Holds b) (htot : h.total ≤ 2 ^ 32) {ms : MsgType}
    (he : IsElem h o c k) (hss : c.ssize = 4) (hps : c.psize = 2) (hrow : MsgRow ms m h c k) :
    readMsgType b o = some ms := by
  obtain ⟨hname, hfields, hssize, hpsize⟩ := hrow
  have hwidth := width_of_table c hss hps (by decide)
  have hgetName := he.getStrField hb htot (show 0 < c.psize by omega) hname.slot
  have hgetFields := he.readList hb htot (show 1 < c.psize by omega) hfields.slot (by decide)
    fun f o' ct j he' hss' hps' hf => readFieldDesc_eq hb htot he' hss' hps' hf
  have hlist : Nb.readList (msgTypeFieldsSize b o) (msgTypeFields b o) (readFieldDesc b)
      = some ms.fields := hgetFields
  have hgetSsize := he.getUintField hb (show scalarSize 2 = true by decide) (Nat.dvd_zero 2)
    (show 0 + 2 ≤ c.width by omega)
  have hgetPsize := he.getUintField hb (show scalarSize 2 = true by decide) (Nat.dvd_refl 2)
    (show 2 + 2 ≤ c.width by omega)
  rw [hssize] at hgetSsize
  rw [hpsize] at hgetPsize
  simp only [readMsgType, msgTypeName, msgTypeSsize, msgTypePsize, hgetName, hlist, hgetSsize,
    hgetPsize, Option.bind_eq_bind, Option.bind_some, Option.pure_def]

/-- **The getters find the compiled schema** in every buffer that holds it. -/
theorem readSchema_eq (hb : h.Holds b) (htot : h.total ≤ 2 ^ 32) {s : Schema} (hs : IsSchema h s) :
    readSchema b = some s := by
  obtain ⟨c, m, m', hc, hshape, hpkg, henums, hmsgs⟩ := hs
  have hoffs : h.offs 0 = 0 := by simp [Heap.offs, Offsets.offset]
  have hroot : h.handle 0 c = getElem (h.handle 0 c) 0 := by
    have hhandle : h.handle 0 c = rootCell.obj 8 := by
      unfold Heap.handle
      rw [hoffs, hshape]
    rw [hhandle]
    decide
  -- the header at position 0 is that of the root message
  have hget : getSchema b = some (h.handle 0 c) := by
    have hinit := hb.objInit hc Obj.null
    rwa [hoffs] at hinit
  have hpsize : c.psize = 3 := congrArg Shape.psize hshape
  have hnelem : c.nelem = 1 := congrArg Shape.nelem hshape
  have he : IsElem h (h.handle 0 c) c 0 :=
    ⟨⟨0, hc, hroot⟩, by omega, c.row_eq (fun hne => by omega) 0⟩
  have hgetName := he.getStrField hb htot (show 2 < c.psize by omega) hpkg
  have hgetEnums := he.readList hb htot (show 1 < c.psize by omega) henums (by decide)
    fun e o' ct j he' _ hps' hrow => readEnumType_eq hb htot he' hps' hrow
  have hgetMsgs := he.readList hb htot (show 0 < c.psize by omega) hmsgs (by decide)
    fun ms o' ct j he' hss' hps' hrow => readMsgType_eq hb htot he' hss' hps' hrow
  have hlist₁ : Nb.readList (schemaEnumTypesSize b (h.handle 0 c)) (schemaEnumTypes b (h.handle 0 c))
      (readEnumType b) = some s.enumTypes := hgetEnums
  have hlist₂ : Nb.readList (schemaMsgTypesSize b (h.handle 0 c)) (schemaMsgTypes b (h.handle 0 c))
      (readMsgType b) = some s.msgTypes := hgetMsgs
  simp only [readSchema, hget, schemaPkgName, hgetName, hlist₁, hlist₂, Option.bind_eq_bind,
    Option.bind_some, Option.pure_def]

end

end Nbuf.Nb

namespace Nbuf.T2b

open Nb

/-! ## The round trip -/

/-- **The binary schema is the compiled schema.** What `nbuf_t2b` writes for a syntax tree has the
size that the tree determines, and the getters find every record of the compiled schema in it, in
the buffer itself and in a file with its bytes. -/
theorem nbufT2b_read {alloc : Nat → Realloc} (ha : ∀ n, (alloc n).Total) {d : SchemaDesc}
    (hwf : d.Wf) {s : Nbuf.Schema} (hs : t2b d = some s) (hfits : Fits d)
    (hsize : schemaSize d ≤ 2 ^ 32) {b : Buffer} (h0 : b.len = 0) (hcap : b.cap < 2 ^ 64) :
    ∃ b', nbufT2b alloc b d = some b' ∧ b'.len = schemaSize d ∧ readSchema b' = some s ∧
      ∀ block : ByteBlock, block.data = b'.bytes → readSchema (initRead block) = some s := by
  obtain ⟨b', h, hwrite, hb, htot, hschema⟩ := nbufT2b_holds ha hwf hs hfits hsize h0 hcap
  refine ⟨b', hwrite, hb.len_eq.trans htot, ?_, fun block hblock => ?_⟩
  · exact readSchema_eq hb (by omega) hschema
  · exact readSchema_eq (hb.initRead hblock) (by omega) hschema

/-- `example/my_game.nbs` -/
def gameDesc : SchemaDesc := ⟨some (asc "my_game"),
  [⟨asc "Gender", [⟨asc "NONE", 0⟩, ⟨asc "MALE", 1⟩, ⟨asc "FEMALE", 2⟩]⟩,
   ⟨asc "Race", [⟨asc "NONE", 0⟩, ⟨asc "HUMAN", 1⟩, ⟨asc "GNOME", 2⟩, ⟨asc "DWARF", 3⟩,
     ⟨asc "ELF", 4⟩, ⟨asc "ORC", 5⟩]⟩,
   ⟨asc "BUC", [⟨asc "UNCURSED", 0⟩, ⟨asc "CURSED", 1⟩, ⟨asc "BLESSED", 2⟩]⟩],
  [⟨asc "Hero", [⟨asc "name", asc "string", false⟩, ⟨asc "gender", asc "Gender", false⟩,
     ⟨asc "race", asc "Race", false⟩, ⟨asc "hp", asc "uint16", false⟩,
     ⟨asc "mana", asc "uint16", false⟩, ⟨asc "inventory", asc "Item", true⟩]⟩,
   ⟨asc "Item", [⟨asc "name", asc "string", false⟩, ⟨asc "quantity", asc "uint32", false⟩,
     ⟨asc "buc", asc "BUC", false⟩, ⟨asc "corroded", asc "bool", false⟩,
     ⟨asc "enchantment", asc "int8", false⟩]⟩]⟩

def gameSchema : Nbuf.Schema := ⟨asc "my_game",
  [⟨asc "Gender", [⟨asc "NONE", 0⟩, ⟨asc "MALE", 1⟩, ⟨asc "FEMALE", 2⟩]⟩,
   ⟨asc "Race", [⟨asc "NONE", 0⟩, ⟨asc "HUMAN", 1⟩, ⟨asc "GNOME", 2⟩, ⟨asc "DWARF", 3⟩,
     ⟨asc "ELF", 4⟩, ⟨asc "ORC", 5⟩]⟩,
   ⟨asc "BUC", [⟨asc "UNCURSED", 0⟩, ⟨asc "CURSED", 1⟩, ⟨asc "BLESSED", 2⟩]⟩],
  [⟨asc "Hero", [⟨asc "name", .str, false, 0, 1⟩, ⟨asc "gender", .enum, false, 0, 0⟩,
     ⟨asc "race", .enum, false, 2, 1⟩, ⟨asc "hp", .uint, false, 4, 2⟩,
     ⟨asc "mana", .uint, false, 6, 2⟩, ⟨asc "inventory", .ptr, true, 1, 1⟩], 8, 2⟩,
   ⟨asc "Item", [⟨asc "name", .str, false, 0, 1⟩, ⟨asc "quantity", .uint, false, 0, 4⟩,
     ⟨asc "buc", .enum, false, 4, 2⟩, ⟨asc "corroded", .bool, false, 48, 0⟩,
     ⟨asc "enchantment", .int, false, 7, 1⟩], 8, 1⟩]⟩

theorem gameDesc_wf : gameDesc.Wf :=
  ⟨fun _ h => Option.some.inj h ▸ by decide, by decide, by decide⟩

theorem gameSchema_read : ∃ b', nbufT2b granting (initWrite (fun _ => 170) 0) gameDesc = some b' ∧
    b'.len = 904 ∧ readSchema b' = some gameSchema ∧
    ∀ block : ByteBlock, block.data = b'.bytes → readSchema (initRead block) = some gameSchema :=
  nbufT2b_read (show ∀ n, Realloc.Total (granting n) from fun _ _ => rfl) gameDesc_wf
    (show t2b gameDesc = some gameSchema by decide +kernel) (show Fits gameDesc by decide +kernel)
    (show schemaSize gameDesc ≤ 2 ^ 32 by decide) (show (initWrite (fun _ => 170) 0).len = 0 from rfl)
    (show (initWrite (fun _ => 170) 0).cap < 2 ^ 64 by decide)

end Nbuf.T2b
