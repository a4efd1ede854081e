import Nbuf.Rpc.Echo
import Nbuf.Rpc.Exchange
import Nbuf.Schema.Compiled
import Nbuf.Wire.Refinement

set_option autoImplicit false

/-! # The echo server and its clients

The rest of `on_read` of `rpc/echoserver.c`: the reply is written into the buffer that the request
arrived in. The accessors are those that `rpc/echo.nbs` compiles to. A request may come from a later
version of the schema, so only its first pointer slot matters.
-/

namespace Nbuf.Rpc

open Run ByteMem

/-! ## The reply -/

/-- `rpc/echo.nbs` -/
def echoSchema : T2b.SchemaDesc :=
  ⟨none, [], [⟨asc "EchoReq", [⟨asc "name", asc "string", false⟩]⟩,
    ⟨asc "EchoResp", [⟨asc "timestamp", asc "uint32", false⟩, ⟨asc "msg", asc "string", false⟩]⟩]⟩

-- the offsets, slots and sizes that the accessors below are generated with
example : T2b.t2b echoSchema = some ⟨[], [],
    [⟨asc "EchoReq", [⟨asc "name", .str, false, 0, 1⟩], 0, 1⟩,
      ⟨asc "EchoResp", [⟨asc "timestamp", .uint, false, 0, 4⟩, ⟨asc "msg", .str, false, 0, 1⟩],
        4, 1⟩]⟩ := by
  decide

/-- `nbuf_clear` -/
def clear (b : Buffer) : Buffer := { b with len := 0 }

/-- What the server says to a name. -/
def hello (name : Text) : Text :=
  if name = [] then asc "hello!" else asc "hello, " ++ name ++ asc "!"

/-- The objects of a request with a name: its root is one message, whose first slot leads to the
name or, if that is empty, to nothing. -/
structure Asks (h : Heap) (name : Text) : Prop where
  root : ∃ c, h[0]? = some c ∧ c.nelem = 1 ∧ 0 < c.psize ∧
    (name = [] ∧ c.ptr 0 0 = none ∨ ∃ t, c.ptr 0 0 = some t ∧ h[t]? = some (strCell name))

section

variable {h : Heap} {b : Buffer} {name : Text}

/-- The element of a single message is the message. -/
theorem getElem_zero {r : Obj} (hn : r.nelem = 1) (he : r.elemsz ≠ 0) (hbase : r.base < 2 ^ 64) :
    getElem r 0 = r := by
  unfold getElem
  rw [if_pos (by omega), if_neg he, if_neg he]
  refine Obj.ext ?_ ?_ ?_ ?_
  · show sizeT (r.base + sizeT (0 * r.elemsz)) = r.base
    rw [Nat.zero_mul, show sizeT 0 = 0 from rfl, Nat.add_zero, sizeT_of_lt hbase]
  · rw [hn]
    exact Obj.ofFields_nelem (by decide)
  · exact Obj.ofFields_ssize r.ssize_lt
  · exact Obj.ofFields_psize r.psize_lt

/-- A string in memory that ends with the first NUL. -/
theorem cStrAt_eq {k : Nat} (hs : b.mem.toList k name.length = name) (hnul : (0 : UInt8) ∉ name)
    (hend : b.mem (k + name.length) = 0) (hin : k + name.length < b.extent) :
    cStrAt b k = some name := by
  obtain ⟨t, ht⟩ := Option.isSome_iff_exists.mp (cStrAt_isSome hend hin)
  have hleast : IsLeast {n | b.mem (k + n) = 0} name.length := by
    refine ⟨hend, fun n hn => ?_⟩
    by_contra hlt
    apply hnul
    rw [← hs]
    exact List.mem_map.mpr ⟨n, List.mem_range.mpr (Nat.not_le.mp hlt), hn⟩
  have hlen : t.length = name.length := (cStrAt_some ht).unique hleast
  have ht' := ht
  simp only [cStrAt] at ht'
  split_ifs at ht' with hmem
  have htake := Option.some.inj ht'
  have hidx : (b.mem.toList k (b.extent - k)).idxOf 0 ≤ b.extent - k := by
    have := List.idxOf_lt_length_of_mem hmem
    rw [ByteMem.length_toList] at this
    omega
  rw [ByteMem.take_toList _ _ hidx] at htake
  have hidx' : (b.mem.toList k (b.extent - k)).idxOf 0 = name.length := by
    rw [← hlen, ← htake, ByteMem.length_toList]
  rw [ht, ← htake, hidx', hs]

/-- The bytes of a string object, and the NUL behind them. -/
theorem strCell_bytes (hb : h.Holds b) {t : Nat} (hct : h[t]? = some (strCell name))
    (hlen : name.length + 1 < 2 ^ 32) :
    b.mem.toList (h.offs t + 8) name.length = name ∧ b.mem (h.offs t + 8 + name.length) = 0 ∧
      h.offs t + 8 + name.length < b.len := by
  have hstr := strCell_isStr hlen
  obtain ⟨hst, hrows, hbody⟩ := hstr.shape
  have hend := hb.block_le hct
  have hle := (strCell name).le_blockSize
  have hbyte : ∀ j, j ≤ name.length → b.mem (h.offs t + 8 + j) = name.getD j 0 := by
    intro j hj
    have hscal := (hb.rep t _ hct).scal j (by omega) 0
      (by show 0 < (strShape name.length).width; rw [strShape_width]; omega)
    rw [Shape.rowPos_eq, hst, Nat.mul_one, Nat.add_zero] at hscal
    exact hscal
  refine ⟨List.ext_getElem (length_toList _ _ _) fun j _ hj => ?_, ?_, by omega⟩
  · simp [ByteMem.toList, hbyte j (Nat.le_of_lt hj), hj]
  · rw [hbyte _ (Nat.le_refl _)]
    simp

/-- What the reader makes of the name of a request. -/
theorem Asks.getStr (hreq : Asks h name) (hb : h.Holds b) (htot : h.total ≤ 2 ^ 33)
    (hlen : name.length + 1 < 2 ^ 32) :
    ∃ r ref, objInit b Obj.null 0 = some r ∧ Nbuf.getStr b r 0 = some ref ∧
      ref.len = name.length ∧ ((0 : UInt8) ∉ name → ref.cStr b = some name) := by
  obtain ⟨c, hc, hn, hps, hslot⟩ := hreq.root
  have hrow : c.row 0 = 0 := c.row_of_psize hps 0
  have hne : (h.handle 0 c).elemsz ≠ 0 := by
    intro h0
    have := ((h.handle 0 c).elemsz_eq_zero_iff.mp h0).2
    rw [Heap.handle_psize] at this
    omega
  have hbase : (h.handle 0 c).base < 2 ^ 64 := by
    have hle := hb.rows_le hc
    have hlt := hb.len_lt
    omega
  have helem : getElem (h.handle 0 c) 0 = h.handle 0 c := getElem_zero hn hne hbase
  have hk : 0 < c.nelem := by omega
  have hget := hb.getPtr hc hk hps fun t ht => hb.near htot hc (Shape.row_lt_rows hk) hps ht
  rw [helem, hrow] at hget
  refine ⟨h.handle 0 c, ?_⟩
  have hopen : objInit b Obj.null 0 = some (h.handle 0 c) := hb.objInit hc Obj.null
  rcases hslot with ⟨rfl, hnone⟩ | ⟨t, ht, hct⟩
  · rw [hnone] at hget
    refine ⟨⟨none, 0⟩, hopen, ?_, rfl, fun _ => rfl⟩
    unfold Nbuf.getStr
    rw [hget]
    rfl
  · obtain ⟨hbytes, hnul, hin⟩ := strCell_bytes hb hct hlen
    have ht0 : c.ptr (c.row 0) 0 = some t := by rw [hrow, ht]
    have hnear := hb.near htot hc (Shape.row_lt_rows hk) hps ht0
    obtain ⟨ref, href, hreflen, -⟩ := hb.getStr hc hk hps ht0 hct hnear (strCell_isStr hlen)
    rw [helem] at href
    obtain ⟨rr, hrr, hcase⟩ := getStr_target hb.len_lt href
    rw [ht, Heap.target_some hct] at hget
    obtain rfl := Option.some.inj (hget.symm.trans hrr)
    refine ⟨ref, hopen, href, hreflen, fun hfree => ?_⟩
    rcases hcase with ⟨hzero, -⟩ | ⟨rfl, -, -⟩
    · rw [Heap.handle_nelem, (strCell_isStr hlen).nelem_eq] at hzero
      cases hzero
    · exact cStrAt_eq hbytes hfree hnul (Nat.lt_of_lt_of_le hin (len_le_extent b))

/-- **The greeting** of a request: what the server copies into the reply. -/
theorem Asks.echoOnRead (hreq : Asks h name) (hb : h.Holds b) (htot : h.total ≤ 2 ^ 33)
    (hlen : name.length < 2 ^ 30) (hnul : (0 : UInt8) ∉ name) (block : ByteMem) :
    ∃ msg : Chunk, Rpc.echoOnRead block b = some (msg, (hello name).length) ∧
      (hello name).length ≤ msg.size ∧
      (msg.data.toList 0 msg.size).take (hello name).length = hello name := by
  obtain ⟨r, ref, hopen, hget, hreflen, hcstr⟩ := hreq.getStr hb htot (by omega)
  have hread : Rpc.echoOnRead block b = greeting block b ref := by
    simp [Rpc.echoOnRead, hopen, hget]
  rw [hread]
  by_cases hempty : name = []
  · subst hempty
    have hzero : ref.len = 0 := hreflen
    refine ⟨⟨ByteMem.ofList (asc "hello!" ++ [0]), 7⟩, ?_, by decide, by decide⟩
    unfold greeting
    rw [if_neg (by simp [hzero])]
    rfl
  · have hpos := List.length_pos_iff.mpr hempty
    have hhello : hello name = asc "hello, " ++ name ++ asc "!" := if_neg hempty
    have hlength : (hello name).length = name.length + 8 := by
      rw [hhello, List.length_append, List.length_append]
      show 7 + name.length + 1 = name.length + 8
      omega
    have hsize : sizeT (sizeT (name.length + 8) + 1) = name.length + 9 := by
      rw [sizeT_of_lt (by omega : name.length + 8 < 2 ^ 64), sizeT_of_lt (by omega)]
    obtain ⟨msg, hcopy, hroom⟩ := Chunk.strcpy_of_le (p := ⟨block, name.length + 9⟩) (k := 0)
      (s := hello name) (by rw [hlength]; show 0 + (name.length + 8) + 1 ≤ name.length + 9; omega)
    have hsprintf : sprintfHello ⟨block, name.length + 9⟩ name = some msg := by
      rw [sprintfHello, ← hhello, hcopy]
    have hle : (hello name).length ≤ msg.size := by
      rw [hroom, hlength]
      exact Nat.le_succ _
    refine ⟨msg, ?_, hle, ?_⟩
    · unfold greeting
      rw [if_pos (by omega), hreflen, hcstr hnul]
      simp only [hsize, Option.bind_eq_bind, Option.bind_some, hsprintf]
      rw [hlength, sizeT_of_lt (by omega)]
      rfl
    · rw [take_toList _ _ hle]
      exact Chunk.strcpy_toList hcopy

/-! ## The reply on the heap -/

end

end Nbuf.Rpc
