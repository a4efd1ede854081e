import Nbuf.Lib.Run
import Nbuf.Wire.Buffer

set_option autoImplicit false

/-! # RPC messages on a stream (`rpc/nrpc.c`)

`nrpc_write` puts a buffer on a stream with the first word replaced by its length. `nrpc_read`
hangs a context on the stream; libuv then calls `on_read` with the bytes as they arrive, until
`on_read` hands the buffer to the callback. The variables `ctx` and `buf` of `on_read` are absent
until they are assigned: a run that uses them before is `none`.
-/

namespace Nbuf.Rpc

open Run

/-! ## Streams -/

/-- What `stream->data` points to: something of the user's, or the context of a pending read. -/
inductive StreamData where
  | user (p : Nat)
  | ctx (buf : Buffer) (cb : Nat) (data : StreamData)

/-- `struct rpc_rd_ctx`. A callback is known by a number. -/
structure RdCtx where
  buf : Buffer
  cb : Nat
  data : StreamData

/-- `(struct rpc_rd_ctx *) stream->data` -/
def StreamData.rdCtx : StreamData → Option RdCtx
  | .user _ => none
  | .ctx buf cb data => some ⟨buf, cb, data⟩

/-- `uv_stream_t`: the user's data, and whether libuv delivers bytes. -/
structure Stream where
  data : StreamData
  reading : Bool

/-- A call of the read callback. -/
structure ReadDone where
  cb : Nat
  nread : Int
  buf : Buffer

/-! ## The functions -/

/-- `nrpc_read`. `alloc` says whether `malloc` succeeds and `started` is what `uv_read_start`
returns. -/
def nrpcRead (alloc : Bool) (started : Int) (stream : Stream) (buf : Buffer) (cb : Nat) :
    Int × Stream :=
  if alloc then (started, ⟨.ctx buf cb stream.data, decide (started = 0)⟩) else (-1, stream)

/-- `nrpc_write`: the bytes that are put on the stream. -/
def nrpcWrite (buf : Buffer) : Option (List UInt8) :=
  (writeIntSafe buf 0 4 buf.len).map Buffer.bytes

/-- The label `done` of `on_read`. -/
def onReadDone (ctx : Option RdCtx) (buf : Option Buffer) (stream : Stream) (nread : Int) :
    Option (Stream × Option ReadDone) := do
  let ctx ← ctx
  let buf1 ← buf
  pure ({ stream with data := ctx.data }, some ⟨ctx.cb, nread, buf1⟩)

/-- `msg_len`: it stays `0` until the first word is there. -/
def msgLen (buf : Buffer) : Option Nat :=
  if buf.len ≥ 4 then (readIntSafe buf 0 4).map fun v => (v % 2 ^ 64).toNat else some 0

/-- What `on_read` does once the bytes are in the buffer. `stopped` is what `uv_read_stop`
returns. -/
def onReadBuf (stopped : Int) (stream : Stream) (nread : Int) (ctx : RdCtx) (buf : Buffer) :
    Option (Stream × Option ReadDone) := do
  let len ← msgLen buf
  if nread > 0 ∧ (len = 0 ∨ buf.len < len) then
    pure ({ stream with data := .ctx buf ctx.cb ctx.data }, none)
  else if len = 0 ∨ buf.len ≠ len ∨ stopped ≠ 0 then
    onReadDone (some ctx) (some buf) stream (-1)
  else do
    let buf ← writeIntSafe buf 0 4 1
    onReadDone (some ctx) (some buf) { stream with reading := false } len

/-- `on_read`. What `nbuf_reserve` returns is not looked at. -/
def onRead (a : Realloc) (stopped : Int) (stream : Stream) (nread : Int) (uvbuf : List UInt8) :
    Option (Stream × Option ReadDone) :=
  if nread < 0 then onReadDone none none stream nread
  else do
    let ctx ← stream.data.rdCtx
    let (_, buf) ← reserve a ctx.buf nread.toNat
    let buf ← memcpyC buf buf.len (ByteMem.ofList uvbuf) uvbuf.length nread.toNat
    onReadBuf stopped stream nread ctx { buf with len := sizeT (buf.len + nread.toNat) }

/-! ## Events -/

/-- A call of `on_read`, with the answer of `realloc` during it. -/
structure Event where
  alloc : Realloc
  nread : Int
  uvbuf : List UInt8

/-- Some bytes arrive, and `realloc` grants what it is asked for. -/
def Event.IsChunk (e : Event) : Prop :=
  e.alloc.Total ∧ e.uvbuf ≠ [] ∧ e.nread = e.uvbuf.length

/-- A stream with the calls of the read callback so far. -/
structure Conn where
  stream : Stream
  calls : List ReadDone

/-- One event. `uv_read_stop` returns `0`. -/
def onEvent (s : Conn) (e : Event) : Option Conn :=
  (onRead e.alloc 0 s.stream e.nread e.uvbuf).map fun (stream, call) =>
    ⟨stream, s.calls ++ call.toList⟩

/-- The connection after a successful `nrpc_read`. -/
def Conn.read (stream : Stream) (buf : Buffer) (cb : Nat) : Conn :=
  ⟨(nrpcRead true 0 stream buf cb).2, []⟩

/-! ## One event -/

/-- A read is pending: the bytes that have arrived are in the buffer of the context and no
callback has been called. -/
structure Pending (s : Conn) (cb : Nat) (data : StreamData) (received : List UInt8) : Prop where
  ctx : ∃ buf, s.stream.data = .ctx buf cb data ∧ buf.len ≤ buf.cap ∧ buf.cap < 2 ^ 64 ∧
    buf.bytes = received
  calls : s.calls = []

theorem pending_read (stream : Stream) {buf : Buffer} (cb : Nat) (hlen : buf.len = 0)
    (hcap : buf.cap < 2 ^ 64) : Pending (Conn.read stream buf cb) cb stream.data [] where
  ctx := ⟨buf, rfl, by omega, hcap, List.eq_nil_of_length_eq_zero (by simp [hlen])⟩
  calls := rfl

/-- The buffer after `nbuf_reserve` and `memcpy`. -/
theorem receive_spec {a : Realloc} (ha : a.Total) {buf : Buffer} (hlen : buf.len ≤ buf.cap)
    (hcap : buf.cap < 2 ^ 64) {chunk : List UInt8} (hbig : buf.len + chunk.length < 2 ^ 63) :
    ∃ ok b b', reserve a buf chunk.length = some (ok, b) ∧
      memcpyC b b.len (ByteMem.ofList chunk) chunk.length chunk.length = some b' ∧
      b'.len = buf.len ∧ buf.len + chunk.length ≤ b'.cap ∧ b'.cap < 2 ^ 64 ∧
      b'.mem.toList 0 (buf.len + chunk.length) = buf.bytes ++ chunk := by
  obtain ⟨b, hres, hlen', hroom, hge, hlt, hmem⟩ := reserve_spec ha hlen hcap
    (show buf.len + chunk.length ≤ 2 ^ 63 by omega)
  have hext := cap_le_extent b
  refine ⟨true, b, { b with mem := b.mem.copy b.len (ByteMem.ofList chunk) 0 chunk.length }, hres,
    ?_, hlen', hroom, hlt, ?_⟩
  · unfold memcpyC
    rw [assertC_pos (Nat.le_refl _), assertC_pos (by omega)]
    rfl
  · refine List.ext_getElem (by simp) fun i hi hi' => ?_
    rw [ByteMem.length_toList] at hi
    simp only [ByteMem.toList, List.getElem_map, List.getElem_range, Nat.zero_add]
    by_cases hold : i < buf.len
    · rw [ByteMem.copy_outside _ _ _ (by omega), hmem i (by omega),
        List.getElem_append_left (by simpa using hold)]
      simp [Buffer.bytes, ByteMem.toList]
    · have hget : i - buf.len < chunk.length := by omega
      rw [ByteMem.copy_inside _ _ _ (by omega) (by omega),
        List.getElem_append_right (by simpa using hold), hlen', Nat.zero_add,
        ByteMem.ofList_getElem _ hget]
      simp

/-- **Bytes arrive**: they are put behind those that are there, and the rest of `on_read` looks at
them all. -/
theorem Pending.onRead_eq {s : Conn} {cb : Nat} {data : StreamData} {received : List UInt8}
    (h : Pending s cb data received) {a : Realloc} (ha : a.Total) {chunk : List UInt8}
    (hbig : received.length + chunk.length < 2 ^ 63) :
    ∃ ctx b, ctx.cb = cb ∧ ctx.data = data ∧ b.len = received.length + chunk.length ∧
      b.len ≤ b.cap ∧ b.cap < 2 ^ 64 ∧ b.bytes = received ++ chunk ∧
      ∀ stopped, onRead a stopped s.stream chunk.length chunk
        = onReadBuf stopped s.stream chunk.length ctx b := by
  obtain ⟨buf, hdata, hlen, hcap, hbytes⟩ := h.ctx
  have hrec : buf.len = received.length := by rw [← hbytes, Buffer.length_bytes]
  obtain ⟨ok, b, b', hres, hcpy, hlen', hroom, hlt, hlist⟩ :=
    receive_spec ha hlen hcap (show buf.len + chunk.length < 2 ^ 63 by omega)
  refine ⟨⟨buf, cb, data⟩, { b' with len := buf.len + chunk.length }, rfl, rfl, by simp only [hrec],
    hroom, hlt, ?_, ?_⟩
  · rw [← hbytes]
    exact hlist
  · intro stopped
    have hsum : sizeT (b'.len + chunk.length) = buf.len + chunk.length := by
      rw [hlen', sizeT_of_lt (by omega)]
    unfold onRead
    rw [if_neg (by omega), hdata, Int.toNat_natCast]
    simp only [StreamData.rdCtx, hres, hcpy, hsum, Option.bind_eq_bind, Option.bind_some]

end Nbuf.Rpc
