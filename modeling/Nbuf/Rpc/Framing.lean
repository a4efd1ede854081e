import Nbuf.Rpc.Nrpc

set_option autoImplicit false

/-! # Framing of RPC messages

A message goes over the wire with its length in the first word, and `on_read` waits until that
many bytes are there. How the bytes are split into chunks does not matter. Events that bring no
bytes are another matter: `on_read` handles neither an empty read nor an error.
-/

namespace Nbuf.Rpc

open Run

/-! ## Bytes on the wire -/

/-- The bytes that `nrpc_write` sends. -/
def wire (msg : Buffer) : List UInt8 := (msg.mem.store 0 4 msg.len).toList 0 msg.len

theorem length_wire (msg : Buffer) : (wire msg).length = msg.len := ByteMem.length_toList _ _ _

section Message

variable {msg : Buffer}

theorem nrpcWrite_eq (hmin : 8 ≤ msg.len) (hmax : msg.len < 2 ^ 31) :
    nrpcWrite msg = some (wire msg) := by
  unfold nrpcWrite
  rw [writeIntSafe_of_le _ rfl (by omega) (by omega)]
  rfl

/-- A buffer with the first bytes of the wire agrees with it. -/
theorem mem_prefix_eq {b : Buffer} (hpre : b.bytes <+: wire msg) {i : Nat} (hi : i < b.len) :
    b.mem i = msg.mem.store 0 4 msg.len i := by
  have hlen : i < b.bytes.length := by rwa [Buffer.length_bytes]
  have hget := hpre.getElem hlen
  simpa [Buffer.bytes, wire, ByteMem.toList] using hget

theorem len_le_prefix_len {b : Buffer} (hpre : b.bytes <+: wire msg) : b.len ≤ msg.len := by
  have hle := hpre.length_le
  rwa [Buffer.length_bytes, length_wire] at hle

/-- Once the first word is there, it is the length of the message. -/
theorem msgLen_prefix_eq (hmax : msg.len < 2 ^ 31) {b : Buffer} (hpre : b.bytes <+: wire msg) :
    msgLen b = some (if 4 ≤ b.len then msg.len else 0) := by
  have hle := len_le_prefix_len hpre
  unfold msgLen
  by_cases hword : 4 ≤ b.len
  · have hload : b.mem.load 0 4 = msg.len := by
      calc b.mem.load 0 4 = (msg.mem.store 0 4 msg.len).load 0 4 :=
            ByteMem.load_congr fun i _ hi => mem_prefix_eq hpre (by omega)
        _ = msg.len % 256 ^ 4 := ByteMem.load_store _ _ _ _
        _ = msg.len := Nat.mod_eq_of_lt (by omega)
    have hsigned : ((msg.len : Int).bmod (256 ^ 4)) = msg.len :=
      Int.bmod_eq_of_le (by omega) (by omega)
    rw [if_pos hword, if_pos hword, readIntSafe_of_le rfl (by omega) (by omega), hload, hsigned]
    simp only [Option.map_some, Option.some.injEq]
    omega
  · rw [if_neg hword, if_neg hword]

/-- The reader puts the number of root elements back. -/
theorem bytes_restored (hroot : msg.mem.load 0 4 = 1) {b : Buffer} (hbytes : b.bytes = wire msg) :
    ({ b with mem := b.mem.store 0 4 1 } : Buffer).bytes = msg.bytes := by
  have hlen : b.len = msg.len := by rw [← Buffer.length_bytes, hbytes, length_wire]
  have hmem : ∀ i, i < msg.len → b.mem.store 0 4 1 i = msg.mem i := by
    intro i hi
    by_cases hword : i < 4
    · calc b.mem.store 0 4 1 i = UInt8.ofNat (1 / 256 ^ i) := by
            have := ByteMem.store_at b.mem 0 1 hword
            rwa [Nat.zero_add] at this
        _ = UInt8.ofNat (msg.mem.load 0 4 / 256 ^ i) := by rw [hroot]
        _ = msg.mem i := by
            have := ByteMem.byte_of_load msg.mem 0 hword
            rwa [Nat.zero_add] at this
    · have hsame := mem_prefix_eq (by rw [hbytes]) (show i < b.len by omega)
      rw [ByteMem.store_outside _ (by omega), hsame, ByteMem.store_outside _ (by omega)]
  show ByteMem.toList _ 0 b.len = ByteMem.toList _ 0 msg.len
  rw [hlen]
  exact ByteMem.toList_congr fun j hj => by
    rw [Nat.zero_add]
    exact hmem j hj

/-! ## Chunks -/

/-- **A chunk that does not complete the message** leaves the read pending. -/
theorem Pending.chunk (hmax : msg.len < 2 ^ 31) {s : Conn} {cb : Nat} {data : StreamData}
    {received : List UInt8} (h : Pending s cb data received) {e : Event} (he : e.IsChunk)
    (hpre : received ++ e.uvbuf <+: wire msg) (hless : received.length + e.uvbuf.length < msg.len) :
    ∃ s', onEvent s e = some s' ∧ Pending s' cb data (received ++ e.uvbuf) := by
  obtain ⟨ha, hne, hn⟩ := he
  obtain ⟨ctx, b, rfl, rfl, hlen, hle, hcap, hbytes, hread⟩ := h.onRead_eq ha
    (show received.length + e.uvbuf.length < 2 ^ 63 by omega)
  have hpos := List.length_pos_iff.mpr hne
  have hwait : onReadBuf 0 s.stream e.uvbuf.length ctx b
      = some ({ s.stream with data := .ctx b ctx.cb ctx.data }, none) := by
    unfold onReadBuf
    rw [msgLen_prefix_eq hmax (hbytes ▸ hpre)]
    simp only [Option.bind_eq_bind, Option.bind_some]
    rw [if_pos]
    · rfl
    · refine ⟨by omega, ?_⟩
      split_ifs <;> omega
  refine ⟨⟨{ s.stream with data := .ctx b ctx.cb ctx.data }, s.calls⟩, ?_, ?_⟩
  · unfold onEvent
    rw [hn, hread, hwait]
    simp
  · exact ⟨⟨b, rfl, hle, hcap, hbytes⟩, h.calls⟩

/-- **The chunk that completes the message** hands it to the callback, in a buffer with its room. -/
theorem Pending.complete (hmin : 8 ≤ msg.len) (hmax : msg.len < 2 ^ 31)
    (hroot : msg.mem.load 0 4 = 1) {s : Conn} {cb : Nat} {data : StreamData}
    {received : List UInt8} (h : Pending s cb data received) {e : Event} (he : e.IsChunk)
    (hall : received ++ e.uvbuf = wire msg) :
    ∃ b, onEvent s e = some ⟨⟨data, false⟩, [⟨cb, msg.len, b⟩]⟩ ∧ b.bytes = msg.bytes ∧
      b.len ≤ b.cap ∧ b.cap < 2 ^ 64 := by
  obtain ⟨ha, -, hn⟩ := he
  have htotal : received.length + e.uvbuf.length = msg.len := by
    rw [← length_wire, ← hall, List.length_append]
  obtain ⟨ctx, b, rfl, rfl, hlen, hle, hcap, hbytes, hread⟩ := h.onRead_eq ha
    (show received.length + e.uvbuf.length < 2 ^ 63 by omega)
  have hsame : b.bytes = wire msg := hbytes.trans hall
  have hdone : onReadBuf 0 s.stream e.uvbuf.length ctx b
      = some (⟨ctx.data, false⟩,
          some ⟨ctx.cb, msg.len, { b with mem := b.mem.store 0 4 1 }⟩) := by
    unfold onReadBuf
    rw [msgLen_prefix_eq hmax (by rw [hsame]), if_pos (show 4 ≤ b.len by omega)]
    simp only [Option.bind_eq_bind, Option.bind_some]
    rw [if_neg (by omega), if_neg (by omega), writeIntSafe_of_le _ rfl (by omega) (by omega)]
    rfl
  refine ⟨{ b with mem := b.mem.store 0 4 1 }, ?_, bytes_restored hroot hsame, hle, hcap⟩
  unfold onEvent
  rw [hn, hread, hdone, h.calls]
  rfl

theorem Pending.last (hmin : 8 ≤ msg.len) (hmax : msg.len < 2 ^ 31)
    (hroot : msg.mem.load 0 4 = 1) {s : Conn} {cb : Nat} {data : StreamData}
    {received : List UInt8} (h : Pending s cb data received) {e : Event} (he : e.IsChunk)
    (hall : received ++ e.uvbuf = wire msg) :
    ∃ s' b, onEvent s e = some s' ∧ s'.calls = [⟨cb, msg.len, b⟩] ∧ s'.stream.data = data ∧
      s'.stream.reading = false ∧ b.bytes = msg.bytes := by
  obtain ⟨b, hevent, hbytes, -⟩ := h.complete hmin hmax hroot he hall
  exact ⟨_, b, hevent, rfl, rfl, rfl, hbytes⟩

/-- While the message is incomplete, the read stays pending and no callback is called. -/
theorem Pending.run (hmax : msg.len < 2 ^ 31) {events : List Event}
    (hchunks : ∀ e ∈ events, e.IsChunk) {s : Conn} {cb : Nat} {data : StreamData}
    {received : List UInt8} (h : Pending s cb data received)
    (hpre : received ++ events.flatMap Event.uvbuf <+: wire msg)
    (hless : received ++ events.flatMap Event.uvbuf ≠ wire msg) :
    ∃ s', run onEvent s events = some s' ∧
      Pending s' cb data (received ++ events.flatMap Event.uvbuf) := by
  induction events generalizing s received with
  | nil => exact ⟨s, rfl, by simpa using h⟩
  | cons e events ih =>
      rw [List.flatMap_cons, ← List.append_assoc] at hpre hless ⊢
      have hlt : (received ++ e.uvbuf ++ events.flatMap Event.uvbuf).length < (wire msg).length := by
        rcases Nat.lt_or_ge _ (wire msg).length with hlt | hge
        · exact hlt
        · exact absurd (hpre.eq_of_length_le hge) hless
      rw [length_wire, List.length_append, List.length_append] at hlt
      obtain ⟨s1, hs1, hpend⟩ := h.chunk hmax (hchunks e (by simp))
        ((List.prefix_append _ _).trans hpre) (by omega)
      obtain ⟨s', hs', hpend'⟩ := ih (fun e' he' => hchunks e' (by simp [he'])) hpend hpre hless
      exact ⟨s', by rw [run_cons_of_eq hs1, hs'], hpend'⟩

/-- **RPC framing is independent of chunking.** However the bytes of a message are split, no
callback is called before the last chunk; on the last one the callback is called once with the
message as it was written, and the stream has its data back. -/
theorem framing_independent_of_chunks (hmin : 8 ≤ msg.len) (hmax : msg.len < 2 ^ 31)
    (hroot : msg.mem.load 0 4 = 1) {buf : Buffer} (hempty : buf.len = 0) (hcap : buf.cap < 2 ^ 64)
    (stream : Stream) (cb : Nat) :
    ∃ sent, nrpcWrite msg = some sent ∧ ∀ events : List Event, (∀ e ∈ events, e.IsChunk) →
      events.flatMap Event.uvbuf = sent →
        (∀ p q, events = p ++ q → q ≠ [] →
          ∃ s, run onEvent (Conn.read stream buf cb) p = some s ∧ s.calls = []) ∧
        ∃ s b, run onEvent (Conn.read stream buf cb) events = some s ∧
          s.calls = [⟨cb, msg.len, b⟩] ∧ s.stream.data = stream.data ∧
          s.stream.reading = false ∧ b.bytes = msg.bytes := by
  refine ⟨wire msg, nrpcWrite_eq hmin hmax, ?_⟩
  intro events hchunks hsent
  have hpend : ∀ p q, events = p ++ q → q ≠ [] →
      ∃ s, run onEvent (Conn.read stream buf cb) p = some s ∧
        Pending s cb stream.data (p.flatMap Event.uvbuf) := by
    rintro p q rfl hq
    rw [List.flatMap_append] at hsent
    have hless : [] ++ p.flatMap Event.uvbuf ≠ wire msg := by
      -- a chunk is missing, and it is not empty
      obtain ⟨e, q, rfl⟩ := List.exists_cons_of_ne_nil hq
      have hne := (hchunks e (by simp)).2.1
      rw [← hsent, List.nil_append, List.flatMap_cons]
      simp [hne]
    exact (pending_read stream cb hempty hcap).run hmax (fun e he => hchunks e (by simp [he]))
      (by simp [← hsent]) hless
  constructor
  · intro p q hp hq
    obtain ⟨s, hs, hpending⟩ := hpend p q hp hq
    exact ⟨s, hs, hpending.calls⟩
  · have hne : events ≠ [] := by
      rintro rfl
      have hlen := congrArg List.length hsent
      rw [length_wire] at hlen
      simp at hlen
      omega
    obtain ⟨pre, e, rfl⟩ := List.eq_nil_or_concat' events |>.resolve_left hne
    obtain ⟨s, hs, hpending⟩ := hpend pre [e] rfl (by simp)
    obtain ⟨s', b, hs', hresult⟩ := hpending.last hmin hmax hroot (hchunks e (by simp))
      (by simpa using hsent)
    exact ⟨s', b, by rw [run_append_of_eq hs, run_cons_of_eq hs']; rfl, hresult⟩

end Message

/-- The 16 bytes of a message: a header with one element of 8 bytes, and the element. -/
def sampleMsg : Buffer :=
  ⟨ByteMem.ofList [1, 0, 0, 0, 8, 0, 0, 0, 7, 0, 0, 0, 0, 0, 0, 0], 16, 16⟩

/-- The message in three chunks; the length word is split. -/
def sampleEvents : List Event :=
  [⟨granting 0, 3, [16, 0, 0]⟩, ⟨granting 0, 7, [0, 8, 0, 0, 0, 7, 0]⟩,
    ⟨granting 0, 6, [0, 0, 0, 0, 0, 0]⟩]

theorem sampleEvents_chunks : ∀ e ∈ sampleEvents, e.IsChunk := by
  intro e he
  simp only [sampleEvents, List.mem_cons, List.not_mem_nil, or_false] at he
  rcases he with rfl | rfl | rfl <;> exact ⟨fun _ => rfl, by simp, by simp⟩

/-- A stream that nobody reads. -/
def idleStream : Stream := ⟨.user 1, false⟩

theorem sampleEvents_framing :
    ∃ s b, run onEvent (Conn.read idleStream ⟨fun _ => 0, 0, 0⟩ 5) sampleEvents = some s ∧
      s.calls = [⟨5, 16, b⟩] ∧ b.bytes = sampleMsg.bytes := by
  obtain ⟨sent, hsent, hall⟩ := framing_independent_of_chunks (show 8 ≤ sampleMsg.len by decide)
    (by decide) (by decide) (show (⟨fun _ => 0, 0, 0⟩ : Buffer).len = 0 from rfl) (by decide)
    idleStream 5
  have hwire : nrpcWrite sampleMsg = some (sampleEvents.flatMap Event.uvbuf) := by decide
  obtain ⟨-, s, b, hs, hcalls, -, -, hbytes⟩ := hall sampleEvents sampleEvents_chunks
    (Option.some.inj (hwire.symm.trans hsent))
  exact ⟨s, b, hs, hcalls, hbytes⟩

/-! ## Empty reads and errors -/

/-- An empty read changes nothing: what has arrived stays and the read stays pending. -/
def IgnoresEmptyRead (s : Conn) (cb : Nat) (data : StreamData) (received : List UInt8)
    (a : Realloc) : Prop :=
  ∃ s', onEvent s ⟨a, 0, []⟩ = some s' ∧ Pending s' cb data received

/-- An error is handed to the callback with what has arrived. -/
def ReportsError (s : Conn) (cb : Nat) (data : StreamData) (received : List UInt8) (a : Realloc)
    (code : Int) (uvbuf : List UInt8) : Prop :=
  ∃ s' b, onEvent s ⟨a, code, uvbuf⟩ = some s' ∧ s'.calls = [⟨cb, code, b⟩] ∧
    b.bytes = received ∧ s'.stream.data = data

/-- **An empty read is taken for the end of the stream**: the callback is called with `-1`. -/
theorem Pending.empty_read {msg : Buffer} (hmax : msg.len < 2 ^ 31) {s : Conn} {cb : Nat}
    {data : StreamData} {received : List UInt8} (h : Pending s cb data received) {a : Realloc}
    (ha : a.Total) (hpre : received <+: wire msg) (hless : received ≠ wire msg) :
    ∃ s' b, onEvent s ⟨a, 0, []⟩ = some s' ∧ s'.calls = [⟨cb, -1, b⟩] ∧ b.bytes = received ∧
      s'.stream.data = data := by
  have hlt : received.length < msg.len := by
    rcases Nat.lt_or_ge received.length (wire msg).length with hlt | hge
    · rwa [length_wire] at hlt
    · exact absurd (hpre.eq_of_length_le hge) hless
  obtain ⟨ctx, b, rfl, rfl, hlen, -, -, hbytes, hread⟩ := h.onRead_eq ha
    (show received.length + ([] : List UInt8).length < 2 ^ 63 by simp; omega)
  rw [List.append_nil] at hbytes
  rw [List.length_nil, Nat.add_zero] at hlen
  have hdone : onReadBuf 0 s.stream 0 ctx b
      = some ({ s.stream with data := ctx.data }, some ⟨ctx.cb, -1, b⟩) := by
    unfold onReadBuf
    rw [msgLen_prefix_eq hmax (hbytes ▸ hpre)]
    simp only [Option.bind_eq_bind, Option.bind_some]
    rw [if_neg (by omega), if_pos]
    · rfl
    · split_ifs <;> omega
  refine ⟨⟨{ s.stream with data := ctx.data }, [⟨ctx.cb, -1, b⟩]⟩, b, ?_, rfl, hbytes, rfl⟩
  have hread0 : onRead a 0 s.stream 0 [] = onReadBuf 0 s.stream 0 ctx b := hread 0
  unfold onEvent
  rw [hread0, hdone, h.calls]
  rfl

/-- **The error path uses variables that are not assigned.** -/
theorem onEvent_error (s : Conn) (a : Realloc) {code : Int} (hcode : code < 0)
    (uvbuf : List UInt8) : onEvent s ⟨a, code, uvbuf⟩ = none := by
  unfold onEvent onRead
  rw [if_pos hcode]
  rfl

/-- **Neither an empty read nor an error is handled**, whatever part of a message has arrived in
whatever chunks. -/
theorem incomplete_read_unhandled {msg : Buffer} (hmin : 8 ≤ msg.len) (hmax : msg.len < 2 ^ 31)
    {buf : Buffer} (hempty : buf.len = 0) (hcap : buf.cap < 2 ^ 64) (stream : Stream) (cb : Nat) :
    ∃ sent, nrpcWrite msg = some sent ∧ ∀ (events : List Event) (received : List UInt8),
      (∀ e ∈ events, e.IsChunk) → events.flatMap Event.uvbuf = received → received <+: sent →
      received ≠ sent →
        ∃ s, run onEvent (Conn.read stream buf cb) events = some s ∧
          Pending s cb stream.data received ∧
          (∀ a : Realloc, a.Total → ¬ IgnoresEmptyRead s cb stream.data received a) ∧
          ∀ a code uvbuf, code < 0 → ¬ ReportsError s cb stream.data received a code uvbuf := by
  refine ⟨wire msg, nrpcWrite_eq hmin hmax, ?_⟩
  rintro events received hchunks rfl hpre hless
  obtain ⟨s, hs, hpend⟩ := (pending_read stream cb hempty hcap).run hmax hchunks hpre hless
  refine ⟨s, hs, hpend, ?_, ?_⟩
  · rintro a ha ⟨s', hs', hpend'⟩
    obtain ⟨s1, b, hs1, hcalls, -⟩ := hpend.empty_read hmax ha hpre hless
    cases hs1.symm.trans hs'
    rw [hpend'.calls] at hcalls
    cases hcalls
  · rintro a code uvbuf hcode ⟨s', b, hs', -⟩
    rw [onEvent_error s a hcode uvbuf] at hs'
    cases hs'

theorem sampleMsg_unhandled :
    ∃ s, run onEvent (Conn.read idleStream ⟨fun _ => 0, 0, 0⟩ 5) [⟨granting 0, 3, [16, 0, 0]⟩]
        = some s ∧ ¬ IgnoresEmptyRead s 5 idleStream.data [16, 0, 0] (granting 0) := by
  obtain ⟨sent, hsent, hall⟩ := incomplete_read_unhandled (show 8 ≤ sampleMsg.len by decide)
    (by decide) (show (⟨fun _ => 0, 0, 0⟩ : Buffer).len = 0 from rfl) (by decide) idleStream 5
  have hwire : nrpcWrite sampleMsg = some (sampleEvents.flatMap Event.uvbuf) := by decide
  cases hwire.symm.trans hsent
  obtain ⟨s, hs, -, hignore, -⟩ := hall [⟨granting 0, 3, [16, 0, 0]⟩] [16, 0, 0]
    (fun e he => sampleEvents_chunks e (by simp_all [sampleEvents])) rfl (by decide) (by decide)
  exact ⟨s, hs, hignore _ fun _ => rfl⟩

/-- After the first chunk of the sample, an empty read calls the callback with `-1` and an error
has no outcome. -/
theorem sampleMsg_error_undefined :
    ∃ s, run onEvent (Conn.read idleStream ⟨fun _ => 0, 0, 0⟩ 5)
        [⟨granting 0, 3, [16, 0, 0]⟩] = some s ∧ s.calls = [] ∧
      ((onEvent s ⟨granting 1, 0, []⟩).map fun s => s.calls.map ReadDone.nread) = some [-1] ∧
      onEvent s ⟨granting 1, -4095, []⟩ = none :=
  ⟨_, rfl, rfl, by decide, rfl⟩

end Nbuf.Rpc
