import Nbuf.Rpc.Framing

set_option autoImplicit false

/-! # Requests and replies (`rpc/echoserver.c`, `rpc/nrpc_cli.c`)

A client and a server on one connection. The client writes its request when it is connected, and
starts to read when it is told that the request is written; the server reads from the start and
writes its reply when the callback of its read is called. The bytes of either direction arrive in
order and in chunks of any size, and the two directions and the end of the client's write come in
any order. What the server makes of a request is a parameter.
-/

namespace Nbuf.Rpc

open Run

/-! ## Both ends -/

/-- The connection with the bytes that are on their way, and whether `on_write_end` of the client has
been called. -/
structure Net where
  client : Conn
  server : Conn
  toServer : List UInt8
  toClient : List UInt8
  written : Bool

/-- What can happen next: `uv_write` of the client ends, or `n` bytes arrive at an end, where
`realloc` answers with `a`. -/
inductive Act where
  | writeEnd
  | toServer (a : Realloc) (n : Nat)
  | toClient (a : Realloc) (n : Nat)

/-- libuv calls back once for a write, and for bytes only while the stream is read. Memory is
granted. -/
def Net.Enabled (s : Net) : Act → Prop
  | .writeEnd => s.written = false
  | .toServer a n => a.Total ∧ s.server.stream.reading = true ∧ 0 < n ∧ n ≤ s.toServer.length
  | .toClient a n => a.Total ∧ s.client.stream.reading = true ∧ 0 < n ∧ n ≤ s.toClient.length

/-- The buffer that the client reads into: `nbuf_init_write` on the memory of the request, of which
`nrpc_write` has replaced the first word, and `nbuf_clear`. -/
def reusedBuffer (req : Buffer) : Buffer := initWrite (req.mem.store 0 4 req.len) req.len

section

variable (serve : Buffer → Option Buffer) (req : Buffer) (cstream sstream : Stream)

/-- The server's callback on a read that is done: a failed read is fatal, and the reply is put on
the stream. -/
def serverDone (done : ReadDone) : Option (List UInt8) :=
  if done.nread < 0 then none else do
    let reply ← serve done.buf
    nrpcWrite reply

/-- The callbacks that the server's stream has called since `before`, answered in turn. -/
def answers (before : Nat) (calls : List ReadDone) : Option (List UInt8) :=
  run (fun out done => (serverDone serve done).map fun bytes => out ++ bytes) [] (calls.drop before)

/-- One step of the connection. The number of the client's callback is `1`, that of the server's
`0`. -/
def Net.step (s : Net) : Act → Option Net
  | .writeEnd =>
      some { s with client := Conn.read s.client.stream (reusedBuffer req) 1, written := true }
  | .toServer a n => do
      let server ← onEvent s.server ⟨a, n, s.toServer.take n⟩
      let out ← answers serve s.server.calls.length server.calls
      pure { s with
        server := server
        toServer := s.toServer.drop n
        toClient := s.toClient ++ out }
  | .toClient a n => do
      let client ← onEvent s.client ⟨a, n, s.toClient.take n⟩
      pure { s with client := client, toClient := s.toClient.drop n }

/-- The connection after `on_connect` of both ends: the request is on its way, and the server
reads into an empty buffer. -/
def Net.start : Net where
  client := ⟨cstream, []⟩
  server := Conn.read sstream (initWrite (fun _ => 0) 0) 0
  toServer := (nrpcWrite req).getD []
  toClient := []
  written := false

end

/-! ## One end -/

/-- A read is pending at this end, and the rest of the message is on its way. -/
def Receiving (c : Conn) (cb : Nat) (data : StreamData) (rest : List UInt8) (msg : Buffer) : Prop :=
  c.stream.reading = true ∧ rest ≠ [] ∧
    ∃ received, Pending c cb data received ∧ received ++ rest = wire msg

/-- The message has been handed to the callback, once. -/
def Received (c : Conn) (cb : Nat) (msg : Buffer) : Prop :=
  c.stream.reading = false ∧ ∃ b, c.calls = [⟨cb, msg.len, b⟩] ∧ b.bytes = msg.bytes

/-- A message of the length that `nrpc_write` and `on_read` handle. -/
structure Sendable (msg : Buffer) : Prop where
  min : 8 ≤ msg.len
  max : msg.len < 2 ^ 31
  root : msg.mem.load 0 4 = 1

theorem wire_ne_nil {msg : Buffer} (h : Sendable msg) : wire msg ≠ [] := by
  intro hnil
  have := length_wire msg
  rw [hnil] at this
  have := h.min
  simp at *
  omega

theorem mem_eq_of_bytes {msg msg' : Buffer} (h : msg.bytes = msg'.bytes) :
    msg.len = msg'.len ∧ ∀ i < msg.len, msg.mem i = msg'.mem i := by
  have hlen : msg.len = msg'.len := by rw [← Buffer.length_bytes, h, Buffer.length_bytes]
  refine ⟨hlen, fun i hi => ?_⟩
  have hi' : i < msg'.len := hlen ▸ hi
  have hget := congrArg (fun l : List UInt8 => l[i]?) h
  simpa [Buffer.bytes, ByteMem.toList, hi, hi'] using hget

/-- What is put on the wire depends on the bytes of the message alone. -/
theorem wire_congr {msg msg' : Buffer} (h : msg.bytes = msg'.bytes) : wire msg = wire msg' := by
  obtain ⟨hlen, hmem⟩ := mem_eq_of_bytes h
  unfold wire
  rw [hlen]
  refine ByteMem.toList_congr fun i hi => ?_
  unfold ByteMem.store
  split_ifs
  · rfl
  · exact hmem _ (by omega)

theorem Sendable.congr {msg msg' : Buffer} (h : Sendable msg) (hbytes : msg.bytes = msg'.bytes) :
    Sendable msg' := by
  obtain ⟨hlen, hmem⟩ := mem_eq_of_bytes hbytes
  have hmin := h.min
  refine ⟨hlen ▸ h.min, hlen ▸ h.max, ?_⟩
  rw [← h.root]
  exact ByteMem.load_congr fun i _ hi => (hmem i (by omega)).symm

/-- An event that calls no callback leaves the stream as it is read. -/
theorem onEvent_reading {c c' : Conn} {e : Event} (h : onEvent c e = some c')
    (hcalls : c'.calls = c.calls) : c'.stream.reading = c.stream.reading := by
  obtain ⟨⟨stream, call⟩, hread, rfl⟩ := Option.map_eq_some_iff.mp h
  have hnone : call = none := by
    cases call with
    | none => rfl
    | some done => simp at hcalls
  subst hnone
  unfold onRead at hread
  split_ifs at hread
  · cases hread
  · simp only [Option.bind_eq_bind, Option.bind_eq_some_iff] at hread
    obtain ⟨ctx, -, ⟨ok, b⟩, -, b', -, hbuf⟩ := hread
    unfold onReadBuf at hbuf
    simp only [Option.bind_eq_bind, Option.bind_eq_some_iff] at hbuf
    obtain ⟨len, -, hbuf⟩ := hbuf
    split_ifs at hbuf
    · cases hbuf
      rfl
    · cases hbuf
    · obtain ⟨b'', -, hdone⟩ := Option.bind_eq_some_iff.mp hbuf
      cases hdone

/-- **Bytes arrive at an end** that receives a message: it goes on, or the message is complete. -/
theorem Receiving.event {c : Conn} {cb : Nat} {data : StreamData} {rest : List UInt8} {msg : Buffer}
    (h : Receiving c cb data rest msg) (hmsg : Sendable msg) {a : Realloc} (ha : a.Total) {n : Nat}
    (hpos : 0 < n) (hn : n ≤ rest.length) :
    ∃ c', onEvent c ⟨a, n, rest.take n⟩ = some c' ∧
      (c'.calls = [] ∧ n < rest.length ∧ Receiving c' cb data (rest.drop n) msg ∨
        ∃ b, c'.calls = [⟨cb, msg.len, b⟩] ∧ n = rest.length ∧ Received c' cb msg ∧
          b.bytes = msg.bytes ∧ b.len ≤ b.cap ∧ b.cap < 2 ^ 64) := by
  obtain ⟨hread, -, received, hpend, hall⟩ := h
  have htake : (rest.take n).length = n := List.length_take_of_le hn
  have hchunk : (⟨a, n, rest.take n⟩ : Event).IsChunk :=
    ⟨ha, List.ne_nil_of_length_pos (l := rest.take n) (by omega), by rw [htake]⟩
  have hlen : received.length + rest.length = msg.len := by
    rw [← length_wire, ← hall, List.length_append]
  by_cases hlast : n = rest.length
  · have hwhole : received ++ rest.take n = wire msg := by rw [hlast, List.take_length, hall]
    obtain ⟨b, hevent, hbytes, hle, hcap⟩ :=
      hpend.complete hmsg.min hmsg.max hmsg.root hchunk hwhole
    exact ⟨_, hevent, Or.inr ⟨b, rfl, hlast, ⟨rfl, b, rfl, hbytes⟩, hbytes, hle, hcap⟩⟩
  · have hless : received.length + (rest.take n).length < msg.len := by omega
    obtain ⟨c', hevent, hpend'⟩ := hpend.chunk hmsg.max hchunk
      (by rw [← hall]; exact (List.prefix_append_right_inj _).mpr (List.take_prefix _ _)) hless
    refine ⟨c', hevent, Or.inl ⟨hpend'.calls, by omega, ?_, ?_, _, hpend', ?_⟩⟩
    · rw [onEvent_reading hevent (hpend'.calls.trans hpend.calls.symm), hread]
    · exact List.ne_nil_of_length_pos (by rw [List.length_drop]; omega)
    · rw [List.append_assoc, List.take_append_drop, hall]

/-! ## The invariant of the connection -/

section

variable {serve : Buffer → Option Buffer} {req reply : Buffer} {cstream sstream : Stream}

/-- The server serves the request with the reply, whatever buffer the request arrives in. -/
def Serves (serve : Buffer → Option Buffer) (req reply : Buffer) : Prop :=
  ∀ b, b.bytes = req.bytes → b.len ≤ b.cap → b.cap < 2 ^ 64 →
    ∃ r, serve b = some r ∧ r.bytes = reply.bytes

/-- The server waits for the request, or it has been called with it once and has put the reply on the
stream. `out` is what it has put there. -/
inductive ServerAt (req reply : Buffer) (data : StreamData) (s : Net) : List UInt8 → Prop
  | waiting (h : Receiving s.server 0 data s.toServer req) (hcalls : s.server.calls = []) :
      ServerAt req reply data s []
  | replied (h : Received s.server 0 req) (hnone : s.toServer = []) :
      ServerAt req reply data s (wire reply)

/-- The client is still writing, or it reads, or it has been called with the reply once. -/
inductive ClientAt (reply : Buffer) (stream : Stream) (s : Net) (out : List UInt8) : Prop
  | writing (hwritten : s.written = false) (hclient : s.client = ⟨stream, []⟩)
      (hway : s.toClient = out)
  | reading (hwritten : s.written = true) (hread : s.client.stream.reading = true)
      (received : List UInt8) (hpend : Pending s.client 1 stream.data received)
      (hway : received ++ s.toClient = out) (hrest : s.toClient = [] → out = [])
  | done (hwritten : s.written = true) (h : Received s.client 1 reply) (hnone : s.toClient = [])
      (hout : out = wire reply)

/-- **The invariant**: both ends agree on what the server has put on the stream. -/
def Net.Inv (req reply : Buffer) (cstream sstream : Stream) (s : Net) : Prop :=
  ∃ out, ServerAt req reply sstream.data s out ∧ ClientAt reply cstream s out

/-- The steps that are left, at most. -/
def Net.left (reply : Buffer) (s : Net) : Nat :=
  s.toServer.length + s.toClient.length + (if s.server.calls.isEmpty then reply.len else 0) +
    if s.written then 0 else 1

theorem inv_start (hreq : Sendable req) :
    (Net.start req cstream sstream).Inv req reply cstream sstream := by
  have hsent : (Net.start req cstream sstream).toServer = wire req := by
    show (nrpcWrite req).getD [] = wire req
    rw [nrpcWrite_eq hreq.min hreq.max]
    rfl
  refine ⟨[], .waiting ⟨rfl, hsent ▸ wire_ne_nil hreq, [], ?_, hsent⟩ rfl, .writing rfl rfl rfl⟩
  exact pending_read sstream 0 rfl (show 0 < 2 ^ 64 by decide)

/-- The client starts to read. -/
theorem ClientAt.writeEnd {s : Net} {out : List UInt8} (h : ClientAt reply cstream s out)
    (hw : s.written = false) (hreq : req.len < 2 ^ 64) :
    ClientAt reply cstream
      { s with client := Conn.read s.client.stream (reusedBuffer req) 1, written := true } out := by
  cases h with
  | writing _ hclient hway =>
      refine .reading rfl rfl [] ?_ hway fun hnil => hway ▸ hnil
      rw [hclient]
      exact pending_read cstream 1 rfl hreq
  | reading hwritten => rw [hw] at hwritten; cases hwritten
  | done hwritten => rw [hw] at hwritten; cases hwritten

/-- The reply is put behind nothing. -/
theorem ClientAt.replied {s s' : Net} (h : ClientAt reply cstream s []) (hreply : Sendable reply)
    (hclient : s'.client = s.client) (hwritten : s'.written = s.written)
    (hway : s'.toClient = s.toClient ++ wire reply) : ClientAt reply cstream s' (wire reply) := by
  have hne := wire_ne_nil hreply
  cases h with
  | writing hw hc hnil => exact .writing (hwritten.trans hw) (hclient.trans hc) (by simp [hway, hnil])
  | reading hw hread received hpend hnil =>
      obtain ⟨rfl, hto⟩ := List.append_eq_nil_iff.mp hnil
      refine .reading (hwritten.trans hw) (hclient ▸ hread) [] (hclient ▸ hpend) (by simp [hway, hto])
        fun hnone => ?_
      rw [hway, hto, List.nil_append] at hnone
      exact hnone
  | done _ _ _ hout => exact absurd hout.symm hne

/-- A server that reads is still waiting, and one that is called answers. -/
theorem answers_replied (hserve : Serves serve req reply) (hreply : Sendable reply) {b : Buffer}
    (hbytes : b.bytes = req.bytes) (hle : b.len ≤ b.cap) (hcap : b.cap < 2 ^ 64) :
    answers serve 0 [⟨0, req.len, b⟩] = some (wire reply) := by
  obtain ⟨r, hr, hrb⟩ := hserve b hbytes hle hcap
  have hsend := hreply.congr hrb.symm
  have hdone : serverDone serve ⟨0, req.len, b⟩ = some (wire reply) := by
    unfold serverDone
    rw [if_neg (Int.not_lt.mpr (Int.natCast_nonneg req.len))]
    simp only [hr, Option.bind_eq_bind, Option.bind_some]
    rw [nrpcWrite_eq hsend.min hsend.max, wire_congr hrb]
  unfold answers
  rw [List.drop_zero, run_cons, hdone]
  rfl

/-- **One step** of the connection succeeds, keeps the invariant and brings the end nearer. -/
theorem Net.Inv.step (hreq : Sendable req) (hreply : Sendable reply)
    (hserve : Serves serve req reply) (hidle : cstream.reading = false) {s : Net} (h : s.Inv req reply cstream sstream) {a : Act}
    (ha : s.Enabled a) :
    ∃ s', s.step serve req a = some s' ∧ s'.Inv req reply cstream sstream ∧
      s'.left reply < s.left reply := by
  obtain ⟨out, hserver, hclient⟩ := h
  cases a with
  | writeEnd =>
      have hw : s.written = false := ha
      refine ⟨_, rfl, ⟨out, ?_, hclient.writeEnd hw (by have := hreq.max; omega)⟩, ?_⟩
      · cases hserver with
        | waiting h hcalls => exact .waiting h hcalls
        | replied h hnone => exact .replied h hnone
      · simp [Net.left, hw]
  | toServer a n =>
      obtain ⟨htotal, hread, hpos, hn⟩ := ha
      cases hserver with
      | replied h =>
          rw [h.1] at hread
          cases hread
      | waiting h hcalls =>
          obtain ⟨server, hevent, ⟨hc, hlt, hrec⟩ | ⟨b, hc, hlast, hrec, hbytes, hle, hcap⟩⟩ :=
            h.event hreq htotal hpos hn
          · have hans : answers serve s.server.calls.length server.calls = some [] := by
              rw [hc, hcalls]
              rfl
            refine ⟨{ s with server := server, toServer := s.toServer.drop n }, ?_,
              ⟨[], .waiting hrec hc, ?_⟩, ?_⟩
            · unfold Net.step
              simp [hevent, hans]
            · cases hclient with
              | writing hw hcl hway => exact .writing hw hcl hway
              | reading hw hr received hpend hway hrest =>
                  exact .reading hw hr received hpend hway hrest
              | done hw hd hnone hout => exact .done hw hd hnone hout
            · simp only [Net.left, hc, hcalls, List.length_drop]
              omega
          · have hans : answers serve s.server.calls.length server.calls = some (wire reply) := by
              rw [hcalls, hc]
              exact answers_replied hserve hreply hbytes hle hcap
            refine ⟨{ s with
                server := server
                toServer := s.toServer.drop n
                toClient := s.toClient ++ wire reply }, ?_,
              ⟨wire reply, .replied hrec ?_, hclient.replied hreply rfl rfl rfl⟩, ?_⟩
            · unfold Net.step
              simp [hevent, hans]
            · show s.toServer.drop n = []
              rw [hlast, List.drop_length]
            · simp only [Net.left, hc, hcalls, List.length_drop, List.length_append, length_wire,
                List.isEmpty_nil, List.isEmpty_cons]
              simp only [if_true, Bool.false_eq_true, if_false]
              omega
  | toClient a n =>
      obtain ⟨htotal, hread, hpos, hn⟩ := ha
      cases hclient with
      | writing _ hcl =>
          rw [hcl, hidle] at hread
          cases hread
      | done _ hd =>
          rw [hd.1] at hread
          cases hread
      | reading hw _ received hpend hway hrest =>
          have hne : s.toClient ≠ [] := List.ne_nil_of_length_pos (by omega)
          cases hserver with
          | waiting => exact absurd (List.append_eq_nil_iff.mp hway).2 hne
          | replied hsr hnone =>
              have hrec : Receiving s.client 1 cstream.data s.toClient reply :=
                ⟨hread, hne, received, hpend, hway⟩
              obtain ⟨client, hevent, hnext⟩ := hrec.event hreply htotal hpos hn
              refine ⟨{ s with client := client, toClient := s.toClient.drop n }, ?_,
                ⟨wire reply, .replied hsr hnone, ?_⟩, ?_⟩
              · unfold Net.step
                simp [hevent]
              · rcases hnext with ⟨-, -, hr, hrest', received', hpend', hway'⟩ | ⟨b, -, hlast, hrec', -⟩
                · exact .reading hw hr received' hpend' hway' fun hnil => absurd hnil hrest'
                · exact .done hw hrec' (by rw [hlast, List.drop_length]) rfl
              · simp only [Net.left, List.length_drop]
                omega

/-- **A connection at rest** has handed the reply to the client. -/
theorem Net.Inv.at_rest (hreply : Sendable reply) {s : Net} (h : s.Inv req reply cstream sstream)
    (hrest : ∀ a, ¬ s.Enabled a) : Received s.client 1 reply := by
  obtain ⟨out, hserver, hclient⟩ := h
  have hgrant : Realloc.Total (granting 0) := fun _ => rfl
  cases hserver with
  | waiting h =>
      have hlen := List.length_pos_iff.mpr h.2.1
      exact absurd ⟨hgrant, h.1, Nat.one_pos, hlen⟩ (hrest (.toServer (granting 0) 1))
  | replied =>
      cases hclient with
      | writing hw => exact absurd hw (hrest .writeEnd)
      | reading _ hread _ _ _ hnil =>
          have hne : s.toClient ≠ [] := fun h => wire_ne_nil hreply (hnil h)
          have hlen := List.length_pos_iff.mpr hne
          exact absurd ⟨hgrant, hread, Nat.one_pos, hlen⟩ (hrest (.toClient (granting 0) 1))
      | done _ hd => exact hd

/-- What the server and the client have been called with. -/
theorem Net.Inv.calls (hreply : Sendable reply) {s : Net}
    (h : s.Inv req reply cstream sstream) :
    (s.server.calls = [] ∨ ∃ b, s.server.calls = [⟨0, req.len, b⟩] ∧ b.bytes = req.bytes) ∧
      (s.client.calls = [] ∨ s.server.calls ≠ [] ∧
        ∃ b, s.client.calls = [⟨1, reply.len, b⟩] ∧ b.bytes = reply.bytes) := by
  obtain ⟨out, hserver, hclient⟩ := h
  constructor
  · cases hserver with
    | waiting _ hcalls => exact Or.inl hcalls
    | replied h => exact Or.inr h.2
  · cases hclient with
    | writing _ hcl => exact Or.inl (by rw [hcl])
    | reading _ _ _ hpend => exact Or.inl hpend.calls
    | done _ hd _ hout =>
        cases hserver with
        | waiting => exact absurd hout.symm (wire_ne_nil hreply)
        | replied h =>
            obtain ⟨b, hcalls, -⟩ := h.2
            exact Or.inr ⟨by rw [hcalls]; exact List.cons_ne_nil _ _, hd.2⟩

/-- **Every run** succeeds and keeps the invariant. -/
theorem run_inv (hreq : Sendable req) (hreply : Sendable reply) (hserve : Serves serve req reply)
    (hidle : cstream.reading = false) {acts : List Act}
    (hacts : AllSteps (Net.step serve req) Net.Enabled (Net.start req cstream sstream) acts) :
    ∃ s, run (Net.step serve req) (Net.start req cstream sstream) acts = some s ∧
      s.Inv req reply cstream sstream := by
  have hkeep : ∀ (s : Net) a, s.Inv req reply cstream sstream → s.Enabled a →
      ∃ s', s.step serve req a = some s' ∧ s'.Inv req reply cstream sstream := by
    intro s a hs ha
    obtain ⟨s', hstep, hs', -⟩ := hs.step hreq hreply hserve hidle ha
    exact ⟨s', hstep, hs'⟩
  exact run_invariant hkeep (inv_start hreq) hacts

/-- **A request and its reply.** However the bytes of both directions are split and whatever comes
first, no step of a connection fails; the server is called with the request at most once, and the
client at most once, with the reply, and only when the server has been called. The steps are
bounded, and when none is left the client has been called. -/
theorem request_reply (hreq : Sendable req) (hreply : Sendable reply)
    (hserve : Serves serve req reply) (hidle : cstream.reading = false) {acts : List Act}
    (hacts : AllSteps (Net.step serve req) Net.Enabled (Net.start req cstream sstream) acts) :
    ∃ s, run (Net.step serve req) (Net.start req cstream sstream) acts = some s ∧
      (s.server.calls = [] ∨ ∃ b, s.server.calls = [⟨0, req.len, b⟩] ∧ b.bytes = req.bytes) ∧
      (s.client.calls = [] ∨ s.server.calls ≠ [] ∧
        ∃ b, s.client.calls = [⟨1, reply.len, b⟩] ∧ b.bytes = reply.bytes) ∧
      acts.length ≤ req.len + reply.len + 1 ∧
      ((∀ a, ¬ s.Enabled a) →
        ∃ b, s.client.calls = [⟨1, reply.len, b⟩] ∧ b.bytes = reply.bytes) := by
  have hstart : (Net.start req cstream sstream).Inv req reply cstream sstream := inv_start hreq
  have hless : ∀ (s : Net) a s', s.Inv req reply cstream sstream → s.Enabled a →
      s.step serve req a = some s' →
      s'.Inv req reply cstream sstream ∧ s'.left reply < s.left reply := by
    intro s a s' hs ha hstep
    obtain ⟨s1, hstep1, hs1, hlt⟩ := hs.step hreq hreply hserve hidle ha
    obtain rfl := Option.some.inj (hstep.symm.trans hstep1)
    exact ⟨hs1, hlt⟩
  obtain ⟨s, hrun, hinv⟩ := run_inv hreq hreply hserve hidle hacts
  have hlength := run_length_le hless hstart hacts hrun
  have hleft : (Net.start req cstream sstream).left reply = req.len + reply.len + 1 := by
    have hsent : (Net.start req cstream sstream).toServer.length = req.len := by
      show ((nrpcWrite req).getD []).length = req.len
      rw [nrpcWrite_eq hreq.min hreq.max, Option.getD_some, length_wire]
    unfold Net.left
    rw [hsent]
    simp [Net.start, Conn.read]
  exact ⟨s, hrun, (hinv.calls hreply).1, (hinv.calls hreply).2, by omega,
    fun hrest => (hinv.at_rest hreply hrest).2⟩

end

/-- The request is on its way in one piece when the client's write ends, and is answered with
itself. -/
theorem sampleMsg_echoed : ∃ s, run (Net.step some sampleMsg)
    (Net.start sampleMsg idleStream idleStream) [.toServer (granting 0) 16, .writeEnd] = some s ∧
      (s.client.calls = [] ∨ s.server.calls ≠ [] ∧
        ∃ b, s.client.calls = [⟨1, 16, b⟩] ∧ b.bytes = sampleMsg.bytes) := by
  have hsend : Sendable sampleMsg := ⟨by decide, by decide, by decide⟩
  have hserve : Serves some sampleMsg sampleMsg := fun b hb _ _ => ⟨b, rfl, hb⟩
  have hacts : AllSteps (Net.step some sampleMsg) Net.Enabled
      (Net.start sampleMsg idleStream idleStream) [.toServer (granting 0) 16, .writeEnd] := by
    refine ⟨⟨fun _ => rfl, rfl, by decide, by decide⟩, fun s hs => ⟨?_, fun _ _ => trivial⟩⟩
    obtain rfl := Option.some.inj hs
    rfl
  obtain ⟨s, hrun, -, hclient, -⟩ := request_reply hsend hsend hserve rfl hacts
  exact ⟨s, hrun, hclient⟩

end Nbuf.Rpc
