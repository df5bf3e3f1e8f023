/-
  Requests from the client to the server (`SendRequest` in `mysql_proxy_api.cpp`, `Worker` in
  `mysql_proxy_server.cpp`).

  The stream of a client is one packet after the other, so `ParsePacket` always stands at the
  beginning of one: `Aligned` is what a worker keeps from call to call, a residue that is a proper
  beginning of the next packet.  From this follows, for every way of cutting the stream, that the
  server dispatches exactly the requests, in order, and is left with nothing
  (`worker_requests`).
-/
import MysqlProxy.Proxy.Worker
import MysqlProxy.Lib.CString

namespace MysqlProxy

/-! ## The client's packets -/

/-- A request: `mysql->appname` is a C string in 128 bytes, the content is encrypted. -/
structure Request where
  appname : List UInt8
  no_nul : (0 : UInt8) ∉ appname
  appname_le : appname.length ≤ 127
  sequence : UInt64
  content : List UInt8

namespace Request

/-- The fields `SendRequest` puts into the tree. -/
def packet (r : Request) : ProxyPacket := ⟨r.appname, r.sequence, 0, r.content⟩

end Request

/-- `SendRequest` up to `send_in_time`: the packet, from the `appname` member and a sequence number. -/
def sendRequest (appname : List UInt8) (sequence : UInt64) (content : List UInt8) :
    Except KnvError (List UInt8) :=
  packPacket ⟨cString appname, sequence, 0, content⟩

/-- `mysql->appname` with the NUL behind the name. -/
theorem cString_appname {name : List UInt8} (h : (0 : UInt8) ∉ name) (tail : List UInt8) :
    cString (name ++ 0 :: tail) = name := by
  unfold cString
  rw [List.takeWhile_append_of_pos, List.takeWhile_cons_of_neg (by simp), List.append_nil]
  intro b hb
  simp
  exact fun h0 => h (h0 ▸ hb)

/-- `SendRequest` always has a packet to send. -/
theorem sendRequest_eq (r : Request) (tail : List UInt8) :
    sendRequest (r.appname ++ 0 :: tail) r.sequence r.content = .ok (frame r.packet.message) := by
  unfold sendRequest
  rw [cString_appname r.no_nul]
  exact packPacket_eq (p := r.packet) (by have := r.appname_le; show r.appname.length < _; omega)

/-! ## Frames -/

/-- The bytes of a list of messages. -/
def stream (msgs : List (List UInt8)) : List UInt8 := (msgs.map frame).flatten

theorem stream_cons (m : List UInt8) (ms : List (List UInt8)) :
    stream (m :: ms) = frame m ++ stream ms := by
  unfold stream
  rw [List.map_cons, List.flatten_cons]

/-- The residue `r` is less than the first of the messages that are still to come. -/
structure Aligned (r f : List UInt8) (msgs : List (List UInt8)) : Prop where
  eq : r ++ f = stream msgs
  short : ∀ m ms, msgs = m :: ms → r.length < (frame m).length

/-- **One call of `ParsePacket`** on the beginning of a stream of packets within the limit takes the
    packets that are complete. -/
theorem parseLoop_stream {f : List UInt8} {n packet : Nat} {q : List UInt8}
    {msgs : List (List UInt8)} (hq : q ++ f = stream msgs)
    (hmsgs : ∀ m ∈ msgs, m ≠ [] ∧ WithinLimit m) (hn : q.length < n)
    (haddr : packet + q.length + MAX_REQUEST_PACKET_LENGTH ≤ 2 ^ 64) :
    ∃ ms₁ ms₂ r, msgs = ms₁ ++ ms₂ ∧ (parseLoop n packet q).messages = ms₁ ∧
      (parseLoop n packet q).residue = some r ∧ Aligned r f ms₂ := by
  have hmax : MAX_REQUEST_PACKET_LENGTH = 4112 := rfl
  have h16 : PACKET_HEADER_LENGTH = 16 := rfl
  induction n generalizing packet q msgs with
  | zero => omega
  | succ n ih =>
    rw [parseLoop]
    by_cases hshort : q.length ≤ PACKET_HEADER_LENGTH
    · rw [if_pos hshort]
      refine ⟨[], msgs, q, rfl, rfl, rfl, hq, ?_⟩
      intro m ms hm
      have := List.length_pos_iff.mpr (hmsgs m (by rw [hm]; exact List.mem_cons_self)).1
      rw [length_frame]
      omega
    · rw [if_neg hshort]
      cases msgs with
      | nil =>
        have : q = [] := (List.append_eq_nil_iff.mp hq).1
        rw [this] at hshort
        exact absurd (Nat.zero_le _) hshort
      | cons m ms =>
        obtain ⟨hne, hlim⟩ := hmsgs m List.mem_cons_self
        unfold WithinLimit at hlim
        rw [stream_cons] at hq
        obtain ⟨htok, hlen⟩ := frame_header hq (by omega) (by omega)
        rw [htok, if_neg (by decide), hlen, Nat.mod_eq_of_lt (by omega)]
        by_cases hpart : packet + q.length < packet + (16 + m.length)
        · rw [if_pos hpart, if_neg (by omega)]
          refine ⟨[], m :: ms, q, rfl, rfl, rfl, by rw [stream_cons]; exact hq, ?_⟩
          intro m' ms' hm
          cases hm
          rw [length_frame]
          omega
        · rw [if_neg hpart, if_neg (by omega)]
          have hle : (frame m).length ≤ q.length := by rw [length_frame]; omega
          have htake : q.take (16 + m.length) = frame m := by
            have := congrArg (List.take (frame m).length) hq
            rw [List.take_append_of_le_length hle, List.take_left] at this
            rw [← length_frame]
            exact this
          have hdrop : q.drop (16 + m.length) ++ f = stream ms := by
            have := congrArg (List.drop (frame m).length) hq
            rw [List.drop_append_of_le_length hle, List.drop_left] at this
            rw [← length_frame]
            exact this
          have hdl : (q.drop (16 + m.length)).length = q.length - (16 + m.length) :=
            List.length_drop
          have hnext : packet + (16 + m.length) + (q.drop (16 + m.length)).length +
              MAX_REQUEST_PACKET_LENGTH ≤ 2 ^ 64 := by omega
          obtain ⟨ms₁, ms₂, r, rfl, hm₁, hr, hal⟩ := ih hdrop
            (fun x hx => hmsgs x (List.mem_cons_of_mem m hx)) (by omega) hnext
          refine ⟨m :: ms₁, ms₂, r, rfl, ?_, hr, hal⟩
          show ((q.take (16 + m.length)).drop PACKET_HEADER_LENGTH) ::
            (parseLoop n (packet + (16 + m.length)) (q.drop (16 + m.length))).messages = _
          rw [hm₁, htake, frame, h16, List.drop_left' (length_packetHeader _)]

/-- **A whole connection**: the worker hands on exactly the messages. -/
theorem worker_stream {last : Nat} {reqstr : List UInt8} {chunks : List Recv}
    {msgs : List (List UInt8)} (hal : Aligned reqstr (chunks.map Recv.bytes).flatten msgs)
    (hmsgs : ∀ m ∈ msgs, m ≠ [] ∧ WithinLimit m)
    (haddr : ∀ c ∈ chunks, c.addr + c.bytes.length + 2 * MAX_REQUEST_PACKET_LENGTH ≤ 2 ^ 64) :
    (worker last reqstr chunks).messages = msgs ∧ (worker last reqstr chunks).residue = some [] := by
  have hmax : MAX_REQUEST_PACKET_LENGTH = 4112 := rfl
  have h16 : PACKET_HEADER_LENGTH = 16 := rfl
  induction chunks generalizing reqstr msgs with
  | nil =>
    have heq := hal.eq
    rw [List.map_nil, List.flatten_nil, List.append_nil] at heq
    cases msgs with
    | nil =>
      have hnil : reqstr = [] := heq
      rw [worker, if_pos hnil]
      exact ⟨rfl, rfl⟩
    | cons m ms =>
      have := hal.short m ms rfl
      rw [heq, stream_cons, List.length_append] at this
      omega
  | cons c cs ih =>
    have heq := hal.eq
    rw [List.map_cons, List.flatten_cons, ← List.append_assoc] at heq
    have hreq : reqstr.length < MAX_REQUEST_PACKET_LENGTH := by
      cases msgs with
      | nil =>
        have : reqstr = [] := (List.append_eq_nil_iff.mp hal.eq).1
        rw [this]
        decide
      | cons m ms =>
        have h1 := hal.short m ms rfl
        have h2 := (hmsgs m List.mem_cons_self).2
        rw [length_frame] at h1
        unfold WithinLimit at h2
        omega
    have hc := haddr c List.mem_cons_self
    have hend : c.addr + (reqstr ++ c.bytes).length + MAX_REQUEST_PACKET_LENGTH ≤ 2 ^ 64 := by
      rw [List.length_append]
      omega
    obtain ⟨ms₁, ms₂, r, rfl, hm₁, hr, hal'⟩ := parseLoop_stream heq hmsgs (Nat.lt_succ_self _) hend
    obtain ⟨hm₂, hr₂⟩ := ih hal' (fun m hm => hmsgs m (List.mem_append_right ms₁ hm))
      (fun x hx => haddr x (List.mem_cons_of_mem c hx))
    rw [worker, Parse.andThen_some (p := parsePacket _ _) hr]
    refine ⟨?_, hr₂⟩
    show (parsePacket c.addr (reqstr ++ c.bytes)).messages ++ _ = _
    rw [hm₂]
    exact congrArg (· ++ ms₂) hm₁

/-! ## Requests -/

/-- **Requests arrive.**  `SendRequest` makes a packet of every request.  If the packets are within
    the limit, then, however the stream is cut, the server dispatches exactly the requests, each once
    and in order, and nothing is left in the buffer. -/
theorem worker_requests (reqs : List Request) (tail : List UInt8) :
    ∃ packets : List (List UInt8),
      List.Forall₂ (fun r b => sendRequest (r.appname ++ 0 :: tail) r.sequence r.content = .ok b)
        reqs packets ∧
      ((∀ b ∈ packets, b.length ≤ MAX_REQUEST_PACKET_LENGTH) →
        ∀ (last : Nat) (chunks : List Recv), Cuts chunks packets.flatten →
          (∀ c ∈ chunks, c.addr + c.bytes.length + 2 * MAX_REQUEST_PACKET_LENGTH ≤ 2 ^ 64) →
          (worker last [] chunks).dispatched = reqs.map Request.packet ∧
            (worker last [] chunks).residue = some []) := by
  have hmax : MAX_REQUEST_PACKET_LENGTH = 4112 := rfl
  have h16 : PACKET_HEADER_LENGTH = 16 := rfl
  refine ⟨(reqs.map fun r => r.packet.message).map frame, ?_, ?_⟩
  · rw [List.map_map, List.forall₂_map_right_iff, List.forall₂_same]
    exact fun r _ => sendRequest_eq r tail
  · intro hlen last chunks hcut haddr
    have hlim : ∀ r ∈ reqs, WithinLimit r.packet.message := by
      intro r hr
      have := hlen (frame r.packet.message) (List.mem_map_of_mem (List.mem_map_of_mem hr))
      rw [length_frame] at this
      exact this
    have hmsgs : ∀ m ∈ reqs.map fun r => r.packet.message, m ≠ [] ∧ WithinLimit m := by
      intro m hm
      obtain ⟨r, hr, rfl⟩ := List.mem_map.mp hm
      exact ⟨r.packet.message_ne_nil, hlim r hr⟩
    have hal : Aligned [] (chunks.map Recv.bytes).flatten (reqs.map fun r => r.packet.message) := by
      refine ⟨hcut.stream, ?_⟩
      intro m ms _
      rw [length_frame]
      exact Nat.add_pos_left (by decide) _
    obtain ⟨hm, hr⟩ := worker_stream hal hmsgs haddr
    refine ⟨?_, hr⟩
    unfold Parse.dispatched
    rw [hm, List.filterMap_map]
    have hdisp : ∀ r ∈ reqs, (dispatch ∘ fun r : Request => r.packet.message) r =
        some r.packet := by
      intro r hr
      have := hlim r hr
      unfold WithinLimit at this
      exact dispatch_message rfl (by omega)
    rw [List.filterMap_congr hdisp]
    exact congrFun List.filterMap_eq_map reqs

/-- A small request. -/
def smallRequest : Request where
  appname := [97]
  no_nul := by decide
  appname_le := by decide
  sequence := 7
  content := [1, 2, 3]

/-- Two of them, cut in the middle of the first header. -/
theorem worker_requests_cut :
    let bytes := frame smallRequest.packet.message ++ frame smallRequest.packet.message
    let chunks : List Recv := [⟨4096, bytes.take 5⟩, ⟨8192, bytes.drop 5⟩]
    (worker 0 [] chunks).dispatched = [smallRequest.packet, smallRequest.packet] ∧
      (worker 0 [] chunks).residue = some [] := by
  obtain ⟨packets, hsent, hall⟩ := worker_requests [smallRequest, smallRequest] []
  have hpackets : packets = [frame smallRequest.packet.message, frame smallRequest.packet.message] := by
    cases hsent with
    | cons h₁ hs =>
      cases hs with
      | cons h₂ hnil =>
        cases hnil
        rw [sendRequest_eq] at h₁ h₂
        cases h₁
        cases h₂
        rfl
  subst hpackets
  have hlen : ∀ b ∈ [frame smallRequest.packet.message, frame smallRequest.packet.message],
      b.length ≤ MAX_REQUEST_PACKET_LENGTH := by decide +kernel
  exact hall hlen 0 _ ⟨by decide +kernel, by decide +kernel⟩ (by decide +kernel)

end MysqlProxy
