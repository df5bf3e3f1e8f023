/-
  `ParsePacket` and `Worker` of the server (`mysql_proxy_server.cpp`).

  `Worker` appends what `recv` returns to `reqstr` and lets `ParsePacket` cut packets off its front.
  `ParsePacket` skips a byte where it finds no start token; where it finds one, it reads the length
  word and
  * hands the packet on, if all of it is there;
  * skips a byte, if it is not there and longer than `MAX_REQUEST_PACKET_LENGTH`;
  * stops and leaves the rest in `reqstr`, otherwise.

  A `Parse` is what such a call leaves behind: the length words it read and where they stood, the
  messages it handed to `KnvNode::NewFromMessage`, and the rest.  There is no rest if the call ended
  in an exception: a length below 16 makes `string(packet+16, packlen-16)` throw, and so does one
  that wraps the pointer comparison around.  `Parse.WordsOk` says that this did not happen.

  Modelling choices.
  * The two nested loops are one: `16` bytes or less end both.
  * `packet` is an address.  Where a buffer lies is up to the allocator, so the address comes with
    each call.
-/
import MysqlProxy.Proxy.Packet
import MysqlProxy.Lib.Scan

namespace MysqlProxy

/-- The limit for a packet that is not there yet. -/
def MAX_REQUEST_PACKET_LENGTH : Nat := 4096 + PACKET_HEADER_LENGTH

/-- `((uint64_t*)packet)[1]`. -/
def packlen (rest : List UInt8) : Nat := leNat ((rest.drop 8).take 8)

/-- The start token is at the front. -/
def startsPacket (rest : List UInt8) : Bool := rest.take 8 = packetStartToken

/-- What a call leaves behind. -/
structure Parse where
  /-- The length words that were read, with the address of their packet. -/
  words : List (Nat × Nat)
  messages : List (List UInt8)
  /-- `none` after an exception. -/
  residue : Option (List UInt8)
  deriving DecidableEq

namespace Parse

/-- A call that does nothing. -/
def stopped (rest : List UInt8) : Parse := ⟨[], [], some rest⟩

/-- The rest of a call, after a length word has been read. -/
def read (packet len : Nat) (p : Parse) : Parse := { p with words := (packet, len) :: p.words }

/-- The rest of a call, after a message has been handed on. -/
def handed (msg : List UInt8) (p : Parse) : Parse := { p with messages := msg :: p.messages }

/-- Another call, with the residue of the first. -/
def andThen (p : Parse) (next : List UInt8 → Parse) : Parse :=
  match p.residue with
  | none => p
  | some rest =>
    ⟨p.words ++ (next rest).words, p.messages ++ (next rest).messages, (next rest).residue⟩

/-- Every length word is at least 16, and no pointer wraps around. -/
def WordsOk (p : Parse) : Prop := ∀ w ∈ p.words, PACKET_HEADER_LENGTH ≤ w.2 ∧ w.1 + w.2 < 2 ^ 64

instance (p : Parse) : Decidable p.WordsOk := by unfold WordsOk; infer_instance

end Parse

/-- The loop of `ParsePacket` from the address `packet` on; every round takes a byte at least. -/
def parseLoop : Nat → Nat → List UInt8 → Parse
  | 0, _, rest => .stopped rest
  | n + 1, packet, rest =>
    if rest.length ≤ PACKET_HEADER_LENGTH then .stopped rest
    else if !startsPacket rest then parseLoop n (packet + 1) (rest.drop 1)
    else .read packet (packlen rest) <|
      if packet + rest.length < (packet + packlen rest) % 2 ^ 64 then
        if MAX_REQUEST_PACKET_LENGTH < packlen rest then parseLoop n (packet + 1) (rest.drop 1)
        else .stopped rest
      else if packlen rest < PACKET_HEADER_LENGTH ∨ 2 ^ 64 ≤ packet + packlen rest then
        ⟨[], [], none⟩
      else
        .handed ((rest.take (packlen rest)).drop PACKET_HEADER_LENGTH)
          (parseLoop n (packet + packlen rest) (rest.drop (packlen rest)))

/-- `ParsePacket` on the string `reqstr`, whose bytes are at the address `base`. -/
def parsePacket (base : Nat) (reqstr : List UInt8) : Parse :=
  parseLoop (reqstr.length + 1) base reqstr

/-- What `recv` returned, and where `reqstr` lies after it was appended. -/
structure Recv where
  addr : Nat
  bytes : List UInt8
  deriving DecidableEq

/-- `Worker`: a `ParsePacket` after every `recv`, and one more for what is left in the end. -/
def worker (last : Nat) : List UInt8 → List Recv → Parse
  | reqstr, [] => if reqstr = [] then .stopped [] else parsePacket last reqstr
  | reqstr, c :: cs => (parsePacket c.addr (reqstr ++ c.bytes)).andThen fun rest => worker last rest cs

/-- The packet a message is dispatched as; the server sets `errnum` to 0. -/
def dispatch (msg : List UInt8) : Option ProxyPacket :=
  match readPacket msg with
  | .error _ => none
  | .ok p => some { p with errnum := 0 }

/-- The packets that were dispatched. -/
def Parse.dispatched (p : Parse) : List ProxyPacket := p.messages.filterMap dispatch

/-- A request's message is dispatched as the request. -/
theorem dispatch_message {p : ProxyPacket} (herr : p.errnum = 0) (h : p.message.length < 2 ^ 31) :
    dispatch p.message = some p := by
  unfold dispatch
  rw [readPacket_message h]
  show some _ = some p
  rw [← herr]

/-! ## `ParsePacket` is a scanner -/

/-- A round on the bytes alone. -/
def requestStep (rest : List UInt8) : ScanStep (List UInt8) :=
  if rest.length ≤ PACKET_HEADER_LENGTH then .wait
  else if !startsPacket rest then .skip 1
  else if rest.length < packlen rest then
    if MAX_REQUEST_PACKET_LENGTH < packlen rest then .skip 1 else .wait
  else .take (packlen rest) ((rest.take (packlen rest)).drop PACKET_HEADER_LENGTH)

theorem packlen_lt (rest : List UInt8) : packlen rest < 2 ^ 64 := by
  have h := leNat_lt ((rest.drop 8).take 8)
  have hlen : ((rest.drop 8).take 8).length ≤ 8 := by
    rw [List.length_take]
    omega
  have : 256 ^ ((rest.drop 8).take 8).length ≤ 256 ^ 8 := Nat.pow_le_pow_right (by decide) hlen
  unfold packlen
  omega

/-- **As long as the words are fine, the loop scans**, and it does not end in an exception. -/
theorem parseLoop_scans {n packet : Nat} {rest : List UInt8} (hn : rest.length < n)
    (hok : (parseLoop n packet rest).WordsOk) :
    ∃ r, (parseLoop n packet rest).residue = some r ∧
      Scans requestStep rest (parseLoop n packet rest).messages r := by
  induction n generalizing packet rest with
  | zero => omega
  | succ n ih =>
    rw [parseLoop] at hok ⊢
    by_cases hshort : rest.length ≤ PACKET_HEADER_LENGTH
    · rw [if_pos hshort]
      refine ⟨rest, rfl, .wait ?_⟩
      unfold requestStep
      rw [if_pos hshort]
    · rw [if_neg hshort] at hok ⊢
      have hdrop : ∀ k, 0 < k → (rest.drop k).length < n := by
        intro k hk
        rw [List.length_drop]
        have : PACKET_HEADER_LENGTH = 16 := rfl
        omega
      by_cases htok : (!startsPacket rest) = true
      · rw [if_pos htok] at hok ⊢
        obtain ⟨r, hr, hs⟩ := ih (hdrop 1 (by decide)) hok
        refine ⟨r, hr, .skip ?_ hs⟩
        unfold requestStep
        rw [if_neg hshort, if_pos htok]
      · rw [if_neg htok] at hok ⊢
        obtain ⟨h16, hwrap⟩ := hok (packet, packlen rest) List.mem_cons_self
        have hmod : (packet + packlen rest) % 2 ^ 64 = packet + packlen rest := Nat.mod_eq_of_lt hwrap
        have hrest : ∀ {p : Parse}, (Parse.read packet (packlen rest) p).WordsOk → p.WordsOk :=
          fun h w hw => h w (List.mem_cons_of_mem _ hw)
        replace hok := hrest hok
        rw [hmod] at hok ⊢
        by_cases hpart : packet + rest.length < packet + packlen rest
        · rw [if_pos hpart] at hok ⊢
          by_cases hmax : MAX_REQUEST_PACKET_LENGTH < packlen rest
          · rw [if_pos hmax] at hok ⊢
            obtain ⟨r, hr, hs⟩ := ih (hdrop 1 (by decide)) hok
            refine ⟨r, hr, .skip ?_ hs⟩
            unfold requestStep
            rw [if_neg hshort, if_neg htok, if_pos (by omega), if_pos hmax]
          · rw [if_neg hmax]
            refine ⟨rest, rfl, .wait ?_⟩
            unfold requestStep
            rw [if_neg hshort, if_neg htok, if_pos (by omega), if_neg hmax]
        · have hsane : ¬ (packlen rest < PACKET_HEADER_LENGTH ∨ 2 ^ 64 ≤ packet + packlen rest) := by
            have h16' : PACKET_HEADER_LENGTH ≤ packlen rest := h16
            have hwrap' : packet + packlen rest < 2 ^ 64 := hwrap
            omega
          rw [if_neg hpart, if_neg hsane] at hok ⊢
          obtain ⟨r, hr, hs⟩ := ih (hdrop (packlen rest) (Nat.lt_of_lt_of_le (by decide) h16)) hok
          refine ⟨r, hr, .take ?_ hs⟩
          unfold requestStep
          rw [if_neg hshort, if_neg htok, if_neg (by omega)]

theorem parsePacket_scans {base : Nat} {reqstr : List UInt8}
    (hok : (parsePacket base reqstr).WordsOk) :
    ∃ r, (parsePacket base reqstr).residue = some r ∧
      Scans requestStep reqstr (parsePacket base reqstr).messages r :=
  parseLoop_scans (Nat.lt_succ_self _) hok

/-! ## Frames -/

/-- A message with its header. -/
def frame (msg : List UInt8) : List UInt8 := packetHeader msg.length ++ msg

theorem length_packetHeader (len : Nat) : (packetHeader len).length = 16 := by
  unfold packetHeader
  rw [List.length_append, length_leBytes]
  rfl

theorem length_frame (msg : List UInt8) : (frame msg).length = 16 + msg.length := by
  unfold frame
  rw [List.length_append, length_packetHeader]

/-- A buffer that begins as a frame does, and has its header. -/
theorem frame_header {q f tl msg : List UInt8} (h : q ++ f = frame msg ++ tl) (hq : 16 < q.length)
    (hmsg : 16 + msg.length < 2 ^ 64) : startsPacket q = true ∧ packlen q = 16 + msg.length := by
  have hhead : q.take 16 = packetHeader msg.length := by
    have := congrArg (List.take 16) h
    rw [List.take_append_of_le_length (by omega), frame, List.append_assoc,
      List.take_left' (length_packetHeader _)] at this
    exact this
  have hsplit : q = packetHeader msg.length ++ q.drop 16 := by
    rw [← hhead]
    exact (List.take_append_drop 16 q).symm
  have htok : packetStartToken.length = 8 := rfl
  rw [packetHeader, List.append_assoc] at hsplit
  constructor
  · unfold startsPacket
    rw [hsplit, List.take_left' htok]
    rfl
  · unfold packlen
    rw [hsplit, List.drop_left' htok, List.take_left' (length_leBytes _ _), leNat_leBytes]
    exact Nat.mod_eq_of_lt hmsg

/-- A packet that has arrived, and nothing else, is handed on. -/
theorem parsePacket_frame (base : Nat) {msg : List UInt8} (hne : msg ≠ [])
    (hwrap : base + (16 + msg.length) < 2 ^ 64) :
    parsePacket base (frame msg) = ⟨[(base, 16 + msg.length)], [msg], some []⟩ := by
  have h16 : PACKET_HEADER_LENGTH = 16 := rfl
  have hlen := length_frame msg
  have hpos := List.length_pos_iff.mpr hne
  have hself : frame msg ++ [] = frame msg ++ [] := rfl
  obtain ⟨htok, hpack⟩ := frame_header hself (by omega) (by omega)
  unfold parsePacket
  rw [parseLoop, if_neg (by omega), htok, if_neg (by decide), hpack, Nat.mod_eq_of_lt hwrap,
    if_neg (by omega), if_neg (by omega), ← hlen, List.take_length, List.drop_length, hlen]
  have hmsg : (frame msg).drop PACKET_HEADER_LENGTH = msg := List.drop_left' (length_packetHeader _)
  rw [hmsg, Nat.add_comm 16, parseLoop]
  rfl

/-- Bytes without an `@` are skipped. -/
theorem parseLoop_skips {n packet : Nat} {rest : List UInt8} (h : (64 : UInt8) ∉ rest) :
    ∃ r, parseLoop n packet rest = .stopped r ∧ (64 : UInt8) ∉ r := by
  induction n generalizing packet rest with
  | zero => exact ⟨rest, rfl, h⟩
  | succ n ih =>
    rw [parseLoop]
    by_cases hshort : rest.length ≤ PACKET_HEADER_LENGTH
    · rw [if_pos hshort]
      exact ⟨rest, rfl, h⟩
    · have htok : startsPacket rest = false := by
        unfold startsPacket
        rw [decide_eq_false]
        intro he
        have hmem : (64 : UInt8) ∈ rest.take 8 := by
          rw [he]
          decide
        exact h (List.mem_of_mem_take hmem)
      rw [if_neg hshort, htok, if_pos (by decide)]
      exact ih fun hm => h (List.mem_of_mem_drop hm)

end MysqlProxy
