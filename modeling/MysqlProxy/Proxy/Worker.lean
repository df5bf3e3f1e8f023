/-
  What arrives in pieces (`Worker` in `mysql_proxy_server.cpp`).

  `recv` may cut the stream of a connection anywhere.  `ParsePacket` applies the size limit only to
  packets that are NOT THERE YET, so a packet above the limit is taken when it comes in one piece and
  skipped, byte by byte, when it does not.  This is the only way in which cutting matters:

  * if the stream has no packet above the limit, every way of cutting it dispatches the same
    packets (`worker_segments`);
  * if it has one, cutting it into single bytes never hands that packet on.

  In particular requests of `SendRequest` within the limit arrive, whole and in order
  (`worker_requests`).
-/
import MysqlProxy.Proxy.ParsePacket

namespace MysqlProxy

/-! ## More bytes do not change a round -/

theorem startsPacket_append {l : List UInt8} (h : 8 ≤ l.length) (f : List UInt8) :
    startsPacket (l ++ f) = startsPacket l := by
  unfold startsPacket
  rw [List.take_append_of_le_length h]

theorem packlen_append {l : List UInt8} (h : 16 ≤ l.length) (f : List UInt8) :
    packlen (l ++ f) = packlen l := by
  unfold packlen
  rw [List.drop_append_of_le_length (by omega), List.take_append_of_le_length]
  rw [List.length_drop]
  omega

/-- A message that fits into a packet within the limit. -/
def WithinLimit (msg : List UInt8) : Prop :=
  PACKET_HEADER_LENGTH + msg.length ≤ MAX_REQUEST_PACKET_LENGTH

instance (msg : List UInt8) : Decidable (WithinLimit msg) := by unfold WithinLimit; infer_instance

/-- The scanner changes its mind only about packets above the limit. -/
theorem requestStep_steady : Steady requestStep WithinLimit where
  skip := by
    intro l n h
    unfold requestStep at h
    by_cases hshort : l.length ≤ PACKET_HEADER_LENGTH
    · rw [if_pos hshort] at h
      cases h
    · have h16 : 16 < l.length := Nat.lt_of_not_le hshort
      have hlong : ∀ f, ¬ (l ++ f).length ≤ PACKET_HEADER_LENGTH := by
        intro f hf
        rw [List.length_append] at hf
        exact hshort (by omega)
      have happ := fun f => startsPacket_append (l := l) (by omega) f
      have hlen := fun f => packlen_append (l := l) (by omega) f
      rw [if_neg hshort] at h
      by_cases htok : (!startsPacket l) = true
      · rw [if_pos htok] at h
        cases h
        refine ⟨by omega, fun f => .inl ?_⟩
        unfold requestStep
        rw [if_neg (hlong f), happ f, if_pos htok]
      · rw [if_neg htok] at h
        by_cases hpart : l.length < packlen l
        · rw [if_pos hpart] at h
          by_cases hmax : MAX_REQUEST_PACKET_LENGTH < packlen l
          · rw [if_pos hmax] at h
            cases h
            refine ⟨by omega, fun f => ?_⟩
            unfold requestStep
            rw [if_neg (hlong f), happ f, if_neg htok, hlen f]
            by_cases hpart' : (l ++ f).length < packlen l
            · left
              rw [if_pos hpart', if_pos hmax]
            · right
              rw [if_neg hpart']
              refine ⟨_, _, rfl, ?_⟩
              unfold WithinLimit
              have h4112 : MAX_REQUEST_PACKET_LENGTH = 4112 := rfl
              have h16' : PACKET_HEADER_LENGTH = 16 := rfl
              rw [List.length_drop, List.length_take]
              omega
          · rw [if_neg hmax] at h
            cases h
        · rw [if_neg hpart] at h
          cases h
  take := by
    intro l n g h
    unfold requestStep at h
    by_cases hshort : l.length ≤ PACKET_HEADER_LENGTH
    · rw [if_pos hshort] at h
      cases h
    · have h16 : 16 < l.length := Nat.lt_of_not_le hshort
      rw [if_neg hshort] at h
      by_cases htok : (!startsPacket l) = true
      · rw [if_pos htok] at h
        cases h
      · rw [if_neg htok] at h
        by_cases hpart : l.length < packlen l
        · rw [if_pos hpart] at h
          split at h <;> cases h
        · rw [if_neg hpart] at h
          cases h
          refine ⟨by omega, fun f => ?_⟩
          unfold requestStep
          rw [if_neg (by rw [List.length_append]; show ¬ _ ≤ 16; omega),
            startsPacket_append (by omega), if_neg htok, packlen_append (by omega),
            if_neg (by rw [List.length_append]; omega),
            List.take_append_of_le_length (by omega)]

/-! ## The worker feeds the scanner -/

theorem Parse.andThen_some {p : Parse} {rest : List UInt8} (h : p.residue = some rest)
    (next : List UInt8 → Parse) :
    p.andThen next = ⟨p.words ++ (next rest).words, p.messages ++ (next rest).messages,
      (next rest).residue⟩ := by
  unfold Parse.andThen
  rw [h]

/-- The words of two calls are fine if those of each are. -/
theorem Parse.wordsOk_left {p : Parse} {next : List UInt8 → Parse}
    (h : (p.andThen next).WordsOk) : p.WordsOk := by
  unfold Parse.andThen at h
  cases hr : p.residue with
  | none => rw [hr] at h; exact h
  | some rest =>
    rw [hr] at h
    exact fun w hw => h w (List.mem_append_left _ hw)

/-- The calls of a worker, without the last one: what they hand on, and what they leave. -/
theorem worker_feeds {last : Nat} {reqstr : List UInt8} {cs : List Recv}
    (hok : (worker last reqstr cs).WordsOk) :
    ∃ gs r, Feeds requestStep reqstr (cs.map Recv.bytes) gs r ∧ (worker last r []).WordsOk ∧
      (worker last reqstr cs).messages = gs ++ (worker last r []).messages ∧
      (worker last reqstr cs).residue = (worker last r []).residue := by
  induction cs generalizing reqstr with
  | nil => exact ⟨[], reqstr, .nil, hok, rfl, rfl⟩
  | cons c cs ih =>
    rw [worker] at hok ⊢
    obtain ⟨r, hr, hs⟩ := parsePacket_scans (Parse.wordsOk_left hok)
    rw [Parse.andThen_some hr] at hok ⊢
    have hrest : (worker last r cs).WordsOk := fun w hw => hok w (List.mem_append_right _ hw)
    obtain ⟨gs, r', hf, hlast, hmsg, hres⟩ := ih hrest
    refine ⟨_, r', .cons hs hf, hlast, ?_, hres⟩
    show _ ++ (worker last r cs).messages = _
    rw [hmsg, List.append_assoc]

/-- The last call finds nothing more, because every call scans until it waits. -/
theorem worker_last {last : Nat} {r : List UInt8} (hwait : requestStep r = .wait)
    (hok : (worker last r []).WordsOk) :
    (worker last r []).messages = [] ∧ (worker last r []).residue = some r := by
  rw [worker] at hok ⊢
  by_cases hnil : r = []
  · rw [if_pos hnil, hnil]
    exact ⟨rfl, rfl⟩
  · rw [if_neg hnil] at hok ⊢
    obtain ⟨r', hr', hs⟩ := parsePacket_scans hok
    obtain ⟨hg, hrr⟩ := hs.of_wait hwait
    rw [hg, hr', hrr]
    exact ⟨rfl, rfl⟩

/-- **A stream without packets above the limit may be cut anywhere.** -/
theorem worker_scans {last : Nat} {cs : List Recv} {gs : List (List UInt8)} {res : List UInt8}
    (hok : (worker last [] cs).WordsOk)
    (hall : Scans requestStep (cs.map Recv.bytes).flatten gs res) (hlim : ∀ g ∈ gs, WithinLimit g) :
    (worker last [] cs).messages = gs ∧ (worker last [] cs).residue = some res := by
  obtain ⟨gs', r, hf, hlast, hmsg, hres⟩ := worker_feeds hok
  by_cases hcs : cs.map Recv.bytes = []
  · -- nothing came
    rw [hcs] at hf hall
    cases hf
    obtain ⟨rfl, rfl⟩ := hall.of_wait rfl
    rw [hmsg, hres]
    exact ⟨rfl, rfl⟩
  · obtain ⟨rfl, rfl⟩ := hf.eq requestStep_steady hcs hall hlim
    obtain ⟨hm, hr⟩ := worker_last (hf.residue hcs) hlast
    rw [hmsg, hres, hm, hr, List.append_nil]
    exact ⟨rfl, rfl⟩

/-! ## Streams with a packet above the limit -/

/-- The stream keeps the limit: going through it packet by packet, as a scan of all of it does, no
    packet is longer than `MAX_REQUEST_PACKET_LENGTH`. -/
inductive KeepsLimit : List UInt8 → Prop where
  | wait {l : List UInt8} (h : requestStep l = .wait) : KeepsLimit l
  | skip {l : List UInt8} {n : Nat} (h : requestStep l = .skip n) (hs : KeepsLimit (l.drop n)) :
      KeepsLimit l
  | take {l msg : List UInt8} {n : Nat} (h : requestStep l = .take n msg)
      (hn : n ≤ MAX_REQUEST_PACKET_LENGTH) (hs : KeepsLimit (l.drop n)) : KeepsLimit l

/-- What a packet that is taken looks like. -/
theorem requestStep_take {l msg : List UInt8} {n : Nat} (h : requestStep l = .take n msg) :
    n ≤ l.length ∧ msg = (l.take n).drop PACKET_HEADER_LENGTH := by
  have hn := (requestStep_steady.take h).1
  refine ⟨hn, ?_⟩
  unfold requestStep at h
  split at h
  · cases h
  · split at h
    · cases h
    · split at h
      · split at h <;> cases h
      · cases h
        rfl

/-- The length of a packet against the length of its message. -/
theorem withinLimit_iff {l msg : List UInt8} {n : Nat} (h : requestStep l = .take n msg) :
    WithinLimit msg ↔ n ≤ MAX_REQUEST_PACKET_LENGTH := by
  obtain ⟨hn, hmsg⟩ := requestStep_take h
  have h16 : PACKET_HEADER_LENGTH = 16 := rfl
  have hmax : MAX_REQUEST_PACKET_LENGTH = 4112 := rfl
  unfold WithinLimit
  rw [hmsg, List.length_drop, List.length_take]
  omega

theorem Scans.keepsLimit_iff {l r : List UInt8} {gs : List (List UInt8)}
    (h : Scans requestStep l gs r) : KeepsLimit l ↔ ∀ g ∈ gs, WithinLimit g := by
  induction h with
  | wait h => exact ⟨fun _ g hg => absurd hg List.not_mem_nil, fun _ => .wait h⟩
  | skip h _ ih =>
    rw [← ih]
    constructor
    · intro hk
      cases hk with
      | wait h' => rw [h] at h'; cases h'
      | skip h' hs => rw [h] at h'; cases h'; exact hs
      | take h' => rw [h] at h'; cases h'
    · exact fun hk => .skip h hk
  | take h _ ih =>
    rw [List.forall_mem_cons, ← ih, withinLimit_iff h]
    constructor
    · intro hk
      cases hk with
      | wait h' => rw [h] at h'; cases h'
      | skip h' => rw [h] at h'; cases h'
      | take h' hn hs => rw [h] at h'; cases h'; exact ⟨hn, hs⟩
    · exact fun hk => .take h hk.1 hk.2

/-! ## Byte by byte -/

/-- A buffer of `m` bytes holds no message of more than `m - 16`. -/
theorem parseLoop_messages_le {n packet : Nat} {rest : List UInt8} :
    ∀ m ∈ (parseLoop n packet rest).messages, PACKET_HEADER_LENGTH + m.length ≤ rest.length := by
  induction n generalizing packet rest with
  | zero => exact fun m hm => absurd hm List.not_mem_nil
  | succ n ih =>
    intro m hm
    have hdrop : ∀ {k p}, m ∈ (parseLoop n p (rest.drop k)).messages →
        PACKET_HEADER_LENGTH + m.length ≤ rest.length := by
      intro k p hk
      have := ih m hk
      rw [List.length_drop] at this
      omega
    rw [parseLoop] at hm
    split at hm
    · exact absurd hm List.not_mem_nil
    · split at hm
      · exact hdrop hm
      · change m ∈ Parse.messages (if _ then _ else _) at hm
        split at hm
        · split at hm
          · exact hdrop hm
          · exact absurd hm List.not_mem_nil
        · rename_i hpart
          split at hm
          · exact absurd hm List.not_mem_nil
          · rename_i hsane
            have hmod : (packet + packlen rest) % 2 ^ 64 = packet + packlen rest :=
              Nat.mod_eq_of_lt (by omega)
            rcases List.mem_cons.mp hm with rfl | hm
            · rw [List.length_drop, List.length_take]
              omega
            · exact hdrop hm

/-- What is left is less than a packet within the limit. -/
theorem parseLoop_residue_lt {n packet : Nat} {rest r : List UInt8} (hn : rest.length < n)
    (hr : (parseLoop n packet rest).residue = some r) : r.length < MAX_REQUEST_PACKET_LENGTH := by
  have hmax : MAX_REQUEST_PACKET_LENGTH = 4112 := rfl
  have h16 : PACKET_HEADER_LENGTH = 16 := rfl
  induction n generalizing packet rest with
  | zero => omega
  | succ n ih =>
    rw [parseLoop] at hr
    split at hr
    · cases hr
      omega
    · rename_i hshort
      have hdrop : ∀ k, 0 < k → (rest.drop k).length < n := by
        intro k hk
        rw [List.length_drop]
        omega
      split at hr
      · exact ih (hdrop 1 (by decide)) hr
      · change Parse.residue (if _ then _ else _) = some r at hr
        split at hr
        · rename_i hpart
          split at hr
          · exact ih (hdrop 1 (by decide)) hr
          · have hrest : rest = r := Option.some.inj hr
            rw [← hrest]
            have := packlen_lt rest
            -- the sum has not wrapped, or it would be below `packet`
            have hlt : rest.length < packlen rest := by
              by_contra hge
              have := Nat.mod_le (packet + packlen rest) (2 ^ 64)
              omega
            omega
        · split at hr
          · cases hr
          · exact ih (hdrop _ (by omega)) hr

/-- Single bytes never complete a packet above the limit. -/
theorem worker_bytes {last addr : Nat} {reqstr bytes : List UInt8}
    (hreq : reqstr.length < MAX_REQUEST_PACKET_LENGTH) :
    ∀ m ∈ (worker last reqstr (bytes.map fun b => ⟨addr, [b]⟩)).messages, WithinLimit m := by
  induction bytes generalizing reqstr with
  | nil =>
    intro m hm
    rw [List.map_nil, worker] at hm
    split at hm
    · exact absurd hm List.not_mem_nil
    · have := parseLoop_messages_le m hm
      unfold WithinLimit
      omega
  | cons b bytes ih =>
    intro m hm
    rw [List.map_cons, worker] at hm
    have hq : ∀ m ∈ (parsePacket addr (reqstr ++ [b])).messages, WithinLimit m := by
      intro m hm
      have := parseLoop_messages_le m hm
      rw [List.length_append, List.length_singleton] at this
      unfold WithinLimit
      omega
    cases hr : (parsePacket addr (reqstr ++ [b])).residue with
    | none =>
      unfold Parse.andThen at hm
      rw [hr] at hm
      exact hq m hm
    | some r =>
      rw [Parse.andThen_some hr] at hm
      rcases List.mem_append.mp hm with hm | hm
      · exact hq m hm
      · exact ih (parseLoop_residue_lt (Nat.lt_succ_self _) hr) m hm

/-! ## Segmentation -/

/-- What was received is the stream, in non-empty pieces. -/
structure Cuts (chunks : List Recv) (stream : List UInt8) : Prop where
  nonempty : ∀ c ∈ chunks, c.bytes ≠ []
  stream : (chunks.map Recv.bytes).flatten = stream

theorem cuts_bytes (addr : Nat) (stream : List UInt8) :
    Cuts (stream.map fun b => ⟨addr, [b]⟩) stream where
  nonempty := by
    intro c hc
    obtain ⟨b, _, rfl⟩ := List.mem_map.mp hc
    exact List.cons_ne_nil b []
  stream := by
    rw [List.map_map]
    show (stream.map fun b => [b]).flatten = stream
    induction stream with
    | nil => rfl
    | cons b l ih => rw [List.map_cons, List.flatten_cons, ih]; rfl

/-- **Segmentation matters for packets above the limit, and only for them.**  If the stream keeps the
    limit, however it is cut, the packets that are dispatched are those of the whole stream.  If it
    does not, there is a way of cutting it that hands on other packets. -/
theorem worker_segments {base : Nat} {stream : List UInt8}
    (hwhole : (parsePacket base stream).WordsOk) :
    (KeepsLimit stream → ∀ (last : Nat) (chunks : List Recv), Cuts chunks stream →
      (worker last [] chunks).WordsOk →
      (worker last [] chunks).dispatched = (parsePacket base stream).dispatched) ∧
    (¬ KeepsLimit stream → ∃ (last : Nat) (chunks : List Recv), Cuts chunks stream ∧
      (worker last [] chunks).messages ≠ (parsePacket base stream).messages) := by
  obtain ⟨r, _, hs⟩ := parsePacket_scans hwhole
  constructor
  · intro hk last chunks hcut hok
    rw [← hcut.stream] at hs
    have hlim := (hs.keepsLimit_iff).mp (by rw [hcut.stream]; exact hk)
    have hmsg := (worker_scans hok hs hlim).1
    unfold Parse.dispatched
    rw [hmsg, hcut.stream]
  · intro hk
    refine ⟨base, _, cuts_bytes base stream, fun heq => hk (hs.keepsLimit_iff.mpr ?_)⟩
    rw [← heq]
    exact worker_bytes (by decide)

/-- A packet of 28 bytes. -/
def smallPacket : ProxyPacket := ⟨[97], 7, 0, [1, 2, 3]⟩

/-- It is dispatched all the same when its first 20 bytes arrive alone. -/
theorem worker_segments_small :
    let whole := frame smallPacket.message
    let chunks : List Recv := [⟨4096, whole.take 20⟩, ⟨8192, whole.drop 20⟩]
    (parsePacket 4096 whole).WordsOk ∧ KeepsLimit whole ∧
      (worker 4096 [] chunks).dispatched = (parsePacket 4096 whole).dispatched := by
  have hwhole : (parsePacket 4096 (frame smallPacket.message)).WordsOk := by decide +kernel
  have hk : KeepsLimit (frame smallPacket.message) := by
    have hstep : requestStep (frame smallPacket.message) = .take 28 smallPacket.message := by
      decide +kernel
    exact .take hstep (by decide) (.wait (by decide +kernel))
  exact ⟨hwhole, hk, (worker_segments hwhole).1 hk 4096 _ ⟨by decide +kernel, by decide +kernel⟩
    (by decide +kernel)⟩

/-- A piece without an `@`, and then the end of the stream: nothing is read. -/
theorem worker_skips (addr : Nat) {reqstr piece : List UInt8} (h : (64 : UInt8) ∉ reqstr ++ piece) :
    ∃ res, worker addr reqstr [⟨addr, piece⟩] = ⟨[], [], res⟩ := by
  obtain ⟨r, hpiece', hr⟩ : ∃ r, parsePacket addr (reqstr ++ piece) = .stopped r ∧
      (64 : UInt8) ∉ r := parseLoop_skips h
  obtain ⟨r', hlast', -⟩ : ∃ r', parsePacket addr r = .stopped r' ∧ (64 : UInt8) ∉ r' :=
    parseLoop_skips hr
  show ∃ res, (parsePacket addr (reqstr ++ piece)).andThen _ = _
  rw [hpiece', Parse.andThen_some rfl, worker]
  by_cases hnil : r = []
  · rw [if_pos hnil]
    exact ⟨_, rfl⟩
  · rw [if_neg hnil, hlast']
    exact ⟨_, rfl⟩

/-- A packet of 5026 bytes. -/
def bigPacket : ProxyPacket := ⟨[97], 0, 0, List.replicate 5000 0⟩

theorem bigPacket_message : bigPacket.message =
    [10, 1, 97, 16, 0, 24, 0, 90, 136, 39] ++ List.replicate 5000 0 := by
  have hlen : vintBytes (UInt64.ofNat (List.replicate 5000 (0 : UInt8)).length) = [136, 39] := by
    rw [List.length_replicate]
    decide
  have hlast : fieldBytes 11 (.string (List.replicate 5000 0)) =
      [90] ++ ([136, 39] ++ List.replicate 5000 0) := by
    unfold fieldBytes
    rw [valBytes, hlen]
    rfl
  show fieldBytes 1 (.string [97]) ++ (fieldBytes 2 (.varint 0) ++ (fieldBytes 3 (.varint 0) ++
    (fieldBytes 11 (.string (List.replicate 5000 0)) ++ []))) = _
  rw [hlast, List.append_nil]
  rfl

/-- The same packet is dispatched when it arrives in one piece, and lost when its first 17 bytes
    arrive alone. -/
theorem big_packet_lost :
    let whole := frame bigPacket.message
    let chunks : List Recv := [⟨4096, whole.take 17⟩, ⟨4096, whole.drop 17⟩]
    (parsePacket 4096 whole).WordsOk ∧ Cuts chunks whole ∧ (worker 4096 [] chunks).WordsOk ∧
      (parsePacket 4096 whole).dispatched = [bigPacket] ∧ (worker 4096 [] chunks).dispatched = [] := by
  have hmsg := bigPacket_message
  have hlen : bigPacket.message.length = 5010 := by
    rw [hmsg, List.length_append, List.length_replicate]
    rfl
  have hwhole : frame bigPacket.message =
      [64, 77, 121, 80, 82, 79, 88, 89, 162, 19, 0, 0, 0, 0, 0, 0, 10] ++
        ([1, 97, 16, 0, 24, 0, 90, 136, 39] ++ List.replicate 5000 0) := by
    unfold frame
    rw [hlen, hmsg]
    rfl
  have hparse := parsePacket_frame 4096 bigPacket.message_ne_nil (by rw [hlen]; decide)
  have hdisp : dispatch bigPacket.message = some bigPacket :=
    dispatch_message rfl (by rw [hlen]; decide)
  have htake : (frame bigPacket.message).take 17 =
      [64, 77, 121, 80, 82, 79, 88, 89, 162, 19, 0, 0, 0, 0, 0, 0, 10] := by
    rw [hwhole]
    exact List.take_left' rfl
  have hdrop : (frame bigPacket.message).drop 17 =
      [1, 97, 16, 0, 24, 0, 90, 136, 39] ++ List.replicate 5000 0 := by
    rw [hwhole]
    exact List.drop_left' rfl
  -- the length word of the first piece exceeds the limit, so the token is skipped
  have hfirst : parsePacket 4096
      [64, 77, 121, 80, 82, 79, 88, 89, 162, 19, 0, 0, 0, 0, 0, 0, 10] =
      ⟨[(4096, 5026)], [], some [77, 121, 80, 82, 79, 88, 89, 162, 19, 0, 0, 0, 0, 0, 0, 10]⟩ := by
    decide
  -- and no other token follows
  have hno : (64 : UInt8) ∉ [77, 121, 80, 82, 79, 88, 89, 162, 19, 0, 0, 0, 0, 0, 0, 10] ++
      ([1, 97, 16, 0, 24, 0, 90, 136, 39] ++ List.replicate 5000 (0 : UInt8)) := by
    rw [List.mem_append, List.mem_append, List.mem_replicate]
    rintro (h | h | h)
    · exact absurd h (by decide)
    · exact absurd h (by decide)
    · exact absurd h.2 (by decide)
  obtain ⟨res, hworker⟩ := worker_skips 4096 hno
  have hpieces : worker 4096 [] [⟨4096, (frame bigPacket.message).take 17⟩,
      ⟨4096, (frame bigPacket.message).drop 17⟩] = ⟨[(4096, 5026)], [], res⟩ := by
    show (parsePacket 4096 ([] ++ _)).andThen _ = _
    rw [htake, List.nil_append, hfirst, Parse.andThen_some rfl, hdrop, hworker]
    rfl
  refine ⟨?_, ⟨?_, ?_⟩, ?_, ?_, ?_⟩
  · rw [hparse, hlen]
    decide
  · intro c hc
    rw [htake, hdrop] at hc
    rcases List.mem_cons.mp hc with rfl | hc
    · exact List.cons_ne_nil _ _
    · rw [List.mem_singleton.mp hc]
      exact List.append_ne_nil_of_left_ne_nil (List.cons_ne_nil _ _) _
  · show _ ++ (_ ++ []) = _
    rw [List.append_nil, List.take_append_drop]
  · rw [hpieces]
    intro w hw
    rw [List.mem_singleton.mp hw]
    decide
  · unfold Parse.dispatched
    rw [hparse]
    show [bigPacket.message].filterMap dispatch = _
    rw [List.filterMap_cons, hdisp]
    rfl
  · rw [hpieces]
    rfl

end MysqlProxy
