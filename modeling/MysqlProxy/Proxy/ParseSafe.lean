/-
  Which inputs `ParsePacket` of the server survives.

  The length word of a packet is whatever the other side has sent.  The loop adds it to a pointer,
  compares pointers and subtracts the length of the header, and none of this is checked:

  * a word below 16 makes the length of the message negative,
  * a word so large that the pointer wraps around is taken for one that ends in the buffer.

  `parseHands` is what the loop hands to `string(packet+16, packlen-16)`, with the bytes there are.
  `Survives` says that this is always a range of the buffer, and `LengthsSane` is a condition on the
  words that a scan of the buffer meets.
-/
import MysqlProxy.Proxy.ParsePacket

namespace MysqlProxy

/-! ## Rounds -/

/-- A round of the loop. -/
inductive ParseRound where
  | leave
  | skip
  | hand (packlen : Nat)
  deriving DecidableEq

/-- The round that begins at the address `packet`. -/
def parseRound (packet : Nat) (rest : List UInt8) : ParseRound :=
  if rest.length ≤ PACKET_HEADER_LENGTH then .leave
  else if !startsPacket rest then .skip
  else if packet + rest.length < (packet + packlen rest) % 2 ^ 64 then
    if MAX_REQUEST_PACKET_LENGTH < packlen rest then .skip else .leave
  else .hand (packlen rest)

/-- The packets that are handed to the decoder: how many bytes there are, and the length word.
    `string` throws where the length of the message is negative or longer than any string. -/
def parseHands : Nat → Nat → List UInt8 → List (Nat × Nat)
  | 0, _, _ => []
  | n + 1, packet, rest =>
    match parseRound packet rest with
    | .leave => []
    | .skip => parseHands n (packet + 1) (rest.drop 1)
    | .hand len =>
      (rest.length, len) ::
        if len < PACKET_HEADER_LENGTH ∨ 2 ^ 64 ≤ packet + len then []
        else parseHands n (packet + len) (rest.drop len)

/-- What is handed on is in the buffer, and the call ends with a rest of it in front of which the
    loop has been left. -/
structure Survives (n packet : Nat) (rest : List UInt8) : Prop where
  hands : ∀ h ∈ parseHands n packet rest, PACKET_HEADER_LENGTH ≤ h.2 ∧ h.2 ≤ h.1
  messages : ∀ m ∈ (parseLoop n packet rest).messages, m <:+: rest
  residue : ∃ taken, taken ≤ rest.length ∧
    (parseLoop n packet rest).residue = some (rest.drop taken) ∧
    parseRound (packet + taken) (rest.drop taken) = .leave

/-- The scan of a buffer comes to a packet after `k` bytes. -/
inductive Reached : List UInt8 → Nat → Prop
  | zero (rest : List UInt8) : Reached rest 0
  | skip {rest : List UInt8} {n k : Nat} (h : requestStep rest = .skip n)
      (hr : Reached (rest.drop n) k) : Reached rest (n + k)
  | take {rest msg : List UInt8} {n k : Nat} (h : requestStep rest = .take n msg)
      (hr : Reached (rest.drop n) k) : Reached rest (n + k)

/-- The length word of a packet: it counts its header, and its end is not beyond the last
    address. -/
def WordSane (packet : Nat) (rest : List UInt8) : Prop :=
  PACKET_HEADER_LENGTH < rest.length → startsPacket rest = true →
    PACKET_HEADER_LENGTH ≤ packlen rest ∧ packet + packlen rest < 2 ^ 64

/-- **Every length word that the scan meets** is sane. -/
def LengthsSane (packet : Nat) (rest : List UInt8) : Prop :=
  ∀ k, Reached rest k → WordSane (packet + k) (rest.drop k)

/-- `parseLoop` goes from round to round. -/
theorem parseLoop_round (n packet : Nat) (rest : List UInt8) :
    (parseLoop (n + 1) packet rest).messages = (match parseRound packet rest with
      | .leave => []
      | .skip => (parseLoop n (packet + 1) (rest.drop 1)).messages
      | .hand len =>
        if len < PACKET_HEADER_LENGTH ∨ 2 ^ 64 ≤ packet + len then []
        else (rest.take len).drop PACKET_HEADER_LENGTH ::
          (parseLoop n (packet + len) (rest.drop len)).messages) ∧
    (parseLoop (n + 1) packet rest).residue = match parseRound packet rest with
      | .leave => some rest
      | .skip => (parseLoop n (packet + 1) (rest.drop 1)).residue
      | .hand len =>
        if len < PACKET_HEADER_LENGTH ∨ 2 ^ 64 ≤ packet + len then none
        else (parseLoop n (packet + len) (rest.drop len)).residue := by
  rw [parseLoop, parseRound]
  split
  · exact ⟨rfl, rfl⟩
  · split
    · exact ⟨rfl, rfl⟩
    · split
      · split
        · exact ⟨rfl, rfl⟩
        · exact ⟨rfl, rfl⟩
      · simp only
        split
        · exact ⟨rfl, rfl⟩
        · exact ⟨rfl, rfl⟩

/-! ## Conditions, round by round -/

theorem lengthsSane_wait {packet : Nat} {rest : List UInt8} (h : requestStep rest = .wait) :
    LengthsSane packet rest ↔ WordSane packet rest := by
  constructor
  · exact fun hall => hall 0 (.zero rest)
  · intro hw k hk
    cases hk with
    | zero => exact hw
    | skip hs _ => rw [h] at hs; cases hs
    | take hs _ => rw [h] at hs; cases hs

/-- The scan goes on behind `n` bytes. -/
def Goes (rest : List UInt8) (n : Nat) : Prop :=
  requestStep rest = .skip n ∨ ∃ msg, requestStep rest = .take n msg

theorem lengthsSane_goes {packet n : Nat} {rest : List UInt8} (h : Goes rest n) :
    LengthsSane packet rest ↔ WordSane packet rest ∧ LengthsSane (packet + n) (rest.drop n) := by
  have hshift : ∀ k, packet + n + k = packet + (n + k) := fun k => Nat.add_assoc packet n k
  constructor
  · intro hall
    refine ⟨hall 0 (.zero rest), fun k hk => ?_⟩
    rw [List.drop_drop, hshift]
    rcases h with h | ⟨msg, h⟩
    · exact hall _ (.skip h hk)
    · exact hall _ (.take h hk)
  · rintro ⟨hw, hall⟩ k hk
    have hnext : ∀ {m k : Nat}, m = n → Reached (rest.drop m) k →
        WordSane (packet + (m + k)) (rest.drop (m + k)) := by
      rintro m k rfl hr
      have := hall k hr
      rwa [List.drop_drop, hshift] at this
    cases hk with
    | zero => exact hw
    | skip hs hr =>
      refine hnext ?_ hr
      rcases h with h | ⟨msg, h⟩
      · rw [h] at hs
        injection hs with hs
        exact hs.symm
      · rw [h] at hs
        cases hs
    | take hs hr =>
      refine hnext ?_ hr
      rcases h with h | ⟨msg, h⟩
      · rw [h] at hs
        cases hs
      · rw [h] at hs
        injection hs with hs
        exact hs.symm

/-- What a round finds in front of it. -/
inductive RoundCase (packet : Nat) (rest : List UInt8) : Prop
  /-- It leaves the loop, and the scan waits. -/
  | leave (hr : parseRound packet rest = .leave) (hs : requestStep rest = .wait)
    (hw : WordSane packet rest)
  /-- A byte is skipped. -/
  | skip (hr : parseRound packet rest = .skip) (hs : requestStep rest = .skip 1)
    (hw : WordSane packet rest) (hlen : PACKET_HEADER_LENGTH < rest.length)
  /-- A packet is there. -/
  | hand (hr : parseRound packet rest = .hand (packlen rest))
    (hs : ∃ msg, requestStep rest = .take (packlen rest) msg) (hw : WordSane packet rest)
    (h16 : PACKET_HEADER_LENGTH ≤ packlen rest) (hwrap : packet + packlen rest < 2 ^ 64)
    (hle : packlen rest ≤ rest.length)
  /-- Something is handed on that is not there. -/
  | bad (hr : parseRound packet rest = .hand (packlen rest)) (hw : ¬ WordSane packet rest)
    (hbad : packlen rest < PACKET_HEADER_LENGTH ∨ 2 ^ 64 ≤ packet + packlen rest)

theorem roundCase {packet : Nat} {rest : List UInt8} (hend : packet + rest.length < 2 ^ 64) :
    RoundCase packet rest := by
  have h16 : PACKET_HEADER_LENGTH = 16 := rfl
  have hlt := packlen_lt rest
  by_cases hshort : rest.length ≤ PACKET_HEADER_LENGTH
  · refine .leave ?_ ?_ fun hlen => absurd hlen (by omega)
    · rw [parseRound, if_pos hshort]
    · rw [requestStep, if_pos hshort]
  · by_cases htok : startsPacket rest = true
    · have htok' : ¬ (!startsPacket rest) = true := by rw [htok]; decide
      rw [not_le] at hshort
      by_cases hpart : packet + rest.length < (packet + packlen rest) % 2 ^ 64
      · -- the end of the packet is behind the end of the buffer, so the pointer has not wrapped
        have hmod : (packet + packlen rest) % 2 ^ 64 = packet + packlen rest := by
          rw [Nat.mod_def] at hpart ⊢
          by_contra hne
          have hdiv : (packet + packlen rest) / 2 ^ 64 = 1 := by omega
          rw [hdiv] at hpart
          omega
        rw [hmod] at hpart
        have hw : WordSane packet rest := fun _ _ => by
          constructor
          · omega
          · rw [← hmod]
            exact Nat.mod_lt _ (Nat.two_pow_pos 64)
        by_cases hmax : MAX_REQUEST_PACKET_LENGTH < packlen rest
        · refine .skip ?_ ?_ hw hshort
          · rw [parseRound, if_neg (by omega), if_neg htok', hmod, if_pos hpart, if_pos hmax]
          · rw [requestStep, if_neg (by omega), if_neg htok', if_pos (by omega), if_pos hmax]
        · refine .leave ?_ ?_ hw
          · rw [parseRound, if_neg (by omega), if_neg htok', hmod, if_pos hpart, if_neg hmax]
          · rw [requestStep, if_neg (by omega), if_neg htok', if_pos (by omega), if_neg hmax]
      · have hr : parseRound packet rest = .hand (packlen rest) := by
          rw [parseRound, if_neg (by omega), if_neg htok', if_neg hpart]
        by_cases hsane : PACKET_HEADER_LENGTH ≤ packlen rest ∧ packet + packlen rest < 2 ^ 64
        · rw [Nat.mod_eq_of_lt hsane.2] at hpart
          refine .hand hr ⟨(rest.take (packlen rest)).drop PACKET_HEADER_LENGTH, ?_⟩
            (fun _ _ => hsane) hsane.1 hsane.2 (by omega)
          rw [requestStep, if_neg (by omega), if_neg htok', if_neg (by omega)]
        · exact .bad hr (fun hw => hsane (hw hshort htok)) (by omega)
    · have htok' : (!startsPacket rest) = true := by
        rw [Bool.eq_false_iff.mpr htok]
        rfl
      refine .skip ?_ ?_ (fun _ h => absurd h htok) (by omega)
      · rw [parseRound, if_neg hshort, if_pos htok']
      · rw [requestStep, if_neg hshort, if_pos htok']

/-! ## The loop -/

/-- **A call that ends normally** has met sane words only. -/
theorem lengthsSane_of_residue (n : Nat) : ∀ {packet : Nat} {rest : List UInt8}, rest.length < n →
    packet + rest.length < 2 ^ 64 → (parseLoop n packet rest).residue ≠ none →
    LengthsSane packet rest := by
  induction n with
  | zero => exact fun h => absurd h (Nat.not_lt_zero _)
  | succ n ih =>
    intro packet rest hn hend hres
    have h16 : PACKET_HEADER_LENGTH = 16 := rfl
    rw [(parseLoop_round n packet rest).2] at hres
    have hnext : ∀ k, 0 < k → k ≤ rest.length →
        (parseLoop n (packet + k) (rest.drop k)).residue ≠ none →
        LengthsSane (packet + k) (rest.drop k) := by
      intro k hk hle hr
      have hlen : (rest.drop k).length = rest.length - k := List.length_drop
      exact ih (by omega) (by omega) hr
    cases roundCase hend with
    | leave hr hs hw => exact (lengthsSane_wait hs).mpr hw
    | skip hr hs hw hlen =>
      rw [hr] at hres
      exact (lengthsSane_goes (.inl hs)).mpr ⟨hw, hnext 1 (by decide) (by omega) hres⟩
    | hand hr hs hw h16' hwrap hle =>
      rw [hr] at hres
      simp only at hres
      rw [if_neg (by omega)] at hres
      exact (lengthsSane_goes (.inr hs)).mpr ⟨hw, hnext _ (by omega) hle hres⟩
    | bad hr hw hbad =>
      rw [hr] at hres
      simp only at hres
      rw [if_pos hbad] at hres
      exact absurd rfl hres

/-- A round that goes on behind `k` bytes, perhaps with a packet. -/
theorem survives_goes {n packet k : Nat} {rest : List UInt8} (hk : k ≤ rest.length)
    {own : List (Nat × Nat)} {msgs : List (List UInt8)}
    (hhands : parseHands (n + 1) packet rest = own ++ parseHands n (packet + k) (rest.drop k))
    (hmsgs : (parseLoop (n + 1) packet rest).messages =
      msgs ++ (parseLoop n (packet + k) (rest.drop k)).messages)
    (hres : (parseLoop (n + 1) packet rest).residue =
      (parseLoop n (packet + k) (rest.drop k)).residue)
    (hown : ∀ h ∈ own, PACKET_HEADER_LENGTH ≤ h.2 ∧ h.2 ≤ h.1) (hmsg : ∀ m ∈ msgs, m <:+: rest)
    (h : Survives n (packet + k) (rest.drop k)) : Survives (n + 1) packet rest := by
  have hlen : (rest.drop k).length = rest.length - k := List.length_drop
  obtain ⟨hands, messages, taken, hle, hr, hround⟩ := h
  refine ⟨?_, ?_, k + taken, by omega, ?_, ?_⟩
  · rw [hhands]
    intro h hh
    rcases List.mem_append.mp hh with hh | hh
    · exact hown h hh
    · exact hands h hh
  · rw [hmsgs]
    intro m hm
    rcases List.mem_append.mp hm with hm | hm
    · exact hmsg m hm
    · exact (messages m hm).trans (List.drop_suffix k rest).isInfix
  · rw [hres, hr, List.drop_drop]
  · rw [← List.drop_drop, ← Nat.add_assoc]
    exact hround

/-- **A call that meets sane words** survives. -/
theorem survives_of_lengthsSane (n : Nat) : ∀ {packet : Nat} {rest : List UInt8}, rest.length < n →
    packet + rest.length < 2 ^ 64 → LengthsSane packet rest → Survives n packet rest := by
  induction n with
  | zero => exact fun h => absurd h (Nat.not_lt_zero _)
  | succ n ih =>
    intro packet rest hn hend hsane
    have h16 : PACKET_HEADER_LENGTH = 16 := rfl
    obtain ⟨hmsgs, hres⟩ := parseLoop_round n packet rest
    have hnext : ∀ k, 0 < k → k ≤ rest.length → LengthsSane (packet + k) (rest.drop k) →
        Survives n (packet + k) (rest.drop k) := by
      intro k hk hle hs
      have hlen : (rest.drop k).length = rest.length - k := List.length_drop
      exact ih (by omega) (by omega) hs
    cases roundCase hend with
    | leave hr hs hw =>
      rw [hr] at hmsgs hres
      refine ⟨?_, ?_, 0, Nat.zero_le _, ?_, ?_⟩
      · rw [parseHands, hr]
        exact fun h hh => absurd hh List.not_mem_nil
      · rw [hmsgs]
        exact fun m hm => absurd hm List.not_mem_nil
      · exact hres
      · exact hr
    | skip hr hs hw hlen =>
      rw [hr] at hmsgs hres
      have hhands : parseHands (n + 1) packet rest =
        [] ++ parseHands n (packet + 1) (rest.drop 1) := by
        rw [parseHands, hr]
        rfl
      have hnone : (parseLoop (n + 1) packet rest).messages =
          [] ++ (parseLoop n (packet + 1) (rest.drop 1)).messages := hmsgs
      refine survives_goes (by omega) hhands hnone hres ?_ ?_
        (hnext 1 (by decide) (by omega) ((lengthsSane_goes (.inl hs)).mp hsane).2)
      · exact fun h hh => absurd hh List.not_mem_nil
      · exact fun m hm => absurd hm List.not_mem_nil
    | hand hr hs hw h16' hwrap hle =>
      have hok : ¬ (packlen rest < PACKET_HEADER_LENGTH ∨ 2 ^ 64 ≤ packet + packlen rest) := by
        omega
      rw [hr] at hmsgs hres
      simp only [if_neg hok] at hmsgs hres
      have hhands : parseHands (n + 1) packet rest =
          [(rest.length, packlen rest)] ++
            parseHands n (packet + packlen rest) (rest.drop (packlen rest)) := by
        rw [parseHands, hr]
        simp only [if_neg hok]
        rfl
      have hone : (parseLoop (n + 1) packet rest).messages =
          [(rest.take (packlen rest)).drop PACKET_HEADER_LENGTH] ++
            (parseLoop n (packet + packlen rest) (rest.drop (packlen rest))).messages := hmsgs
      refine survives_goes hle hhands hone hres ?_ ?_
        (hnext _ (by omega) hle ((lengthsSane_goes (.inr hs)).mp hsane).2)
      · intro h hh
        rw [List.mem_singleton.mp hh]
        exact ⟨h16', hle⟩
      · intro m hm
        rw [List.mem_singleton.mp hm]
        exact (List.drop_suffix _ _).isInfix.trans (List.take_prefix _ _).isInfix
    | bad hr hw hbad => exact absurd (hsane 0 (.zero rest)) hw

/-- **`ParsePacket` survives the inputs whose length words are sane**, and no others. -/
theorem parsePacket_survives {base : Nat} {reqstr : List UInt8}
    (hend : base + reqstr.length < 2 ^ 64) :
    Survives (reqstr.length + 1) base reqstr ↔ LengthsSane base reqstr := by
  constructor
  · intro h
    obtain ⟨taken, _, hres, _⟩ := h.residue
    refine lengthsSane_of_residue _ (Nat.lt_succ_self _) hend ?_
    rw [hres]
    exact Option.some_ne_none _
  · exact survives_of_lengthsSane _ (Nat.lt_succ_self _) hend

/-- A packet with an empty message, and a byte that belongs to the next one. -/
def emptyPacket : List UInt8 := packetHeader 0 ++ [64]

theorem parsePacket_survives_empty :
    Survives 18 4096 emptyPacket ∧ (parsePacket 4096 emptyPacket).messages = [[]] := by
  have hres : (parsePacket 4096 emptyPacket).residue = some [64] := by decide +kernel
  refine ⟨(@parsePacket_survives 4096 emptyPacket (by decide)).mpr ?_, by decide +kernel⟩
  refine lengthsSane_of_residue 18 (by decide) (by decide) ?_
  show (parsePacket 4096 emptyPacket).residue ≠ none
  rw [hres]
  exact Option.some_ne_none _

/-- A length word that does not even count its header, -/
def shortPacket : List UInt8 := packetStartToken ++ [0, 0, 0, 0, 0, 0, 0, 0, 64]

/-- is handed on as a message of minus 16 bytes. -/
theorem shortPacket_handed : parseHands 18 4096 shortPacket = [(17, 0)] ∧
    (parsePacket 4096 shortPacket).residue = none ∧ ¬ Survives 18 4096 shortPacket := by
  have hhands : parseHands 18 4096 shortPacket = [(17, 0)] := by decide +kernel
  refine ⟨hhands, by decide +kernel, fun h => ?_⟩
  have := (h.hands (17, 0) (by rw [hhands]; exact List.mem_singleton_self _)).1
  exact absurd this (by decide)

end MysqlProxy
