/-
  The buffer of a node (`knv_dynamic_data_t`).

  A buffer is KNOWN when its name was given out.  What a value points to is known, so a new node and
  a new buffer are never in the way (`initOwn_spec`); the only danger is the `dyn_data` of a node,
  which `assignStr` gives back or writes over.

  * `DynData.Spares`: it does not do so to what a value points to (`DynData.Spares.read_eq`).
  * `DynData.Ok.assignStr`: what was assigned is there.
-/
import MysqlProxy.Knv.MetaBuffers

namespace MysqlProxy

/-! ## Names -/

namespace Buffers

/-- The name was given out. -/
def Known (b : Buffers) : Buf → Prop
  | .small_buf node => node < b.nextNode
  | .ucMem m => m < b.nextMem
  | .other _ => True

/-- Names are not taken back. -/
def Le (b b' : Buffers) : Prop := b.nextNode ≤ b'.nextNode ∧ b.nextMem ≤ b'.nextMem

theorem Le.refl (b : Buffers) : b.Le b := ⟨Nat.le_refl _, Nat.le_refl _⟩

theorem Le.trans {b b' b'' : Buffers} (h : b.Le b') (h' : b'.Le b'') : b.Le b'' :=
  ⟨Nat.le_trans h.1 h'.1, Nat.le_trans h.2 h'.2⟩

theorem Known.mono {b b' : Buffers} {buf : Buf} (h : b.Known buf) (hle : b.Le b') :
    b'.Known buf := by
  cases buf with
  | small_buf node => exact Nat.lt_of_lt_of_le h hle.1
  | ucMem m => exact Nat.lt_of_lt_of_le h hle.2
  | other k => exact h

theorem freeMem_nextNode (b : Buffers) (mem : Option Nat) :
    (b.freeMem mem).nextNode = b.nextNode := by
  cases mem <;> rfl

theorem freeMem_nextMem (b : Buffers) (mem : Option Nat) : (b.freeMem mem).nextMem = b.nextMem := by
  cases mem <;> rfl

/-- Only the buffer that is freed is not there any more. -/
theorem freeMem_ne (b : Buffers) {mem : Option Nat} {buf : Buf} (h : mem.map .ucMem ≠ some buf) :
    (b.freeMem mem).heap buf = b.heap buf := by
  cases mem with
  | none => rfl
  | some m => exact b.heap.free_ne fun heq => h (heq ▸ rfl)

end Buffers

namespace KnvValue

/-- What the value points to is known. -/
def Known (b : Buffers) : KnvValue → Prop
  | .string (some (buf, _)) _ => b.Known buf
  | _ => True

theorem Known.mono {b b' : Buffers} {v : KnvValue} (h : v.Known b) (hle : b.Le b') :
    v.Known b' := by
  match v with
  | .string (some (buf, off)) len => exact Buffers.Known.mono h hle
  | .string none len | .varint i64 | .fixed64 i64 | .fixed32 i32 => exact True.intro

/-- A value is read where it points to. -/
theorem read_congr {h h' : Heap Buf} : ∀ {v : KnvValue},
    (∀ buf off len, v = .string (some (buf, off)) len → len ≠ 0 →
      h'.read buf off len = h.read buf off len) → v.read h' = v.read h
  | .string (some (buf, off)) len, heq => by
    rw [read, read]
    split
    · rfl
    next hlen =>
      rw [Option.bind_some, Option.bind_some, heq buf off len rfl hlen]
  | .string none len, _ => rfl
  | .varint i64, _ => rfl
  | .fixed64 i64, _ => rfl
  | .fixed32 i32, _ => rfl

end KnvValue

/-! ## The buffer of a node -/

namespace DynData

/-- `alloc` gives the buffer from the memory manager back. -/
def GivesBack (d : DynData) (req_sz : Nat) : Prop := req_sz ≤ 64 ∨ d.Moves req_sz

/-- The buffer that is written over, unless it is a new one. -/
def target (d : DynData) (node req_sz : Nat) : Option Buf :=
  if req_sz ≤ 64 then some (.small_buf node) else if d.Moves req_sz then none else d.data

/-- Neither are the bytes of the value given back, nor are `req_sz` bytes written over them. -/
def Spares (d : DynData) (node req_sz : Nat) : KnvValue → Prop
  | .string (some (buf, off)) len => len = 0 ∨
    ¬ (d.GivesBack req_sz ∧ d.mem.map .ucMem = some buf) ∧
      (d.target node req_sz = some buf → req_sz ≤ off)
  | _ => True

/-- The `dyn_data` of `node` is in order. -/
structure Ok (d : DynData) (node : Nat) (b : Buffers) : Prop where
  node_lt : node < b.nextNode
  small : ∃ bytes, b.heap (.small_buf node) = some bytes ∧ bytes.length = 64
  at_data : d = .empty ∨ d = ⟨64, some (.small_buf node), none⟩ ∨
    ∃ sz m bytes, d = ⟨sz, some (.ucMem m), some m⟩ ∧ m < b.nextMem ∧
      b.heap (.ucMem m) = some bytes ∧ sz ≤ bytes.length

theorem alloc_small {req_sz : Nat} (d : DynData) (h : req_sz ≤ 64) (node : Nat) (b : Buffers) :
    d.alloc node req_sz b =
      (.small_buf node, ⟨64, some (.small_buf node), none⟩, b.freeMem d.mem) :=
  if_pos h

theorem alloc_stays {d : DynData} {req_sz : Nat} (h : 64 < req_sz) (hstay : ¬ d.Moves req_sz)
    (node : Nat) (b : Buffers) :
    ∃ data, d.data = some data ∧ req_sz ≤ d.sz ∧ d.alloc node req_sz b = (data, d, b) := by
  obtain ⟨hdata, hdiffers⟩ := not_or.mp hstay
  obtain ⟨data, hsome⟩ := Option.ne_none_iff_exists'.mp hdata
  have hfalse : d.differs req_sz = false := Bool.eq_false_iff.mpr hdiffers
  have hle : req_sz ≤ d.sz := by
    rw [differs, Bool.or_eq_false_iff, decide_eq_false_iff_not] at hfalse
    omega
  refine ⟨data, hsome, hle, ?_⟩
  rw [alloc, if_neg (by omega), hsome, hfalse]

theorem alloc_moves {d : DynData} {req_sz : Nat} (h : 64 < req_sz) (hmove : d.Moves req_sz)
    (node : Nat) (b : Buffers) : ∃ sz, sz ≤ KnvNode.allocSize req_sz ∧
      d.alloc node req_sz b = (.ucMem b.nextMem,
        ⟨sz, some (.ucMem b.nextMem), some b.nextMem⟩, (b.allocMem req_sz).2.freeMem d.mem) := by
  refine ⟨if KnvNode.allocSize req_sz % 2 ^ 32 = 0 then req_sz
    else KnvNode.allocSize req_sz % 2 ^ 32, ?_, ?_⟩
  · split
    · exact KnvNode.le_allocSize req_sz
    · exact Nat.mod_le ..
  · rw [alloc, if_neg (by omega)]
    rcases hmove with hnone | hdiffers
    · rw [hnone]
      rfl
    · rw [hdiffers]
      cases d.data <;> rfl

/-- The `small_buf` is not from the memory manager. -/
theorem map_ucMem_ne_small (mem : Option Nat) (node : Nat) :
    mem.map Buf.ucMem ≠ some (.small_buf node) := by
  cases mem with
  | none => exact nofun
  | some m => exact nofun

/-- What `assignStr` does to a buffer that is known: nothing, or it is one of the two. -/
theorem assignStr_ne {d : DynData} {node : Nat} {str : List UInt8} {b : Buffers} {buf : Buf}
    (hknown : b.Known buf) (hback : ¬ (d.GivesBack str.length ∧ d.mem.map .ucMem = some buf))
    (htarget : d.target node str.length ≠ some buf) :
    (d.assignStr node str b).2.2.heap buf = b.heap buf := by
  rw [assignStr]
  rcases Nat.lt_or_ge 64 str.length with hlen | hlen
  · by_cases hmove : d.Moves str.length
    · obtain ⟨sz, -, halloc⟩ := alloc_moves hlen hmove node b
      have hnew : buf ≠ .ucMem b.nextMem := by
        rintro rfl
        exact Nat.lt_irrefl _ hknown
      rw [halloc]
      calc ((b.allocMem str.length).2.freeMem d.mem).heap.store (.ucMem b.nextMem) str buf
          = ((b.allocMem str.length).2.freeMem d.mem).heap buf := Heap.store_ne _ hnew _
        _ = (b.allocMem str.length).2.heap buf :=
            Buffers.freeMem_ne _ fun heq => hback ⟨.inr hmove, heq⟩
        _ = b.heap buf := Heap.put_ne _ hnew _
    · obtain ⟨data, hdata, -, halloc⟩ := alloc_stays hlen hmove node b
      rw [halloc]
      refine Heap.store_ne _ ?_ _
      rintro rfl
      exact htarget (by rw [target, if_neg (by omega), if_neg hmove, hdata])
  · rw [alloc_small d hlen]
    have hne : buf ≠ .small_buf node := by
      rintro rfl
      exact htarget (if_pos hlen)
    calc (b.freeMem d.mem).heap.store (.small_buf node) str buf
        = (b.freeMem d.mem).heap buf := Heap.store_ne _ hne _
      _ = b.heap buf := Buffers.freeMem_ne _ fun heq => hback ⟨.inl hlen, heq⟩

/-- The buffer that is written over gets the bytes in front. -/
theorem assignStr_target {d : DynData} {node : Nat} {str : List UInt8} {b : Buffers} {buf : Buf}
    (htarget : d.target node str.length = some buf) : ∃ h : Heap Buf, h buf = b.heap buf ∧
      (d.assignStr node str b).2.2.heap = h.store buf str := by
  rw [assignStr]
  rw [target] at htarget
  split at htarget
  next hlen =>
    obtain rfl := Option.some.inj htarget
    rw [alloc_small d hlen]
    exact ⟨(b.freeMem d.mem).heap, Buffers.freeMem_ne _ (map_ucMem_ne_small _ _), rfl⟩
  next hlen =>
    split at htarget
    next => cases htarget
    next hmove =>
      obtain ⟨data, hdata, -, halloc⟩ := alloc_stays (Nat.lt_of_not_le hlen) hmove node b
      obtain rfl := Option.some.inj (hdata.symm.trans htarget)
      rw [halloc]
      exact ⟨b.heap, rfl, rfl⟩

theorem assignStr_le (d : DynData) (node : Nat) (str : List UInt8) (b : Buffers) :
    b.Le (d.assignStr node str b).2.2 ∧ (d.assignStr node str b).2.2.nextNode = b.nextNode := by
  rw [assignStr]
  rcases Nat.lt_or_ge 64 str.length with hlen | hlen
  · by_cases hmove : d.Moves str.length
    · obtain ⟨sz, -, halloc⟩ := alloc_moves hlen hmove node b
      rw [halloc]
      refine ⟨⟨Nat.le_of_eq ?_, Nat.le_trans (Nat.le_succ _) (Nat.le_of_eq ?_)⟩, ?_⟩
      · exact (Buffers.freeMem_nextNode (b.allocMem str.length).2 d.mem).symm
      · exact (Buffers.freeMem_nextMem (b.allocMem str.length).2 d.mem).symm
      · exact Buffers.freeMem_nextNode (b.allocMem str.length).2 d.mem
    · obtain ⟨data, -, -, halloc⟩ := alloc_stays hlen hmove node b
      rw [halloc]
      exact ⟨Buffers.Le.refl b, rfl⟩
  · rw [alloc_small d hlen]
    refine ⟨⟨Nat.le_of_eq ?_, Nat.le_of_eq ?_⟩, ?_⟩
    · exact (Buffers.freeMem_nextNode b d.mem).symm
    · exact (Buffers.freeMem_nextMem b d.mem).symm
    · exact Buffers.freeMem_nextNode b d.mem

theorem Ok.mem_lt {d : DynData} {node : Nat} {b : Buffers} (h : d.Ok node b) {m : Nat}
    (hm : d.mem = some m) : m < b.nextMem := by
  rcases h.at_data with rfl | rfl | ⟨sz, m', bytes, rfl, hlt, -, -⟩
  · cases hm
  · cases hm
  · obtain rfl : m' = m := Option.some.inj hm
    exact hlt

/-- **What was assigned is there**, and `dyn_data` stays in order. -/
theorem Ok.assignStr {d : DynData} {node : Nat} {b : Buffers} (h : d.Ok node b)
    (str : List UInt8) :
    let r := d.assignStr node str b
    r.2.2.heap.read r.1 0 str.length = some str ∧ r.2.1.Ok node r.2.2 ∧ r.2.2.Known r.1 := by
  intro r
  obtain ⟨small, hsmall, hsize⟩ := h.small
  have hle := assignStr_le d node str b
  have hlt : node < r.2.2.nextNode := Nat.lt_of_lt_of_le h.node_lt hle.1.1
  rcases Nat.lt_or_ge 64 str.length with hlen | hlen
  · -- the `small_buf` is not touched
    have hkeep : r.2.2.heap (.small_buf node) = some small := by
      rw [← hsmall]
      refine assignStr_ne h.node_lt (fun hback => map_ucMem_ne_small _ _ hback.2) ?_
      rw [target, if_neg (by omega)]
      split
      · exact nofun
      · rcases h.at_data with rfl | rfl | ⟨sz, m, bytes, rfl, -, -, -⟩
        · exact nofun
        · rename_i hmove
          exact absurd (.inr (by rw [differs, Bool.or_eq_true]; exact .inl (decide_eq_true hlen)))
            hmove
        · exact nofun
    by_cases hmove : d.Moves str.length
    · obtain ⟨sz, hsz, halloc⟩ := alloc_moves hlen hmove node b
      have hr : r = (.ucMem b.nextMem, ⟨sz, some (.ucMem b.nextMem), some b.nextMem⟩,
          ((b.allocMem str.length).2.freeMem d.mem).memcpy (.ucMem b.nextMem) str) := by
        rw [show r = d.assignStr node str b from rfl, DynData.assignStr, halloc]
      have hnew : ((b.allocMem str.length).2.freeMem d.mem).heap (.ucMem b.nextMem) =
          some (List.replicate (KnvNode.allocSize str.length) 0) := by
        rw [Buffers.freeMem_ne]
        · exact Heap.put_self ..
        · intro heq
          cases hmem : d.mem with
          | none => rw [hmem] at heq; cases heq
          | some m =>
            rw [hmem] at heq
            have := h.mem_lt hmem
            cases heq
            omega
      have hroom : str.length ≤ (List.replicate (KnvNode.allocSize str.length) (0 : UInt8)).length := by
        rw [List.length_replicate]
        exact KnvNode.le_allocSize _
      obtain ⟨bytes, hbytes, hblen⟩ := Heap.length_store hnew hroom
      have hnext : b.nextMem < r.2.2.nextMem := by
        rw [hr]
        exact Nat.lt_of_lt_of_eq (Nat.lt_succ_self _)
          (Buffers.freeMem_nextMem (b.allocMem str.length).2 d.mem).symm
      refine ⟨?_, ⟨hlt, ⟨small, hkeep, hsize⟩, ?_⟩, ?_⟩
      · rw [hr]
        exact Heap.read_store hnew hroom
      · refine .inr (.inr ⟨sz, b.nextMem, bytes, by rw [hr], hnext, ?_, ?_⟩)
        · rw [hr]
          exact hbytes
        · rw [hblen, List.length_replicate]
          exact hsz
      · rw [show r.1 = .ucMem b.nextMem by rw [hr]]
        exact hnext
    · obtain ⟨data, hdata, hreq, halloc⟩ := alloc_stays hlen hmove node b
      have hr : r = (data, d, b.memcpy data str) := by
        rw [show r = d.assignStr node str b from rfl, DynData.assignStr, halloc]
      rcases h.at_data with rfl | rfl | ⟨sz, m, old, rfl, hm, hold, hsz⟩
      · cases hdata
      · exact absurd hreq (Nat.not_le_of_lt hlen)
      · obtain rfl : Buf.ucMem m = data := Option.some.inj hdata
        have hroom : str.length ≤ old.length := Nat.le_trans hreq hsz
        obtain ⟨bytes, hbytes, hblen⟩ := Heap.length_store hold hroom
        rw [hr]
        rw [hr] at hlt hkeep
        refine ⟨Heap.read_store hold hroom, ⟨hlt, ⟨small, hkeep, hsize⟩, ?_⟩, hm⟩
        exact .inr (.inr ⟨sz, m, bytes, rfl, hm, hbytes, by rwa [hblen]⟩)
  · have hr : r = (.small_buf node, ⟨64, some (.small_buf node), none⟩,
        (b.freeMem d.mem).memcpy (.small_buf node) str) := by
      rw [show r = d.assignStr node str b from rfl, DynData.assignStr, alloc_small d hlen]
    have hold : (b.freeMem d.mem).heap (.small_buf node) = some small := by
      rw [← hsmall]
      exact Buffers.freeMem_ne _ (map_ucMem_ne_small _ _)
    have hroom : str.length ≤ small.length := by omega
    obtain ⟨bytes, hbytes, hblen⟩ := Heap.length_store hold hroom
    rw [hr] at hlt ⊢
    exact ⟨Heap.read_store hold hroom, ⟨hlt, ⟨bytes, hbytes, by rw [hblen, hsize]⟩, .inr (.inl rfl)⟩,
      hlt⟩

/-- A value that is spared is read as before. -/
theorem Spares.read_eq {d : DynData} {node : Nat} {str : List UInt8} {b : Buffers} {v : KnvValue}
    (h : d.Spares node str.length v) (hknown : v.Known b) :
    v.read (d.assignStr node str b).2.2.heap = v.read b.heap := by
  refine KnvValue.read_congr ?_
  rintro buf off len rfl hlen
  obtain ⟨hback, hover⟩ := h.resolve_left hlen
  by_cases htarget : d.target node str.length = some buf
  · obtain ⟨h', hold, hnew⟩ := assignStr_target (b := b) htarget
    rw [hnew, Heap.read_store_behind h' (hover htarget)]
    exact Heap.read_congr hold off len
  · exact Heap.read_congr (assignStr_ne hknown hback htarget) off len

end DynData

/-! ## New nodes -/

/-- Nothing that was known is touched. -/
structure Buffers.Extends (b b' : Buffers) : Prop where
  le : b.Le b'
  keeps : ∀ buf, b.Known buf → b'.heap buf = b.heap buf

namespace Buffers.Extends

variable {b b' b'' : Buffers}

theorem refl (b : Buffers) : b.Extends b := ⟨Le.refl b, fun _ _ => rfl⟩

theorem trans (h : b.Extends b') (h' : b'.Extends b'') : b.Extends b'' where
  le := h.le.trans h'.le
  keeps buf hbuf := (h'.keeps buf (hbuf.mono h.le)).trans (h.keeps buf hbuf)

theorem read_eq (h : b.Extends b') {v : KnvValue} (hknown : v.Known b) :
    v.read b'.heap = v.read b.heap := by
  refine KnvValue.read_congr ?_
  rintro buf off len rfl -
  exact Heap.read_congr (h.keeps buf hknown) off len

theorem ok (h : b.Extends b') {d : DynData} {node : Nat} (hok : d.Ok node b) : d.Ok node b' where
  node_lt := Nat.lt_of_lt_of_le hok.node_lt h.le.1
  small := by
    obtain ⟨bytes, hbytes, hlen⟩ := hok.small
    exact ⟨bytes, (h.keeps (.small_buf node) hok.node_lt).trans hbytes, hlen⟩
  at_data := by
    rcases hok.at_data with hempty | hsmall | ⟨sz, m, bytes, hd, hm, hbytes, hsz⟩
    · exact .inl hempty
    · exact .inr (.inl hsmall)
    · exact .inr (.inr ⟨sz, m, bytes, hd, Nat.lt_of_lt_of_le hm h.le.2,
        (h.keeps (.ucMem m) hm).trans hbytes, hsz⟩)

end Buffers.Extends

theorem Buffers.newNode_extends (b : Buffers) : b.Extends b.newNode.2 where
  le := ⟨Nat.le_succ _, Nat.le_refl _⟩
  keeps buf hbuf := by
    refine Heap.put_ne _ ?_ _
    rintro rfl
    exact Nat.lt_irrefl _ hbuf

theorem Buffers.newNode_ok (b : Buffers) : DynData.empty.Ok b.nextNode b.newNode.2 where
  node_lt := Nat.lt_succ_self _
  small := ⟨List.replicate 64 0, Heap.put_self .., rfl⟩
  at_data := .inl rfl

/-- A new node assigns to itself or to a new buffer. -/
theorem DynData.assignStr_new {b : Buffers} {buf : Buf} (hknown : b.Known buf) (str : List UInt8) :
    (DynData.empty.assignStr b.nextNode str b.newNode.2).2.2.heap buf = b.heap buf := by
  have hne : buf ≠ .small_buf b.nextNode := by
    rintro rfl
    exact Nat.lt_irrefl _ hknown
  rw [assignStr_ne (hknown.mono b.newNode_extends.le) (fun hback => by cases hback.2) ?_]
  · exact b.newNode_extends.keeps buf hknown
  · rw [target]
    split
    · exact fun heq => hne (Option.some.inj heq).symm
    · rw [if_pos (.inl rfl)]
      exact nofun

/-- **A new node has its value in its own buffer.** -/
theorem initOwn_spec (b : Buffers) (val : FieldVal) :
    let r := initOwn b.nextNode val b.newNode.2
    b.Extends r.2.2 ∧ b.nextNode < r.2.2.nextNode ∧ r.1.read r.2.2.heap = some val ∧
      r.1.Known r.2.2 ∧ r.2.1.Ok b.nextNode r.2.2 := by
  have hlt : b.nextNode < b.newNode.2.nextNode := Nat.lt_succ_self _
  have hplain : ∀ v : KnvValue, v.Known b.newNode.2 → v.read b.newNode.2.heap = some val →
      b.Extends b.newNode.2 ∧ b.nextNode < b.newNode.2.nextNode ∧
        v.read b.newNode.2.heap = some val ∧ v.Known b.newNode.2 ∧
        DynData.empty.Ok b.nextNode b.newNode.2 :=
    fun v hk hv => ⟨b.newNode_extends, hlt, hv, hk, b.newNode_ok⟩
  cases val with
  | varint i64 => exact hplain (.varint i64) True.intro rfl
  | fixed64 i64 => exact hplain (.fixed64 i64) True.intro rfl
  | fixed32 i32 => exact hplain (.fixed32 i32) True.intro rfl
  | string str =>
    rw [initOwn]
    split
    next hnil =>
      subst hnil
      exact hplain (.string none 0) True.intro rfl
    next hne =>
      obtain ⟨hread, hok, hknown⟩ := b.newNode_ok.assignStr str
      have hle := DynData.assignStr_le .empty b.nextNode str b.newNode.2
      refine ⟨⟨b.newNode_extends.le.trans hle.1, fun buf hbuf => DynData.assignStr_new hbuf str⟩,
        Nat.lt_of_lt_of_le hlt hle.1.1, ?_, hknown, hok⟩
      dsimp only
      rw [KnvValue.read, if_neg fun hlen => hne (List.eq_nil_of_length_eq_zero hlen),
        Option.bind_some, hread, Option.map_some]

end MysqlProxy
