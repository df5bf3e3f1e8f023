/-
  Zero-terminated chains threaded through an array, and who owns them.

  A position is a `Nat`; `0` is the null link.  Over an arbitrary `next : Nat → Nat`,

      Path next p l q     following `next` from `p` visits exactly `l` and then stands at `q`
      Chain next p l      a path that ends at `0`

  are all the shape there is: a chain that ends is acyclic (`Chain.nodup`), two chains from one
  position are the same (`Chain.unique`), both only read the links of their own members
  (`Path.frame`, `Chain.frame`), and giving the last position of ANY path the link `0` leaves a
  chain behind, even if the path had gone round a cycle (`Path.cut`).

  `Owns next ok bound roots` says that every root in `roots` starts a chain of at most `bound`
  members, all of them `ok`, and that chains of different entries of `roots` share no member.
  A root may be `0` (the empty chain), so a whole ARRAY OF SLOTS can be listed as roots, the
  empty slots included (`slots`).  `roots` is a list up to permutation (`Owns.perm`): moving a
  root from one slot to another is a permutation, and the edits that are not permutations are
  `Owns.cons` (a fresh chain gets an owner) and `Owns.tail` (a root is given up).

  Nothing in this module names the proxy.
-/
import Mathlib.Data.List.Perm.Basic
import Mathlib.Data.List.Nodup
import Mathlib.Data.List.Flatten
import Mathlib.Logic.Function.Basic
import Mathlib.Tactic.Ring

namespace MysqlProxy

/-! ## Paths and chains -/

/-- Following `next` from `p` visits exactly the positions `l`, none of them `0`, and then stands
    at `q`. -/
def Path (next : Nat → Nat) : Nat → List Nat → Nat → Prop
  | p, [], q => p = q
  | p, x :: l, q => p = x ∧ x ≠ 0 ∧ Path next (next x) l q

instance Path.decidable (next : Nat → Nat) : (p : Nat) → (l : List Nat) → (q : Nat) →
    Decidable (Path next p l q)
  | p, [], q => inferInstanceAs (Decidable (p = q))
  | p, x :: l, q =>
    haveI := Path.decidable next (next x) l q
    inferInstanceAs (Decidable (p = x ∧ x ≠ 0 ∧ _))

@[simp] theorem path_nil {next : Nat → Nat} {p q : Nat} : Path next p [] q ↔ p = q := Iff.rfl

@[simp] theorem path_cons {next : Nat → Nat} {p x q : Nat} {l : List Nat} :
    Path next p (x :: l) q ↔ p = x ∧ x ≠ 0 ∧ Path next (next x) l q := Iff.rfl

/-- A path that ends at the null link. -/
def Chain (next : Nat → Nat) (p : Nat) (l : List Nat) : Prop := Path next p l 0

instance (next : Nat → Nat) (p : Nat) (l : List Nat) : Decidable (Chain next p l) :=
  Path.decidable next p l 0

@[simp] theorem chain_nil {next : Nat → Nat} {p : Nat} : Chain next p [] ↔ p = 0 := Iff.rfl

@[simp] theorem chain_cons {next : Nat → Nat} {p x : Nat} {l : List Nat} :
    Chain next p (x :: l) ↔ p = x ∧ x ≠ 0 ∧ Chain next (next x) l := Iff.rfl

namespace Path

variable {next next' : Nat → Nat}

theorem ne_zero {l : List Nat} {p q : Nat} (h : Path next p l q) : ∀ x ∈ l, x ≠ 0 := by
  induction l generalizing p with
  | nil => simp
  | cons y l ih =>
    intro x hx
    rcases List.mem_cons.mp hx with rfl | hx
    · exact h.2.1
    · exact ih h.2.2 x hx

/-- A path reads only the links of its members. -/
theorem frame {l : List Nat} {p q : Nat} (h : Path next p l q)
    (hag : ∀ x ∈ l, next' x = next x) : Path next' p l q := by
  induction l generalizing p with
  | nil => exact h
  | cons x l ih =>
    refine ⟨h.1, h.2.1, ?_⟩
    rw [hag x List.mem_cons_self]
    exact ih h.2.2 (fun y hy => hag y (List.mem_cons_of_mem x hy))

theorem append {l₁ l₂ : List Nat} {p q r : Nat} (h₁ : Path next p l₁ q) (h₂ : Path next q l₂ r) :
    Path next p (l₁ ++ l₂) r := by
  induction l₁ generalizing p with
  | nil => rw [h₁]; exact h₂
  | cons x l ih => exact ⟨h₁.1, h₁.2.1, ih h₁.2.2⟩

/-- The part of a path from one of its members on. -/
theorem suffix {l₁ l₂ : List Nat} {p x q : Nat} (h : Path next p (l₁ ++ x :: l₂) q) :
    Path next x (x :: l₂) q := by
  induction l₁ generalizing p with
  | nil => exact ⟨rfl, h.2⟩
  | cons y l ih => exact ih h.2.2

/-- The part of a path before one of its members. -/
theorem initial {l₁ l₂ : List Nat} {p x q : Nat} (h : Path next p (l₁ ++ x :: l₂) q) :
    Path next p l₁ x := by
  induction l₁ generalizing p with
  | nil => exact h.1
  | cons y l ih => exact ⟨h.1, h.2.1, ih h.2.2⟩

/-- The members of a path are the iterates of `next`. -/
theorem eq_iterate {l : List Nat} {p q : Nat} (h : Path next p l q) :
    l = List.iterate next p l.length := by
  induction l generalizing p with
  | nil => rfl
  | cons x l ih =>
    obtain ⟨rfl, -, hrest⟩ := h
    rw [List.length_cons, List.iterate, ← ih hrest]

end Path

namespace Chain

variable {next next' : Nat → Nat}

theorem zero : Chain next 0 [] := rfl

/-- The chain from a position is determined by the links. -/
theorem unique : ∀ {l l' : List Nat} {p : Nat}, Chain next p l → Chain next p l' → l = l'
  | [], [], _, _, _ => rfl
  | [], x :: l', p, h, h' => absurd (h'.1 ▸ h : x = 0) h'.2.1
  | x :: l, [], p, h, h' => absurd (h.1 ▸ h' : x = 0) h.2.1
  | x :: l, y :: l', p, h, h' => by
    have hxy : x = y := h.1.symm.trans h'.1
    subst hxy
    rw [unique h.2.2 h'.2.2]

theorem ne_zero {l : List Nat} {p : Nat} (h : Chain next p l) : ∀ x ∈ l, x ≠ 0 := Path.ne_zero h

/-- The part of a chain from one of its members on. -/
theorem suffix {l₁ l₂ : List Nat} {p x : Nat} (h : Chain next p (l₁ ++ x :: l₂)) :
    Chain next x (x :: l₂) := Path.suffix h

/-- **A chain that ends is acyclic.** -/
theorem nodup : ∀ {l : List Nat} {p : Nat}, Chain next p l → l.Nodup
  | [], _, _ => List.nodup_nil
  | x :: l, p, h => by
    refine List.nodup_cons.mpr ⟨fun hx => ?_, nodup h.2.2⟩
    -- a second visit to `x` would repeat the whole rest of the chain, for ever
    obtain ⟨a, b, hab⟩ := List.append_of_mem hx
    have h1 : Chain next x (x :: b) := (hab ▸ h.2.2).suffix
    have h2 : Chain next x (x :: l) := ⟨rfl, h.2⟩
    have hlen := congrArg List.length (h1.unique h2)
    rw [hab] at hlen
    simp only [List.length_cons, List.length_append] at hlen
    omega

/-- A chain reads only the links of its members. -/
theorem frame {l : List Nat} {p : Nat} (h : Chain next p l) (hag : ∀ x ∈ l, next' x = next x) :
    Chain next' p l := Path.frame h hag

end Chain

/-- **Cutting a path makes a chain.**  If the last position `y` of a path is given the link `0`,
    its first position starts a chain of members of the path.  The path may have gone round a
    cycle; the chain is the whole path exactly when it had not. -/
theorem Path.cut {next g : Nat → Nat} {p y q : Nat} {l : List Nat}
    (h : Path next p (l ++ [y]) q) (hy : g y = 0) (hag : ∀ x, x ≠ y → g x = next x) :
    ∃ c, Chain g p c ∧ c ≠ [] ∧ c ⊆ l ++ [y] ∧ c.length ≤ l.length + 1 ∧
      ((l ++ [y]).Nodup → c = l ++ [y]) := by
  induction l generalizing p with
  | nil => exact ⟨[y], ⟨h.1, h.2.1, hy⟩, by simp, by simp, by simp, by simp⟩
  | cons z zs ih =>
    obtain ⟨rfl, hz0, hrest⟩ := h
    obtain ⟨c, hc, hne, hsub, hlen, hnd⟩ := ih hrest
    by_cases hmem : p ∈ c
    · -- the path comes back to `p`: the chain starts at that later visit
      obtain ⟨a, b, rfl⟩ := List.append_of_mem hmem
      refine ⟨p :: b, hc.suffix, by simp, fun x hx => ?_, ?_, fun hdup => ?_⟩
      · exact List.mem_cons_of_mem p (hsub (List.mem_append_right a hx))
      · simp only [List.length_append, List.length_cons] at hlen ⊢
        omega
      · exact absurd (hsub hmem) (List.nodup_cons.mp hdup).1
    · by_cases hpy : p = y
      · subst hpy
        refine ⟨[p], ⟨rfl, hz0, hy⟩, by simp, by simp, by simp, fun hdup => ?_⟩
        exact absurd (List.mem_append_right zs (List.mem_singleton.mpr rfl))
          (List.nodup_cons.mp hdup).1
      · refine ⟨p :: c, ⟨rfl, hz0, ?_⟩, by simp, ?_, by simpa using hlen, fun hdup => ?_⟩
        · rw [hag p hpy]; exact hc
        · intro x hx
          rcases List.mem_cons.mp hx with rfl | hx
          · exact List.mem_cons_self
          · exact List.mem_cons_of_mem p (hsub hx)
        · rw [hnd (List.nodup_cons.mp hdup).2, List.cons_append]

/-- The chain that is left has as many members as the path exactly when the path met no position
    twice. -/
theorem Chain.length_lt_iff {g : Nat → Nat} {p : Nat} {c l : List Nat} (hc : Chain g p c)
    (hsub : c ⊆ l) (hlen : c.length ≤ l.length) (hnd : l.Nodup → c = l) :
    c.length < l.length ↔ ¬ l.Nodup := by
  constructor
  · intro hlt hdup
    rw [hnd hdup] at hlt
    exact Nat.lt_irrefl _ hlt
  · intro hdup
    refine Nat.lt_of_le_of_ne hlen fun heq => hdup ?_
    have hperm := (List.subperm_of_subset hc.nodup hsub).perm_of_length_le (Nat.le_of_eq heq.symm)
    exact hperm.nodup_iff.mp hc.nodup

/-! ## Slots: an array of roots -/

/-- The first `n` entries of an array, as a list. -/
def slots (n : Nat) (f : Nat → Nat) : List Nat := (List.range n).map f

theorem mem_slots {n : Nat} {f : Nat → Nat} {r : Nat} : r ∈ slots n f ↔ ∃ i, i < n ∧ f i = r := by
  simp [slots]

theorem slots_congr {n : Nat} {f g : Nat → Nat} (h : ∀ i, i < n → f i = g i) :
    slots n f = slots n g :=
  List.map_congr_left (fun i hi => h i (List.mem_range.mp hi))

/-- Writing `b` into slot `j` exchanges the old entry for `b`, as far as the list of entries
    goes. -/
theorem slots_update_perm {n j : Nat} (f : Nat → Nat) (b : Nat) (hj : j < n) :
    (f j :: slots n (Function.update f j b)).Perm (b :: slots n f) := by
  have hset : slots n (Function.update f j b) = (slots n f).set j b := by
    apply List.ext_getElem
    · simp [slots]
    · intro i h1 h2
      rw [List.getElem_set]
      simp only [slots, List.getElem_map, List.getElem_range]
      by_cases hij : j = i
      · subst hij; simp
      · rw [if_neg hij, Function.update_of_ne (Ne.symm hij)]
  have hlen : j < (slots n f).length := by simpa [slots] using hj
  have hget : (slots n f)[j] = f j := by simp [slots]
  rw [hset]
  calc (f j :: (slots n f).set j b).Perm (f j :: b :: (slots n f).eraseIdx j) :=
        List.Perm.cons _ (List.set_perm_cons_eraseIdx hlen b)
    _ |>.Perm (b :: f j :: (slots n f).eraseIdx j) := List.Perm.swap _ _ _
    _ |>.Perm (b :: slots n f) := by
        refine List.Perm.cons _ ?_
        rw [← hget]
        exact List.getElem_cons_eraseIdx_perm hlen

/-! ## Ownership -/

/-- Every root starts a chain of at most `bound` `ok` members, and no position is on the chains
    of two entries of `roots`. -/
def Owns (next : Nat → Nat) (ok : Nat → Prop) (bound : Nat) (roots : List Nat) : Prop :=
  ∃ ch : Nat → List Nat,
    (∀ r ∈ roots, Chain next r (ch r) ∧ (ch r).length ≤ bound ∧ ∀ b ∈ ch r, ok b) ∧
    (roots.flatMap ch).Nodup

/-- `b` lies on the chain of some root. -/
def Covered (next : Nat → Nat) (roots : List Nat) (b : Nat) : Prop :=
  ∃ r ∈ roots, ∃ l, Chain next r l ∧ b ∈ l

namespace Owns

variable {next next' : Nat → Nat} {ok ok' : Nat → Prop} {bound : Nat} {roots roots' : List Nat}

/-- Slots that are all empty. -/
theorem zeros (h : ∀ r ∈ roots, r = 0) : Owns next ok bound roots := by
  refine ⟨fun _ => [], fun r hr => ⟨h r hr, Nat.zero_le _, by simp⟩, ?_⟩
  simp [List.flatMap]

theorem perm (h : Owns next ok bound roots) (hp : roots.Perm roots') :
    Owns next ok bound roots' := by
  obtain ⟨ch, hch, hnd⟩ := h
  exact ⟨ch, fun r hr => hch r (hp.mem_iff.mpr hr), (hp.flatMap_right ch).nodup_iff.mp hnd⟩

/-- Fewer roots own fewer chains. -/
theorem subperm (h : Owns next ok bound roots) (hs : roots'.Subperm roots) :
    Owns next ok bound roots' := by
  obtain ⟨ch, hch, hnd⟩ := h
  obtain ⟨l, hp, hsub⟩ := hs
  refine ⟨ch, fun r hr => hch r (hsub.subset (hp.mem_iff.mpr hr)), ?_⟩
  exact (hp.flatMap_right ch).nodup_iff.mp (hnd.sublist (hsub.flatMap ch))

theorem chain (h : Owns next ok bound roots) {r : Nat} (hr : r ∈ roots) :
    ∃ l, Chain next r l ∧ l.length ≤ bound ∧ ∀ b ∈ l, ok b := by
  obtain ⟨ch, hch, -⟩ := h
  exact ⟨ch r, hch r hr⟩

theorem ok_of_covered (h : Owns next ok bound roots) {b : Nat} (hb : Covered next roots b) :
    ok b := by
  obtain ⟨r, hr, l, hl, hbl⟩ := hb
  obtain ⟨l', hl', -, hok⟩ := h.chain hr
  exact hok b (hl.unique hl' ▸ hbl)

/-- Giving up the first root. -/
theorem tail {r : Nat} (h : Owns next ok bound (r :: roots)) : Owns next ok bound roots := by
  obtain ⟨ch, hch, hnd⟩ := h
  refine ⟨ch, fun q hq => hch q (List.mem_cons_of_mem r hq), ?_⟩
  rw [List.flatMap_cons] at hnd
  exact (List.nodup_append'.mp hnd).2.1

/-- The chain of the first root, apart from all the others. -/
theorem head {r : Nat} (h : Owns next ok bound (r :: roots)) :
    ∃ l, Chain next r l ∧ l.length ≤ bound ∧ (∀ b ∈ l, ok b) ∧
      ∀ b ∈ l, ¬ Covered next roots b := by
  obtain ⟨ch, hch, hnd⟩ := h
  obtain ⟨hr, hlen, hok⟩ := hch r List.mem_cons_self
  refine ⟨ch r, hr, hlen, hok, ?_⟩
  rintro b hb ⟨q, hq, l, hl, hbl⟩
  rw [List.flatMap_cons] at hnd
  have hdis := (List.nodup_append'.mp hnd).2.2
  have hlq : l = ch q := hl.unique (hch q (List.mem_cons_of_mem r hq)).1
  exact hdis hb (List.mem_flatMap.mpr ⟨q, hq, hlq ▸ hbl⟩)

/-- A fresh chain gets an owner. -/
theorem cons {r : Nat} {l : List Nat} (h : Owns next ok bound roots) (hr : Chain next r l)
    (hlen : l.length ≤ bound) (hok : ∀ b ∈ l, ok b) (hdis : ∀ b ∈ l, ¬ Covered next roots b) :
    Owns next ok bound (r :: roots) := by
  obtain ⟨ch, hch, hnd⟩ := h
  refine ⟨Function.update ch r l, ?_, ?_⟩
  · intro q hq
    by_cases hqr : q = r
    · subst hqr; simpa using ⟨hr, hlen, hok⟩
    · rw [Function.update_of_ne hqr]
      exact hch q ((List.mem_cons.mp hq).resolve_left hqr)
  · have hrest : roots.flatMap (Function.update ch r l) = roots.flatMap ch := by
      refine List.flatMap_congr fun q hq => ?_
      by_cases hqr : q = r
      · subst hqr
        rw [Function.update_self]
        exact hr.unique (hch q hq).1
      · rw [Function.update_of_ne hqr]
    rw [List.flatMap_cons, Function.update_self, hrest]
    refine List.nodup_append'.mpr ⟨hr.nodup, hnd, ?_⟩
    intro b hb hb'
    obtain ⟨q, hq, hbq⟩ := List.mem_flatMap.mp hb'
    exact hdis b hb ⟨q, hq, ch q, (hch q hq).1, hbq⟩

/-- **One owner.**  A covered position lies on the chain of exactly one entry of `roots`. -/
theorem existsUnique (h : Owns next ok bound roots) {b : Nat} (hb : Covered next roots b) :
    ∃! i : Fin roots.length, ∃ l, Chain next (roots.get i) l ∧ b ∈ l := by
  induction roots with
  | nil =>
    obtain ⟨r, hr, -⟩ := hb
    simp at hr
  | cons r roots ih =>
    obtain ⟨lr, hlr, -, -, hdis⟩ := h.head
    by_cases hmem : b ∈ lr
    · refine ⟨0, ⟨lr, hlr, hmem⟩, fun i hi => ?_⟩
      -- another entry would cover `b` from the rest of the list
      refine Fin.cases (fun _ => rfl) (fun j hj => ?_) i hi
      obtain ⟨l, hl, hbl⟩ := hj
      exact absurd ⟨roots.get j, List.get_mem roots j, l, hl, hbl⟩ (hdis b hmem)
    · have hrest : Covered next roots b := by
        obtain ⟨q, hq, l, hl, hbl⟩ := hb
        rcases List.mem_cons.mp hq with rfl | hq
        · exact absurd (hl.unique hlr ▸ hbl) hmem
        · exact ⟨q, hq, l, hl, hbl⟩
      obtain ⟨i, hi, huniq⟩ := ih h.tail hrest
      refine ⟨i.succ, hi, fun j hj => ?_⟩
      refine Fin.cases (fun h0 => ?_) (fun k hk => ?_) j hj
      · obtain ⟨l, hl, hbl⟩ := h0
        exact absurd (hl.unique hlr ▸ hbl) hmem
      · rw [huniq k hk]

/-- Two entries that own something are different. -/
theorem nodup {rest : List Nat} (h : Owns next ok bound (roots ++ rest))
    (h0 : ∀ r ∈ roots, r ≠ 0) : roots.Nodup := by
  induction roots with
  | nil => exact List.nodup_nil
  | cons r roots ih =>
    refine List.nodup_cons.mpr ⟨fun hr => ?_, ih h.tail fun q hq => h0 q (List.mem_cons_of_mem r hq)⟩
    obtain ⟨l, hl, -, -, hdis⟩ := Owns.head h
    cases l with
    | nil => exact h0 r List.mem_cons_self hl
    | cons x l =>
      obtain rfl : r = x := hl.1
      exact hdis r List.mem_cons_self ⟨r, List.mem_append_left rest hr, r :: l, hl, List.mem_cons_self⟩

/-- An empty slot owns nothing. -/
theorem cons_zero (h : Owns next ok bound roots) : Owns next ok bound (0 :: roots) :=
  h.cons Chain.zero (Nat.zero_le _) (by simp) (by simp)

/-- Ownership reads the links and the `ok`-ness of covered positions only. -/
theorem frame (h : Owns next ok bound roots)
    (hag : ∀ b, Covered next roots b → next' b = next b ∧ ok' b) :
    Owns next' ok' bound roots := by
  obtain ⟨ch, hch, hnd⟩ := h
  refine ⟨ch, fun r hr => ?_, hnd⟩
  obtain ⟨hr1, hr2, hr3⟩ := hch r hr
  have hcov : ∀ b ∈ ch r, Covered next roots b := fun b hb => ⟨r, hr, ch r, hr1, hb⟩
  exact ⟨hr1.frame (fun b hb => (hag b (hcov b hb)).1), hr2, fun b hb => (hag b (hcov b hb)).2⟩

end Owns

end MysqlProxy
