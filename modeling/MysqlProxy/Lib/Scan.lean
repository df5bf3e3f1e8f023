/-
  Scanners: loops that cut items off the front of a buffer.

  A scanner looks at the elements it has and waits for more, skips some, or takes an item.  `Scans`
  is what the loop does with one buffer: the items it takes and the RESIDUE it leaves.  `Feeds` is
  the usual driver: append what has arrived to the residue and scan again.

  A scanner that never changes its mind when more elements arrive finds the same items however the
  input is cut.  `Scans.feeds` allows it to change its mind in one way, from skipping to taking an
  item, and then speaks about the inputs in which no such item is found when they are scanned in
  one piece.  Nothing in this module names the proxy.
-/
import Mathlib.Data.List.Basic

namespace MysqlProxy

/-- What a scanner does next.  `skip n` and `take n g` consume `n` elements. -/
inductive ScanStep (γ : Type) where
  | wait
  | skip (n : Nat)
  | take (n : Nat) (g : γ)
  deriving DecidableEq

variable {β γ : Type} {step : List β → ScanStep γ}

/-- The loop on the buffer `l` takes the items `gs` and leaves `r`. -/
inductive Scans (step : List β → ScanStep γ) : List β → List γ → List β → Prop where
  | wait {l : List β} (h : step l = .wait) : Scans step l [] l
  | skip {l r : List β} {gs : List γ} {n : Nat} (h : step l = .skip n)
      (hs : Scans step (l.drop n) gs r) : Scans step l gs r
  | take {l r : List β} {gs : List γ} {n : Nat} {g : γ} (h : step l = .take n g)
      (hs : Scans step (l.drop n) gs r) : Scans step l (g :: gs) r

/-- The driver with the residue `r`, for the chunks that arrive. -/
inductive Feeds (step : List β → ScanStep γ) : List β → List (List β) → List γ → List β → Prop where
  | nil {r : List β} : Feeds step r [] [] r
  | cons {r r' r'' c : List β} {cs : List (List β)} {gs gs' : List γ}
      (h : Scans step (r ++ c) gs r') (hs : Feeds step r' cs gs' r'') :
      Feeds step r (c :: cs) (gs ++ gs') r''

/-- The loop waits at the end. -/
theorem Scans.residue {l r : List β} {gs : List γ} (h : Scans step l gs r) : step r = .wait := by
  induction h with
  | wait h => exact h
  | skip _ _ ih => exact ih
  | take _ _ ih => exact ih

theorem Scans.of_wait {l r : List β} {gs : List γ} (hl : step l = .wait) (h : Scans step l gs r) :
    gs = [] ∧ r = l := by
  cases h with
  | wait _ => exact ⟨rfl, rfl⟩
  | skip h _ => rw [hl] at h; cases h
  | take h _ => rw [hl] at h; cases h

theorem Scans.of_skip {l r : List β} {gs : List γ} {n : Nat} (hl : step l = .skip n)
    (h : Scans step l gs r) : Scans step (l.drop n) gs r := by
  cases h with
  | wait h => rw [hl] at h; cases h
  | skip h hs => rw [hl] at h; cases h; exact hs
  | take h _ => rw [hl] at h; cases h

theorem Scans.of_take {l r : List β} {gs : List γ} {n : Nat} {g : γ} (hl : step l = .take n g)
    (h : Scans step l gs r) : ∃ gs', gs = g :: gs' ∧ Scans step (l.drop n) gs' r := by
  cases h with
  | wait h => rw [hl] at h; cases h
  | skip h _ => rw [hl] at h; cases h
  | take h hs => rw [hl] at h; cases h; exact ⟨_, rfl, hs⟩

/-- The scanner is deterministic. -/
theorem Scans.unique {l r r' : List β} {gs gs' : List γ} (h : Scans step l gs r)
    (h' : Scans step l gs' r') : gs = gs' ∧ r = r' := by
  induction h generalizing gs' with
  | wait hl =>
    obtain ⟨h1, h2⟩ := h'.of_wait hl
    exact ⟨h1.symm, h2.symm⟩
  | skip hl _ ih => exact ih (h'.of_skip hl)
  | take hl _ ih =>
    obtain ⟨gs'', rfl, hs⟩ := h'.of_take hl
    obtain ⟨h1, h2⟩ := ih hs
    exact ⟨by rw [h1], h2⟩

/-- The scanner consumes what it has, and sticks to its step when more arrives, unless it skipped
    and now finds an item that is not `ok`. -/
structure Steady (step : List β → ScanStep γ) (ok : γ → Prop) : Prop where
  skip : ∀ {l : List β} {n : Nat}, step l = .skip n → n ≤ l.length ∧
    ∀ f, step (l ++ f) = .skip n ∨ ∃ m g, step (l ++ f) = .take m g ∧ ¬ ok g
  take : ∀ {l : List β} {n : Nat} {g : γ}, step l = .take n g → n ≤ l.length ∧
    ∀ f, step (l ++ f) = .take n g

variable {ok : γ → Prop}

/-- Scanning the first part of an input does the beginning of what scanning all of it does. -/
theorem Scans.start (hst : Steady step ok) {q r f res : List β} {gs gs' : List γ}
    (h : Scans step q gs r) (hall : Scans step (q ++ f) gs' res) (hok : ∀ g ∈ gs', ok g) :
    ∃ gs'', gs' = gs ++ gs'' ∧ Scans step (r ++ f) gs'' res := by
  induction h generalizing gs' with
  | wait _ => exact ⟨gs', rfl, hall⟩
  | @skip q r gs n hq _ ih =>
    obtain ⟨hn, hext⟩ := hst.skip hq
    rcases hext f with hs | ⟨m, g, hs, hbad⟩
    · have := hall.of_skip hs
      rw [List.drop_append_of_le_length hn] at this
      exact ih this hok
    · obtain ⟨gs'', rfl, _⟩ := hall.of_take hs
      exact absurd (hok g List.mem_cons_self) hbad
  | @take q r gs n g hq _ ih =>
    obtain ⟨hn, hext⟩ := hst.take hq
    obtain ⟨gs₁, rfl, hs⟩ := hall.of_take (hext f)
    rw [List.drop_append_of_le_length hn] at hs
    obtain ⟨gs'', rfl, hr⟩ := ih hs fun x hx => hok x (List.mem_cons_of_mem g hx)
    exact ⟨gs'', rfl, hr⟩

/-- **Cutting the input does not matter**: after all the chunks, the driver has taken the items of
    the whole input up to where its residue begins. -/
theorem Feeds.scans (hst : Steady step ok) {q r res : List β} {cs : List (List β)}
    {gs gs' : List γ} (h : Feeds step q cs gs r) (hall : Scans step (q ++ cs.flatten) gs' res)
    (hok : ∀ g ∈ gs', ok g) : ∃ gs'', gs' = gs ++ gs'' ∧ Scans step r gs'' res := by
  induction h generalizing gs' with
  | nil =>
    rw [List.flatten_nil, List.append_nil] at hall
    exact ⟨gs', rfl, hall⟩
  | @cons q q' r c cs gs₁ gs₂ hc _ ih =>
    rw [List.flatten_cons, ← List.append_assoc] at hall
    obtain ⟨gs₃, rfl, hrest⟩ := hc.start hst hall hok
    obtain ⟨gs₄, rfl, hr⟩ := ih hrest fun g hg => hok g (List.mem_append_right gs₁ hg)
    exact ⟨gs₄, (List.append_assoc gs₁ gs₂ gs₄).symm, hr⟩

/-- The driver waits, too, once something has arrived. -/
theorem Feeds.residue {q r : List β} {cs : List (List β)} {gs : List γ} (hcs : cs ≠ [])
    (h : Feeds step q cs gs r) : step r = .wait := by
  induction h with
  | nil => exact absurd rfl hcs
  | @cons q q' r c cs gs₁ gs₂ hc hs ih =>
    cases cs with
    | nil => cases hs; exact hc.residue
    | cons c' cs => exact ih (List.cons_ne_nil c' cs)

/-- **The same items and the same residue**, if anything has arrived at all. -/
theorem Feeds.eq (hst : Steady step ok) {r res : List β} {cs : List (List β)} {gs gs' : List γ}
    (hcs : cs ≠ []) (h : Feeds step [] cs gs r) (hall : Scans step cs.flatten gs' res)
    (hok : ∀ g ∈ gs', ok g) : gs = gs' ∧ r = res := by
  obtain ⟨gs'', rfl, hr⟩ := h.scans hst hall hok
  obtain ⟨rfl, rfl⟩ := hr.of_wait (h.residue hcs)
  exact ⟨(List.append_nil gs).symm, rfl⟩

end MysqlProxy
