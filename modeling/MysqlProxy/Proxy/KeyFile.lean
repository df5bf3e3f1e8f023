/-
  The key file (`LoadKeyFile` and `passwd2des` in `mysql_proxy_server.cpp`).

  A line of the file has a name, white space and a password; `#` begins a comment.  The name is
  registered with the DES key of the password, and `ParsePacket` serves the requests of the names
  that are registered.

  * `loadKeyFile` are the assignments to `mapAppKeys` in their order, `Configured` what is asked of
    them: they come from names that have a non-empty password, and no key is that of the empty one.
  * The scanner WARNS about a name without a key, and registers it with the key of the empty
    password.  A line of white space has the empty name and no key.
  * `loadKeyFile_configured`: all is right if and only if every line is empty, a comment, or has a
    name and a password whose key is another one.

  Modelling choices.
  * The file is open, and its content is read with `getline` as far as the buffer goes.
  * `des_setparity` is not part of the repository: it is an argument.
  * `isspace` in the C locale.
-/
import MysqlProxy.Proxy.ProcessRequest
import Mathlib.Data.List.TakeWhile

namespace MysqlProxy

/-! ## Keys -/

/-- The bytes of the password, shifted by one bit, on eight places. -/
def foldPassword (pw : List UInt8) : List UInt8 :=
  pw.zipIdx.foldl (fun key (c : UInt8 × Nat) => key.modify (c.2 % 8) (· ^^^ c.1 <<< 1))
    (List.replicate 8 0)

def passwd2des (desSetparity : List UInt8 → List UInt8) (pw : List UInt8) : List UInt8 :=
  desSetparity (foldPassword pw)

/-! ## Lines -/

/-- A character of a name or a password. -/
def isWord (c : UInt8) : Bool := !isSpace c && c ≠ 35

/-- The line goes on with `#`. -/
def atComment (pstr : List UInt8) : Bool := pstr.head? = some 35

/-- `appname` and `appkey` of a line. -/
def scanLine (line : List UInt8) : Option (List UInt8 × List UInt8) :=
  let pstr := line.dropWhile isSpace
  if atComment pstr then none
  else
    let appname := pstr.takeWhile isWord
    let pstr := pstr.dropWhile isWord
    -- the warning that the name has no key
    if pstr = [] || atComment pstr then some (appname, [])
    else some (appname, (pstr.dropWhile isSpace).takeWhile isWord)

/-- What a line assigns; `line[0]` is looked at first. -/
def registers (desSetparity : List UInt8 → List UInt8) (line : List UInt8) :
    Option (List UInt8 × List UInt8) :=
  let line := cString line
  if line = [] then none
  else (scanLine line).map fun app => (app.1, passwd2des desSetparity app.2)

/-! ## The file -/

/-- `sizeof(line)`. -/
def lineSize : Nat := 10240

/-- What is left of the file, and `good()`. -/
structure Ifstream where
  rest : List UInt8
  good : Bool

/-- Behind the characters of a line: the end of the file, or the end of the line is skipped. -/
def Ifstream.behindLine : List UInt8 → Ifstream
  | [] => ⟨[], false⟩
  | _ :: rest => ⟨rest, true⟩

/-- `getline`: the end of the file, the end of the line, or the end of the buffer. -/
def Ifstream.getline (ifs : Ifstream) : List UInt8 × Ifstream :=
  if ifs.good then
    let text := ifs.rest.takeWhile (· ≠ 10)
    if text.length < lineSize then (text, behindLine (ifs.rest.dropWhile (· ≠ 10)))
    else (ifs.rest.take (lineSize - 1), ⟨ifs.rest.drop (lineSize - 1), false⟩)
  else ([], ifs)

/-- The loop of `LoadKeyFile`. -/
def loadLoop (desSetparity : List UInt8 → List UInt8) :
    Nat → Ifstream → List (List UInt8 × List UInt8)
  | 0, _ => []
  | n + 1, ifs =>
    let line := ifs.getline.1
    let ifs := ifs.getline.2
    if cString line = [] then
      if ifs.good then loadLoop desSetparity n ifs else []
    else (registers desSetparity line).toList ++ loadLoop desSetparity n ifs

/-- `LoadKeyFile`: the assignments in their order. -/
def loadKeyFile (desSetparity : List UInt8 → List UInt8) (content : List UInt8) :
    List (List UInt8 × List UInt8) :=
  loadLoop desSetparity (content.length + 2) ⟨content, true⟩

/-- `mapAppKeys`: the last assignment stands. -/
def mapAppKeys (assigned : List (List UInt8 × List UInt8)) (appname : List UInt8) :
    Option (List UInt8) :=
  (assigned.reverse.find? fun app => app.1 = appname).map Prod.snd

/-- The lines of a file. -/
def fileLines (content : List UInt8) : List (List UInt8) := content.splitOn 10

/-- White space, a name, more white space, a password, and what does not belong to it. -/
inductive Written : List UInt8 → List UInt8 → List UInt8 → Prop where
  | line {blanks name gap pw tail : List UInt8} (hblanks : ∀ c ∈ blanks, isSpace c)
      (hname : name ≠ []) (hnameWord : ∀ c ∈ name, isWord c)
      (hgap : gap ≠ []) (hgapSpace : ∀ c ∈ gap, isSpace c)
      (hpw : pw ≠ []) (hpwWord : ∀ c ∈ pw, isWord c) (htail : ∀ c ∈ tail.head?, ¬isWord c) :
      Written (blanks ++ (name ++ (gap ++ (pw ++ tail)))) name pw

/-- A line whose first character behind white space is `#`. -/
def IsComment (line : List UInt8) : Prop := atComment (line.dropWhile isSpace)

section Property

variable (desSetparity : List UInt8 → List UInt8)

/-- **Registered applications are exactly the configured ones.** -/
structure Configured (content : List UInt8) : Prop where
  written : ∀ name key, mapAppKeys (loadKeyFile desSetparity content) name = some key →
    name ≠ [] ∧ ∃ line ∈ fileLines content, ¬IsComment (cString line) ∧
      ∃ pw, pw ≠ [] ∧ Written (cString line) name pw ∧ key = passwd2des desSetparity pw
  keyed : ∀ app ∈ loadKeyFile desSetparity content, app.2 ≠ passwd2des desSetparity []
  blank : loadKeyFile desSetparity content =
    ((fileLines content).filter fun line => !line.all isSpace).filterMap (registers desSetparity)

/-- Nothing is wrong with a line: it is empty, a comment, or has a name and a password, and the key
    is not that of the empty password. -/
def Complete (line : List UInt8) : Prop :=
  cString line = [] ∨ IsComment (cString line) ∨
    ∃ name pw, Written (cString line) name pw ∧
      passwd2des desSetparity pw ≠ passwd2des desSetparity []

end Property

/-! ## Words -/

/-- A stretch of characters, and something else behind it. -/
theorem span_append {p : UInt8 → Bool} {a b : List UInt8} (ha : ∀ c ∈ a, p c)
    (hb : ∀ c ∈ b.head?, ¬p c) : (a ++ b).takeWhile p = a ∧ (a ++ b).dropWhile p = b := by
  have hnone : b.takeWhile p = [] ∧ b.dropWhile p = b := by
    cases b with
    | nil => exact ⟨rfl, rfl⟩
    | cons c b =>
      have hc := hb c rfl
      exact ⟨List.takeWhile_cons_of_neg hc, List.dropWhile_cons_of_neg hc⟩
  constructor
  · rw [List.takeWhile_append_of_pos ha, hnone.1, List.append_nil]
  · rw [List.dropWhile_append_of_pos ha, hnone.2]

theorem not_isWord_of_isSpace {c : UInt8} (h : isSpace c) : ¬isWord c := by
  rw [isWord, h]
  exact Bool.false_ne_true

theorem not_isSpace_of_isWord {c : UInt8} (h : isWord c) : ¬isSpace c :=
  fun hspace => not_isWord_of_isSpace hspace h

theorem ne_comment_of_isWord {c : UInt8} (h : isWord c) : c ≠ 35 := by
  rw [isWord, Bool.and_eq_true, decide_eq_true_eq] at h
  exact h.2

theorem head_append {a b : List UInt8} (ha : a ≠ []) {P : UInt8 → Prop} (h : ∀ c ∈ a, P c) :
    ∀ c ∈ (a ++ b).head?, P c := by
  obtain ⟨x, a, rfl⟩ := List.exists_cons_of_ne_nil ha
  intro c hc
  cases hc
  exact h _ List.mem_cons_self

theorem ne_comment_of_isSpace {c : UInt8} (h : isSpace c) : c ≠ 35 := by
  rintro rfl
  cases h

theorem atComment_eq_false {pstr : List UInt8} (h : ∀ c ∈ pstr.head?, c ≠ 35) :
    atComment pstr = false := by
  rw [atComment, decide_eq_false_iff_not]
  exact fun hhead => h 35 hhead rfl

/-- What is written is scanned. -/
theorem scanLine_written {line name pw : List UInt8} (h : Written line name pw) :
    scanLine line = some (name, pw) := by
  obtain ⟨hblanks, hname, hnameWord, hgap, hgapSpace, hpw, hpwWord, htail⟩ := h
  rename_i blanks gap tail
  have hblanks' := span_append hblanks (b := name ++ (gap ++ (pw ++ tail)))
    (head_append hname fun c hc => not_isSpace_of_isWord (hnameWord c hc))
  have hname' := span_append hnameWord (b := gap ++ (pw ++ tail))
    (head_append hgap fun c hc => not_isWord_of_isSpace (hgapSpace c hc))
  have hgap' := span_append hgapSpace (b := pw ++ tail)
    (head_append hpw fun c hc => not_isSpace_of_isWord (hpwWord c hc))
  have hpw' := span_append hpwWord htail
  have hstart : atComment (name ++ (gap ++ (pw ++ tail))) = false :=
    atComment_eq_false (head_append hname fun c hc => ne_comment_of_isWord (hnameWord c hc))
  have hkey : atComment (gap ++ (pw ++ tail)) = false :=
    atComment_eq_false (head_append hgap fun c hc => ne_comment_of_isSpace (hgapSpace c hc))
  have hmore : gap ++ (pw ++ tail) ≠ [] := List.append_ne_nil_of_left_ne_nil hgap _
  simp only [scanLine, hblanks'.2, hstart, hname'.1, hname'.2, hkey, hgap'.2, hpw'.1,
    Bool.false_eq_true, if_false, Bool.or_false, decide_eq_true_eq, if_neg hmore]

theorem not_head_dropWhile (p : UInt8 → Bool) (l : List UInt8) :
    ∀ c ∈ (l.dropWhile p).head?, ¬p c := by
  intro c hc
  have h := List.head?_dropWhile_not p l
  rw [Option.mem_def.mp hc] at h
  exact Bool.eq_false_iff.mp h

/-- Behind white space, and not at a comment or at the end, there is a word. -/
theorem takeWhile_isWord_ne_nil {pstr : List UInt8} (hspace : ∀ c ∈ pstr.head?, ¬isSpace c)
    (hcomment : atComment pstr = false) (hne : pstr ≠ []) : pstr.takeWhile isWord ≠ [] := by
  obtain ⟨c, pstr, rfl⟩ := List.exists_cons_of_ne_nil hne
  have hc : isWord c := by
    rw [isWord, Bool.eq_false_iff.mpr (hspace c rfl), Bool.not_false, Bool.true_and,
      decide_eq_true_eq]
    rintro rfl
    cases hcomment
  rw [List.takeWhile_cons_of_pos hc]
  exact List.cons_ne_nil _ _

/-- Behind a word, and not at a comment or at the end, there is white space. -/
theorem takeWhile_isSpace_ne_nil {pstr : List UInt8} (hword : ∀ c ∈ pstr.head?, ¬isWord c)
    (hcomment : atComment pstr = false) (hne : pstr ≠ []) : pstr.takeWhile isSpace ≠ [] := by
  intro hnil
  refine takeWhile_isWord_ne_nil (fun c hc hspace => ?_) hcomment hne ?_
  · obtain ⟨c', pstr, rfl⟩ := List.exists_cons_of_ne_nil hne
    cases hc
    rw [List.takeWhile_cons_of_pos hspace] at hnil
    cases hnil
  · obtain ⟨c', pstr, rfl⟩ := List.exists_cons_of_ne_nil hne
    exact List.takeWhile_cons_of_neg (hword c' rfl)

/-- **What is scanned as a password is written.** -/
theorem written_scanLine {line name pw : List UInt8} (h : scanLine line = some (name, pw))
    (hpw : pw ≠ []) : Written line name pw := by
  have hblanks := @List.takeWhile_append_dropWhile _ isSpace line
  have hstart := not_head_dropWhile isSpace line
  rw [scanLine] at h
  generalize line.dropWhile isSpace = pstr at h hblanks hstart
  split at h
  case isTrue => cases h
  case isFalse hcomment =>
    rw [Bool.not_eq_true] at hcomment
    have hend := not_head_dropWhile isWord pstr
    dsimp only at h
    split at h
    case isTrue =>
      cases h
      exact absurd rfl hpw
    case isFalse hkey =>
      rw [Bool.or_eq_true, not_or, decide_eq_true_eq, Bool.not_eq_true] at hkey
      obtain ⟨hmore, hkey⟩ := hkey
      cases h
      have hpstr : pstr ≠ [] := by
        rintro rfl
        exact hmore rfl
      have hline : line = line.takeWhile isSpace ++ (pstr.takeWhile isWord ++
          ((pstr.dropWhile isWord).takeWhile isSpace ++
            (((pstr.dropWhile isWord).dropWhile isSpace).takeWhile isWord ++
              ((pstr.dropWhile isWord).dropWhile isSpace).dropWhile isWord))) := by
        rw [List.takeWhile_append_dropWhile, List.takeWhile_append_dropWhile,
          List.takeWhile_append_dropWhile, hblanks]
      rw [hline]
      exact .line (fun _ => List.mem_takeWhile_imp) (takeWhile_isWord_ne_nil hstart hcomment hpstr)
        (fun _ => List.mem_takeWhile_imp) (takeWhile_isSpace_ne_nil hend hkey hmore)
        (fun _ => List.mem_takeWhile_imp) hpw (fun _ => List.mem_takeWhile_imp)
        (not_head_dropWhile isWord _)

theorem not_isComment_of_written {line name pw : List UInt8} (h : Written line name pw) :
    ¬IsComment line := by
  intro hcomment
  have hscan := scanLine_written h
  rw [IsComment] at hcomment
  rw [scanLine, if_pos hcomment] at hscan
  cases hscan

theorem ne_nil_of_written {line name pw : List UInt8} (h : Written line name pw) :
    name ≠ [] ∧ pw ≠ [] := by
  obtain ⟨_, hname, _, _, _, hpw, _, _⟩ := h
  exact ⟨hname, hpw⟩

theorem exists_isWord_of_written {line name pw : List UInt8} (h : Written line name pw) :
    ∃ c ∈ line, isWord c := by
  obtain ⟨_, hname, hword, _, _, _, _, _⟩ := h
  obtain ⟨c, name, rfl⟩ := List.exists_cons_of_ne_nil hname
  exact ⟨c, List.mem_append_right _ List.mem_cons_self, hword c List.mem_cons_self⟩

/-- A line that is no comment is scanned. -/
theorem exists_scanLine {line : List UInt8} (h : ¬IsComment line) :
    ∃ app, scanLine line = some app := by
  rw [IsComment] at h
  rw [scanLine, if_neg h]
  dsimp only
  split
  · exact ⟨_, rfl⟩
  · exact ⟨_, rfl⟩

/-! ## The loop -/

section Loop

variable {desSetparity : List UInt8 → List UInt8}

theorem registers_nil {line : List UInt8} (h : cString line = []) :
    registers desSetparity line = none :=
  if_pos h

/-- The first line of a file, and what comes behind it. -/
theorem fileLines_eq (content : List UInt8) : fileLines content = content.takeWhile (· ≠ 10) ::
    match content.dropWhile (· ≠ 10) with
    | [] => []
    | _ :: rest => fileLines rest := by
  have hfirst : (10 : UInt8) ∉ content.takeWhile (· ≠ 10) := by
    intro hmem
    have := List.mem_takeWhile_imp hmem
    simp only [ne_eq, not_true_eq_false, decide_false, Bool.false_eq_true] at this
  have hsplit := @List.takeWhile_append_dropWhile _ (fun c : UInt8 => c ≠ 10) content
  have hhead := not_head_dropWhile (fun c : UInt8 => c ≠ 10) content
  generalize content.takeWhile (· ≠ 10) = text at *
  generalize content.dropWhile (· ≠ 10) = rest at *
  rw [← hsplit, fileLines]
  cases rest with
  | nil => rw [List.append_nil, List.splitOn_eq_singleton hfirst]
  | cons c rest =>
    have hc : c = 10 := by
      have := hhead c rfl
      simpa only [ne_eq, decide_not, Bool.not_eq_true', decide_eq_false_iff_not, not_not] using this
    rw [hc, List.splitOn_append_cons_self_of_not_mem hfirst]
    rfl

/-- At the end of the file the loop stops. -/
theorem loadLoop_bad (n : Nat) {ifs : Ifstream} (h : ifs.good = false) :
    loadLoop desSetparity n ifs = [] := by
  obtain ⟨rest, good⟩ := ifs
  subst h
  cases n with
  | zero => rfl
  | succ n => rfl

/-- One round of the loop. -/
theorem loadLoop_succ (n : Nat) (ifs : Ifstream) : loadLoop desSetparity (n + 1) ifs =
    (registers desSetparity ifs.getline.1).toList ++ loadLoop desSetparity n ifs.getline.2 := by
  rw [loadLoop]
  split
  case isFalse => rfl
  case isTrue hnil =>
    rw [registers_nil hnil, Option.toList_none, List.nil_append]
    split
    case isTrue => rfl
    case isFalse hbad => exact (loadLoop_bad n (Bool.eq_false_iff.mpr hbad)).symm

/-- **The loop reads all lines.** -/
theorem loadLoop_eq {n : Nat} {rest : List UInt8} (hn : rest.length < n)
    (hshort : ∀ line ∈ fileLines rest, line.length < lineSize) :
    loadLoop desSetparity n ⟨rest, true⟩ = (fileLines rest).filterMap (registers desSetparity) := by
  induction n generalizing rest with
  | zero => omega
  | succ n ih =>
    rw [fileLines_eq] at hshort ⊢
    have htext : (rest.takeWhile (· ≠ 10)).length < lineSize := hshort _ List.mem_cons_self
    have hget : (Ifstream.mk rest true).getline =
        (rest.takeWhile (· ≠ 10), .behindLine (rest.dropWhile (· ≠ 10))) := by
      rw [Ifstream.getline, if_pos rfl, if_pos htext]
    have hlen := (List.dropWhile_sublist (fun c : UInt8 => c ≠ 10) (l := rest)).length_le
    have hcons : ∀ (line : List UInt8) lines, (line :: lines).filterMap (registers desSetparity) =
        (registers desSetparity line).toList ++ lines.filterMap (registers desSetparity) := by
      intro line lines
      rw [List.filterMap_cons]
      cases registers desSetparity line with
      | none => rfl
      | some app => rfl
    rw [loadLoop_succ, hget, hcons]
    congr 1
    generalize rest.dropWhile (· ≠ 10) = more at *
    cases more with
    | nil => exact loadLoop_bad n rfl
    | cons c more =>
      rw [List.length_cons] at hlen
      exact ih (by omega) fun line hline => hshort line (List.mem_cons_of_mem _ hline)

theorem loadKeyFile_eq {content : List UInt8}
    (hshort : ∀ line ∈ fileLines content, line.length < lineSize) :
    loadKeyFile desSetparity content = (fileLines content).filterMap (registers desSetparity) :=
  loadLoop_eq (by omega) hshort

/-! ## Registered applications -/

theorem mem_of_mapAppKeys {assigned : List (List UInt8 × List UInt8)} {name key : List UInt8}
    (h : mapAppKeys assigned name = some key) : (name, key) ∈ assigned := by
  obtain ⟨app, hfind, rfl⟩ := Option.map_eq_some_iff.mp h
  have hname := List.find?_some hfind
  rw [decide_eq_true_eq] at hname
  rw [← hname]
  exact List.mem_reverse.mp (List.mem_of_find?_eq_some hfind)

/-- What a line registers if nothing is wrong with it. -/
theorem Complete.registers {line : List UInt8} (h : Complete desSetparity line)
    {app : List UInt8 × List UInt8} (happ : registers desSetparity line = some app) :
    ∃ pw, Written (cString line) app.1 pw ∧ app.2 = passwd2des desSetparity pw ∧
      passwd2des desSetparity pw ≠ passwd2des desSetparity [] := by
  obtain hnil | hcomment | ⟨name, pw, hwritten, hkey⟩ := h
  · rw [registers_nil hnil] at happ
    cases happ
  · rw [MysqlProxy.registers] at happ
    rw [IsComment] at hcomment
    split at happ
    · cases happ
    · rw [scanLine, if_pos hcomment] at happ
      cases happ
  · rw [MysqlProxy.registers] at happ
    split at happ
    · cases happ
    · rw [scanLine_written hwritten] at happ
      cases happ
      exact ⟨pw, hwritten, rfl, hkey⟩

/-- A line of white space has no name. -/
theorem registers_blank {line : List UInt8} (h : Complete desSetparity line)
    (hblank : ∀ c ∈ line, isSpace c) : registers desSetparity line = none := by
  rw [Option.eq_none_iff_forall_not_mem]
  intro app happ
  obtain ⟨pw, hwritten, -, -⟩ := h.registers happ
  obtain ⟨c, hc, hword⟩ := exists_isWord_of_written hwritten
  exact not_isSpace_of_isWord hword (hblank c ((List.takeWhile_sublist _).subset hc))

/-- A line that registers no key of the empty password. -/
theorem complete_of_keyed {line : List UInt8}
    (h : ∀ app, registers desSetparity line = some app → app.2 ≠ passwd2des desSetparity []) :
    Complete desSetparity line := by
  by_cases hnil : cString line = []
  · exact .inl hnil
  by_cases hcomment : IsComment (cString line)
  · exact .inr (.inl hcomment)
  obtain ⟨⟨name, pw⟩, hscan⟩ := exists_scanLine hcomment
  have hkey : passwd2des desSetparity pw ≠ passwd2des desSetparity [] := by
    refine h (name, passwd2des desSetparity pw) ?_
    rw [registers, if_neg hnil, hscan]
    rfl
  have hpw : pw ≠ [] := by
    rintro rfl
    exact hkey rfl
  exact .inr (.inr ⟨name, pw, written_scanLine hscan hpw, hkey⟩)

/-- **The registered applications are the configured ones if and only if nothing is wrong with any
    line.** -/
theorem loadKeyFile_configured (desSetparity : List UInt8 → List UInt8) {content : List UInt8}
    (hshort : ∀ line ∈ fileLines content, line.length < lineSize) :
    Configured desSetparity content ↔ ∀ line ∈ fileLines content, Complete desSetparity line := by
  have hload := @loadKeyFile_eq desSetparity content hshort
  constructor
  · intro h line hline
    refine complete_of_keyed fun app happ => h.keyed app ?_
    rw [hload]
    exact List.mem_filterMap.mpr ⟨line, hline, happ⟩
  · intro h
    refine ⟨fun name key hkey => ?_, fun app happ => ?_, ?_⟩
    · have hmem := mem_of_mapAppKeys hkey
      rw [hload] at hmem
      obtain ⟨line, hline, happ⟩ := List.mem_filterMap.mp hmem
      obtain ⟨pw, hwritten, hkey', -⟩ := (h line hline).registers happ
      have hne := ne_nil_of_written hwritten
      exact ⟨hne.1, line, hline, not_isComment_of_written hwritten, pw, hne.2, hwritten, hkey'⟩
    · rw [hload] at happ
      obtain ⟨line, hline, happ⟩ := List.mem_filterMap.mp happ
      obtain ⟨pw, -, hkey, hne⟩ := (h line hline).registers happ
      rw [hkey]
      exact hne
    · rw [hload, List.filterMap_filter]
      apply List.filterMap_congr
      intro line hline
      split
      case isTrue => rfl
      case isFalse hblank =>
        rw [Bool.not_eq_true', Bool.not_eq_false, List.all_eq_true] at hblank
        exact registers_blank (h line hline) hblank

end Loop

/-! ## A file without and with a blank line -/

/-- `des_setparity`: the lowest bit of each byte makes the number of its bits odd. -/
def oddParity (key : List UInt8) : List UInt8 :=
  key.map fun b =>
    if ((List.range 7).countP fun i => b.toNat.testBit (i + 1)) % 2 = 0 then b ||| 1 else b &&& 254

/-- The line `a b`. -/
theorem loadKeyFile_configured_ab : Configured oddParity [97, 32, 98, 10] := by
  refine (loadKeyFile_configured oddParity (by decide)).mpr fun line hline => ?_
  have hlines : fileLines [97, 32, 98, 10] = [[97, 32, 98], []] := by decide
  rw [hlines] at hline
  rcases List.mem_cons.mp hline with rfl | hline
  · exact .inr (.inr ⟨[97], [98], written_scanLine rfl (List.cons_ne_nil _ _), by decide⟩)
  · rw [List.mem_singleton.mp hline]
    exact .inl rfl

/-- **A line with a blank registers the empty name**, with the key of the empty password. -/
theorem blankLine_not_configured : ¬Configured oddParity [32, 10] := by
  intro h
  have hassigned : loadKeyFile oddParity [32, 10] = [([], passwd2des oddParity [])] := by decide
  exact h.keyed ([], passwd2des oddParity []) (hassigned ▸ List.mem_singleton_self _) rfl

-- what comes twice in a password is not in its key
example : passwd2des oddParity (List.replicate 16 97) = passwd2des oddParity [] := by decide

end MysqlProxy
