/-
  Configuration files (`comm/oi_cfg.c`).

  A line gives a name and a value, `#` at its start makes it a comment.  `SetVal` walks through the
  list of parameters until it comes to the name, and stores the default of every `CFG_DOUBLE` that
  it passes.

  * `getConfig` are the values of the parameters after `TLib_Cfg_GetConfig`, `specified` the value
    that the last line with its name gives to a parameter.
  * `getConfig_right_iff`: they are the same unless a `CFG_DOUBLE` is passed by a later line, on its
    way to a parameter behind it or to none.

  Modelling choices.
  * A parameter has a variable of its own.  The buffer of a text has `room` bytes and one for the
    zero.
  * `double` is any type, `atof` any function to it.
-/
import MysqlProxy.Lib.CString
import Mathlib.Data.List.Induction
import Mathlib.Data.List.TakeWhile

namespace MysqlProxy

/-! ## Parameters -/

/-- The type of a parameter with its default. -/
inductive CfgItem (D : Type) where
  | line (sDefault : List UInt8) (room : Nat)
  | string (sDefault : List UInt8) (room : Nat)
  | long (lDefault : Int64)
  | int (iDefault : Int32)
  | ulong (ulDefault : UInt64)
  | uint (uiDefault : UInt32)
  | double (dDefault : D)

/-- What a variable holds. -/
inductive CfgValue (D : Type) where
  | text (s : List UInt8)
  | long (v : Int64)
  | int (v : Int32)
  | ulong (v : UInt64)
  | uint (v : UInt32)
  | double (v : D)
  deriving DecidableEq, Repr

structure CfgParam (D : Type) where
  sParam : List UInt8
  item : CfgItem D

/-- `InitDefault`, for one parameter. -/
def CfgItem.initDefault {D : Type} : CfgItem D → CfgValue D
  | .line sDefault room | .string sDefault room => .text (sDefault.take room)
  | .long lDefault => .long lDefault
  | .int iDefault => .int iDefault
  | .ulong ulDefault => .ulong ulDefault
  | .uint uiDefault => .uint uiDefault
  | .double dDefault => .double dDefault

/-! ## Lines -/

/-- The separators of `get_val`; the last is `US`. -/
def isSeparator (c : UInt8) : Bool := c = 32 || c = 9 || c = 10 || c = 31

def inWord (c : UInt8) : Bool := !isSeparator c

/-- The loop of `get_val`: what is copied to `desc`, and what stays in `src`. -/
def getValLoop (start space : Bool) (mtime : Nat) : List UInt8 → List UInt8 × List UInt8
  | [] => ([], [])
  | c :: src =>
    if isSeparator c then getValLoop false true mtime src
    else
      let mtime := if space || start then mtime + 1 else mtime
      if mtime = 2 then ([], c :: src)
      else
        let r := getValLoop false false mtime src
        (c :: r.1, r.2)

def getVal (src : List UInt8) : List UInt8 × List UInt8 := getValLoop true false 0 src

def MAX_CONFIG_LINE_LEN : Nat := 1023

/-- What `fgets` takes from a file, with this room for it. -/
def fgetsInto : Nat → List UInt8 → List UInt8 × List UInt8
  | 0, file => ([], file)
  | _ + 1, [] => ([], [])
  | room + 1, c :: file =>
    if c = 10 then ([c], file)
    else
      let r := fgetsInto room file
      (c :: r.1, r.2)

/-- `fgets`; `none` at the end of the file. -/
def fgets (file : List UInt8) : Option (List UInt8 × List UInt8) :=
  if file = [] then none else some (fgetsInto MAX_CONFIG_LINE_LEN file)

section Config

variable {D : Type} (atof : List UInt8 → D)

/-! ## The code -/

/-- What a round of `SetVal` leaves in the variable of a parameter.  `sV` is the value of the line,
    `sP` its name. -/
def setValRound (sP sV : List UInt8) (p : CfgParam D) (v : CfgValue D) : CfgValue D :=
  let sLine := sV
  let sV := (getVal sV).1
  let v := match p.item with
    | .line _ room => if sP = p.sParam then .text (sLine.take room) else v
    | .double dDefault => .double dDefault
    | _ => v
  if sP = p.sParam then
    match p.item with
    | .string _ room => .text (sV.take room)
    | .long _ => .long (Int64.ofInt (strtol sV 0))
    | .ulong _ => .ulong (UInt64.ofNat (strtoul sV 0))
    | .uint _ => .uint (UInt32.ofNat (strtoul sV 0))
    | .int _ => .int (Int32.ofInt (strtol sV 0))
    | .double _ => .double (atof sV)
    | .line _ _ => v
  else v

/-- `SetVal`: the walk ends at the parameter of the line. -/
def setVal (sP sV : List UInt8) : List (CfgParam D) → List (CfgValue D) → List (CfgValue D)
  | p :: params, v :: values =>
    let v := setValRound atof sP sV p v
    if sP = p.sParam then v :: values else v :: setVal sP sV params values
  | _, values => values

/-- A line of the file: `GetParamVal`, and `SetVal` if it is no comment. -/
def configLine (params : List (CfgParam D)) (sLine : List UInt8) (values : List (CfgValue D)) :
    List (CfgValue D) :=
  let (sParam, sVal) := getVal (cString sLine)
  if sParam.head? = some 35 then values else setVal atof sParam sVal params values

/-- The loop of `TLib_Cfg_GetConfig`. -/
def configLoop (params : List (CfgParam D)) :
    Nat → List UInt8 → List (CfgValue D) → List (CfgValue D)
  | 0, _, values => values
  | n + 1, file, values =>
    match fgets file with
    | none => values
    | some (sLine, file) => configLoop params n file (configLine atof params sLine values)

/-- `TLib_Cfg_GetConfig`: the variables of the parameters. -/
def getConfig (params : List (CfgParam D)) (file : List UInt8) : List (CfgValue D) :=
  configLoop atof params (file.length + 1) file (params.map fun p => p.item.initDefault)

/-! ## What it is for -/

/-- The lines of a file, each with the end of line that it has. -/
def linesOf : List UInt8 → List (List UInt8)
  | [] => []
  | c :: file =>
    if c = 10 then [c] :: linesOf file
    else match linesOf file with
      | [] => [[c]]
      | line :: lines => (c :: line) :: lines

/-- The first word of a text, and what is behind it. -/
def word (text : List UInt8) : List UInt8 :=
  (text.dropWhile isSeparator).takeWhile inWord

def behindWord (text : List UInt8) : List UInt8 :=
  ((text.dropWhile isSeparator).dropWhile inWord).dropWhile isSeparator

def firstWord (line : List UInt8) : List UInt8 := word (cString line)

/-- What a line gives to its first word. -/
def lineValue (line : List UInt8) : List UInt8 := behindWord (cString line)

/-- A value as the type has it: the text, or its first word. -/
def CfgItem.convert (value : List UInt8) : CfgItem D → CfgValue D
  | .line _ room => .text (value.take room)
  | .string _ room => .text ((word value).take room)
  | .long _ => .long (Int64.ofInt (strtol (word value) 0))
  | .int _ => .int (Int32.ofInt (strtol (word value) 0))
  | .ulong _ => .ulong (UInt64.ofNat (strtoul (word value) 0))
  | .uint _ => .uint (UInt32.ofNat (strtoul (word value) 0))
  | .double _ => .double (atof (word value))

/-- The last line with this first word. -/
def lastLine (name : List UInt8) (lines : List (List UInt8)) : Option (List UInt8) :=
  (lines.filter fun line => firstWord line = name).getLast?

/-- The value of the last line with the name of the parameter, or its default. -/
def specified (lines : List (List UInt8)) (p : CfgParam D) : CfgValue D :=
  match lastLine p.sParam lines with
  | some line => p.item.convert atof (lineValue line)
  | none => p.item.initDefault

/-- Every parameter holds the value of the last line with its name, or its default. -/
def ConfigRight (params : List (CfgParam D)) (file : List UInt8) : Prop :=
  getConfig atof params file = params.map (specified atof (linesOf file))

/-! ## Reading lines -/

theorem getValLoop_blank (mtime : Nat) (src : List UInt8) :
    getValLoop false true mtime src =
      getValLoop false true mtime (src.dropWhile isSeparator) := by
  induction src with
  | nil => rfl
  | cons c src ih =>
    by_cases hc : isSeparator c
    · rw [List.dropWhile_cons_of_pos hc, getValLoop, if_pos hc, ih]
    · rw [List.dropWhile_cons_of_neg hc]

/-- Behind the first word the loop skips blanks, and the second word ends it. -/
theorem getValLoop_second (src : List UInt8) :
    getValLoop false true 1 src = ([], src.dropWhile isSeparator) := by
  rw [getValLoop_blank]
  cases hsrc : src.dropWhile isSeparator with
  | nil => rfl
  | cons c tail =>
    have hc : ¬ isSeparator c := by
      have hhead := List.head?_dropWhile_not isSeparator src
      rw [hsrc] at hhead
      simpa using hhead
    rw [getValLoop, if_neg hc]
    rfl

/-- Inside the first word. -/
theorem getValLoop_word (src : List UInt8) :
    getValLoop false false 1 src =
      (src.takeWhile inWord, (src.dropWhile inWord).dropWhile isSeparator) := by
  induction src with
  | nil => rfl
  | cons c src ih =>
    by_cases hc : isSeparator c
    · have hneg : ¬ inWord c := by simpa [inWord] using hc
      rw [getValLoop, if_pos hc, List.takeWhile_cons_of_neg hneg, List.dropWhile_cons_of_neg hneg,
        List.dropWhile_cons_of_pos hc, getValLoop_second]
    · have hpos : inWord c := by simpa [inWord] using hc
      rw [getValLoop, if_neg hc, List.takeWhile_cons_of_pos hpos, List.dropWhile_cons_of_pos hpos]
      simp only [Bool.or_self, Bool.false_eq_true, if_false, ih]
      rfl

/-- **`get_val`** takes the first word, and leaves what is behind it. -/
theorem getVal_eq (src : List UInt8) : getVal src = (word src, behindWord src) := by
  have hfirst : ∀ start space c tail, ¬ isSeparator c → (space || start) = true →
      getValLoop start space 0 (c :: tail) = (word (c :: tail), behindWord (c :: tail)) := by
    intro start space c tail hc hone
    have hpos : inWord c := by simpa [inWord] using hc
    rw [getValLoop, if_neg hc, if_pos hone, word, behindWord, List.dropWhile_cons_of_neg hc,
      List.takeWhile_cons_of_pos hpos, List.dropWhile_cons_of_pos hpos]
    simp only [Nat.zero_add, getValLoop_word]
    rfl
  rw [getVal]
  cases src with
  | nil => rfl
  | cons c src =>
    by_cases hc : isSeparator c
    · rw [getValLoop, if_pos hc, getValLoop_blank, word, behindWord, List.dropWhile_cons_of_pos hc]
      cases hsrc : src.dropWhile isSeparator with
      | nil => rfl
      | cons d tail =>
        have hd : ¬ isSeparator d := by
          have hhead := List.head?_dropWhile_not isSeparator src
          rw [hsrc] at hhead
          simpa using hhead
        rw [hfirst false true d tail hd rfl, word, behindWord, List.dropWhile_cons_of_neg hd]
    · exact hfirst true false c src hc rfl

theorem linesOf_eq_nil {file : List UInt8} : linesOf file = [] ↔ file = [] := by
  cases file with
  | nil => exact iff_of_true rfl rfl
  | cons c file =>
    refine iff_of_false ?_ (List.cons_ne_nil c file)
    rw [linesOf]
    split
    · nofun
    · split <;> nofun

/-- `fgets` takes the first line, if there is room for it. -/
theorem fgetsInto_eq {file : List UInt8} : ∀ {room : Nat} {line : List UInt8}
    {lines : List (List UInt8)}, linesOf file = line :: lines → line.length ≤ room →
    (fgetsInto room file).1 = line ∧ linesOf (fgetsInto room file).2 = lines := by
  induction file with
  | nil => nofun
  | cons c file ih =>
    intro room line lines hlines hroom
    rw [linesOf] at hlines
    split at hlines
    case isTrue hc =>
      obtain ⟨rfl, rfl⟩ := List.cons.inj hlines
      obtain ⟨room, rfl⟩ := Nat.exists_eq_add_of_le' hroom
      rw [List.length_singleton, fgetsInto, if_pos hc]
      exact ⟨rfl, rfl⟩
    case isFalse hc =>
      split at hlines
      case h_1 hnil =>
        obtain ⟨rfl, rfl⟩ := List.cons.inj hlines
        obtain ⟨room, rfl⟩ := Nat.exists_eq_add_of_le' hroom
        rw [linesOf_eq_nil] at hnil
        rw [List.length_singleton, fgetsInto, if_neg hc, hnil]
        cases room <;> exact ⟨rfl, rfl⟩
      case h_2 first rest hcons =>
        obtain ⟨rfl, rfl⟩ := List.cons.inj hlines
        rw [List.length_cons] at hroom
        obtain ⟨room, rfl⟩ := Nat.exists_eq_add_of_le' (Nat.le_of_add_left_le hroom)
        obtain ⟨htaken, hleft⟩ := ih hcons (Nat.le_of_add_le_add_right hroom)
        rw [fgetsInto, if_neg hc]
        exact ⟨congrArg _ htaken, hleft⟩

/-- **The file is read line by line.** -/
theorem configLoop_eq (params : List (CfgParam D)) {lines : List (List UInt8)} :
    ∀ {n : Nat} {file : List UInt8} {values : List (CfgValue D)}, linesOf file = lines →
      (∀ line ∈ lines, line.length ≤ MAX_CONFIG_LINE_LEN) → lines.length < n →
      configLoop atof params n file values =
        lines.foldl (fun values line => configLine atof params line values) values := by
  induction lines with
  | nil =>
    intro n file values hlines _ hn
    obtain ⟨n, rfl⟩ := Nat.exists_eq_add_of_lt hn
    rw [configLoop, fgets, if_pos (linesOf_eq_nil.mp hlines)]
    rfl
  | cons line lines ih =>
    intro n file values hlines hshort hn
    obtain ⟨n, rfl⟩ := Nat.exists_eq_add_of_lt hn
    have hfile : file ≠ [] := fun hnil => by
      rw [linesOf_eq_nil.mpr hnil] at hlines
      cases hlines
    obtain ⟨htaken, hleft⟩ := fgetsInto_eq hlines (hshort line (List.mem_cons_self ..))
    rw [configLoop, fgets, if_neg hfile]
    show configLoop atof params _ (fgetsInto _ file).2 (configLine atof params (fgetsInto _ file).1 _) = _
    rw [htaken]
    exact ih hleft (fun l hl => hshort l (List.mem_cons_of_mem _ hl)) (by
      rw [List.length_cons]
      omega)

/-- There are no more lines than bytes. -/
theorem length_linesOf_le (file : List UInt8) : (linesOf file).length ≤ file.length := by
  induction file with
  | nil => exact Nat.le_refl 0
  | cons c file ih =>
    rw [linesOf, List.length_cons]
    split
    · rw [List.length_cons]
      omega
    · split
      case h_1 => simp
      case h_2 first rest hcons =>
        rw [hcons] at ih
        exact Nat.le_succ_of_le ih

/-! ## One parameter -/

/-- A comment, for the code. -/
def isCommentWord (name : List UInt8) : Bool := name.head? = some 35

/-- What a line leaves in the variable of `p`, which has the parameters `earlier` in front of it. -/
def lineStep (earlier : List (List UInt8)) (p : CfgParam D) (v : CfgValue D) (line : List UInt8) :
    CfgValue D :=
  if isCommentWord (firstWord line) ∨ firstWord line ∈ earlier then v
  else setValRound atof (firstWord line) (lineValue line) p v

/-- The line of a parameter sets it. -/
theorem setValRound_own (sV : List UInt8) (p : CfgParam D) (v : CfgValue D) :
    setValRound atof p.sParam sV p v = p.item.convert atof sV := by
  unfold setValRound
  cases p.item <;> simp only [if_true, getVal_eq, CfgItem.convert]

def CfgItem.isDouble : CfgItem D → Bool
  | .double _ => true
  | _ => false

/-- A line with another name leaves a parameter alone, unless it is a `CFG_DOUBLE`. -/
theorem setValRound_other {sP : List UInt8} {p : CfgParam D} (h : sP ≠ p.sParam) (sV : List UInt8)
    (v : CfgValue D) :
    setValRound atof sP sV p v = if p.item.isDouble then p.item.initDefault else v := by
  unfold setValRound
  cases p.item <;> simp only [if_neg h] <;> rfl

/-- The line comes to the parameter, which is not its own. -/
def Passes (earlier : List (List UInt8)) (p : CfgParam D) (line : List UInt8) : Prop :=
  ¬ isCommentWord (firstWord line) ∧ firstWord line ∉ earlier ∧ firstWord line ≠ p.sParam

/-- A line passes the parameter behind the last line that has its name. -/
def PassedLater (earlier : List (List UInt8)) (p : CfgParam D) (lines : List (List UInt8)) : Prop :=
  ∃ front line tail, lines = front ++ line :: tail ∧ Passes earlier p line ∧
    ∀ l ∈ tail, firstWord l ≠ p.sParam

/-- The name does not look like a comment, and no line resets the value. -/
def Kept (earlier : List (List UInt8)) (p : CfgParam D) (lines : List (List UInt8)) : Prop :=
  ¬ isCommentWord p.sParam ∧ (p.item.isDouble → ¬ PassedLater earlier p lines)

theorem lastLine_concat (name : List UInt8) (lines : List (List UInt8)) (line : List UInt8) :
    lastLine name (lines ++ [line]) =
      if firstWord line = name then some line else lastLine name lines := by
  rw [lastLine, List.filter_append]
  split
  case isTrue h => rw [List.filter_cons_of_pos (by simpa using h), List.filter_nil,
    List.getLast?_concat]
  case isFalse h => rw [List.filter_cons_of_neg (by simpa using h), List.filter_nil,
    List.append_nil, lastLine]

theorem passedLater_concat (earlier : List (List UInt8)) (p : CfgParam D)
    (lines : List (List UInt8)) (line : List UInt8) :
    PassedLater earlier p (lines ++ [line]) ↔
      Passes earlier p line ∨ firstWord line ≠ p.sParam ∧ PassedLater earlier p lines := by
  constructor
  · rintro ⟨front, l, tail, heq, hpass, htail⟩
    rcases List.eq_nil_or_concat tail with rfl | ⟨tail, last, rfl⟩
    · obtain ⟨-, hlast⟩ := List.append_inj' heq rfl
      rw [List.singleton_inj.mp hlast]
      exact .inl hpass
    · rw [List.concat_eq_append] at heq htail
      rw [← List.cons_append, ← List.append_assoc] at heq
      obtain ⟨hlines, hlast⟩ := List.append_inj' heq rfl
      rw [List.singleton_inj.mp hlast]
      exact .inr ⟨htail last (List.mem_append_right _ (List.mem_singleton_self last)),
        front, l, tail, hlines, hpass, fun x hx => htail x (List.mem_append_left _ hx)⟩
  · rintro (hpass | ⟨hother, front, l, tail, rfl, hpass, htail⟩)
    · exact ⟨lines, line, [], rfl, hpass, nofun⟩
    · refine ⟨front, l, tail ++ [line], by rw [List.append_assoc, List.cons_append], hpass, ?_⟩
      intro x hx
      rcases List.mem_append.mp hx with hx | hx
      · exact htail x hx
      · rw [List.mem_singleton.mp hx]
        exact hother

/-- **One parameter**: what the lines leave in its variable. -/
theorem foldl_lineStep {earlier : List (List UInt8)} {p : CfgParam D} (hp : p.sParam ∉ earlier)
    (lines : List (List UInt8)) :
    (Kept earlier p lines → lines.foldl (lineStep atof earlier p) p.item.initDefault =
      specified atof lines p) ∧
    (¬ Kept earlier p lines → lines.foldl (lineStep atof earlier p) p.item.initDefault =
      p.item.initDefault) := by
  induction lines using List.reverseRecOn with
  | nil => exact ⟨fun _ => rfl, fun _ => rfl⟩
  | append_singleton lines line ih =>
    rw [List.foldl_append, List.foldl_cons, List.foldl_nil]
    generalize hv : lines.foldl (lineStep atof earlier p) p.item.initDefault = v at ih ⊢
    rw [specified, lastLine_concat, Kept, passedLater_concat]
    by_cases hown : firstWord line = p.sParam
    · have hpass : ¬ Passes earlier p line := fun h => h.2.2 hown
      rw [if_pos hown, lineStep, hown]
      by_cases hcomment : isCommentWord p.sParam
      · rw [if_pos (.inl hcomment)]
        exact ⟨fun h => absurd hcomment h.1, fun _ => ih.2 fun h => h.1 hcomment⟩
      · rw [if_neg (not_or.mpr ⟨hcomment, hp⟩), setValRound_own]
        refine ⟨fun _ => rfl, fun h => absurd ⟨hcomment, fun _ hlater => ?_⟩ h⟩
        rcases hlater with hlater | ⟨hne, -⟩
        · exact hpass hlater
        · exact hne rfl
    · rw [if_neg hown, ← specified]
      by_cases hskip : isCommentWord (firstWord line) ∨ firstWord line ∈ earlier
      · -- the line does not come here
        have hpass : ¬ Passes earlier p line := fun h => hskip.elim h.1 h.2.1
        simp only [lineStep, if_pos hskip, hpass, false_or, ne_eq, hown, not_false_eq_true, true_and]
        exact ih
      · rw [lineStep, if_neg hskip, setValRound_other atof hown]
        rw [not_or] at hskip
        have hpass : Passes earlier p line := ⟨hskip.1, hskip.2, hown⟩
        by_cases hdouble : p.item.isDouble
        · rw [if_pos hdouble]
          exact ⟨fun h => absurd (.inl hpass) (h.2 hdouble), fun _ => rfl⟩
        · rw [if_neg hdouble]
          have hkept : Kept earlier p lines ↔ ¬ isCommentWord p.sParam :=
            and_iff_left fun h => absurd h hdouble
          rw [hkept] at ih
          rw [and_iff_left (fun h => absurd h hdouble)]
          exact ih

/-! ## All parameters -/

/-- The variables after these lines. -/
def valuesAfter (lines : List (List UInt8)) : List (List UInt8) → List (CfgParam D) → List (CfgValue D)
  | _, [] => []
  | earlier, p :: params => lines.foldl (lineStep atof earlier p) p.item.initDefault ::
      valuesAfter lines (earlier ++ [p.sParam]) params

/-- A line whose parameter is further in front changes nothing. -/
theorem valuesAfter_passed {line : List UInt8} {params : List (CfgParam D)} :
    ∀ {lines earlier : List (List UInt8)},
      isCommentWord (firstWord line) ∨ firstWord line ∈ earlier →
      valuesAfter atof (lines ++ [line]) earlier params = valuesAfter atof lines earlier params := by
  induction params with
  | nil => exact fun _ => rfl
  | cons p params ih =>
    intro lines earlier h
    rw [valuesAfter, valuesAfter, List.foldl_append, List.foldl_cons, List.foldl_nil, lineStep, if_pos h,
      ih (h.imp_right (List.mem_append_left _))]

/-- **The walk of `SetVal`.** -/
theorem setVal_valuesAfter {line : List UInt8} (hcomment : ¬ isCommentWord (firstWord line))
    {params : List (CfgParam D)} : ∀ {lines earlier : List (List UInt8)}, firstWord line ∉ earlier →
      setVal atof (firstWord line) (lineValue line) params (valuesAfter atof lines earlier params) =
        valuesAfter atof (lines ++ [line]) earlier params := by
  induction params with
  | nil => exact fun _ => rfl
  | cons p params ih =>
    intro lines earlier h
    rw [valuesAfter, valuesAfter, setVal, List.foldl_append, List.foldl_cons, List.foldl_nil, lineStep,
      if_neg (not_or.mpr ⟨hcomment, h⟩)]
    split
    case isTrue hown =>
      have hmem : firstWord line ∈ earlier ++ [p.sParam] :=
        List.mem_append_right _ (List.mem_singleton.mpr hown)
      rw [valuesAfter_passed atof (.inr hmem)]
    case isFalse hown =>
      have hnot : firstWord line ∉ earlier ++ [p.sParam] := fun hmem =>
        (List.mem_append.mp hmem).elim h fun hmem => hown (List.mem_singleton.mp hmem)
      rw [ih hnot]

theorem configLine_valuesAfter (params : List (CfgParam D)) (lines : List (List UInt8))
    (line : List UInt8) :
    configLine atof params line (valuesAfter atof lines [] params) =
      valuesAfter atof (lines ++ [line]) [] params := by
  rw [configLine, getVal_eq]
  show (if (firstWord line).head? = some 35 then _ else setVal atof (firstWord line) (lineValue line)
    params _) = _
  split
  case isTrue hcomment => rw [valuesAfter_passed atof (.inl (by simpa [isCommentWord] using hcomment))]
  case isFalse hcomment =>
    exact setVal_valuesAfter atof (by simpa [isCommentWord] using hcomment) (List.not_mem_nil)

theorem valuesAfter_nil {params : List (CfgParam D)} : ∀ {earlier : List (List UInt8)},
    valuesAfter atof [] earlier params = params.map fun p => p.item.initDefault := by
  induction params with
  | nil => exact rfl
  | cons p params ih =>
    intro earlier
    rw [valuesAfter, ih]
    rfl

theorem foldl_configLine (params : List (CfgParam D)) (lines : List (List UInt8)) :
    lines.foldl (fun values line => configLine atof params line values)
      (params.map fun p => p.item.initDefault) = valuesAfter atof lines [] params := by
  induction lines using List.reverseRecOn with
  | nil => exact (valuesAfter_nil atof).symm
  | append_singleton lines line ih =>
    rw [List.foldl_append, ih]
    exact configLine_valuesAfter atof params lines line

/-- Every parameter keeps its value, or the value is the default anyway.  `earlier` are the names in
    front of a parameter. -/
def AllKept (lines : List (List UInt8)) : List (List UInt8) → List (CfgParam D) → Prop
  | _, [] => True
  | earlier, p :: params =>
    (Kept earlier p lines ∨ specified atof lines p = p.item.initDefault) ∧
      AllKept lines (earlier ++ [p.sParam]) params

theorem valuesAfter_eq_iff (lines : List (List UInt8)) {params : List (CfgParam D)} :
    ∀ {earlier : List (List UInt8)}, (earlier ++ params.map CfgParam.sParam).Nodup →
      (valuesAfter atof lines earlier params = params.map (specified atof lines) ↔
        AllKept atof lines earlier params) := by
  induction params with
  | nil => exact fun _ => iff_of_true rfl trivial
  | cons p params ih =>
    intro earlier hnodup
    have hp : p.sParam ∉ earlier := fun hmem =>
      (List.nodup_append.mp hnodup).2.2 _ hmem _ (List.mem_cons_self ..) rfl
    have hrest : (earlier ++ [p.sParam] ++ params.map CfgParam.sParam).Nodup := by
      rwa [List.append_assoc]
    obtain ⟨hkept, hreset⟩ := foldl_lineStep atof hp lines
    rw [valuesAfter, List.map_cons, List.cons.injEq, ih hrest, AllKept]
    refine and_congr_left' ?_
    by_cases h : Kept earlier p lines
    · exact iff_of_true (hkept h) (.inl h)
    · rw [hreset h]
      exact ⟨fun heq => .inr heq.symm, fun hor => (hor.resolve_left h).symm⟩

/-- **When the values do not depend on other lines.** -/
theorem getConfig_right_iff {params : List (CfgParam D)} (hdistinct : (params.map CfgParam.sParam).Nodup)
    {file : List UInt8} (hshort : ∀ line ∈ linesOf file, line.length ≤ MAX_CONFIG_LINE_LEN) :
    ConfigRight atof params file ↔ AllKept atof (linesOf file) [] params := by
  rw [ConfigRight, getConfig, configLoop_eq atof params rfl hshort
    (Nat.lt_succ_of_le (length_linesOf_le file)), foldl_configLine]
  exact valuesAfter_eq_iff atof (linesOf file) hdistinct

end Config

/-! ## A double and another line -/

/-- A `double` with the name `a` and the default 1; 2 is read as a number. -/
def rateParam : CfgParam Nat := ⟨[97], .double 1⟩

/-- `a 2`, and a line `b 3`. -/
def rateFile : List UInt8 := [97, 32, 50, 10, 98, 32, 51, 10]

theorem getConfig_right_iff_rate :
    ConfigRight (digitsValue 10 0) [rateParam] [97, 32, 50, 10] ↔
      AllKept (digitsValue 10 0) (linesOf [97, 32, 50, 10]) [] [rateParam] :=
  getConfig_right_iff _ (by decide) (by decide)

/-- **The line `b 3` puts `a` back to its default.** -/
theorem unrelated_line_resets : ¬ ConfigRight (digitsValue 10 0) [rateParam] rateFile := by
  unfold ConfigRight
  decide +kernel

end MysqlProxy
