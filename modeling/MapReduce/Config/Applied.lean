import MapReduce.Config.Load
import MapReduce.Lib.Fields
import MapReduce.Worker.Tokens

/-! What a configuration file says, and what `load_config` makes of it.

The file is read as its author wrote it: a line names a setting by its first
word, and the setting is the text behind that word. A later line overrides an
earlier one, and a setting that no line names keeps its default.
-/

set_option autoImplicit false

namespace MapReduce

/-! ## The text -/

/-- A line that is not a comment and has this first word. -/
def namesKey (name line : Bytes) : Bool := line.head? != some 35 && Fields.word isspace line == name

def lastNaming (content name : Bytes) : Option Bytes := ((content.splitOn 10).filter (namesKey name)).getLast?

/-- The text behind the key, without the blanks around it. -/
def textBehind (line : Bytes) : Bytes := Fields.trim isspace (Fields.behind isspace line)

def integer (text : Bytes) : Option Int :=
  let (negative, digits) := takeSign text
  if digits ≠ [] ∧ digits.all Decimal.isDigit then some (signed negative (Decimal.value digits)) else none

def ConfigEntry.denotes (entry : ConfigEntry) (text : Bytes) : Option ConfigValue :=
  match entry.type with
  | .int => (integer text).map .int
  | .bool => if text = ascii "yes" then some (.bool true) else if text = ascii "no" then some (.bool false) else none
  | .string => some (.text text)
  | .enum => (entry.enumValues.findIdx? (· = text)).map fun i => .int i

/-- The setting is what the file says, or the default. -/
def AppliedInFull (content : Bytes) (settings : Settings) (entry : ConfigEntry) : Prop :=
  match lastNaming content entry.name with
  | none => settings entry.offset = masterConfigInit entry.offset
  | some line => entry.denotes (textBehind line) = some (settings entry.offset)

instance (content : Bytes) (settings : Settings) (entry : ConfigEntry) :
    Decidable (AppliedInFull content settings entry) :=
  match naming : lastNaming content entry.name with
  | none => decidable_of_iff (settings entry.offset = masterConfigInit entry.offset) (by simp [AppliedInFull, naming])
  | some line =>
    decidable_of_iff (entry.denotes (textBehind line) = some (settings entry.offset)) (by simp [AppliedInFull, naming])

/-- The pieces that `load_config` scans: what `fgets` stores, up to a NUL and without the newline. -/
def scannedPieces (content : Bytes) : List Bytes := (readLines configLineSize content).map stripNewline

def lastPiece (content name : Bytes) : Option Bytes := ((scannedPieces content).filter (namesKey name)).getLast?

/-- What the second `%255s` stores. -/
def secondWord (piece : Bytes) : Bytes := (Fields.word isspace (Fields.behind isspace piece)).take 255

/-- The word that is scanned is the text, or stands for the same integer in a setting that is one. -/
def ConfigEntry.SameText (entry : ConfigEntry) (word text : Bytes) : Prop :=
  word = text ∨ entry.type = .int ∧ integer word = integer text

/-- The last piece that names the setting holds what the last line that names it says. A piece that names a setting
which no line names holds its default. -/
def ScannedInFull (content : Bytes) (entry : ConfigEntry) : Prop :=
  ∀ piece ∈ lastPiece content entry.name,
    (∀ line ∈ lastNaming content entry.name, entry.SameText (secondWord piece) (textBehind line)) ∧
      (lastNaming content entry.name = none → entry.denotes (secondWord piece) = some (masterConfigInit entry.offset))

instance (entry : ConfigEntry) (word text : Bytes) : Decidable (entry.SameText word text) :=
  inferInstanceAs (Decidable (_ ∨ _))

instance (content : Bytes) (entry : ConfigEntry) : Decidable (ScannedInFull content entry) := by
  unfold ScannedInFull
  infer_instance

/-- No line is cut by the buffer, or by a NUL in it. -/
structure Fits (content : Bytes) : Prop where
  no_nul : 0 ∉ content
  short : ∀ line ∈ content.splitOn 10, line.length < configLineSize

/-- The text is one word, and the width of the conversion does not change what it stands for. -/
def ConfigEntry.Kept (entry : ConfigEntry) (text : Bytes) : Prop :=
  (∀ c ∈ text, isspace c = false) ∧
    (text.length ≤ 255 ∨ entry.type = .int ∧ integer text = integer (text.take 255))

instance (entry : ConfigEntry) (text : Bytes) : Decidable (entry.Kept text) := inferInstanceAs (Decidable (_ ∧ _))

/-! ## Lines and pieces -/

theorem cString_subset (buffer : Bytes) : cString buffer ⊆ buffer := (List.takeWhile_prefix _).subset

theorem stripNewline_clean {piece : Bytes} (no_newline : 10 ∉ piece) : stripNewline piece = cString piece := by
  unfold stripNewline
  simp only
  rw [if_neg fun last => no_newline (cString_subset piece (List.mem_of_getLast? last))]

/-- The newline is taken off, unless a NUL in front of it ends the string before. -/
theorem stripNewline_cut {line : Bytes} (no_newline : 10 ∉ line) : stripNewline (line ++ [10]) = cString line := by
  unfold stripNewline
  by_cases nul : 0 ∈ line
  · have same : cString (line ++ [10]) = cString line := by
      unfold cString
      rw [List.takeWhile_append, if_neg fun whole => ?_]
      have all := List.takeWhile_eq_self_iff.mp ((List.takeWhile_prefix _).eq_of_length whole)
      simpa using all 0 nul
    simp only [same]
    rw [if_neg fun last => no_newline (cString_subset line (List.mem_of_getLast? last))]
  · have whole : cString (line ++ [10]) = line ++ [10] := cString_eq (by simpa using nul)
    simp [whole, cString_eq nul]

theorem Fits.behind {line rest : Bytes} (fits : Fits (line ++ 10 :: rest)) (no_newline : 10 ∉ line) :
    0 ∉ line ∧ line.length < configLineSize ∧ Fits rest := by
  have lines : (line ++ 10 :: rest).splitOn 10 = line :: rest.splitOn 10 :=
    List.splitOn_append_cons_self_of_not_mem no_newline rest
  have short := fits.short
  rw [lines, List.forall_mem_cons] at short
  have no_nul := fits.no_nul
  simp only [List.mem_append, List.mem_cons, not_or] at no_nul
  exact ⟨no_nul.1, short.1, no_nul.2.2, short.2⟩

/-- A line that just fills the buffer leaves its newline for the next piece. -/
theorem stripNewline_line {line rest : Bytes} (no_nul : 0 ∉ line) (no_newline : 10 ∉ line)
    (short : line.length < configLineSize) :
    ((readLines configLineSize (line ++ 10 :: rest)).map stripNewline).filter (· != []) =
      [line].filter (· != []) ++ ((readLines configLineSize rest).map stripNewline).filter (· != []) := by
  have room : 2 ≤ configLineSize := by decide
  rw [readLines_cons room (by simp)]
  by_cases inside : line.length < configLineSize - 1
  · rw [fgets_line inside no_newline, List.map_cons, stripNewline_cut no_newline, cString_eq no_nul,
      ← List.filter_append]
    rfl
  · have full : configLineSize - 1 = line.length := by omega
    have newline : fgets line.length (10 :: rest) = ([10], rest) :=
      @fgets_line line.length [] (full ▸ by decide) List.not_mem_nil rest
    rw [full, fgets_full no_newline, readLines_cons room (List.cons_ne_nil 10 rest), full, newline, List.map_cons,
      List.map_cons, stripNewline_clean no_newline, cString_eq no_nul, ← List.filter_append]
    rfl

theorem stripNewline_lines {content : Bytes} (fits : Fits content) :
    ((readLines configLineSize content).map stripNewline).filter (· != []) = (content.splitOn 10).filter (· != []) := by
  generalize length : content.length = n
  induction n using Nat.strong_induction_on generalizing content with
  | _ n ih =>
    by_cases newline : 10 ∈ content
    · obtain ⟨line, rest, rfl, no_newline⟩ := List.eq_append_cons_of_mem newline
      obtain ⟨no_nul, short, later⟩ := fits.behind no_newline
      have shorter : rest.length < n := by
        rw [← length, List.length_append, List.length_cons]
        omega
      rw [stripNewline_line no_nul no_newline short, ih _ shorter later rfl, ← List.filter_append,
        List.splitOn_append_cons_self_of_not_mem no_newline]
      rfl
    · rw [List.splitOn_eq_singleton newline]
      by_cases empty : content = []
      · subst empty
        rfl
      · have short := fits.short
        rw [List.splitOn_eq_singleton newline, List.forall_mem_singleton] at short
        have last : fgets (configLineSize - 1) content = (content, []) := fgets_last (by omega) newline
        rw [readLines_cons (by decide) empty, last, List.map_cons, stripNewline_clean newline, cString_eq fits.no_nul]
        rfl

theorem Fits.lastPiece {content name : Bytes} (fits : Fits content) (some_name : name ≠ []) :
    lastPiece content name = lastNaming content name := by
  have idle : ∀ lines : List Bytes, (lines.filter (· != [])).filter (namesKey name) = lines.filter (namesKey name) := by
    intro lines
    rw [List.filter_filter]
    congr 1
    funext line
    cases line with
    | nil => simpa [namesKey, Fields.word] using some_name
    | cons c line => simp
  unfold MapReduce.lastPiece lastNaming scannedPieces
  rw [← idle, stripNewline_lines fits, idle]

def firstPiece (line : Bytes) : Bytes := cString (line.take (configLineSize - 1))

theorem firstPiece_prefix (line : Bytes) : firstPiece line <+: line :=
  (List.takeWhile_prefix _).trans (List.take_prefix _ _)

theorem firstPiece_mem {line content : Bytes} (no_newline : 10 ∉ line) (some_bytes : line ≠ [])
    (first : content = line ∨ ∃ rest, content = line ++ 10 :: rest) : firstPiece line ∈ scannedPieces content := by
  have clean : 10 ∉ line.take (configLineSize - 1) := fun member => no_newline (List.mem_of_mem_take member)
  have some_content : content ≠ [] := by
    rcases first with rfl | ⟨rest, rfl⟩
    · exact some_bytes
    · simp
  unfold scannedPieces
  rw [readLines_cons (by decide) some_content, List.map_cons]
  refine List.mem_cons.mpr (.inl ?_)
  by_cases fits : line.length < configLineSize - 1
  · have whole : line.take (configLineSize - 1) = line := List.take_of_length_le fits.le
    rcases first with rfl | ⟨rest, rfl⟩
    · rw [fgets_last fits.le no_newline, stripNewline_clean no_newline, firstPiece, whole]
    · rw [fgets_line fits no_newline, stripNewline_cut no_newline, firstPiece, whole]
  · obtain ⟨tail, rfl⟩ : ∃ tail, content = line ++ tail := by
      rcases first with rfl | ⟨rest, rfl⟩
      · exact ⟨[], (List.append_nil _).symm⟩
      · exact ⟨_, rfl⟩
    rw [fgets_cut (Nat.not_lt.mp fits) no_newline, stripNewline_clean clean, firstPiece]

theorem scannedPieces_line {content line : Bytes} (member : line ∈ content.splitOn 10) (some_bytes : line ≠ []) :
    firstPiece line ∈ scannedPieces content := by
  generalize length : content.length = n
  induction n using Nat.strong_induction_on generalizing content with
  | _ n ih =>
    by_cases newline : 10 ∈ content
    · obtain ⟨front, rest, rfl, no_newline⟩ := List.eq_append_cons_of_mem newline
      rw [List.splitOn_append_cons_self_of_not_mem no_newline] at member
      rcases List.mem_cons.mp member with rfl | later
      · exact firstPiece_mem no_newline some_bytes (.inr ⟨rest, rfl⟩)
      · have shorter : rest.length < n := by
          rw [← length, List.length_append, List.length_cons]
          omega
        exact ((readLines_suffix (by decide) no_newline rest).map stripNewline).subset (ih _ shorter later rfl)
    · rw [List.splitOn_eq_singleton newline, List.mem_singleton] at member
      subst member
      exact firstPiece_mem newline some_bytes (.inl rfl)

/-! ## Keys and values -/

theorem scanString_some {s word rest : Bytes} {width : Nat} (scanned : scanString width s = some (word, rest)) :
    word = (Fields.word isspace s).take width ∧ rest = (s.dropWhile isspace).drop word.length ∧
      Fields.word isspace s ≠ [] := by
  unfold scanString at scanned
  simp only at scanned
  split at scanned
  · cases scanned
  next some_bytes =>
    cases scanned
    refine ⟨rfl, rfl, ?_⟩
    have first := List.head_dropWhile_not isspace some_bytes
    unfold Fields.word
    rw [← List.cons_head_tail some_bytes, List.takeWhile_cons_of_pos (by simpa using first)]
    exact List.cons_ne_nil _ _

theorem scanPair_some {line key value : Bytes} (scanned : scanPair line = some (key, value)) :
    key = (Fields.word isspace line).take 255 ∧ value ≠ [] ∧ ((Fields.word isspace line).length ≤ 255 →
      value = (Fields.word isspace (Fields.behind isspace line)).take 255) := by
  unfold scanPair at scanned
  obtain ⟨⟨first, rest⟩, scan, scanned⟩ := Option.bind_eq_some_iff.mp scanned
  obtain ⟨⟨second, left⟩, again, scanned⟩ := Option.bind_eq_some_iff.mp scanned
  cases scanned
  obtain ⟨isKey, isRest, _⟩ := scanString_some scan
  obtain ⟨isValue, _, some_word⟩ := scanString_some again
  refine ⟨isKey, ?_, fun short => ?_⟩
  · rw [isValue]
    simpa using some_word
  · rw [List.take_of_length_le short] at isKey
    rw [isKey, ← Fields.word_append_behind, List.drop_left] at isRest
    rw [isValue, isRest]
    unfold Fields.word
    rw [List.dropWhile_idempotent]

theorem configTable_name :
    ∀ entry ∈ configTable, (entry.name ≠ [] ∧ entry.name.length < 255 ∧ 0 ∉ entry.name) ∧
      ∀ other ∈ configTable, entry.name = other.name → entry = other := by
  decide

theorem word_of_key {line : Bytes} {entry : ConfigEntry} (member : entry ∈ configTable)
    (key : (Fields.word isspace line).take 255 = entry.name) : Fields.word isspace line = entry.name := by
  have bound := (configTable_name entry member).1.2.1
  rw [← key, List.length_take] at bound
  rw [← key, List.take_of_length_le (by omega)]

/-- What a line leaves in a setting that it names. -/
def ConfigEntry.Leaves (entry : ConfigEntry) (line : Bytes) (v : ConfigValue) : Prop :=
  secondWord line ≠ [] ∧ entry.parse true (secondWord line) = .ok v

theorem applyLine_other {settings next : Settings} {line : Bytes} {entry : ConfigEntry} (member : entry ∈ configTable)
    (other : namesKey entry.name line = false) (applied : applyLine settings line = some next) :
    next entry.offset = settings entry.offset := by
  rcases applyLine_some applied with ⟨_, rfl⟩ | ⟨counts, key, value, named, v, scan, found, _, rfl⟩
  · rfl
  obtain ⟨inside, isKey⟩ := findConfig_some found
  refine Function.update_of_ne (fun same => ?_) ..
  have equal := configTable_offset entry member named inside same
  subst equal
  have word := word_of_key member ((scanPair_some scan).1.symm.trans isKey.symm)
  simp [namesKey, word, skipped] at other counts
  exact counts.2 other

theorem applyLine_named {settings next : Settings} {line : Bytes} {entry : ConfigEntry} (member : entry ∈ configTable)
    (names : namesKey entry.name line = true) (applied : applyLine settings line = some next) :
    entry.Leaves line (next entry.offset) := by
  obtain ⟨⟨some_name, short, _⟩, unique⟩ := configTable_name entry member
  simp only [namesKey, Bool.and_eq_true, bne_iff_ne, beq_iff_eq] at names
  obtain ⟨no_comment, word⟩ := names
  rcases applyLine_some applied with ⟨skip, _⟩ | ⟨_, key, value, named, v, scan, found, parsed, rfl⟩
  · have empty : line = [] := by simpa [skipped, no_comment] using skip
    subst empty
    exact absurd word.symm some_name
  obtain ⟨isKey, some_value, isValue⟩ := scanPair_some scan
  obtain ⟨inside, name⟩ := findConfig_some found
  rw [word, List.take_of_length_le short.le] at isKey
  have equal := unique named inside (isKey.symm.trans name.symm)
  subst equal
  rw [Function.update_self]
  obtain rfl : value = secondWord line := isValue (word ▸ short.le)
  exact ⟨some_value, parsed⟩

/-! ## Integers -/

theorem isspace_of_isDigit {c : UInt8} (digit : Decimal.isDigit c = true) : isspace c = false := by
  unfold Decimal.isDigit at digit
  unfold isspace
  grind

theorem strtol_integer {s : Bytes} {n : Int} (some_bytes : s ≠ []) (clean : ∀ c ∈ s, isspace c = false)
    (read : strtol s = (n, [])) (low : longMin < n) (high : n < longMax) : integer s = some n := by
  have no_gap : s.dropWhile isspace = s := by
    obtain ⟨c, s, rfl⟩ := List.exists_cons_of_ne_nil some_bytes
    exact List.dropWhile_cons_of_neg (by simp [clean c List.mem_cons_self])
  unfold strtol at read
  rw [no_gap] at read
  unfold integer
  generalize takeSign s = parts at read ⊢
  obtain ⟨negative, t⟩ := parts
  simp only at read ⊢
  split at read
  · cases read
    exact absurd rfl some_bytes
  next some_digit =>
    obtain ⟨number, stop⟩ := Prod.mk.inj read
    have digits : ∀ c ∈ t, Decimal.isDigit c = true := List.dropWhile_eq_nil_iff.mp stop
    rw [List.takeWhile_eq_self_iff.mpr digits] at number some_digit
    rw [if_pos ⟨some_digit, List.all_eq_true.mpr digits⟩]
    -- The number was not clamped, as it lies inside the range.
    congr 1
    omega

theorem integer_clean {text : Bytes} {n : Int} (read : integer text = some n) : ∀ c ∈ text, isspace c = false := by
  unfold integer at read
  simp only at read
  split at read
  next number =>
    have digits : ∀ c ∈ (takeSign text).2, isspace c = false := fun c member =>
      isspace_of_isDigit (List.all_eq_true.mp number.2 c member)
    unfold takeSign at digits
    split at digits
    next minus =>
      obtain ⟨rest, rfl⟩ := List.head?_eq_some_iff.mp minus
      exact List.forall_mem_cons.mpr ⟨by decide, digits⟩
    · split at digits
      next plus =>
        obtain ⟨rest, rfl⟩ := List.head?_eq_some_iff.mp plus
        exact List.forall_mem_cons.mpr ⟨by decide, digits⟩
      · exact digits
  · cases read

/-! ## Settings -/

theorem configTable_type : ∀ entry ∈ configTable, entry.type = .int ∨ entry.type = .string := by
  decide

theorem configTable_long : ∀ entry ∈ configTable, longMin < entry.min ∧ entry.max < longMax := by
  decide

section Leaves
variable {entry : ConfigEntry} {piece : Bytes} {v : ConfigValue} (member : entry ∈ configTable)
  (leaves : entry.Leaves piece v)

include member leaves in
theorem ConfigEntry.Leaves.denotes : entry.denotes (secondWord piece) = some v := by
  obtain ⟨some_word, parsed⟩ := leaves
  rcases configTable_type entry member with int | string
  · obtain ⟨n, read, rfl, within⟩ := entry.parse_int parsed int
    obtain ⟨low, high⟩ := configTable_long entry member
    have clean : ∀ c ∈ secondWord piece, isspace c = false := fun c inside =>
      Fields.word_letters c (List.mem_of_mem_take inside)
    have stored : integer (secondWord piece) = some n :=
      strtol_integer some_word clean read (low.trans_le within.1) (within.2.trans_lt high)
    simp only [ConfigEntry.denotes, int, stored, Option.map_some]
  · unfold ConfigEntry.parse at parsed
    simp only [string, ↓reduceIte] at parsed
    cases parsed
    simp only [ConfigEntry.denotes, string]

include member leaves in
theorem ConfigEntry.Leaves.denotes_iff (text : Bytes) :
    entry.denotes text = some v ↔ entry.SameText (secondWord piece) text := by
  have stored := leaves.denotes member
  rw [← stored]
  rcases configTable_type entry member with int | string
  · simp only [ConfigEntry.denotes, int, Option.map_eq_some_iff] at stored
    obtain ⟨n, number, -⟩ := stored
    simp only [ConfigEntry.denotes, ConfigEntry.SameText, int, number, Option.map_some, Option.map_eq_some_iff,
      ConfigValue.int.injEq, exists_eq_right, true_and]
    constructor
    · intro means
      exact .inr means.symm
    · rintro (rfl | same)
      · exact number
      · exact same.symm
  · simp only [ConfigEntry.denotes, ConfigEntry.SameText, string, Option.some.injEq, ConfigValue.text.injEq,
      reduceCtorEq, false_and, or_false]
    exact eq_comm

include member leaves in
theorem ConfigEntry.Leaves.sameText_iff :
    entry.SameText (secondWord piece) (textBehind piece) ↔ entry.Kept (textBehind piece) := by
  rcases configTable_type entry member with int | string
  · have stored := leaves.denotes member
    simp only [ConfigEntry.denotes, int, Option.map_eq_some_iff] at stored
    obtain ⟨n, number, -⟩ := stored
    have cut : (∀ c ∈ textBehind piece, isspace c = false) → secondWord piece = (textBehind piece).take 255 := by
      intro letters
      rw [secondWord, Fields.word_eq_trim letters]
      rfl
    simp only [ConfigEntry.SameText, ConfigEntry.Kept, int, true_and]
    constructor
    · intro same
      have means : integer (textBehind piece) = some n := by
        rcases same with text | value
        · rw [← text, number]
        · rw [← value, number]
      have letters := integer_clean means
      exact ⟨letters, .inr (by rw [means, ← cut letters, number])⟩
    · rintro ⟨letters, short | same⟩
      · exact .inl ((cut letters).trans (List.take_of_length_le short))
      · exact .inr (by rw [same, ← cut letters])
  · simp only [ConfigEntry.SameText, ConfigEntry.Kept, string, reduceCtorEq, false_and, or_false]
    exact Fields.take_word_eq_trim

end Leaves

theorem firstPiece_names {settings next : Settings} {line : Bytes} {entry : ConfigEntry} (member : entry ∈ configTable)
    (names : namesKey entry.name line = true) (applied : applyLine settings (firstPiece line) = some next) :
    namesKey entry.name (firstPiece line) = true := by
  obtain ⟨⟨some_name, _, no_nul⟩, _⟩ := configTable_name entry member
  simp only [namesKey, Bool.and_eq_true, bne_iff_ne, beq_iff_eq] at names ⊢
  obtain ⟨no_comment, word⟩ := names
  have front := firstPiece_prefix line
  have counts : (firstPiece line).head? ≠ some 35 := by
    intro comment
    obtain ⟨rest, piece⟩ := List.head?_eq_some_iff.mp comment
    obtain ⟨tail, whole⟩ := front
    rw [piece] at whole
    exact no_comment (by rw [← whole]; rfl)
  refine ⟨counts, ?_⟩
  rcases applyLine_some applied with ⟨skip, _⟩ | ⟨_, key, value, named, v, scan, found, _, _⟩
  · -- A line whose first piece is empty begins with a NUL.
    have empty : firstPiece line = [] := by simpa [skipped, counts] using skip
    cases line with
    | nil => exact absurd word.symm some_name
    | cons c line =>
      have nul : c = 0 := by
        by_contra other
        simp [firstPiece, cString, configLineSize, other] at empty
      subst nul
      refine absurd ?_ no_nul
      rw [← word, Fields.word, List.dropWhile_cons_of_neg (by decide), List.takeWhile_cons_of_pos (by decide)]
      exact List.mem_cons_self
  · obtain ⟨isKey, some_value, isValue⟩ := scanPair_some scan
    obtain ⟨inside, name⟩ := findConfig_some found
    have short : (Fields.word isspace (firstPiece line)).length ≤ 255 := by
      rw [word_of_key inside (isKey.symm.trans name.symm)]
      exact (configTable_name named inside).1.2.1.le
    have more : Fields.behind isspace (firstPiece line) ≠ [] := by
      intro empty
      rw [isValue short, empty] at some_value
      exact some_value rfl
    rw [← Fields.word_of_prefix front more, word]

theorem lastPiece_isSome {allocated : Nat → Bool} {settings : Settings} {content : Bytes} {entry : ConfigEntry}
    (member : entry ∈ configTable) (loaded : (loadConfig allocated settings (some content)).rc = 0) {line : Bytes}
    (naming : lastNaming content entry.name = some line) : lastPiece content entry.name ≠ none := by
  obtain ⟨inside, names⟩ := List.mem_filter.mp (List.mem_of_getLast? naming)
  have some_bytes : line ≠ [] := by
    rintro rfl
    simp only [namesKey, Bool.and_eq_true, beq_iff_eq] at names
    exact (configTable_name entry member).1.1 names.2.symm
  have scanned := scannedPieces_line inside some_bytes
  obtain ⟨before, after, applied⟩ := Runs.run_taken (loadConfig_run loaded) scanned
  have piece := List.mem_filter.mpr ⟨scanned, firstPiece_names member names applied⟩
  unfold lastPiece
  rw [ne_eq, List.getLast?_eq_none_iff]
  exact List.ne_nil_of_mem piece

/-- If `load_config` returns 0, every integer setting is within its bounds, and a setting is what the file says exactly
if the pieces that were scanned say so. Where the lines of the file fit the buffer, that is the case exactly if the
text on the last line that names the setting is one word that keeps its meaning when it is cut. -/
theorem loadConfig_applied {allocated : Nat → Bool} {content : Bytes}
    (loaded : (loadConfig allocated masterConfigInit (some content)).rc = 0) :
    (loadConfig allocated masterConfigInit (some content)).settings.InBounds ∧
      ∀ entry ∈ configTable,
        (AppliedInFull content (loadConfig allocated masterConfigInit (some content)).settings entry ↔
          ScannedInFull content entry) ∧
        (Fits content →
          (AppliedInFull content (loadConfig allocated masterConfigInit (some content)).settings entry ↔
            ∀ line, lastNaming content entry.name = some line → entry.Kept (textBehind line))) := by
  refine ⟨loadConfig_inBounds loaded, fun entry member => ?_⟩
  have last := Runs.run_last (fun _ _ _ other taken => applyLine_other member other taken)
    (fun _ _ _ names taken => applyLine_named member names taken) (loadConfig_run loaded)
  have reached : ∀ line, lastNaming content entry.name = some line → lastPiece content entry.name ≠ none :=
    fun _ => lastPiece_isSome member loaded
  have same := fun fits : Fits content => fits.lastPiece (configTable_name entry member).1.1
  rw [show (((readLines configLineSize content).map stripNewline).filter fun piece =>
    namesKey entry.name piece).getLast? = lastPiece content entry.name from rfl] at last
  unfold AppliedInFull ScannedInFull
  generalize (loadConfig allocated masterConfigInit (some content)).settings = settings at last ⊢
  cases scanned : lastPiece content entry.name with
  | none =>
    have silent : lastNaming content entry.name = none :=
      Option.eq_none_iff_forall_ne_some.mpr fun line naming => reached line naming scanned
    rw [scanned] at last
    simp [silent, show settings entry.offset = masterConfigInit entry.offset from last]
  | some piece =>
    rw [scanned] at last same
    cases naming : lastNaming content entry.name with
    | none =>
      refine ⟨?_, fun fits => ?_⟩
      · have stored := last.denotes member
        simp only [forall_eq', reduceCtorEq, Option.mem_def, false_implies, implies_true, true_and, stored,
          Option.some.injEq, forall_const]
      · cases (same fits).trans naming
    | some line =>
      have exactly := last.denotes_iff member (textBehind line)
      refine ⟨?_, fun fits => ?_⟩
      · simp only [Option.mem_some_iff, forall_eq', reduceCtorEq, false_implies, and_true]
        exact exactly
      · cases (same fits).trans naming
        simp only [Option.some.injEq, forall_eq']
        exact exactly.trans (last.sameText_iff member)

def plainFile : Bytes := ascii "# ports\nport 8080\naof-path  /var/mr.aof\nport 8081\n"

/-- A NUL in a comment, and a port. -/
def nulCommentFile : Bytes := ascii "#" ++ 0 :: 10 :: ascii "port 80\n"

theorem loadConfig_applied_plain :
    (∀ content ∈ [plainFile, nulCommentFile],
      (loadConfig (fun _ => true) masterConfigInit (some content)).rc = 0 ∧ ∀ entry ∈ configTable,
        AppliedInFull content (loadConfig (fun _ => true) masterConfigInit (some content)).settings entry) ∧
      Fits plainFile ∧ ¬ Fits nulCommentFile := by
  have loaded : ∀ content ∈ [plainFile, nulCommentFile],
      (loadConfig (fun _ => true) masterConfigInit (some content)).rc = 0 := by
    decide +kernel
  have scanned : ∀ content ∈ [plainFile, nulCommentFile], ∀ entry ∈ configTable, ScannedInFull content entry := by
    decide +kernel
  have fits : Fits plainFile := ⟨by decide +kernel, by decide +kernel⟩
  refine ⟨fun content given => ⟨loaded content given, fun entry member => ?_⟩, fits, fun fits => ?_⟩
  · exact ((loadConfig_applied (loaded content given)).2 entry member).1.mpr (scanned content given entry member)
  · exact fits.no_nul (by decide)

def longPathFile : Bytes := ascii "aof-path " ++ (List.replicate 300 97 ++ [10])

/-- A comment that fills the buffer, with a port at its end. -/
def longCommentFile : Bytes := 35 :: (List.replicate 1022 97 ++ ascii "port 80\n")

/-- Both files are accepted. One leaves a path of 255 bytes, the other a port that no line sets. -/
theorem loadConfig_cut :
    ((loadConfig (fun _ => true) masterConfigInit (some longPathFile)).rc = 0 ∧
      (loadConfig (fun _ => true) masterConfigInit (some longPathFile)).settings .aofPath =
        .text (List.replicate 255 97) ∧
      ¬ AppliedInFull longPathFile (loadConfig (fun _ => true) masterConfigInit (some longPathFile)).settings
        ⟨ascii "aof-path", .string, .aofPath, 0, 0, []⟩) ∧
    ((loadConfig (fun _ => true) masterConfigInit (some longCommentFile)).rc = 0 ∧
      (loadConfig (fun _ => true) masterConfigInit (some longCommentFile)).settings .port = .int 80 ∧
      ¬ AppliedInFull longCommentFile (loadConfig (fun _ => true) masterConfigInit (some longCommentFile)).settings
        ⟨ascii "port", .int, .port, 1, 65535, []⟩) := by
  decide +kernel

end MapReduce
