import MapReduce.Lib.Words
import MapReduce.Worker.Reduce
import Mathlib.Data.List.TakeWhile

/-! The text between the input files and the records of a reduce task.

`tokenize_file` reads a file in buffers and cuts each at the delimiters, and
`read_records_file` reads in buffers of the same size what `emit_word_count`
printed. Both agree with the text itself as long as no buffer ends inside a
word or a line.
-/

set_option autoImplicit false

namespace MapReduce

open Calls Words

theorem cString_eq {line : Bytes} (no_nul : 0 ∉ line) : cString line = line := by
  unfold cString
  rw [List.takeWhile_eq_self_iff]
  intro b member
  have nonzero : b ≠ 0 := fun zero => no_nul (zero ▸ member)
  simpa using nonzero

namespace WorkerMap

def isDelim (c : UInt8) : Bool := decide (c ∈ delims)

theorem isDelim_eq_false {c : UInt8} : isDelim c = false ↔ c ∉ delims := decide_eq_false_iff_not

/-! ## The tokens of a file -/

theorem strsepLoop_words {fuel : Nat} {s : Bytes} (enough : s.length < fuel) :
    (strsepLoop delims fuel s).filter (· ≠ []) = words isDelim s := by
  induction fuel generalizing s with
  | zero => omega
  | succ fuel ih =>
    unfold strsepLoop
    rcases strsep_cases delims s with ⟨token, d, left, rfl, clean, delim⟩ | clean
    · have letters : ∀ b ∈ token, isDelim b = false := fun b member => isDelim_eq_false.mpr (clean b member)
      have gap : isDelim d = true := decide_eq_true delim
      have shorter : left.length < fuel := by
        simp only [List.length_append, List.length_cons] at enough
        omega
      have tail := ih shorter
      simp only [strsep_cut clean delim]
      by_cases empty : token = []
      · subst empty
        rw [List.nil_append, words_cons_sep gap, ← tail]
        simp
      · rw [words_run empty letters (by simp [gap]), words_cons_sep gap, ← tail]
        simp [empty]
    · have letters : ∀ b ∈ s, isDelim b = false := fun b member => isDelim_eq_false.mpr (clean b member)
      simp only [strsep_last clean]
      by_cases empty : s = []
      · subst empty
        rfl
      · have alone := words_run empty letters opens_nil
        rw [List.append_nil] at alone
        rw [alone]
        simp [empty, words]

theorem lineTokens_eq {line : Bytes} (no_nul : 0 ∉ line) : lineTokens line = words isDelim line := by
  unfold lineTokens strsepAll
  rw [cString_eq no_nul]
  exact strsepLoop_words (Nat.lt_succ_self _)

theorem tokensOf_eq {content : Bytes} (no_nul : 0 ∉ content) :
    tokensOf content = (readLines lineMax content).flatMap (words isDelim) := by
  have lines := readLines_flatten (by decide : 2 ≤ lineMax) content
  unfold tokensOf
  apply List.flatMap_congr
  intro line member
  apply lineTokens_eq
  intro zero
  apply no_nul
  rw [← lines]
  exact List.mem_flatten.mpr ⟨line, member, zero⟩

/-- The tokens are the maximal runs of bytes that are no delimiters exactly when no
buffer ends inside such a run. -/
theorem tokensOf_maximalRuns {content : Bytes} (no_nul : 0 ∉ content) :
    MaximalRuns isDelim content (tokensOf content) ↔
      (readLines lineMax content).IsChain fun buffer next => ¬ Cuts isDelim buffer next := by
  have room : 2 ≤ lineMax := by decide
  have some_lines : ∀ line ∈ readLines lineMax content, line ≠ [] := by
    intro line member
    exact (readLines_line room content line member).1
  rw [maximalRuns_iff, tokensOf_eq no_nul, ← words_flatten_iff some_lines, readLines_flatten room]

theorem tokensOf_full {chunk : Bytes} (full : chunk.length = lineMax - 1) (clean : ∀ b ∈ chunk, b ≠ 0 ∧ b ∉ delims)
    (rest : Bytes) : tokensOf (chunk ++ rest) = chunk :: tokensOf rest := by
  have some_chunk : chunk ≠ [] := by
    intro empty
    rw [empty] at full
    cases full
  have no_newline : 10 ∉ chunk := fun member => (clean 10 member).2 (by decide)
  have no_nul : 0 ∉ chunk := fun member => (clean 0 member).1 rfl
  have letters : ∀ b ∈ chunk, isDelim b = false := fun b member => isDelim_eq_false.mpr (clean b member).2
  have buffer := fgets_full no_newline rest
  have word := words_run some_chunk letters opens_nil
  rw [full] at buffer
  rw [List.append_nil] at word
  unfold tokensOf
  rw [readLines_cons (by decide) (by simp [some_chunk]), buffer, List.flatMap_cons, lineTokens_eq no_nul, word]
  rfl

theorem tokensOf_short {word : Bytes} (some_word : word ≠ []) (short : word.length < lineMax)
    (clean : ∀ b ∈ word, b ≠ 0 ∧ b ∉ delims) : tokensOf word = [word] := by
  have no_newline : 10 ∉ word := fun member => (clean 10 member).2 (by decide)
  have no_nul : 0 ∉ word := fun member => (clean 0 member).1 rfl
  have letters : ∀ b ∈ word, isDelim b = false := fun b member => isDelim_eq_false.mpr (clean b member).2
  have whole := words_run some_word letters opens_nil
  rw [List.append_nil] at whole
  unfold tokensOf
  rw [readLines_cons (by decide) some_word, fgets_last (Nat.le_sub_one_of_lt short) no_newline,
    List.flatMap_cons, lineTokens_eq no_nul, whole]
  rfl

def longWord : Bytes := List.replicate (lineMax - 1) 97 ++ [97]

/-- One word that is a byte too long for the buffer is emitted as two tokens. -/
theorem tokensOf_longWord :
    0 ∉ longWord ∧ tokensOf longWord = [List.replicate (lineMax - 1) 97, [97]] ∧
      MaximalRuns isDelim longWord [longWord] ∧ ¬ MaximalRuns isDelim longWord (tokensOf longWord) := by
  have letters : ∀ b ∈ longWord, b = 97 := by
    intro b member
    rcases List.mem_append.mp member with member | member
    · exact List.eq_of_mem_replicate member
    · exact List.mem_singleton.mp member
  have clean : ∀ b ∈ longWord, b ≠ 0 ∧ b ∉ delims := by
    intro b member
    rw [letters b member]
    decide
  have runs : MaximalRuns isDelim longWord [longWord] := by
    rw [maximalRuns_iff]
    have whole := words_run (by simp [longWord])
      (fun b member => isDelim_eq_false.mpr (clean b member).2) opens_nil
    rw [List.append_nil] at whole
    exact whole.symm
  have tokens : tokensOf longWord = [List.replicate (lineMax - 1) 97, [97]] := by
    unfold longWord
    rw [tokensOf_full List.length_replicate fun b member => clean b (List.mem_append_left _ member),
      tokensOf_short (by simp) (by decide) fun b member => clean b (List.mem_append_right _ member)]
  have no_nul : 0 ∉ longWord := by
    intro member
    exact absurd rfl (clean 0 member).1
  refine ⟨no_nul, tokens, runs, ?_⟩
  intro again
  have two := congrArg List.length (again.words_eq.symm.trans runs.words_eq)
  rw [tokens] at two
  simp at two

theorem tokensOf_maximalRuns_lines :
    MaximalRuns isDelim (ascii "to be\n\tor not\r\n") (tokensOf (ascii "to be\n\tor not\r\n")) :=
  (tokensOf_maximalRuns (by decide)).mpr (by decide)

/-! ## What can be a token -/

structure Emittable (token : Bytes) : Prop where
  some_bytes : token ≠ []
  short : token.length < lineMax
  clean : ∀ b ∈ token, b ≠ 0 ∧ b ∉ delims

theorem strsepLoop_infix {fuel : Nat} {s token : Bytes} (member : token ∈ strsepLoop delims fuel s) :
    token <:+: s := by
  induction fuel generalizing s with
  | zero => cases member
  | succ fuel ih =>
    unfold strsepLoop at member
    rcases strsep_cases delims s with ⟨first, d, left, rfl, clean, delim⟩ | clean
    · simp only [strsep_cut clean delim, List.mem_cons] at member
      rcases member with rfl | member
      · exact (List.prefix_append _ _).isInfix
      · exact (ih member).trans ((List.suffix_cons d left).trans (List.suffix_append first _)).isInfix
    · simp only [strsep_last clean, List.mem_singleton] at member
      rw [member]

theorem emittable_iff {token : Bytes} : Emittable token ↔ ∃ content, token ∈ tokensOf content := by
  constructor
  · intro emittable
    refine ⟨token, ?_⟩
    rw [tokensOf_short emittable.some_bytes emittable.short emittable.clean]
    exact List.mem_singleton_self token
  · rintro ⟨content, member⟩
    have delimited := token_clean member
    obtain ⟨line, read, member⟩ := List.mem_flatMap.mp member
    obtain ⟨cut, some_bytes⟩ := List.mem_filter.mp member
    have inside := strsepLoop_infix cut
    have bound := (readLines_line (by decide) content line read).2
    have stored : cString line <+: line := List.takeWhile_prefix _
    refine ⟨of_decide_eq_true some_bytes, ?_, ?_⟩
    · exact Nat.lt_of_le_of_lt (Nat.le_trans inside.length_le stored.length_le) bound
    · intro b within
      have nonzero := List.mem_takeWhile_imp (inside.subset within)
      exact ⟨of_decide_eq_true nonzero, delimited b within⟩

end WorkerMap

namespace WorkerReduce

open WorkerMap (Emittable emitWordCount)

/-! ## Records read back from a file of tokens -/

theorem no_tab_clean {key : Bytes} (no_tab : 9 ∉ key) : ∀ b ∈ key, b ∉ ascii "\t" := by
  have tab : ascii "\t" = [9] := by decide
  intro b member delim
  rw [tab, List.mem_singleton] at delim
  exact no_tab (delim ▸ member)

theorem parseLine_record {key value : Bytes} (some_key : key ≠ []) (no_tab : 9 ∉ key) (no_nul : 0 ∉ key ++ 9 :: value) :
    parseLine (key ++ 9 :: value) = some ⟨key, (strsep (ascii "\n") value).1⟩ := by
  unfold parseLine
  rw [cString_eq no_nul, strsep_cut (no_tab_clean no_tab) (by decide)]
  simp [some_key]

theorem parseLine_no_tab {line : Bytes} (no_tab : 9 ∉ line) (no_nul : 0 ∉ line) : parseLine line = none := by
  unfold parseLine
  rw [cString_eq no_nul, strsep_last (no_tab_clean no_tab)]

theorem recordsOf_cons {content line left : Bytes} (some_content : content ≠ [])
    (read : fgets (lineMax - 1) content = (line, left)) :
    recordsOf content = (parseLine line).toList ++ recordsOf left := by
  unfold recordsOf
  rw [readLines_cons (by decide) some_content, read, List.filterMap_cons]
  cases parseLine line <;> rfl

theorem recordsOf_line {line : Bytes} (fits : line.length + 1 < lineMax) (no_newline : 10 ∉ line) (rest : Bytes) :
    recordsOf (line ++ 10 :: rest) = (parseLine (line ++ [10])).toList ++ recordsOf rest :=
  recordsOf_cons (by simp) (fgets_line (Nat.lt_sub_of_add_lt fits) no_newline rest)

theorem recordsOf_full {chunk : Bytes} (full : chunk.length + 1 = lineMax) (no_newline : 10 ∉ chunk) (rest : Bytes) :
    recordsOf (chunk ++ rest) = (parseLine chunk).toList ++ recordsOf rest := by
  have size : chunk.length = lineMax - 1 := by omega
  have some_chunk : chunk ≠ [] := by
    intro empty
    rw [empty] at size
    cases size
  apply recordsOf_cons (by simp [some_chunk])
  rw [← size]
  exact fgets_full no_newline rest

/-- What the reader makes of the line for one token. The buffer holds the whole line
up to its newline, or loses the value, or even the tab. -/
def readBack (token : Bytes) : List Record :=
  if token.length + 3 ≤ lineMax then [⟨token, ascii "1"⟩]
  else if token.length + 2 = lineMax then [⟨token, []⟩]
  else []

theorem readBack_length (token : Bytes) : (readBack token).length ≤ 1 := by
  unfold readBack
  split
  · exact Nat.le_refl _
  · split <;> simp

section Token

variable {token : Bytes} (emittable : Emittable token)

include emittable

theorem token_no_newline : 10 ∉ token := fun member => (emittable.clean 10 member).2 (by decide)

theorem token_no_tab : 9 ∉ token := fun member => (emittable.clean 9 member).2 (by decide)

theorem token_no_nul : 0 ∉ token := fun member => (emittable.clean 0 member).1 rfl

theorem parseLine_token {value : Bytes} (no_nul : 0 ∉ value) :
    parseLine (token ++ 9 :: value) = some ⟨token, (strsep (ascii "\n") value).1⟩ := by
  apply parseLine_record emittable.some_bytes (token_no_tab emittable)
  simp [token_no_nul emittable, no_nul]

/-- The line of one token, in front of anything. The cases are where the buffer ends. -/
theorem recordsOf_token (rest : Bytes) :
    recordsOf (token ++ 9 :: 49 :: 10 :: rest) = readBack token ++ recordsOf rest := by
  have no_newline := token_no_newline emittable
  have short : token.length < lineMax := emittable.short
  unfold readBack
  by_cases whole : token.length + 3 < lineMax
  · have line : (token ++ [9, 49]).length + 1 < lineMax := by simpa using whole
    have read := recordsOf_line line (by simp [no_newline]) rest
    have parsed := parseLine_token emittable (by decide : (0 : UInt8) ∉ [49, 10])
    simp only [List.append_assoc, List.cons_append, List.nil_append] at read
    rw [read, parsed, if_pos (by omega)]
    rfl
  by_cases newline : token.length + 3 = lineMax
  · have full : (token ++ [9, 49]).length + 1 = lineMax := by simpa using newline
    have read := recordsOf_full full (by simp [no_newline]) (10 :: rest)
    have left := recordsOf_line (by decide : ([] : Bytes).length + 1 < lineMax) (by decide) rest
    have parsed := parseLine_token emittable (by decide : (0 : UInt8) ∉ [49])
    simp only [List.append_assoc, List.cons_append, List.nil_append] at read left
    rw [read, left, parsed, if_pos (by omega)]
    rfl
  by_cases value : token.length + 2 = lineMax
  · have full : (token ++ [9]).length + 1 = lineMax := by simpa using value
    have read := recordsOf_full full (by simp [no_newline]) (49 :: 10 :: rest)
    have left := recordsOf_line (by decide : ([49] : Bytes).length + 1 < lineMax) (by decide) rest
    have parsed := parseLine_token emittable (by decide : (0 : UInt8) ∉ [])
    simp only [List.append_assoc, List.cons_append, List.nil_append] at read left
    rw [read, left, parsed, if_neg (by omega), if_pos value]
    rfl
  · have full : token.length + 1 = lineMax := by omega
    have read := recordsOf_full full no_newline (9 :: 49 :: 10 :: rest)
    have left := recordsOf_line (by decide : ([9, 49] : Bytes).length + 1 < lineMax) (by decide) rest
    have parsed := parseLine_no_tab (token_no_tab emittable) (token_no_nul emittable)
    simp only [List.cons_append, List.nil_append] at left
    rw [read, left, parsed, if_neg (by omega), if_neg value]
    rfl

end Token

theorem recordsOf_tokens {tokens : List Bytes} (emittable : ∀ token ∈ tokens, Emittable token) (nReduce : Nat) :
    recordsOf (tokens.flatMap fun token => (emitWordCount nReduce token).2) = tokens.flatMap readBack := by
  induction tokens with
  | nil => rfl
  | cons token tokens ih =>
    have line : (emitWordCount nReduce token).2 = token ++ [9, 49, 10] := rfl
    have tail := ih fun other member => emittable other (List.mem_cons_of_mem _ member)
    have first := recordsOf_token (emittable token List.mem_cons_self)
    rw [List.flatMap_cons, List.flatMap_cons, line, List.append_assoc, ← tail]
    exact first _

theorem readBack_tokens_length (tokens : List Bytes) : (tokens.flatMap readBack).length ≤ tokens.length := by
  induction tokens with
  | nil => exact Nat.le_refl _
  | cons token tokens ih =>
    have one := readBack_length token
    rw [List.flatMap_cons, List.length_append, List.length_cons]
    omega

theorem readBack_eq_iff {tokens : List Bytes} :
    tokens.flatMap readBack = tokens.map (⟨·, ascii "1"⟩) ↔ ∀ token ∈ tokens, token.length + 3 ≤ lineMax := by
  induction tokens with
  | nil => simp
  | cons token tokens ih =>
    rw [List.flatMap_cons, List.map_cons, List.forall_mem_cons, ← ih]
    constructor
    · intro same
      by_cases fits : token.length + 3 ≤ lineMax
      · refine ⟨fits, ?_⟩
        rw [readBack, if_pos fits] at same
        exact (List.cons.inj same).2
      · exfalso
        rw [readBack, if_neg fits] at same
        split at same
        · -- the value was cut off
          have values := congrArg (fun records => records.map Record.value) same
          simp at values
          exact absurd values.1 (by decide)
        · -- the record is missing, and no other line gives two
          have fewer := readBack_tokens_length tokens
          have lengths := congrArg List.length same
          rw [List.nil_append, List.length_cons, List.length_map] at lengths
          omega
    · rintro ⟨fits, same⟩
      rw [readBack, if_pos fits, same]
      rfl

/-- Reading the file of a list of tokens gives them back with value `1` exactly when
every line fits in the reader's buffer, the newline apart. -/
theorem readRecordsFile_tokens {tokens : List Bytes} (emittable : ∀ token ∈ tokens, Emittable token)
    (nReduce : Nat) {path : Bytes} {fs : Fs}
    (stored : fs path = some (tokens.flatMap fun token => (emitWordCount nReduce token).2)) :
    exec Fs.serve (readRecordsFile path []) fs = some ((true, tokens.map (⟨·, ascii "1"⟩)), fs) ↔
      ∀ token ∈ tokens, token.length ≤ 8189 := by
  have read := readRecordsFile_exec [] stored
  have fits : (∀ token ∈ tokens, token.length + 3 ≤ lineMax) ↔ ∀ token ∈ tokens, token.length ≤ 8189 := by
    simp [lineMax]
  rw [recordsOf_tokens emittable, List.nil_append] at read
  rw [read, ← fits, ← readBack_eq_iff]
  simp

def oneToken (n : Nat) : Fs := fun _ => some ((emitWordCount 1 (List.replicate n 97)).2)

theorem emittable_replicate {n : Nat} (some_bytes : 1 ≤ n) (short : n < WorkerMap.lineMax) :
    Emittable (List.replicate n 97) where
  some_bytes := by
    rw [Ne, List.replicate_eq_nil_iff]
    omega
  short := by rwa [List.length_replicate]
  clean b member := by
    rw [List.eq_of_mem_replicate member]
    decide

theorem oneToken_read {n : Nat} (some_bytes : 1 ≤ n) (short : n < WorkerMap.lineMax) (path : Bytes) :
    exec Fs.serve (readRecordsFile path []) (oneToken n) =
      some ((true, readBack (List.replicate n 97)), oneToken n) := by
  have stored : oneToken n path = some ([List.replicate n 97].flatMap fun token => (emitWordCount 1 token).2) := by
    simp [oneToken]
  have emittable : ∀ token ∈ [List.replicate n 97], Emittable token := by
    intro token member
    rw [List.mem_singleton.mp member]
    exact emittable_replicate some_bytes short
  rw [readRecordsFile_exec [] stored, recordsOf_tokens emittable]
  simp

/-- The value of a token of 8190 bytes is read as empty, and a token of 8191 bytes is lost. -/
theorem readRecordsFile_long_tokens :
    (Emittable (List.replicate 8190 97) ∧
      exec Fs.serve (readRecordsFile (ascii "intermediate/mr-0-0") []) (oneToken 8190) =
        some ((true, [⟨List.replicate 8190 97, []⟩]), oneToken 8190)) ∧
    (Emittable (List.replicate 8191 97) ∧
      exec Fs.serve (readRecordsFile (ascii "intermediate/mr-0-0") []) (oneToken 8191) =
        some ((true, []), oneToken 8191)) := by
  refine ⟨⟨emittable_replicate (by decide) (by decide), ?_⟩, emittable_replicate (by decide) (by decide), ?_⟩
  · rw [oneToken_read (by decide) (by decide), readBack, List.length_replicate, if_neg (by decide),
      if_pos (by decide)]
  · rw [oneToken_read (by decide) (by decide), readBack, List.length_replicate, if_neg (by decide),
      if_neg (by decide)]

def twoTokens : Fs := fun _ => some (ascii "to\t1\nbe\t1\n")

theorem readRecordsFile_twoTokens :
    exec Fs.serve (readRecordsFile (ascii "intermediate/mr-0-0") []) twoTokens =
      some ((true, [⟨ascii "to", ascii "1"⟩, ⟨ascii "be", ascii "1"⟩]), twoTokens) := by
  have clean : ∀ token : Bytes, (token.all fun b => decide (b ≠ 0 ∧ b ∉ WorkerMap.delims)) = true →
      ∀ b ∈ token, b ≠ 0 ∧ b ∉ WorkerMap.delims :=
    fun _ all b member => of_decide_eq_true (List.all_eq_true.mp all b member)
  have emittable : ∀ token ∈ [ascii "to", ascii "be"], Emittable token := by
    intro token member
    rcases List.mem_pair.mp member with rfl | rfl
    · exact ⟨by decide, by decide, clean _ (by decide)⟩
    · exact ⟨by decide, by decide, clean _ (by decide)⟩
  have stored : twoTokens (ascii "intermediate/mr-0-0") =
      some ([ascii "to", ascii "be"].flatMap fun token => (emitWordCount 1 token).2) := by decide
  exact (readRecordsFile_tokens emittable 1 stored).mpr (by decide)

end WorkerReduce

end MapReduce
