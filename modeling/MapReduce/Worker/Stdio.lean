import MapReduce.Lib.BigEndian
import MapReduce.Lib.Decimal
import MapReduce.Lib.Program

/-! The C library as `worker_map.c` and `worker_reduce.c` use it.

A C string is the list of its bytes before the terminating NUL. A stream is
named by the path it was opened with. What `fopen` for reading answers is what
`fgets` will deliver before it stops at the end of the file or at an error, and
`ferror` tells the two apart. Allocation can fail as well, so it is a call.
-/

set_option autoImplicit false

namespace MapReduce

def ascii (literal : String) : Bytes := literal.toList.map fun c => UInt8.ofNat c.toNat

/-! ## Text -/

def cString (buffer : Bytes) : Bytes := buffer.takeWhile (· ≠ 0)

/-- What `fgets` stores for one line when there is room for that many bytes, and what it leaves. -/
def fgets : Nat → Bytes → Bytes × Bytes
  | 0, content => ([], content)
  | _ + 1, [] => ([], [])
  | room + 1, c :: content =>
    if c = 10 then ([c], content)
    else
      let (line, left) := fgets room content
      (c :: line, left)

/-- `while (fgets(line, size, f))`, where each round reads at least one byte. -/
def fgetsLoop (size : Nat) : Nat → Bytes → List Bytes
  | 0, _ => []
  | _ + 1, [] => []
  | fuel + 1, content =>
    let (line, left) := fgets (size - 1) content
    line :: fgetsLoop size fuel left

def readLines (size : Nat) (content : Bytes) : List Bytes := fgetsLoop size content.length content

theorem fgets_append (room : Nat) (content : Bytes) : (fgets room content).1 ++ (fgets room content).2 = content := by
  induction content generalizing room with
  | nil => cases room <;> rfl
  | cons c content ih =>
    cases room with
    | zero => rfl
    | succ room =>
      unfold fgets
      split
      · rfl
      · exact congrArg (c :: ·) (ih room)

theorem fgets_length (room : Nat) (content : Bytes) : (fgets room content).1.length ≤ room := by
  induction content generalizing room with
  | nil => cases room <;> simp [fgets]
  | cons c content ih =>
    cases room with
    | zero => simp [fgets]
    | succ room =>
      unfold fgets
      split
      · simp
      · simpa using ih room

theorem fgets_progress {room : Nat} (some_room : 1 ≤ room) {content : Bytes} (some_content : content ≠ []) :
    (fgets room content).1 ≠ [] := by
  obtain ⟨c, content, rfl⟩ := List.exists_cons_of_ne_nil some_content
  obtain ⟨more, rfl⟩ : ∃ more, room = more + 1 := ⟨room - 1, by omega⟩
  unfold fgets
  split <;> simp

theorem fgets_full {chunk : Bytes} (clean : 10 ∉ chunk) (rest : Bytes) :
    fgets chunk.length (chunk ++ rest) = (chunk, rest) := by
  induction chunk with
  | nil => cases rest <;> rfl
  | cons c chunk ih =>
    have other : c ≠ 10 := fun same => clean (by simp [same])
    have tail := ih fun member => clean (List.mem_cons_of_mem _ member)
    simp [fgets, other, tail]

theorem fgets_line {room : Nat} {line : Bytes} (fits : line.length < room) (clean : 10 ∉ line) (rest : Bytes) :
    fgets room (line ++ 10 :: rest) = (line ++ [10], rest) := by
  induction line generalizing room with
  | nil =>
    obtain ⟨more, rfl⟩ : ∃ more, room = more + 1 := ⟨room - 1, by simp at fits; omega⟩
    simp [fgets]
  | cons c line ih =>
    obtain ⟨more, rfl⟩ : ∃ more, room = more + 1 := ⟨room - 1, by simp at fits; omega⟩
    have other : c ≠ 10 := fun same => clean (by simp [same])
    have tail := ih (by simpa using fits) fun member => clean (List.mem_cons_of_mem _ member)
    simp [fgets, other, tail]

theorem fgets_last {room : Nat} {line : Bytes} (fits : line.length ≤ room) (clean : 10 ∉ line) :
    fgets room line = (line, []) := by
  induction line generalizing room with
  | nil => cases room <;> rfl
  | cons c line ih =>
    obtain ⟨more, rfl⟩ : ∃ more, room = more + 1 := ⟨room - 1, by simp at fits; omega⟩
    have other : c ≠ 10 := fun same => clean (by simp [same])
    have tail := ih (by simpa using fits) fun member => clean (List.mem_cons_of_mem _ member)
    simp [fgets, other, tail]

theorem fgets_left_lt {size : Nat} (room : 2 ≤ size) {content : Bytes} (some_content : content ≠ []) :
    (fgets (size - 1) content).2.length < content.length := by
  have lengths := congrArg List.length (fgets_append (size - 1) content)
  have progress := List.length_pos_of_ne_nil (fgets_progress (by omega : 1 ≤ size - 1) some_content)
  rw [List.length_append] at lengths
  omega

theorem fgetsLoop_fuel {size : Nat} (room : 2 ≤ size) {fuel : Nat} {content : Bytes}
    (enough : content.length ≤ fuel) : fgetsLoop size fuel content = readLines size content := by
  unfold readLines
  generalize length : content.length = exactly at enough
  induction exactly using Nat.strong_induction_on generalizing fuel content with
  | _ exactly ih =>
    cases content with
    | nil =>
      subst length
      cases fuel <;> rfl
    | cons c content =>
      have less := fgets_left_lt room (List.cons_ne_nil c content)
      rw [length] at less
      obtain ⟨rounds, rfl⟩ : ∃ rounds, fuel = rounds + 1 := ⟨fuel - 1, by omega⟩
      obtain ⟨more, rfl⟩ : ∃ more, exactly = more + 1 := ⟨exactly - 1, by omega⟩
      simp only [fgetsLoop]
      have first : fgetsLoop size rounds _ = _ := ih _ less rfl (by omega)
      have second : fgetsLoop size more _ = _ := ih _ less rfl (by omega)
      rw [first, second]

theorem readLines_cons {size : Nat} (room : 2 ≤ size) {content : Bytes} (some_content : content ≠ []) :
    readLines size content =
      (fgets (size - 1) content).1 :: readLines size (fgets (size - 1) content).2 := by
  obtain ⟨c, content, rfl⟩ := List.exists_cons_of_ne_nil some_content
  have less := fgets_left_lt room (List.cons_ne_nil c content)
  rw [← fgetsLoop_fuel room (Nat.le_of_lt_succ less)]
  rfl

theorem fgets_cut {room : Nat} {line : Bytes} (long : room ≤ line.length) (clean : 10 ∉ line) (rest : Bytes) :
    fgets room (line ++ rest) = (line.take room, line.drop room ++ rest) := by
  have full := fgets_full (fun member => clean (List.mem_of_mem_take member) : 10 ∉ line.take room)
    (line.drop room ++ rest)
  rwa [List.length_take, Nat.min_eq_left long, ← List.append_assoc, List.take_append_drop] at full

theorem readLines_suffix {size : Nat} (room : 2 ≤ size) {line : Bytes} (clean : 10 ∉ line) (rest : Bytes) :
    readLines size rest <:+ readLines size (line ++ 10 :: rest) := by
  generalize length : line.length = n
  induction n using Nat.strong_induction_on generalizing line with
  | _ n ih =>
    rw [readLines_cons room (show line ++ 10 :: rest ≠ [] by simp)]
    by_cases fits : line.length < size - 1
    · rw [fgets_line fits clean]
      exact List.suffix_cons _ _
    · have long := Nat.not_lt.mp fits
      rw [fgets_cut long clean]
      have shorter : (line.drop (size - 1)).length < n := by
        rw [List.length_drop]
        omega
      exact (ih _ shorter (fun member => clean (List.mem_of_mem_drop member)) rfl).trans (List.suffix_cons _ _)

theorem readLines_induction {size : Nat} (room : 2 ≤ size) {P : Bytes → List Bytes → Prop} (done : P [] [])
    (more : ∀ content, content ≠ [] → P (fgets (size - 1) content).2 (readLines size (fgets (size - 1) content).2) →
      P content ((fgets (size - 1) content).1 :: readLines size (fgets (size - 1) content).2))
    (content : Bytes) : P content (readLines size content) := by
  generalize length : content.length = n
  induction n using Nat.strong_induction_on generalizing content with
  | _ n ih =>
    by_cases empty : content = []
    · subst empty
      exact done
    · have less := fgets_left_lt room empty
      rw [readLines_cons room empty]
      exact more content empty (ih _ (length ▸ less) _ rfl)

theorem readLines_flatten {size : Nat} (room : 2 ≤ size) (content : Bytes) :
    (readLines size content).flatten = content := by
  induction content using readLines_induction room with
  | done => rfl
  | more content _ ih => rw [List.flatten_cons, ih, fgets_append]

theorem readLines_line {size : Nat} (room : 2 ≤ size) (content : Bytes) :
    ∀ line ∈ readLines size content, line ≠ [] ∧ line.length < size := by
  induction content using readLines_induction room with
  | done => simp
  | more content some_content ih =>
    intro line member
    rcases List.mem_cons.mp member with rfl | member
    · have bound := fgets_length (size - 1) content
      exact ⟨fgets_progress (by omega) some_content, by omega⟩
    · exact ih line member

/-- The token in front of the first delimiter, and what stands after it. -/
def strsep (delims : Bytes) : Bytes → Bytes × Option Bytes
  | [] => ([], none)
  | c :: s =>
    if c ∈ delims then ([], some s)
    else
      let (token, left) := strsep delims s
      (c :: token, left)

/-- `while ((tok = strsep(&p, delims)) != NULL)`. -/
def strsepLoop (delims : Bytes) : Nat → Bytes → List Bytes
  | 0, _ => []
  | fuel + 1, s =>
    match strsep delims s with
    | (token, none) => [token]
    | (token, some left) => token :: strsepLoop delims fuel left

def strsepAll (delims s : Bytes) : List Bytes := strsepLoop delims (s.length + 1) s

theorem strsep_token {delims s : Bytes} : ∀ b ∈ (strsep delims s).1, b ∉ delims := by
  induction s with
  | nil => simp [strsep]
  | cons c s ih =>
    unfold strsep
    split
    · simp
    next outside =>
      intro b member
      rcases List.mem_cons.mp member with rfl | member
      · exact outside
      · exact ih b member

theorem strsep_cut {delims token : Bytes} (clean : ∀ b ∈ token, b ∉ delims) {d : UInt8} (delim : d ∈ delims)
    (rest : Bytes) : strsep delims (token ++ d :: rest) = (token, some rest) := by
  induction token with
  | nil => simp [strsep, delim]
  | cons c token ih =>
    have tail := ih fun b member => clean b (List.mem_cons_of_mem _ member)
    simp [strsep, clean c List.mem_cons_self, tail]

theorem strsep_last {delims token : Bytes} (clean : ∀ b ∈ token, b ∉ delims) :
    strsep delims token = (token, none) := by
  induction token with
  | nil => rfl
  | cons c token ih =>
    have tail := ih fun b member => clean b (List.mem_cons_of_mem _ member)
    simp [strsep, clean c List.mem_cons_self, tail]

theorem strsep_cases (delims s : Bytes) :
    (∃ token d left, s = token ++ d :: left ∧ (∀ b ∈ token, b ∉ delims) ∧ d ∈ delims) ∨
      ∀ b ∈ s, b ∉ delims := by
  induction s with
  | nil => simp
  | cons c s ih =>
    by_cases delim : c ∈ delims
    · exact .inl ⟨[], c, s, rfl, by simp, delim⟩
    · rcases ih with ⟨token, d, left, rfl, clean, last⟩ | clean
      · exact .inl ⟨c :: token, d, left, rfl, by simpa [delim] using clean, last⟩
      · exact .inr (by simpa [delim] using clean)

theorem strsepLoop_token {delims : Bytes} {fuel : Nat} {s token : Bytes} (member : token ∈ strsepLoop delims fuel s) :
    ∀ b ∈ token, b ∉ delims := by
  induction fuel generalizing s with
  | zero => cases member
  | succ fuel ih =>
    have first := @strsep_token delims s
    unfold strsepLoop at member
    split at member
    next cut =>
      rw [cut] at first
      rw [List.mem_singleton.mp member]
      exact first
    next cut =>
      rw [cut] at first
      rcases List.mem_cons.mp member with rfl | member
      · exact first
      · exact ih member

/-- Bytes are compared as unsigned, and the terminating NUL is less than every other. -/
def strcmp : Bytes → Bytes → Ordering
  | [], [] => .eq
  | [], _ :: _ => .lt
  | _ :: _, [] => .gt
  | a :: s, b :: t => if a < b then .lt else if b < a then .gt else strcmp s t

theorem strcmp_eq_iff {s t : Bytes} : strcmp s t = .eq ↔ s = t := by
  induction s generalizing t with
  | nil => cases t <;> simp [strcmp]
  | cons a s ih =>
    cases t with
    | nil => simp [strcmp]
    | cons b t =>
      by_cases same : a = b
      · simp [strcmp, same, UInt8.lt_irrefl, ih]
      · rcases UInt8.lt_or_lt_of_ne same with below | above
        · simp [strcmp, same, below]
        · simp [strcmp, same, above, UInt8.lt_asymm above]

theorem strcmp_swap (s t : Bytes) : (strcmp s t).swap = strcmp t s := by
  induction s generalizing t with
  | nil => cases t <;> rfl
  | cons a s ih =>
    cases t with
    | nil => rfl
    | cons b t =>
      by_cases same : a = b
      · simp [strcmp, same, UInt8.lt_irrefl, ih]
      · rcases UInt8.lt_or_lt_of_ne same with below | above
        · simp [strcmp, below, UInt8.lt_asymm below]
        · simp [strcmp, above, UInt8.lt_asymm above]

theorem strcmp_antisymm {s t : Bytes} (le : strcmp s t ≠ .gt) (ge : strcmp t s ≠ .gt) : s = t := by
  rw [← strcmp_swap] at ge
  cases order : strcmp s t with
  | lt => exact absurd (by rw [order]; rfl) ge
  | eq => exact strcmp_eq_iff.mp order
  | gt => exact absurd order le

theorem strcmp_total (s t : Bytes) : strcmp s t ≠ .gt ∨ strcmp t s ≠ .gt := by
  rw [← strcmp_swap s t]
  cases strcmp s t <;> decide

theorem strcmp_cons_ne_gt {a b : UInt8} {s t : Bytes} :
    strcmp (a :: s) (b :: t) ≠ .gt ↔ a < b ∨ a = b ∧ strcmp s t ≠ .gt := by
  by_cases same : a = b
  · simp [strcmp, same, UInt8.lt_irrefl]
  · rcases UInt8.lt_or_lt_of_ne same with below | above
    · simp [strcmp, below]
    · simp [strcmp, same, above, UInt8.lt_asymm above]

theorem strcmp_trans {s t u : Bytes} (first : strcmp s t ≠ .gt) (second : strcmp t u ≠ .gt) : strcmp s u ≠ .gt := by
  induction s generalizing t u with
  | nil => cases u <;> simp [strcmp]
  | cons a s ih =>
    cases t with
    | nil => simp [strcmp] at first
    | cons b t =>
      cases u with
      | nil => simp [strcmp] at second
      | cons c u =>
        rw [strcmp_cons_ne_gt] at first second ⊢
        rcases first with below | ⟨rfl, rest⟩
        · rcases second with below' | ⟨rfl, _⟩
          · exact .inl (UInt8.lt_trans below below')
          · exact .inl below
        · rcases second with below' | ⟨rfl, rest'⟩
          · exact .inl below'
          · exact .inr ⟨rfl, ih rest rest'⟩

/-! ## Streams and files -/

inductive FileCall where
  | fopenRead (path : Bytes)
  | fopenWrite (path : Bytes)
  | fprintf (path text : Bytes)
  | ferror (path : Bytes)
  | fclose (path : Bytes)
  | rename (old new : Bytes)
  | alloc
  deriving DecidableEq, Repr

/-- For `ferror` the answer says whether the stream has failed, for the others whether the call succeeded. -/
abbrev FileCall.Answer : FileCall → Type
  | .fopenRead _ => Option Bytes
  | .fprintf _ _ => Unit
  | .fopenWrite _ | .ferror _ | .fclose _ | .rename _ _ | .alloc => Bool

abbrev files : Calls.Interface := ⟨FileCall, FileCall.Answer⟩

abbrev Proc := Calls.Program files

def fopenRead (path : Bytes) : Proc (Option Bytes) := Calls.perform (I := files) (.fopenRead path)

def fopenWrite (path : Bytes) : Proc Bool := Calls.perform (I := files) (.fopenWrite path)

def fprintf (path text : Bytes) : Proc Unit := Calls.perform (I := files) (.fprintf path text)

def ferror (path : Bytes) : Proc Bool := Calls.perform (I := files) (.ferror path)

def fclose (path : Bytes) : Proc Bool := Calls.perform (I := files) (.fclose path)

def rename (old new : Bytes) : Proc Bool := Calls.perform (I := files) (.rename old new)

def alloc : Proc Bool := Calls.perform (I := files) .alloc

abbrev Fs := Bytes → Option Bytes

/-- The file system when nothing fails that can succeed. -/
def Fs.serve : Calls.Handler files Fs
  | .fopenRead path, fs => (fs path, fs)
  | .fopenWrite path, fs => (true, Function.update fs path (some []))
  | .fprintf path text, fs => ((), Function.update fs path ((fs path).map (· ++ text)))
  | .ferror _, fs => (false, fs)
  | .fclose _, fs => (true, fs)
  | .rename old new, fs =>
    match fs old with
    | none => (false, fs)
    | some content => (true, Function.update (Function.update fs old none) new (some content))
  | .alloc, fs => (true, fs)

theorem exec_fopenRead (path : Bytes) (fs : Fs) : Calls.exec Fs.serve (fopenRead path) fs = some (fs path, fs) := rfl

theorem exec_fopenWrite (path : Bytes) (fs : Fs) :
    Calls.exec Fs.serve (fopenWrite path) fs = some (true, Function.update fs path (some [])) := rfl

theorem exec_fprintf (path text : Bytes) (fs : Fs) :
    Calls.exec Fs.serve (fprintf path text) fs = some ((), Function.update fs path ((fs path).map (· ++ text))) := rfl

theorem exec_ferror (path : Bytes) (fs : Fs) : Calls.exec Fs.serve (ferror path) fs = some (false, fs) := rfl

theorem exec_fclose (path : Bytes) (fs : Fs) : Calls.exec Fs.serve (fclose path) fs = some (true, fs) := rfl

theorem exec_alloc (fs : Fs) : Calls.exec Fs.serve alloc fs = some (true, fs) := rfl

theorem exec_rename {fs : Fs} {old new content : Bytes} (found : fs old = some content) :
    Calls.exec Fs.serve (rename old new) fs =
      some (true, Function.update (Function.update fs old none) new (some content)) := by
  change some (Fs.serve (.rename old new) fs) = _
  simp only [Fs.serve, found]

end MapReduce
