import MapReduce.Job
import MapReduce.Lib.Runs
import MapReduce.Worker.Stdio

/-! `config.c`: the table of settings and the loop over the lines of a configuration file.

An entry of the table is written through a pointer of the type the entry names,
so a setting is a value of one of three kinds. The file comes in the pieces that
`fgets` stores, and it is pieces that are numbered, skipped and scanned.
-/

set_option autoImplicit false

namespace MapReduce

/-! ## The table -/

inductive ConfigType where
  | int
  | bool
  | enum
  | string
  deriving DecidableEq, Repr

/-- The members of `master_config_t`, for their offsets. -/
inductive ConfigField where
  | port
  | tcpBacklog
  | hz
  | clientTimeoutS
  | nReduce
  | taskTimeoutMs
  | inputDir
  | aofPath
  deriving DecidableEq, Repr

inductive ConfigValue where
  | int (value : Int)
  | bool (value : Bool)
  | text (value : Bytes)
  deriving DecidableEq, Repr

structure ConfigEntry where
  name : Bytes
  type : ConfigType
  offset : ConfigField
  min : Int
  max : Int
  enumValues : List Bytes
  deriving DecidableEq, Repr

def configTable : List ConfigEntry :=
  [⟨ascii "port", .int, .port, 1, 65535, []⟩,
    ⟨ascii "tcp-backlog", .int, .tcpBacklog, 1, 65535, []⟩,
    ⟨ascii "hz", .int, .hz, 1, 500, []⟩,
    ⟨ascii "client-timeout", .int, .clientTimeoutS, 0, 86400, []⟩,
    ⟨ascii "n-reduce", .int, .nReduce, 1, maxReduceTasks, []⟩,
    ⟨ascii "task-timeout-ms", .int, .taskTimeoutMs, 100, 600000, []⟩,
    ⟨ascii "input-dir", .string, .inputDir, 0, 0, []⟩,
    ⟨ascii "aof-path", .string, .aofPath, 0, 0, []⟩]

abbrev Settings := ConfigField → ConfigValue

def masterConfigInit : Settings
  | .port => .int 9999
  | .tcpBacklog => .int 511
  | .hz => .int 10
  | .clientTimeoutS => .int 300
  | .nReduce => .int 4
  | .taskTimeoutMs => .int 10000
  | .inputDir => .text (ascii "./input")
  | .aofPath => .text (ascii "./mr.aof")

def findConfig (name : Bytes) : Option ConfigEntry := configTable.find? fun entry => strcmp entry.name name = .eq

/-! ## Values -/

/-- In the C locale. -/
def isspace (c : UInt8) : Bool := c == 32 || (9 ≤ c && c ≤ 13)

def takeSign (s : Bytes) : Bool × Bytes :=
  if s.head? = some 45 then (true, s.tail) else if s.head? = some 43 then (false, s.tail) else (false, s)

def signed (negative : Bool) (n : Nat) : Int := if negative then -n else n

def longMin : Int := -2 ^ 63

def longMax : Int := 2 ^ 63 - 1

/-- `strtol` to base ten: the number, and where it ends. -/
def strtol (s : Bytes) : Int × Bytes :=
  let (negative, t) := takeSign (s.dropWhile isspace)
  let digits := t.takeWhile Decimal.isDigit
  if digits = [] then (0, s)
  else (max longMin (min longMax (signed negative (Decimal.value digits))), t.dropWhile Decimal.isDigit)

/-- Why `apply_config` returns -1, with what it prints. -/
inductive ConfigReason where
  | expectsInteger (name value : Bytes)
  | outOfRange (name : Bytes) (min max got : Int)
  | expectsYesNo (name value : Bytes)
  | outOfMemory (name : Bytes)
  | notOneOf (name value : Bytes) (expected : List Bytes)
  deriving DecidableEq, Repr

/-- The value `apply_config` stores; `allocated` is whether `strdup` gets memory. -/
def ConfigEntry.parse (entry : ConfigEntry) (allocated : Bool) (value : Bytes) : Except ConfigReason ConfigValue :=
  match entry.type with
  | .int =>
    let (val, rest) := strtol value
    if rest ≠ [] then .error (.expectsInteger entry.name value)
    else if val < entry.min ∨ val > entry.max then .error (.outOfRange entry.name entry.min entry.max val)
    else .ok (.int val)
  | .bool =>
    if strcmp value (ascii "yes") = .eq then .ok (.bool true)
    else if strcmp value (ascii "no") = .eq then .ok (.bool false)
    else .error (.expectsYesNo entry.name value)
  | .string => if allocated then .ok (.text value) else .error (.outOfMemory entry.name)
  | .enum =>
    match entry.enumValues.findIdx? fun expected => strcmp expected value = .eq with
    | some i => .ok (.int i)
    | none => .error (.notOneOf entry.name value entry.enumValues)

def applyConfig (allocated : Bool) (entry : ConfigEntry) (value : Bytes) (settings : Settings) :
    Except ConfigReason Settings :=
  (entry.parse allocated value).map (Function.update settings entry.offset)

/-! ## Lines -/

/-- `%255s`: the word that is stored, and what is left of the string. -/
def scanString (width : Nat) (s : Bytes) : Option (Bytes × Bytes) :=
  let s := s.dropWhile isspace
  if s = [] then none
  else
    let word := (s.takeWhile fun c => !isspace c).take width
    some (word, s.drop word.length)

/-- `sscanf(line, "%255s %255s", key, value)` when it stores both. -/
def scanPair (line : Bytes) : Option (Bytes × Bytes) := do
  let (key, rest) ← scanString 255 line
  let (value, _) ← scanString 255 (rest.dropWhile isspace)
  return (key, value)

/-- `char line[1024]`. -/
def configLineSize : Nat := 1024

def stripNewline (piece : Bytes) : Bytes :=
  let line := cString piece
  if line.getLast? = some 10 then line.dropLast else line

def skipped (line : Bytes) : Bool := line == [] || line.head? == some 35

inductive ConfigError where
  | malformed (lineno : Nat) (line : Bytes)
  | unknownKey (key : Bytes) (lineno : Nat)
  | rejected (reason : ConfigReason) (lineno : Nat) (line : Bytes)
  deriving DecidableEq, Repr

structure Loading where
  settings : Settings
  errors : List ConfigError

/-- One round of the loop. An error is counted, and the loop goes on. -/
def loadLine (allocated : Bool) (lineno : Nat) (piece : Bytes) (s : Loading) : Loading :=
  let line := stripNewline piece
  if skipped line then s
  else match scanPair line with
    | none => { s with errors := s.errors ++ [.malformed lineno line] }
    | some (key, value) =>
      match findConfig key with
      | none => { s with errors := s.errors ++ [.unknownKey key lineno] }
      | some entry =>
        match applyConfig allocated entry value s.settings with
        | .error reason => { s with errors := s.errors ++ [.rejected reason lineno line] }
        | .ok settings => { s with settings := settings }

def loadLines (allocated : Nat → Bool) : Nat → List Bytes → Loading → Loading
  | _, [], s => s
  | lineno, piece :: pieces, s =>
    loadLines allocated (lineno + 1) pieces (loadLine (allocated (lineno + 1)) (lineno + 1) piece s)

structure Loaded where
  rc : Int
  settings : Settings
  errors : List ConfigError

/-- `load_config`, on what `fopen` answers; `allocated` is whether `strdup` gets memory at a line. -/
def loadConfig (allocated : Nat → Bool) (settings : Settings) : Option Bytes → Loaded
  | none => ⟨-1, settings, []⟩
  | some content =>
    let s := loadLines allocated 0 (readLines configLineSize content) ⟨settings, []⟩
    ⟨if s.errors.length > 0 then -1 else 0, s.settings, s.errors⟩

/-! ## Files without errors -/

/-- What a line does to the settings if nothing is reported. -/
def applyLine (settings : Settings) (line : Bytes) : Option Settings :=
  if skipped line then some settings
  else do
    let (key, value) ← scanPair line
    let entry ← findConfig key
    let value ← (entry.parse true value).toOption
    return Function.update settings entry.offset value

theorem ConfigEntry.parse_ok {entry : ConfigEntry} {allocated : Bool} {value : Bytes} {v : ConfigValue}
    (parsed : entry.parse allocated value = .ok v) : entry.parse true value = .ok v := by
  unfold ConfigEntry.parse at parsed ⊢
  cases type : entry.type with
  | string =>
    simp only [type] at parsed ⊢
    split at parsed
    · exact parsed
    · cases parsed
  | _ =>
    simp only [type] at parsed ⊢
    exact parsed

theorem loadLine_clean {allocated : Bool} {lineno : Nat} {piece : Bytes} {s : Loading}
    (clean : (loadLine allocated lineno piece s).errors = []) :
    s.errors = [] ∧ applyLine s.settings (stripNewline piece) = some (loadLine allocated lineno piece s).settings := by
  unfold loadLine at clean ⊢
  unfold applyLine
  generalize stripNewline piece = line at clean ⊢
  by_cases skip : skipped line
  · simp only [skip, ↓reduceIte] at clean ⊢
    exact ⟨clean, trivial⟩
  cases scan : scanPair line with
  | none => simp [skip, scan] at clean
  | some pair =>
    cases found : findConfig pair.1 with
    | none => simp [skip, scan, found] at clean
    | some entry =>
      cases parsed : entry.parse allocated pair.2 with
      | error reason => simp [skip, scan, found, applyConfig, parsed, Except.map] at clean
      | ok value =>
        simp only [skip, scan, found, applyConfig, parsed, Except.map] at clean ⊢
        refine ⟨clean, ?_⟩
        simp [entry.parse_ok parsed, found, Except.toOption]

theorem loadLines_clean {allocated : Nat → Bool} {lineno : Nat} {pieces : List Bytes} {s : Loading}
    (clean : (loadLines allocated lineno pieces s).errors = []) :
    s.errors = [] ∧
      Runs.run applyLine s.settings (pieces.map stripNewline) = some (loadLines allocated lineno pieces s).settings := by
  induction pieces generalizing lineno s with
  | nil => exact ⟨clean, rfl⟩
  | cons piece pieces ih =>
    obtain ⟨before, rest⟩ := ih clean
    obtain ⟨start, applied⟩ := loadLine_clean before
    exact ⟨start, Runs.run_cons.mpr ⟨_, applied, rest⟩⟩

theorem loadConfig_run {allocated : Nat → Bool} {settings : Settings} {content : Bytes}
    (loaded : (loadConfig allocated settings (some content)).rc = 0) :
    Runs.run applyLine settings ((readLines configLineSize content).map stripNewline) =
      some (loadConfig allocated settings (some content)).settings := by
  have clean : (loadLines allocated 0 (readLines configLineSize content) ⟨settings, []⟩).errors = [] := by
    unfold loadConfig at loaded
    simp only at loaded
    split at loaded
    · cases loaded
    next none => exact List.eq_nil_of_length_eq_zero (by omega)
  exact (loadLines_clean clean).2

theorem findConfig_some {name : Bytes} {entry : ConfigEntry} (found : findConfig name = some entry) :
    entry ∈ configTable ∧ entry.name = name := by
  unfold findConfig at found
  refine ⟨List.mem_of_find?_eq_some found, strcmp_eq_iff.mp ?_⟩
  simpa using List.find?_some found

theorem configTable_offset :
    ∀ entry ∈ configTable, ∀ other ∈ configTable, entry.offset = other.offset → entry = other := by
  decide

theorem applyLine_some {settings next : Settings} {line : Bytes} (applied : applyLine settings line = some next) :
    (skipped line ∧ next = settings) ∨
      skipped line = false ∧ ∃ key value entry v, scanPair line = some (key, value) ∧ findConfig key = some entry ∧
        entry.parse true value = .ok v ∧ next = Function.update settings entry.offset v := by
  unfold applyLine at applied
  split at applied
  next skip =>
    cases applied
    exact .inl ⟨skip, rfl⟩
  next counts =>
    obtain ⟨⟨key, value⟩, scan, applied⟩ := Option.bind_eq_some_iff.mp applied
    obtain ⟨entry, found, applied⟩ := Option.bind_eq_some_iff.mp applied
    obtain ⟨v, parsed, applied⟩ := Option.bind_eq_some_iff.mp applied
    cases stored : entry.parse true value with
    | error reason =>
      rw [stored] at parsed
      cases parsed
    | ok w =>
      rw [stored] at parsed
      cases parsed
      exact .inr ⟨by simpa using counts, key, value, entry, v, scan, found, stored, (Option.some.inj applied).symm⟩

/-! ## Bounds -/

def ConfigEntry.Within (entry : ConfigEntry) : ConfigValue → Prop
  | .int n => entry.min ≤ n ∧ n ≤ entry.max
  | _ => False

instance (entry : ConfigEntry) : (v : ConfigValue) → Decidable (entry.Within v)
  | .int n => inferInstanceAs (Decidable (entry.min ≤ n ∧ n ≤ entry.max))
  | .bool _ => .isFalse id
  | .text _ => .isFalse id

def Settings.InBounds (settings : Settings) : Prop :=
  ∀ entry ∈ configTable, entry.type = .int → entry.Within (settings entry.offset)

theorem masterConfigInit_inBounds : Settings.InBounds masterConfigInit := by
  unfold Settings.InBounds
  decide

theorem ConfigEntry.parse_int {entry : ConfigEntry} {allocated : Bool} {value : Bytes} {v : ConfigValue}
    (parsed : entry.parse allocated value = .ok v) (int : entry.type = .int) :
    ∃ n, strtol value = (n, []) ∧ v = .int n ∧ entry.Within v := by
  unfold ConfigEntry.parse at parsed
  simp only [int] at parsed
  split at parsed
  · cases parsed
  next whole =>
    split at parsed
    · cases parsed
    next inside =>
      cases parsed
      rw [not_or, not_lt, not_lt] at inside
      exact ⟨(strtol value).1, Prod.ext rfl (not_not.mp whole), rfl, inside⟩

theorem applyLine_inBounds {settings next : Settings} {line : Bytes} (bounds : settings.InBounds)
    (applied : applyLine settings line = some next) : next.InBounds := by
  rcases applyLine_some applied with ⟨_, rfl⟩ | ⟨_, key, value, entry, v, _, found, parsed, rfl⟩
  · exact bounds
  intro other member int
  by_cases same : other = entry
  · subst same
    obtain ⟨n, _, _, within⟩ := other.parse_int parsed int
    rwa [Function.update_self]
  · have apart : other.offset ≠ entry.offset := fun equal =>
      same (configTable_offset other member entry (findConfig_some found).1 equal)
    rw [Function.update_of_ne apart]
    exact bounds other member int

theorem loadConfig_inBounds {allocated : Nat → Bool} {content : Bytes}
    (loaded : (loadConfig allocated masterConfigInit (some content)).rc = 0) :
    (loadConfig allocated masterConfigInit (some content)).settings.InBounds :=
  Runs.run_invariant (fun _ _ _ => applyLine_inBounds) masterConfigInit_inBounds (loadConfig_run loaded)

/-! ## The job -/

def Settings.int (settings : Settings) (field : ConfigField) : Int :=
  match settings field with
  | .int n => n
  | _ => 0

def Settings.text (settings : Settings) (field : ConfigField) : Bytes :=
  match settings field with
  | .text s => s
  | _ => []

def Settings.masterConfig (settings : Settings) : MasterConfig :=
  ⟨settings.int .nReduce, settings.int .taskTimeoutMs, settings.text .inputDir⟩

theorem Settings.InBounds.int {settings : Settings} (bounds : settings.InBounds) {entry : ConfigEntry}
    (member : entry ∈ configTable) (int : entry.type = .int) :
    entry.min ≤ settings.int entry.offset ∧ settings.int entry.offset ≤ entry.max := by
  have within := bounds entry member int
  unfold Settings.int
  split
  next stored =>
    rw [stored] at within
    exact within
  next other =>
    unfold ConfigEntry.Within at within
    split at within
    next n stored => exact absurd stored (other n)
    · exact within.elim

theorem Settings.InBounds.initJob {settings : Settings} (bounds : settings.InBounds) {entries : List DirEntry}
    {M : Nat} {maps : Table maxMapTasks Task} (some_map : M ≠ 0)
    (scanned : scanEntries (settings.text .inputDir) entries 0 (Master.zero settings.masterConfig).maps = some (M, maps)) :
    ∃ m, masterInitJob (Master.zero settings.masterConfig) entries = some m ∧ m.job.R = settings.int .nReduce := by
  have reduces : 1 ≤ settings.int .nReduce ∧ settings.int .nReduce ≤ maxReduceTasks :=
    bounds.int (show ⟨ascii "n-reduce", .int, .nReduce, 1, maxReduceTasks, []⟩ ∈ configTable by decide) rfl
  have count : ((settings.int .nReduce % 2 ^ 32).toNat : Int) = settings.int .nReduce := by
    unfold maxReduceTasks at reduces
    omega
  have backstop : ¬ ((settings.int .nReduce % 2 ^ 32).toNat = 0 ∨
      (settings.int .nReduce % 2 ^ 32).toNat > maxReduceTasks) := by
    omega
  unfold masterInitJob
  split
  next failed => cases scanned.symm.trans failed
  next other _ found =>
    cases scanned.symm.trans found
    rw [if_neg some_map]
    simp only
    split
    next bad => exact absurd bad backstop
    · exact ⟨_, rfl, count⟩

end MapReduce
