import MapReduce.Worker.Map
import MapReduce.Worker.SharedDisk

/-! Atomic publication by the attempts of one map task.

Any number of attempts run at the same time, each with its own temporary names.
A temporary file gets its final name only behind a clean read of the input and a
clean close of every stream, and then it is complete.
-/

set_option autoImplicit false

namespace MapReduce

open Calls Decimal Interference

namespace WorkerMap

/-! ## What an attempt knows of its own files -/

/-- Every stream is open on an empty file. -/
def Opened (ps : List Paths) (v : View) : Prop :=
  ∀ p ∈ ps, v.files p.temp = some [] ∧ v.streams p.temp = ⟨false, false⟩

/-- Each stream that has lost nothing holds the text of its partition of the tokens so far. -/
def Printed (emit : Emit) (nReduce : Nat) (ps : List Paths) (tokens : List Bytes) (v : View) : Prop :=
  ∀ y p, ps[y]? = some p → (v.streams p.temp).reported = false ∧
    ((v.streams p.temp).lost = false → v.files p.temp = some (partitionText emit nReduce y tokens))

theorem Opened.printed {emit : Emit} {nReduce : Nat} {ps : List Paths} {v : View} (opened : Opened ps v) :
    Printed emit nReduce ps [] v := by
  intro y p slot
  obtain ⟨empty, clean⟩ := opened p (List.mem_of_getElem? slot)
  exact ⟨by rw [clean], fun _ => empty⟩

theorem Printed.setStream {emit : Emit} {nReduce : Nat} {ps : List Paths} {tokens : List Bytes} {v : View}
    {path : Bytes} (printed : Printed emit nReduce ps tokens v) (apart : ∀ p ∈ ps, p.temp ≠ path) (stream : Stream) :
    Printed emit nReduce ps tokens (v.setStream path stream) := by
  intro y p slot
  simpa [View.setStream, Function.update_of_ne (apart p (List.mem_of_getElem? slot))] using printed y p slot

theorem Printed.print {emit : Emit} {nReduce : Nat} {ps : List Paths} {tokens : List Bytes} {token : Bytes} {v : View}
    {p : Paths} (distinct : (ps.map Paths.temp).Nodup) (printed : Printed emit nReduce ps tokens v)
    (found : ps[(emit nReduce token).1]? = some p) (kept : Nat) :
    Printed emit nReduce ps (tokens ++ [token]) (v.print p.temp (emit nReduce token).2 kept) := by
  intro y q slot
  rw [partitionText_append]
  by_cases here : (emit nReduce token).1 = y
  · subst here
    cases found.symm.trans slot
    obtain ⟨quiet, text⟩ := printed _ _ found
    refine ⟨by simpa [View.print, View.setFile, View.setStream] using quiet, fun sound => ?_⟩
    simp only [View.print, View.setFile, View.setStream, Function.update_self, Bool.or_eq_false_iff,
      decide_eq_false_iff_not, Nat.not_lt] at sound ⊢
    rw [text sound.1, Option.map_some, List.take_of_length_le sound.2]
    simp [partitionText]
  · -- Another partition has another stream.
    have apart := temp_ne_of_slot distinct found slot here
    have nothing : partitionText emit nReduce y [token] = [] := by simp [partitionText, here]
    rw [nothing, List.append_nil]
    simpa [View.print, View.setFile, View.setStream, Function.update_of_ne apart] using printed y q slot

variable {Id : Type} {pub : Publishing Id}

/-- A stream on which no error was seen so far and whose file is complete unless bytes were lost. -/
def Ready (pub : Publishing Id) (p : Paths) (v : View) : Prop :=
  (v.streams p.temp).reported = false ∧ ((v.streams p.temp).lost = false → pub.Filled p.temp p.final v)

theorem temp_ne_of_mem {ps : List Paths} (distinct : (ps.map Paths.temp).Nodup) {p q : Paths} (left : p ∈ ps)
    (right : q ∈ ps) (ne : p ≠ q) : p.temp ≠ q.temp :=
  fun same => ne (List.inj_on_of_nodup_map distinct left right same)

/-- The streams still to be closed are ready, and if no error was reported so far, the closed files are complete. -/
def Closing (pub : Publishing Id) (ps visited : List Paths) (ok : Bool) (v : View) : Prop :=
  (∀ p ∈ ps, p ∉ visited → Ready pub p v) ∧ (ok = true → ∀ p ∈ visited, pub.Filled p.temp p.final v)

theorem not_mem_visited {ps visited rest : List Paths} {p : Paths} (distinct : (ps.map Paths.temp).Nodup)
    (same : ps = visited ++ p :: rest) : p ∉ visited := by
  subst same
  exact fun earlier => temp_not_visited distinct (List.mem_map_of_mem earlier)

theorem Closing.close {ps visited : List Paths} {p : Paths} {ok failed closed : Bool} {before v : View}
    (distinct : (ps.map Paths.temp).Nodup) (here : p ∈ ps) (fresh : p ∉ visited)
    (done : Publishing.Closed (Closing pub ps visited ok) p.temp failed closed before v) :
    Closing pub ps (visited ++ [p]) (ok && (!failed && closed)) v := by
  obtain ⟨⟨ready, complete⟩, ⟨stream, rfl⟩, honest⟩ := done
  constructor
  · intro q member later
    have ne : q ≠ p := fun clash => later (by simp [clash])
    have apart := temp_ne_of_mem distinct member here ne
    have still := ready q member fun earlier => later (List.mem_append_left _ earlier)
    simpa [Ready, Publishing.Filled, View.setStream, Function.update_of_ne apart] using still
  · intro good q member
    simp only [Bool.and_eq_true, Bool.not_eq_true'] at good
    rcases List.mem_append.mp member with earlier | now
    · exact complete good.1 q earlier
    · cases List.mem_singleton.mp now
      obtain ⟨quiet, text⟩ := ready p here fresh
      exact text (honest good.2.1 good.2.2 quiet)

/-! ## The stages of one attempt -/

section Stages

variable [DecidableEq Id] {id : Id} {done : List Bytes}

theorem closeHandles_safe (own : View → Prop) (ps : List Paths) :
    Safe Disk.serve pub.contract id (closeHandles ps) (pub.owned id own done) fun _ =>
      pub.owned id (fun _ => True) done := by
  have loop : Safe Disk.serve pub.contract id (closeHandles ps) (pub.owned id (fun _ => True) done) fun _ =>
      pub.owned id (fun _ => True) done := by
    refine safe_each (fun _ => pub.owned id (fun _ => True) done) fun visited p rest _ => ?_
    have close : Safe Disk.serve pub.contract id (fclose p.temp) (pub.owned id (fun _ => True) done) fun _ =>
        pub.owned id (fun _ => True) done :=
      Publishing.safe_fclose (fun _ _ _ => trivial) fun _ _ => trivial
    exact close.bind fun _ => safe_pure fun _ _ holds => holds
  exact loop.weaken fun _ _ holds => ⟨trivial, holds.2⟩

theorem openTemps_safe {x attemptId pid : Nat} {ys : List Nat} (opened : List Paths)
    (mine : ∀ y ∈ ys, (paths x attemptId pid y).temp ∈ pub.temps id) :
    Safe Disk.serve pub.contract id (openTemps x attemptId pid ys opened) (pub.owned id (Opened opened) done)
      fun result => pub.owned id (fun v => ∀ ps, result = some ps →
        ps = opened ++ ys.map (paths x attemptId pid) ∧ Opened ps v) done := by
  induction ys generalizing opened with
  | nil =>
    refine safe_pure fun _ _ holds => ⟨?_, holds.2⟩
    rintro ps ⟨⟩
    exact ⟨by simp, holds.1⟩
  | cons y ys ih =>
    have gaveUp : Safe Disk.serve pub.contract id (do closeHandles opened; pure none)
        (pub.owned id (Opened opened) done) fun result : Option (List Paths) => pub.owned id (fun v =>
          ∀ ps, result = some ps → ps = opened ++ (y :: ys).map (paths x attemptId pid) ∧ Opened ps v) done :=
      (closeHandles_safe _ opened).bind fun _ => safe_pure fun _ _ holds => ⟨by simp, holds.2⟩
    unfold openTemps
    cases built : buildPaths x attemptId pid y with
    | none => exact gaveUp
    | some p =>
      cases buildPaths_some built
      have create : Safe Disk.serve pub.contract id (fopenWrite (paths x attemptId pid y).temp)
          (pub.owned id (Opened opened) done) fun ok => pub.owned id (fun v =>
            Opened (if ok then opened ++ [paths x attemptId pid y] else opened) v) done := by
        refine Publishing.safe_fopenWrite (mine y List.mem_cons_self) (fun v earlier q member => ?_) fun _ same => same
        by_cases here : q.temp = (paths x attemptId pid y).temp
        · simp [View.setFile, View.setStream, here]
        · rcases List.mem_append.mp member with old | new
          · simpa [View.setFile, View.setStream, Function.update_of_ne here] using earlier q old
          · exact absurd (congrArg Paths.temp (List.mem_singleton.mp new)) here
      refine create.bind fun ok => ?_
      cases ok with
      | false => exact gaveUp
      | true =>
        refine (ih (opened ++ [paths x attemptId pid y]) fun z member => mine z (List.mem_cons_of_mem _ member)).mono ?_
        intro result s _ holds
        refine ⟨fun ps same => ?_, holds.2⟩
        obtain ⟨shape, clean⟩ := holds.1 ps same
        exact ⟨by simpa using shape, clean⟩

theorem emit_safe {emit : Emit} {nReduce : Nat} {ps : List Paths} {path seen : Bytes}
    (distinct : (ps.map Paths.temp).Nodup) (mine : ∀ p ∈ ps, p.temp ∈ pub.temps id) (input : path ∈ pub.inputs)
    (tokens : List Bytes) :
    Safe Disk.serve pub.contract id (each (emitTo emit nReduce ps) tokens)
      (pub.owned id (fun v => Printed emit nReduce ps [] v ∧ pub.Seen path seen v) done) fun _ =>
        pub.owned id (fun v => Printed emit nReduce ps tokens v ∧ pub.Seen path seen v) done := by
  refine safe_each (fun visited =>
    pub.owned id (fun v => Printed emit nReduce ps visited v ∧ pub.Seen path seen v) done) ?_
  intro visited token rest _
  unfold emitTo
  split
  next p found =>
    have own := mine p (List.mem_of_getElem? found)
    refine Publishing.safe_fprintf own fun kept v holds => ⟨holds.1.print distinct found kept, ?_⟩
    have apart : path ≠ p.temp := fun same => pub.inputs_not_temp id path input (by rwa [same])
    simpa [Publishing.Seen, View.print, View.setFile, View.setStream, Function.update_of_ne apart] using holds.2
  · trivial

theorem tokenizeFile_safe {path : Bytes} {emit : Bytes → Proc Unit} {own : View → Prop}
    {after : Bytes → View → Prop} (input : path ∈ pub.inputs)
    (own_stream : ∀ v stream, own v → own (v.setStream path stream))
    (after_stream : ∀ seen v stream, after seen v → after seen (v.setStream path stream))
    (emitted : ∀ seen, Safe Disk.serve pub.contract id (each emit (tokensOf seen))
      (pub.owned id (fun v => own v ∧ pub.Seen path seen v) done) fun _ =>
        pub.owned id (fun v => after seen v ∧ pub.Seen path seen v) done) :
    Safe Disk.serve pub.contract id (tokenizeFile path emit) (pub.owned id own done) fun ok =>
      pub.owned id (fun v => ok = true → ∃ content, pub.stored path = some content ∧ after content v) done := by
  refine (Publishing.safe_fopenRead (Publishing.readable_input input done) own_stream).bind fun answer => ?_
  cases answer with
  | none => exact safe_pure fun _ _ holds => ⟨by simp, holds.2⟩
  | some seen =>
    refine Safe.bind ((emitted seen).weaken fun _ _ holds => ⟨holds.1 seen rfl, holds.2⟩) fun _ => ?_
    refine Publishing.safe_close fun failed closed => safe_pure fun _ _ holds => ⟨fun good => ?_, holds.2⟩
    simp only [Bool.and_eq_true, Bool.not_eq_true'] at good
    obtain ⟨before, finished⟩ := holds.1
    obtain ⟨stream, same⟩ := finished.same
    refine ⟨seen, finished.whole finished.own.2 good.1 good.2, ?_⟩
    rw [same]
    exact after_stream _ _ _ finished.own.1

theorem tokenizeFile_printed {emit : Emit} {nReduce : Nat} {ps : List Paths} {path : Bytes}
    (distinct : (ps.map Paths.temp).Nodup) (mine : ∀ p ∈ ps, p.temp ∈ pub.temps id) (input : path ∈ pub.inputs) :
    Safe Disk.serve pub.contract id (tokenizeFile path (emitTo emit nReduce ps))
      (pub.owned id (Printed emit nReduce ps []) done) fun ok => pub.owned id (fun v => ok = true →
        ∃ content, pub.stored path = some content ∧ Printed emit nReduce ps (tokensOf content) v) done := by
  have apart : ∀ p ∈ ps, p.temp ≠ path := by
    rintro p member rfl
    exact pub.inputs_not_temp id _ input (mine p member)
  refine tokenizeFile_safe input (fun v stream printed => ?_) (fun seen v stream printed => ?_)
    fun seen => emit_safe distinct mine input (tokensOf seen)
  · exact printed.setStream apart stream
  · exact printed.setStream apart stream

theorem closePass_any (own : View → Prop) (ps : List Paths) :
    Safe Disk.serve pub.contract id (closePass ps) (pub.owned id own done) fun _ =>
      pub.owned id (fun _ => True) done := by
  have loop : Safe Disk.serve pub.contract id (closePass ps) (pub.owned id (fun _ => True) done) fun _ =>
      pub.owned id (fun _ => True) done := by
    refine safe_all (fun _ _ => pub.owned id (fun _ => True) done) fun visited p rest ok _ => ?_
    exact Publishing.safe_close fun failed closed => safe_pure fun _ _ holds => ⟨trivial, holds.2⟩
  exact loop.weaken fun _ _ holds => ⟨trivial, holds.2⟩

theorem closePass_safe {ps : List Paths} (distinct : (ps.map Paths.temp).Nodup) :
    Safe Disk.serve pub.contract id (closePass ps) (pub.owned id (fun v => ∀ p ∈ ps, Ready pub p v) done) fun ok =>
      pub.owned id (fun v => ok = true → ∀ p ∈ ps, pub.Filled p.temp p.final v) done := by
  have loop : Safe Disk.serve pub.contract id (closePass ps) (pub.owned id (Closing pub ps [] true) done) fun ok =>
      pub.owned id (Closing pub ps ps ok) done := by
    refine safe_all (fun visited ok => pub.owned id (Closing pub ps visited ok) done) ?_
    intro visited p rest ok same
    refine Publishing.safe_close fun failed closed => safe_pure fun _ _ holds => ⟨?_, holds.2⟩
    obtain ⟨before, finished⟩ := holds.1
    exact Closing.close distinct (by simp [same]) (not_mem_visited distinct same) finished
  refine (loop.weaken fun _ _ holds => ?_).mono fun ok _ _ holds => ⟨holds.1.2, holds.2⟩
  exact ⟨⟨fun p member _ => holds.1 p member, fun _ _ none => by cases none⟩, holds.2⟩

theorem renamePass_safe {ps : List Paths} (distinct : (ps.map Paths.temp).Nodup)
    (mine : ∀ p ∈ ps, p.temp ∈ pub.temps id) :
    Safe Disk.serve pub.contract id (renamePass ps)
      (pub.owned id (fun v => ∀ p ∈ ps, pub.Filled p.temp p.final v) []) fun ok =>
        pub.owned id (fun _ => True) (if ok then ps.map Paths.final else []) := by
  -- Renaming a file takes nothing from the others, and a failed rename does not stop the pass.
  have loop : Safe Disk.serve pub.contract id (renamePass ps)
      (pub.owned id (fun v => ∀ p ∈ ps, p ∉ ([] : List Paths) → pub.Filled p.temp p.final v) []) fun ok =>
        pub.owned id (fun v => ∀ p ∈ ps, p ∉ ps → pub.Filled p.temp p.final v)
          (if ok then ps.map Paths.final else []) := by
    refine safe_all (fun visited ok => pub.owned id
      (fun v => ∀ p ∈ ps, p ∉ visited → pub.Filled p.temp p.final v)
      (if ok then visited.map Paths.final else [])) ?_
    intro visited p rest ok same
    have here : p ∈ ps := by simp [same]
    have move : Safe Disk.serve pub.contract id (rename p.temp p.final)
        (pub.owned id (fun v => ∀ p ∈ ps, p ∉ visited → pub.Filled p.temp p.final v)
          (if ok then visited.map Paths.final else [])) fun now =>
        pub.owned id (fun v => ∀ q ∈ ps, q ∉ visited ++ [p] → pub.Filled q.temp q.final v)
          (if now then (if ok then visited.map Paths.final else []) ++ [p.final]
            else if ok then visited.map Paths.final else []) := by
      refine Publishing.safe_rename (mine p here) ?_ ?_ ?_
      · exact fun v whole => whole p here (not_mem_visited distinct same)
      · intro v whole q member later
        have ne : q ≠ p := fun clash => later (by simp [clash])
        have apart := temp_ne_of_mem distinct member here ne
        simpa [Publishing.Filled, View.setFile, Function.update_of_ne apart] using
          whole q member fun earlier => later (List.mem_append_left _ earlier)
      · exact fun v whole q member later => whole q member fun earlier => later (List.mem_append_left _ earlier)
    refine move.mono fun now s _ holds => ⟨holds.1, fun path member => ?_⟩
    cases ok with
    | false => simp at member
    | true =>
      cases now with
      | false => simp at member
      | true => exact holds.2 path (by simpa using member)
  refine (loop.weaken fun _ _ holds => ?_).mono fun ok _ _ holds => ⟨trivial, holds.2⟩
  exact ⟨fun p member _ => holds.1 p member, holds.2⟩

end Stages

end WorkerMap

/-! ## The attempts of one task -/

/-- Attempts that run at the same time, no two in the same process with the same number. -/
structure Attempts (Id : Type) where
  pid : Id → Nat
  attemptId : Id → Nat
  distinct : ∀ i j, pid i = pid j → attemptId i = attemptId j → i = j

open WorkerMap

variable {Id : Type}

def mapContent (emit : Emit) (nReduce : Nat) (content : Bytes) (y : Nat) : Bytes :=
  partitionText emit nReduce y (tokensOf content)

/-- The attempts do not write the file they read. -/
structure Attempts.KeepsInput (a : Attempts Id) (x nReduce : Nat) (input : Bytes) : Prop where
  final : ∀ y < nReduce, input ≠ intermediatePath x y
  temp : ∀ i, ∀ y < nReduce, input ≠ (paths x (a.attemptId i) (a.pid i) y).temp

def mapFinals (x nReduce : Nat) (emit : Emit) (stored : Option Bytes) : List (Bytes × Option Bytes) :=
  (List.range nReduce).map fun y => (intermediatePath x y, stored.map (mapContent emit nReduce · y))

theorem mem_mapFinals {x nReduce : Nat} {emit : Emit} {stored : Option Bytes} {path : Bytes} {complete : Option Bytes} :
    (path, complete) ∈ mapFinals x nReduce emit stored ↔
      ∃ y < nReduce, path = intermediatePath x y ∧ complete = stored.map (mapContent emit nReduce · y) := by
  simp [mapFinals, eq_comm]

def mapPublishing (a : Attempts Id) (x nReduce : Nat) (input : Bytes) (emit : Emit) (stored : Fs)
    (keeps : a.KeepsInput x nReduce input) : Publishing Id where
  stored := stored
  inputs := [input]
  finals := mapFinals x nReduce emit (stored input)
  temps := fun i => (attemptPaths x (a.attemptId i) (a.pid i) nReduce).map Paths.temp
  finals_unique := by
    intro path left right first second
    obtain ⟨y, -, rfl, rfl⟩ := mem_mapFinals.mp first
    obtain ⟨z, -, same, rfl⟩ := mem_mapFinals.mp second
    rw [(final_inj same).2]
  temps_apart := by
    intro i j path left right
    obtain ⟨p, member, rfl⟩ := List.mem_map.mp left
    obtain ⟨q, member', same⟩ := List.mem_map.mp right
    obtain ⟨y, -, rfl⟩ := mem_attemptPaths member
    obtain ⟨z, -, rfl⟩ := mem_attemptPaths member'
    obtain ⟨-, -, attempt, process⟩ := temp_inj same
    exact a.distinct i j process.symm attempt.symm
  temps_not_final := by
    intro i path member complete clash
    obtain ⟨p, inside, rfl⟩ := List.mem_map.mp member
    obtain ⟨y, -, rfl⟩ := mem_attemptPaths inside
    obtain ⟨z, -, same, -⟩ := mem_mapFinals.mp clash
    exact temp_ne_final _ _ _ _ _ z same
  inputs_not_temp := by
    intro i path input_path member
    cases List.mem_singleton.mp input_path
    obtain ⟨p, inside, same⟩ := List.mem_map.mp member
    obtain ⟨y, below, rfl⟩ := mem_attemptPaths inside
    exact keeps.temp i y below same.symm
  inputs_not_final := by
    intro path input_path complete clash
    cases List.mem_singleton.mp input_path
    obtain ⟨y, below, same, -⟩ := mem_mapFinals.mp clash
    exact keeps.final y below same

section Run

variable [DecidableEq Id] {pub : Publishing Id} {id : Id}

theorem workerMapRun_publishes {x attemptId pid nReduce : Nat} {input : Bytes} {emit : Emit}
    (mine : ∀ p ∈ attemptPaths x attemptId pid nReduce, p.temp ∈ pub.temps id) (read : input ∈ pub.inputs)
    (finals : ∀ y < nReduce, ∀ content, pub.stored input = some content →
      (intermediatePath x y, some (mapContent emit nReduce content y)) ∈ pub.finals) :
    Safe Disk.serve pub.contract id (workerMapRun x attemptId pid nReduce input emit)
      (pub.owned id (fun _ => True) []) fun ok => pub.owned id (fun _ => True)
        (if ok then (List.range nReduce).map (intermediatePath x) else []) := by
  let ps := attemptPaths x attemptId pid nReduce
  unfold workerMapRun
  split
  · trivial
  have opening : Safe Disk.serve pub.contract id
      (openTemps x attemptId pid (List.range nReduce) []) (pub.owned id (Opened []) [])
      fun result => pub.owned id (fun v => ∀ opened, result = some opened → opened = ps ∧ Opened opened v) [] :=
    openTemps_safe [] fun y range => mine _ (List.mem_map_of_mem range)
  refine Safe.bind (opening.weaken fun _ _ holds => ⟨by simp [Opened], holds.2⟩) fun result => ?_
  cases result with
  | none => exact Publishing.safe_failed _
  | some opened =>
    refine safe_of_fact (fun _ _ holds => (holds.1 opened rfl).1) ?_
    rintro rfl
    have reading : Safe Disk.serve pub.contract id (tokenizeFile input (emitTo emit nReduce ps))
        (pub.owned id (Printed emit nReduce ps []) []) fun read => pub.owned id (fun v => read = true →
          ∃ content, pub.stored input = some content ∧ Printed emit nReduce ps (tokensOf content) v) [] :=
      tokenizeFile_printed attemptPaths_temps mine read
    refine Safe.bind (reading.weaken fun _ _ holds => ⟨(holds.1 _ rfl).2.printed, holds.2⟩) fun read => ?_
    cases read with
    | false => exact (closePass_any _ ps).bind fun _ => Publishing.safe_failed _
    | true =>
      refine Safe.bind ((closePass_safe attemptPaths_temps).weaken fun _ _ holds => ⟨?_, holds.2⟩) fun closed => ?_
      · obtain ⟨content, found, printed⟩ := holds.1 rfl
        intro p member
        obtain ⟨y, below, rfl⟩ := mem_attemptPaths member
        obtain ⟨quiet, text⟩ := printed y _ (attemptPaths_getElem? below)
        exact ⟨quiet, fun sound => ⟨_, finals y below content found, text sound⟩⟩
      cases closed with
      | false => exact Publishing.safe_failed _
      | true =>
        have names : (List.range nReduce).map (intermediatePath x) = ps.map Paths.final := by
          simp [ps, attemptPaths, paths]
        rw [names]
        exact (renamePass_safe attemptPaths_temps mine).weaken fun _ _ holds => ⟨holds.1 rfl, holds.2⟩

end Run

theorem workerMapRun_safe [DecidableEq Id] (a : Attempts Id) (x nReduce : Nat) (input : Bytes) (emit : Emit)
    (stored : Fs) (keeps : a.KeepsInput x nReduce input) (i : Id) :
    Safe Disk.serve (mapPublishing a x nReduce input emit stored keeps).contract i
      (workerMapRun x (a.attemptId i) (a.pid i) nReduce input emit)
      ((mapPublishing a x nReduce input emit stored keeps).owned i (fun _ => True) []) fun ok =>
        (mapPublishing a x nReduce input emit stored keeps).owned i (fun _ => True)
          (if ok then (List.range nReduce).map (intermediatePath x) else []) := by
  refine workerMapRun_publishes (fun p member => List.mem_map_of_mem member) (List.mem_singleton.mpr rfl) ?_
  intro y below content found
  refine mem_mapFinals.mpr ⟨y, below, rfl, ?_⟩
  change stored input = some content at found
  rw [found]
  rfl

end MapReduce
