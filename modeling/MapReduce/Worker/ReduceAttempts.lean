import MapReduce.Worker.MapAttempts
import MapReduce.Worker.Reduce

/-! Attempts of one reduce task at the same time.

An attempt that has read all inputs without an error has the same records as
every other, and the text it prints is a function of them. The output gets its
name only if neither `ferror` nor `fclose` reports an error.
-/

set_option autoImplicit false

namespace MapReduce

open Calls Decimal Groups Interference

namespace WorkerReduce

theorem temp_inj {y y' attemptId attemptId' pid pid' : Nat}
    (same : tempPath y attemptId pid = tempPath y' attemptId' pid') :
    y = y' ∧ attemptId = attemptId' ∧ pid = pid' := by
  simp only [tempPath, outputPath, List.append_assoc] at same
  obtain ⟨task, tails⟩ := decimal_append_inj (WorkerMap.tempTail_stops _ _) (WorkerMap.tempTail_stops _ _)
    (List.append_cancel_left same)
  exact ⟨task, WorkerMap.tempTail_inj tails⟩

/-! ## What an attempt knows of its output -/

/-- The stream has lost bytes, or the file holds the text printed so far. -/
def Written (out text : Bytes) (v : View) : Prop :=
  (v.streams out).reported = false ∧ ((v.streams out).lost = false → v.files out = some text)

theorem Written.print {out text : Bytes} {v : View} (written : Written out text v) (more : Bytes) (kept : Nat) :
    Written out (text ++ more) (v.print out more kept) := by
  obtain ⟨quiet, content⟩ := written
  refine ⟨by simpa [View.print, View.setFile, View.setStream] using quiet, fun sound => ?_⟩
  simp only [View.print, View.setFile, View.setStream, Function.update_self, Bool.or_eq_false_iff,
    decide_eq_false_iff_not, Nat.not_lt] at sound ⊢
  rw [content sound.1, Option.map_some, List.take_of_length_le sound.2]

/-! ## The stages of one attempt -/

section Stages

variable {Id : Type} {pub : Publishing Id} [DecidableEq Id] {id : Id} {done : List Bytes}

theorem pushAll_safe (own : View → Prop) (records list : List Record) :
    Safe Disk.serve pub.contract id (pushAll records list) (pub.owned id own done) fun result =>
      pub.owned id (fun v => own v ∧ (result.1 = true → result.2 = list ++ records)) done := by
  induction records generalizing list with
  | nil => exact safe_pure fun _ _ holds => ⟨⟨holds.1, fun _ => (List.append_nil list).symm⟩, holds.2⟩
  | cons r rest ih =>
    unfold pushAll
    have room : Safe Disk.serve pub.contract id alloc (pub.owned id own done) fun _ => pub.owned id own done :=
      Publishing.safe_alloc fun _ _ holds => holds
    refine room.bind fun ok => ?_
    cases ok with
    | false => exact safe_pure fun _ _ holds => ⟨⟨holds.1, by simp⟩, holds.2⟩
    | true =>
      refine (ih (list ++ [r])).mono fun result _ _ holds => ⟨⟨holds.1.1, fun pushed => ?_⟩, holds.2⟩
      rw [holds.1.2 pushed, List.append_assoc, List.singleton_append]

theorem readRecordsFile_safe {path : Bytes} (readable : pub.Readable done path) (list : List Record) :
    Safe Disk.serve pub.contract id (readRecordsFile path list) (pub.owned id (fun _ => True) done) fun result =>
      pub.owned id (fun _ => result.1 = true →
        ∃ content, pub.stored path = some content ∧ result.2 = list ++ recordsOf content) done := by
  refine (Publishing.safe_fopenRead readable fun _ _ _ => trivial).bind fun answer => ?_
  cases answer with
  | none => exact safe_pure fun _ _ holds => ⟨by simp, holds.2⟩
  | some seen =>
    refine (pushAll_safe _ (recordsOf seen) list).bind fun result => ?_
    refine Publishing.safe_close fun failed closed => safe_pure fun _ _ holds => ⟨fun good => ?_, holds.2⟩
    simp only [Bool.and_eq_true, Bool.not_eq_true'] at good
    obtain ⟨before, finished⟩ := holds.1
    obtain ⟨reader, pushed⟩ := finished.own
    exact ⟨seen, finished.whole (reader seen rfl).2 good.1.2 good.2, pushed good.1.1⟩

def storedRecords (stored : Fs) (y : Nat) (xs : List Nat) : Option (List Record) :=
  (xs.mapM fun x => stored (intermediatePath x y)).map (List.flatMap recordsOf)

theorem storedRecords_cons {stored : Fs} {y x : Nat} {xs : List Nat} {content : Bytes}
    (found : stored (intermediatePath x y) = some content) :
    storedRecords stored y (x :: xs) = (storedRecords stored y xs).map (recordsOf content ++ ·) := by
  simp only [storedRecords, List.mapM_cons, found]
  cases xs.mapM fun x => stored (intermediatePath x y) <;> rfl

theorem readInputs_safe {y : Nat} {xs : List Nat} (readable : ∀ x ∈ xs, pub.Readable done (intermediatePath x y))
    (list : List Record) :
    Safe Disk.serve pub.contract id (readInputs y xs list) (pub.owned id (fun _ => True) done) fun result =>
      pub.owned id (fun _ => ∀ records, result = some records →
        ∃ more, storedRecords pub.stored y xs = some more ∧ records = list ++ more) done := by
  induction xs generalizing list with
  | nil =>
    refine safe_pure fun _ _ holds => ⟨?_, holds.2⟩
    rintro records ⟨⟩
    exact ⟨[], rfl, (List.append_nil _).symm⟩
  | cons x xs ih =>
    unfold readInputs
    split
    · exact safe_pure fun _ _ holds => ⟨by simp, holds.2⟩
    refine (readRecordsFile_safe (readable x List.mem_cons_self) list).bind fun result => ?_
    obtain ⟨ok, read⟩ := result
    cases ok with
    | false => exact safe_pure fun _ _ holds => ⟨by simp, holds.2⟩
    | true =>
      refine safe_of_fact (fun _ _ holds => holds.1 rfl) ?_
      rintro ⟨content, found, rfl⟩
      have onward := ih (fun z member => readable z (List.mem_cons_of_mem _ member)) (list ++ recordsOf content)
      refine Safe.mono (onward.weaken fun _ _ holds => ⟨trivial, holds.2⟩) fun result _ _ holds => ⟨?_, holds.2⟩
      intro records same
      obtain ⟨more, rest, rfl⟩ := holds.1 records same
      exact ⟨recordsOf content ++ more, by rw [storedRecords_cons found, rest]; rfl, List.append_assoc _ _ _⟩

theorem printGroups_safe {out : Bytes} (mine : out ∈ pub.temps id) (fold : Fold) (text : Bytes)
    (gs : List (Bytes × List Record)) :
    Safe Disk.serve pub.contract id (printGroups fold out gs) (pub.owned id (Written out text) done) fun ok =>
      pub.owned id (fun v => ok = true → Written out (text ++ groupsText fold gs) v) done := by
  induction gs generalizing text with
  | nil =>
    refine safe_pure fun _ _ holds => ⟨fun _ => ?_, holds.2⟩
    simpa [groupsText] using holds.1
  | cons group gs ih =>
    unfold printGroups
    split
    · have print : Safe Disk.serve pub.contract id (fprintf out (fold group.1 (group.2.map Record.value)))
          (pub.owned id (Written out text) done) fun _ =>
            pub.owned id (Written out (text ++ fold group.1 (group.2.map Record.value))) done :=
        Publishing.safe_fprintf mine fun kept v written => written.print _ kept
      refine print.bind fun _ => (ih _).mono fun ok _ _ holds => ⟨fun good => ?_, holds.2⟩
      simpa [groupsText] using holds.1 good
    · exact safe_pure fun _ _ holds => ⟨by simp, holds.2⟩

theorem publish_safe {temp final : Bytes} (mine : temp ∈ pub.temps id) (fold : Fold) (records : List Record)
    (complete : (final, some (groupsText fold (groups Record.key records))) ∈ pub.finals) :
    Safe Disk.serve pub.contract id (publish fold temp final records) (pub.owned id (fun _ => True) done) fun ok =>
      pub.owned id (fun _ => True) (if ok then [final] else []) := by
  let text := groupsText fold (groups Record.key records)
  have create : Safe Disk.serve pub.contract id (fopenWrite temp) (pub.owned id (fun _ => True) done) fun ok =>
      pub.owned id (fun v => ok = true → Written temp [] v) done := by
    refine Publishing.safe_fopenWrite mine (fun v _ _ => ?_) (by simp)
    simp [Written, View.setFile, View.setStream]
  have close : ∀ own : View → Prop, Safe Disk.serve pub.contract id (fclose temp) (pub.owned id own done) fun _ =>
      pub.owned id (fun _ => True) done :=
    fun own => Publishing.safe_fclose (fun _ _ _ => trivial) fun _ _ => trivial
  unfold publish
  refine create.bind fun opened => ?_
  cases opened with
  | false => exact Publishing.safe_failed _
  | true =>
    rw [if_pos rfl, groupWalk_eq]
    refine Safe.bind ((printGroups_safe mine fold [] _).weaken fun _ _ holds => ⟨holds.1 rfl, holds.2⟩) fun walked => ?_
    cases walked with
    | false => exact (close _).bind fun _ => Publishing.safe_failed _
    | true =>
      have check : Safe Disk.serve pub.contract id (ferror temp) (pub.owned id (Written temp text) done) fun failed =>
          pub.owned id (fun v => failed = false → Written temp text v) done := by
        refine Publishing.safe_ferror fun failed v written quiet => ?_
        simpa [Written, View.setStream, quiet] using written
      refine Safe.bind (check.weaken fun _ _ holds => ⟨holds.1 rfl, holds.2⟩) fun failed => ?_
      cases failed with
      | true => exact (close _).bind fun _ => Publishing.safe_failed _
      | false =>
        have finish : Safe Disk.serve pub.contract id (fclose temp) (pub.owned id (Written temp text) done) fun closed =>
            pub.owned id (fun v => closed = true → pub.Filled temp final v) done := by
          refine Publishing.safe_fclose (fun v written honest _ => ?_) (by simp)
          exact ⟨text, complete, written.2 (honest written.1)⟩
        refine Safe.bind (finish.weaken fun _ _ holds => ⟨holds.1 rfl, holds.2⟩) fun closed => ?_
        cases closed with
        | false => exact Publishing.safe_failed _
        | true =>
          have move : Safe Disk.serve pub.contract id (rename temp final)
              (pub.owned id (fun v => true = true → pub.Filled temp final v) done) fun ok =>
                pub.owned id (fun _ => True) (if ok then done ++ [final] else done) :=
            Publishing.safe_rename mine (fun _ filled => filled rfl) (fun _ _ => trivial) fun _ _ => trivial
          refine move.mono fun ok _ _ holds => ⟨trivial, fun path member => ?_⟩
          cases ok with
          | false => cases member
          | true => exact holds.2 path (List.mem_append_right _ member)

end Stages

end WorkerReduce

open WorkerReduce

variable {Id : Type}

def reduceContent (qsort : QSort) (fold : Fold) (stored : Fs) (y nMap : Nat) : Option Bytes :=
  (storedRecords stored y (List.range nMap)).map fun records =>
    groupsText fold (groups Record.key (qsort.sort records))

def reducePublishing (a : Attempts Id) (qsort : QSort) (y nMap : Nat) (fold : Fold) (stored : Fs) : Publishing Id where
  stored := stored
  inputs := (List.range nMap).map (intermediatePath · y)
  finals := [(outputPath y, reduceContent qsort fold stored y nMap)]
  temps := fun i => [tempPath y (a.attemptId i) (a.pid i)]
  finals_unique := by
    intro path left right first second
    cases List.mem_singleton.mp first
    exact (congrArg Prod.snd (List.mem_singleton.mp second)).symm
  temps_apart := by
    intro i j path left right
    cases List.mem_singleton.mp left
    obtain ⟨-, attempt, process⟩ := temp_inj (List.mem_singleton.mp right)
    exact a.distinct i j process attempt
  temps_not_final := by
    intro i path member complete clash
    cases List.mem_singleton.mp member
    exact temp_ne_output _ _ _ _ (congrArg Prod.fst (List.mem_singleton.mp clash))
  inputs_not_temp := by
    intro i path input member
    obtain ⟨x, -, rfl⟩ := List.mem_map.mp input
    have same := List.mem_singleton.mp member
    simp only [tempPath, outputPath, List.append_assoc] at same
    exact intermediate_ne_output x y _ same
  inputs_not_final := by
    intro path input complete clash
    obtain ⟨x, -, rfl⟩ := List.mem_map.mp input
    exact intermediate_ne_output x y _ (congrArg Prod.fst (List.mem_singleton.mp clash))

section Run

variable [DecidableEq Id] {pub : Publishing Id} {id : Id} {done : List Bytes}

theorem workerReduceRun_publishes {qsort : QSort} {y attemptId pid nMap : Nat} {fold : Fold}
    (mine : tempPath y attemptId pid ∈ pub.temps id)
    (readable : ∀ x < nMap, pub.Readable done (intermediatePath x y))
    (final : ∀ text, reduceContent qsort fold pub.stored y nMap = some text →
      (outputPath y, some text) ∈ pub.finals) :
    Safe Disk.serve pub.contract id (workerReduceRun qsort y attemptId pid nMap fold)
      (pub.owned id (fun _ => True) done) fun ok =>
        pub.owned id (fun _ => True) (if ok then [outputPath y] else []) := by
  have room : Safe Disk.serve pub.contract id alloc (pub.owned id (fun _ => True) done) fun _ =>
      pub.owned id (fun _ => True) done := Publishing.safe_alloc fun _ _ _ => trivial
  unfold workerReduceRun
  split
  · trivial
  refine room.bind fun ok => ?_
  cases ok with
  | false => exact Publishing.safe_failed _
  | true =>
    simp only [↓reduceIte]
    split
    · exact Publishing.safe_failed _
    have reading : Safe Disk.serve pub.contract id (readInputs y (List.range nMap) [])
        (pub.owned id (fun _ => True) done) fun result => pub.owned id (fun _ => ∀ records, result = some records →
          ∃ more, storedRecords pub.stored y (List.range nMap) = some more ∧ records = [] ++ more) done :=
      readInputs_safe (fun x range => readable x (List.mem_range.mp range)) []
    refine reading.bind fun result => ?_
    cases result with
    | none => exact Publishing.safe_failed _
    | some records =>
      refine safe_of_fact (fun _ _ holds => holds.1 records rfl) ?_
      rintro ⟨_, found, rfl⟩
      have content : reduceContent qsort fold pub.stored y nMap =
          some (groupsText fold (groups Record.key (qsort.sort records))) := by
        rw [reduceContent, found, Option.map_some]
      have publishing : Safe Disk.serve pub.contract id
          (publish fold (tempPath y attemptId pid) (outputPath y) (qsort.sort records))
          (pub.owned id (fun _ => True) done) fun ok =>
            pub.owned id (fun _ => True) (if ok then [outputPath y] else []) :=
        publish_safe mine fold _ (final _ content)
      exact publishing.weaken fun _ _ holds => ⟨trivial, holds.2⟩

end Run

theorem workerReduceRun_safe [DecidableEq Id] (a : Attempts Id) (qsort : QSort) (y nMap : Nat) (fold : Fold)
    (stored : Fs) (i : Id) :
    Safe Disk.serve (reducePublishing a qsort y nMap fold stored).contract i
      (workerReduceRun qsort y (a.attemptId i) (a.pid i) nMap fold)
      ((reducePublishing a qsort y nMap fold stored).owned i (fun _ => True) []) fun ok =>
        (reducePublishing a qsort y nMap fold stored).owned i (fun _ => True) (if ok then [outputPath y] else []) := by
  refine workerReduceRun_publishes (List.mem_singleton.mpr rfl) ?_ ?_
  · exact fun x below => Publishing.readable_input (List.mem_map_of_mem (List.mem_range.mpr below)) []
  · exact fun text content => List.mem_singleton.mpr (congrArg (Prod.mk (outputPath y)) content.symm)

end MapReduce
