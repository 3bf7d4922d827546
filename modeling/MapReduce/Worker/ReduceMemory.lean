import MapReduce.Worker.RecordList

/-! The memory of a reduce task is used and given back.

A list owns its block, its array and two strings for each record. A push that
fails leaves it with what it had, whichever of its allocations failed, and
`record_list_destroy` gives everything back. In between the group walk follows
pointers into the list only.
-/

set_option autoImplicit false

namespace MapReduce.RecordList

open Calls Ownership

/-! ## What a list owns -/

abbrev Entry := (Ptr × Ptr) × Record

def strings (entries : List Entry) : List (Ptr × Block) :=
  entries.flatMap fun e => [(e.1.1, .string e.2.key), (e.1.2, .string e.2.value)]

def filled (entries : List Entry) : List (Option (Ptr × Ptr)) := entries.map fun e => some e.1

@[simp] theorem filled_cons (e : Entry) (rest : List Entry) : filled (e :: rest) = some e.1 :: filled rest := rfl

@[simp] theorem filled_length (entries : List Entry) : (filled entries).length = entries.length := List.length_map _

/-- The blocks of a list whose slots behind the entries are spare. -/
def blocks (list : RecordList) (entries : List Entry) (spare : List (Option (Ptr × Ptr))) : List (Ptr × Block) :=
  (list.records, .records (filled entries ++ spare)) :: (list.self, .list) :: strings entries

/-- The list stores the entries, and has allocated nothing else. -/
structure Stores (frame : Memory) (list : RecordList) (entries : List Entry) (m : Memory) : Prop where
  count : list.count = entries.length
  room : 0 < list.capacity
  owned : ∃ spare, entries.length + spare.length = list.capacity ∧ Owns frame (list.blocks entries spare) m

section Lists

variable {qsort : QSort} {frame m : Memory} {list : RecordList} {entries : List Entry}

theorem create_matches (m : Memory) : Matches qsort create m alloc fun list ok after =>
    match list with
    | none => ok = false ∧ after = m
    | some list => ok = true ∧ Stores m list [] after := by
  refine matches_mallocList fun answer fresh => ?_
  cases answer with
  | none => exact (refines_pure ⟨rfl, rfl⟩).choose (alloc_chooses false)
  | some self =>
    have one := (owns_nothing m).alloc (fresh self rfl) .list
    refine matches_callocRecords fun answer fresh => ?_
    cases answer with
    | none =>
      refine matches_free (by simp [Memory.allocated]) ?_
      exact (refines_pure ⟨rfl, one.release.eq_frame⟩).choose (alloc_chooses false)
    | some records =>
      refine (refines_pure ⟨rfl, rfl, Nat.succ_pos 3, ?_⟩).choose (alloc_chooses true)
      exact ⟨List.replicate initialCapacity none, by simp, one.alloc (fresh records rfl) _⟩

theorem written_blocks (list : RecordList) (entries : List Entry) (slot : Option (Ptr × Ptr))
    (spare : List (Option (Ptr × Ptr))) (k v : Ptr) (r : Record) :
    ((list.records, Block.records ((filled entries ++ slot :: spare).set entries.length
        (some (k, v)))) ::
      ([(v, Block.string r.value), (k, .string r.key)] ++ (list.self, .list) :: strings entries)).Perm
      (list.blocks (entries ++ [((k, v), r)]) spare) := by
  have slots : (filled entries ++ slot :: spare).set entries.length (some (k, v)) =
      filled (entries ++ [((k, v), r)]) ++ spare := by
    simp [filled]
  have texts : strings (entries ++ [((k, v), r)]) = strings entries ++ [(k, .string r.key), (v, .string r.value)] := by
    simp [strings]
  rw [blocks, slots, texts]
  refine List.Perm.cons _ (List.perm_append_comm.trans ?_)
  exact List.Perm.append_left ((list.self, .list) :: strings entries) (List.Perm.swap ..)

theorem append_matches (stores : Stores frame list entries m) (room : list.count < list.capacity) (key value : Bytes) :
    Matches qsort (append list key value) m alloc fun pushed ok after => pushed.1 = ok ∧
      if ok then ∃ pair, Stores frame pushed.2 (entries ++ [(pair, ⟨key, value⟩)]) after
      else Stores frame pushed.2 entries after := by
  obtain ⟨spare, length, owns⟩ := stores.owned
  have failed : ∀ {after : Memory}, Owns frame (list.blocks entries spare) after →
      Matches qsort (pure (false, list)) after alloc fun pushed ok after => pushed.1 = ok ∧
        if ok then ∃ pair, Stores frame pushed.2 (entries ++ [(pair, ⟨key, value⟩)]) after
        else Stores frame pushed.2 entries after := fun owns =>
    (refines_pure ⟨rfl, stores.count, stores.room, spare, length, owns⟩).choose (alloc_chooses false)
  refine matches_strdup fun answer fresh => ?_
  cases answer with
  | none => exact failed owns
  | some k =>
    have first := owns.alloc (fresh k rfl) (.string key)
    refine matches_strdup fun answer fresh => ?_
    cases answer with
    | none =>
      exact matches_free (first.live List.mem_cons_self) (failed first.release)
    | some v =>
      have second := first.alloc (fresh v rfl) (.string value)
      obtain ⟨slot, rest, rfl⟩ := List.exists_cons_of_ne_nil (List.ne_nil_of_length_pos (by
        have count := stores.count
        omega : 0 < spare.length))
      have array := second.perm (@List.perm_middle _ (list.records, _) [(v, _), (k, _)] _)
      have inside : list.count < (filled entries ++ slot :: rest).length := by
        simp [stores.count]
      refine matches_storeRecord (array.here _ _ List.mem_cons_self) inside ?_
      refine (refines_pure ⟨rfl, (k, v), by simp [stores.count], stores.room, rest, ?_, ?_⟩).choose (alloc_chooses true)
      · simpa [Nat.add_comm 1, Nat.add_assoc] using length
      · rw [stores.count]
        exact (array.replace _).perm (written_blocks list entries slot rest k v ⟨key, value⟩)

theorem grow_matches {α β : Type} {f : Option Ptr → HeapProc α} {q : Proc β} {post : α → β → Memory → Prop}
    (stores : Stores frame list entries m) (full : list.count = list.capacity)
    (failed : Matches qsort (f none) m q post)
    (rest : ∀ new after, Stores frame { list with records := new, capacity := list.capacity * 2 } entries after →
      Matches qsort (f (some new)) after q post) :
    Matches qsort (heap (.reallocRecords list.records (list.capacity * 2)) >>= f) m q post := by
  have count := stores.count
  obtain ⟨spare, length, owns⟩ := stores.owned
  have none_spare : spare = [] := List.eq_nil_of_length_eq_zero (by omega)
  subst none_spare
  refine matches_reallocRecords (owns.here _ _ List.mem_cons_self) failed fun new moved => ?_
  have fresh : Function.update m list.records none new = none := by
    -- The array may grow where it is.
    rcases moved with rfl | free
    · exact Function.update_self ..
    · by_cases same : new = list.records
      · rw [same, Function.update_self]
      · rw [Function.update_of_ne same, free]
  have slots : (filled entries ++ []).take (list.capacity * 2) ++
      List.replicate (list.capacity * 2 - (filled entries ++ []).length) none =
      filled entries ++ List.replicate list.capacity (none : Option (Ptr × Ptr)) := by
    rw [List.append_nil, List.take_of_length_le (by rw [filled_length]; omega), filled_length]
    congr 2
    omega
  rw [slots]
  refine rest new _ ⟨count, Nat.mul_pos stores.room Nat.two_pos, List.replicate list.capacity none, ?_, ?_⟩
  · rw [List.length_replicate, ← count, full, ← Nat.mul_two]
  · exact owns.release.alloc fresh (.records (filled entries ++ List.replicate list.capacity none))

theorem push_matches (stores : Stores frame list entries m) (key value : Bytes) :
    Matches qsort (push list key value) m alloc fun pushed ok after => pushed.1 = ok ∧
      if ok then ∃ pair, Stores frame pushed.2 (entries ++ [(pair, ⟨key, value⟩)]) after
      else Stores frame pushed.2 entries after := by
  have count := stores.count
  unfold push
  split
  next full =>
    refine grow_matches stores full ?_ fun new after larger => ?_
    · exact (refines_pure ⟨rfl, stores⟩).choose (alloc_chooses false)
    · have room := stores.room
      refine append_matches larger ?_ key value
      change list.count < list.capacity * 2
      omega
  next partial_ =>
    obtain ⟨spare, length, -⟩ := stores.owned
    exact append_matches stores (by omega) key value

theorem pushAll_matches (records : List Record) (stores : Stores frame list entries m) :
    Matches qsort (pushAll records list) m (WorkerReduce.pushAll records (entries.map Prod.snd))
      fun pushed spec after => pushed.1 = spec.1 ∧
        ∃ all, Stores frame pushed.2 all after ∧ spec.2 = all.map Prod.snd := by
  induction records generalizing list entries m with
  | nil => exact refines_pure ⟨rfl, entries, stores, rfl⟩
  | cons r rest ih =>
    refine (push_matches stores r.key r.value).bind fun pushed ok after done => ?_
    obtain ⟨same, kept⟩ := done
    rw [same]
    cases ok with
    | false => exact refines_pure ⟨rfl, entries, kept, rfl⟩
    | true =>
      obtain ⟨pair, more⟩ := kept
      simpa using ih more

theorem readRecordsFile_matches (path : Bytes) (stores : Stores frame list entries m) :
    Matches qsort (readRecordsFile path list) m (WorkerReduce.readRecordsFile path (entries.map Prod.snd))
      fun read spec after => read.1 = spec.1 ∧ ∃ all, Stores frame read.2 all after ∧ spec.2 = all.map Prod.snd := by
  refine matches_file (c := .fopenRead path) fun content => ?_
  cases content with
  | none => exact refines_pure ⟨rfl, entries, stores, rfl⟩
  | some content =>
    refine (pushAll_matches _ stores).bind fun pushed spec after done => ?_
    obtain ⟨ok, list⟩ := spec
    obtain ⟨same, kept⟩ := done
    refine matches_file (c := .ferror path) fun failed => ?_
    refine matches_file (c := .fclose path) fun closed => ?_
    exact refines_pure ⟨by rw [same], kept⟩

theorem readInputs_matches (y : Nat) (xs : List Nat) (stores : Stores frame list entries m) :
    Matches qsort (readInputs y xs list) m (WorkerReduce.readInputs y xs (entries.map Prod.snd))
      fun read spec after => ∃ all, Stores frame read.2 all after ∧
        spec = if read.1 then some (all.map Prod.snd) else none := by
  induction xs generalizing list entries m with
  | nil => exact refines_pure ⟨entries, stores, rfl⟩
  | cons x xs ih =>
    unfold readInputs WorkerReduce.readInputs
    split
    · exact refines_pure ⟨entries, stores, rfl⟩
    · refine (readRecordsFile_matches _ stores).bind fun read spec after done => ?_
      obtain ⟨ok, records⟩ := spec
      obtain ⟨same, all, kept, rfl⟩ := done
      rw [same]
      cases ok with
      | false => exact refines_pure ⟨all, kept, rfl⟩
      | true => exact ih kept

theorem stores_spelled {spare : List (Option (Ptr × Ptr))} (owns : Owns frame (list.blocks entries spare) m) :
    ∀ e ∈ entries, m e.1.1 = some (.string e.2.key) ∧ m e.1.2 = some (.string e.2.value) := by
  intro e member
  have both : ∀ block ∈ [(e.1.1, Block.string e.2.key), (e.1.2, .string e.2.value)],
      block ∈ list.blocks entries spare :=
    fun block inside => List.mem_cons_of_mem _ (List.mem_cons_of_mem _ (List.mem_flatMap.mpr ⟨e, member, inside⟩))
  exact ⟨owns.here _ _ (both _ List.mem_cons_self), owns.here _ _ (both _ (List.mem_cons_of_mem _ List.mem_cons_self))⟩

section Slots

variable {slots spare : List (Option (Ptr × Ptr))} {i : Nat} {e : Entry} {rest : List Entry}
  (here : slots.drop i = filled (e :: rest) ++ spare)

include here

theorem slot_of_drop : slots[i]? = some (some e.1) := by
  have head := congrArg (·[0]?) here
  simpa [List.getElem?_drop] using head

theorem drop_of_drop : slots.drop (i + 1) = filled rest ++ spare := by
  have dropped := congrArg (List.drop 1) here
  simpa [List.drop_drop, Nat.add_comm] using dropped

end Slots

/-! ## Giving it back -/

theorem freeStrings_matches {records self : Ptr} {slots spare : List (Option (Ptr × Ptr))} {i : Nat}
    (remaining : List Entry) (here : slots.drop i = filled remaining ++ spare)
    (owns : Owns frame ((records, .records slots) :: (self, .list) :: strings remaining) m) :
    Matches qsort (freeStrings records remaining.length i) m (pure ()) fun _ _ after =>
      Owns frame [(records, .records slots), (self, .list)] after := by
  induction remaining generalizing m i with
  | nil => exact refines_pure owns
  | cons e rest ih =>
    have front : ([(records, Block.records slots), (self, .list)] ++ strings (e :: rest)).Perm
        ([(e.1.1, .string e.2.key), (e.1.2, .string e.2.value)] ++
          ([(records, .records slots), (self, .list)] ++ strings rest)) := by
      rw [show strings (e :: rest) = [(e.1.1, .string e.2.key), (e.1.2, .string e.2.value)] ++ strings rest from rfl,
        ← List.append_assoc, ← List.append_assoc]
      exact List.perm_append_comm.append_right _
    have first := owns.perm front
    refine matches_loadRecord (owns.here _ _ List.mem_cons_self) (slot_of_drop here) ?_
    refine matches_free (first.live List.mem_cons_self) ?_
    have second := first.release
    refine matches_free (second.live List.mem_cons_self) ?_
    exact ih (drop_of_drop here) second.release

theorem destroy_matches (stores : Stores frame list entries m) :
    Matches qsort (destroy list) m (pure ()) fun _ _ after => after = frame := by
  obtain ⟨spare, -, owns⟩ := stores.owned
  unfold destroy
  rw [stores.count]
  refine (freeStrings_matches entries rfl owns).within fun _ after left => ?_
  refine matches_free (left.live List.mem_cons_self) ?_
  have last := left.release
  exact matches_free (last.live List.mem_cons_self) (refines_pure last.release.eq_frame)

/-! ## The group walk -/

/-- The string is allocated. -/
def Reads (m : Memory) (p : Ptr) (text : Bytes) : Prop := m p = some (.string text)

theorem loadStrings_matches {vals : List Ptr} {values : List Bytes} (valued : List.Forall₂ (Reads m) vals values) :
    Matches qsort (loadStrings vals) m (pure ()) fun texts _ after => texts = values ∧ after = m := by
  induction valued with
  | nil => exact refines_pure ⟨rfl, rfl⟩
  | cons found _ ih =>
    refine matches_loadString found (ih.within fun texts after done => ?_)
    obtain ⟨rfl, rfl⟩ := done
    exact refines_pure ⟨rfl, rfl⟩

section Walk

variable {fold : WorkerReduce.Fold} {out : Bytes} {cur : Option Ptr} {curKey : Option Bytes} {vals : List Ptr}
  {values : List Bytes} (named : Option.Rel (Reads m) cur curKey) (valued : List.Forall₂ (Reads m) vals values)

include named

theorem sameKey_matches {key : Ptr} {text : Bytes} (found : Reads m key text) :
    Matches qsort (sameKey key cur) m (pure ()) fun same _ after =>
      same = curKey.any (strcmp text · == .eq) ∧ after = m := by
  cases named with
  | none => exact refines_pure ⟨rfl, rfl⟩
  | some current => exact matches_loadString found (matches_loadString current (refines_pure ⟨rfl, rfl⟩))

include valued

theorem flush_matches (keyed : cur = none → vals = []) :
    Matches qsort (flush fold out cur vals) m (WorkerReduce.flush fold out curKey values)
      fun _ _ after => after = m := by
  cases valued with
  | nil =>
    cases named <;> exact refines_pure rfl
  | cons found rest =>
    cases named with
    | none => cases keyed rfl
    | some current =>
      refine matches_loadString current ?_
      refine (loadStrings_matches (.cons found rest)).within fun texts after done => ?_
      obtain ⟨rfl, rfl⟩ := done
      exact (refines_outer (V := files) (.fprintf out _)).mono fun _ _ _ done => done.2

end Walk

/-- By induction on the entries still to come: the pointers of the current group stay good, since nothing is freed. -/
theorem groupWalk_matches (fold : WorkerReduce.Fold) (out : Bytes) {records : Ptr}
    {slots spare : List (Option (Ptr × Ptr))} (array : m records = some (.records slots)) (remaining : List Entry)
    {i : Nat} (here : slots.drop i = filled remaining ++ spare)
    (spelled : ∀ e ∈ remaining, Reads m e.1.1 e.2.key ∧ Reads m e.1.2 e.2.value) {cur : Option Ptr}
    {curKey : Option Bytes} {vals : List Ptr} {values : List Bytes} (named : Option.Rel (Reads m) cur curKey)
    (valued : List.Forall₂ (Reads m) vals values) (keyed : cur = none → vals = []) :
    Matches qsort (groupWalk fold out records remaining.length i cur vals) m
      (WorkerReduce.groupWalk fold out curKey values (remaining.map Prod.snd)) fun ok spec after =>
        ok = spec ∧ after = m := by
  induction remaining generalizing i cur curKey vals values with
  | nil =>
    refine (flush_matches named valued keyed).bind fun _ _ after same => ?_
    subst same
    exact refines_pure ⟨rfl, rfl⟩
  | cons e rest ih =>
    obtain ⟨key, value⟩ := spelled e List.mem_cons_self
    have later := fun f member => spelled f (List.mem_cons_of_mem e member)
    refine matches_loadRecord array (slot_of_drop here) ?_
    refine (sameKey_matches named key).within fun same after done => ?_
    obtain ⟨rfl, rfl⟩ := done
    simp only [List.map_cons, WorkerReduce.groupWalk]
    split
    next inside =>
      rw [← valued.length_eq]
      split
      · exact refines_pure ⟨rfl, rfl⟩
      · refine ih (drop_of_drop here) later named (List.rel_append valued (.cons value .nil)) fun absent => ?_
        subst absent
        cases named
        cases inside
    · -- The new group points at strings of the list, as the old one did.
      refine (flush_matches named valued keyed).bind fun _ _ after same => ?_
      subst same
      exact ih (drop_of_drop here) later (.some key) (.cons value .nil) fun absent => by cases absent

/-! ## Publishing -/

theorem text_of_reads {p : Ptr} {text : Bytes} (found : Reads m p text) : m.text p = text := by
  unfold Memory.text
  rw [show m p = some (.string text) from found]

theorem stores_record {spare : List (Option (Ptr × Ptr))} (owns : Owns frame (list.blocks entries spare) m) :
    entries.map (fun e => (e.1, m.record e.1)) = entries := by
  refine (List.map_congr_left fun e member => ?_).trans (List.map_id entries)
  obtain ⟨key, value⟩ := stores_spelled owns e member
  rw [Memory.record, text_of_reads key, text_of_reads value]
  rfl

theorem sorted_pairs (qsort : QSort) (m : Memory) (pairs : List (Ptr × Ptr)) :
    ∃ answer : List (Ptr × Ptr), answer.Perm pairs ∧ answer.map m.record = qsort.sort (pairs.map m.record) := by
  have arranged := congrFun (congrFun (List.eq_map_comp_perm m.record) (qsort.sort (pairs.map m.record))) pairs
  obtain ⟨answer, sorted, perm⟩ := arranged.mpr (qsort.perm _)
  exact ⟨answer, perm, sorted.symm⟩

theorem matches_qsort {α β : Type} {f : List (Ptr × Ptr) → HeapProc α} {q : Proc β} {post : α → β → Memory → Prop}
    (stores : Stores frame list entries m)
    (rest : ∀ answer sorted after, sorted.map Prod.snd = qsort.sort (entries.map Prod.snd) →
      Stores frame list sorted after → Matches qsort (f answer) after q post) :
    Matches qsort (heap (.qsort list.records list.count) >>= f) m q post := by
  obtain ⟨spare, length, owns⟩ := stores.owned
  have count := stores.count
  have array : m list.records = some (.records (filled entries ++ spare)) := owns.here _ _ List.mem_cons_self
  have spelled : ∀ e ∈ entries, Reads m e.1.1 e.2.key ∧ Reads m e.1.2 e.2.value := stores_spelled owns
  have whole := stores_record owns
  have records : (entries.map Prod.fst).map m.record = entries.map Prod.snd := by
    have second := congrArg (List.map Prod.snd) whole
    simpa using second
  have front : (filled entries ++ spare).take list.count = (entries.map Prod.fst).map some := by
    rw [count, List.take_append_of_le_length (by simp), List.take_of_length_le (by simp)]
    simp [filled]
  refine matches_heap (c := .qsort list.records list.count) ?_ fun answer sorts => ?_
  · obtain ⟨answer, perm, sorted⟩ := sorted_pairs qsort m (entries.map Prod.fst)
    refine ⟨answer, _, _, array, front, by simp [count], fun pair member => ?_, perm, sorted⟩
    obtain ⟨e, inside, rfl⟩ := List.mem_map.mp member
    rw [text_of_reads (spelled e inside).1]
    exact (spelled e inside).1
  · obtain ⟨slots, pairs, found, taken, -, -, perm, sorted⟩ := sorts
    cases array.symm.trans found
    have same : pairs = entries.map Prod.fst :=
      List.map_injective_iff.mpr (Option.some_injective _) (taken.symm.trans front)
    subst same
    -- The pointers are permuted, and each takes its record along.
    let moved : List Entry := answer.map fun pair => (pair, m.record pair)
    have entries_perm : moved.Perm entries := by
      have mapped := perm.map fun pair => (pair, m.record pair)
      rw [List.map_map] at mapped
      exact mapped.trans (List.Perm.of_eq whole)
    have slots : answer.map some ++ (filled entries ++ spare).drop list.count = filled moved ++ spare := by
      rw [count, ← filled_length entries, List.drop_left]
      simp [moved, filled]
    refine ⟨_, by simp only [Memory.rule, array]; rfl, rest answer moved _ ?_ ⟨?_, stores.room, spare, ?_, ?_⟩⟩
    · rw [← records, ← sorted]
      simp [moved]
    · rw [count, entries_perm.length_eq]
    · rw [entries_perm.length_eq, length]
    · rw [slots]
      refine (owns.replace _).perm (.cons _ (.cons _ ?_))
      exact (entries_perm.symm.flatMap_right _)

theorem publish_matches (fold : WorkerReduce.Fold) (temp final : Bytes) (stores : Stores frame list entries m) :
    Matches qsort (publish fold temp final list) m
      (WorkerReduce.publish fold temp final (qsort.sort (entries.map Prod.snd))) fun ok spec after =>
        ok = spec ∧ ∃ all, Stores frame list all after := by
  refine matches_qsort stores fun _ all m sorted kept => ?_
  rw [← sorted]
  obtain ⟨spare, -, owns⟩ := kept.owned
  have ended : ∀ {ok : Bool}, Matches qsort (pure ok) m (pure ok) fun ok spec after =>
      ok = spec ∧ ∃ all, Stores frame list all after := refines_pure ⟨rfl, all, kept⟩
  have give_up : Matches qsort (do let _ ← file (.fclose temp); pure false) m
      (do let _ ← fclose temp; pure false) fun ok spec after => ok = spec ∧ ∃ all, Stores frame list all after :=
    matches_file (c := .fclose temp) fun _ => ended
  refine matches_file (c := .fopenWrite temp) fun opened => ?_
  cases opened with
  | false => exact ended
  | true =>
    have walked : Matches qsort _ _ _ _ := groupWalk_matches fold temp (owns.here _ _ List.mem_cons_self) all
      (List.drop_zero ..) (stores_spelled owns) .none .nil fun _ => rfl
    rw [← kept.count] at walked
    refine walked.bind fun ok _ after same => ?_
    obtain ⟨rfl, rfl⟩ := same
    cases ok with
    | false => exact give_up
    | true =>
      refine matches_file (c := .ferror temp) fun failed => ?_
      cases failed with
      | true => exact give_up
      | false =>
        refine matches_file (c := .fclose temp) fun closed => ?_
        cases closed with
        | false => exact ended
        | true =>
          refine (refines_outer (V := files) (.rename temp final)).mono fun ok spec after same => ?_
          obtain ⟨rfl, rfl⟩ := same
          exact ⟨rfl, all, kept⟩

variable (qsort) in
/-- The task with its memory is the task with plain lists, and gives back all it has allocated. -/
theorem workerReduceRun_matches (y attemptId pid : Nat) {nMap : Nat} (some_map : nMap ≠ 0) (fold : WorkerReduce.Fold)
    (m : Memory) :
    Matches qsort (workerReduceRun y attemptId pid nMap fold) m
      (MapReduce.workerReduceRun qsort y attemptId pid nMap fold) fun ok spec after => ok = spec ∧ after = m := by
  unfold workerReduceRun MapReduce.workerReduceRun
  rw [if_neg some_map, if_neg some_map]
  refine (create_matches m).bind fun list ok after made => ?_
  cases list with
  | none =>
    obtain ⟨rfl, rfl⟩ := made
    exact refines_pure ⟨rfl, rfl⟩
  | some list =>
    obtain ⟨rfl, stores⟩ := made
    simp only [↓reduceIte]
    split
    · exact (destroy_matches stores).within fun _ after clean => refines_pure ⟨rfl, clean⟩
    · refine (readInputs_matches y (List.range nMap) stores).bind fun read spec after done => ?_
      obtain ⟨all, kept, rfl⟩ := done
      have finish : ∀ {ok : Bool} {after : Memory} {all : List Entry}, Stores m read.2 all after →
          Matches qsort (do destroy read.2; pure ok) after (pure ok) fun ok spec after => ok = spec ∧ after = m :=
        fun kept => (destroy_matches kept).within fun _ after clean => refines_pure ⟨rfl, clean⟩
      cases read.1 with
      | false => exact finish kept
      | true =>
        refine (publish_matches fold _ _ kept).cleanup fun ok spec after done => ?_
        obtain ⟨rfl, all, kept⟩ := done
        exact finish kept

end Lists

/-- Whatever the files and the allocator answer, a reduce attempt makes no call to the heap that is not defined. From
outside it is an attempt with plain lists, and when it returns the heap is as it was before. -/
theorem reduce_heap_restored (qsort : QSort) (taskId attemptId pid : Nat) {nMap : Nat} (some_map : nMap ≠ 0)
    (fold : WorkerReduce.Fold) (m : Memory) {events : List (Event (files.sum heapCalls))} {p : HeapProc Bool}
    (makes : Makes (workerReduceRun taskId attemptId pid nMap fold) events p)
    (answers : Runs.Along Memory.rule (Memory.Possible qsort) m (events.filterMap Event.inner?)) :
    ∃ after seen q, Runs.run Memory.rule m (events.filterMap Event.inner?) = some after ∧
      Makes (MapReduce.workerReduceRun qsort taskId attemptId pid nMap fold) seen q ∧
      seen.filter (fun event => !isAlloc event.1) =
        (events.filterMap Event.outer?).filter (fun event => !isAlloc event.1) ∧
      match p with
      | .done ok => q = .done ok ∧ after = m
      | .call (.inl _) _ => True
      | .call (.inr c) _ => (∃ answer, Memory.Possible qsort after ⟨c, answer⟩) ∧
          ∀ answer, Memory.Possible qsort after ⟨c, answer⟩ → Memory.rule after ⟨c, answer⟩ ≠ none
      | .stuck => False := by
  have refines := workerReduceRun_matches qsort taskId attemptId pid some_map fold m
  obtain ⟨seen, q, after, follows, same, ran, left⟩ := refines.makes makes answers
  match p with
  | .done ok =>
    obtain ⟨_, chooses, rfl, rfl⟩ := left
    obtain ⟨chosen, later, silent⟩ := chooses.makes
    refine ⟨after, seen ++ chosen, .done ok, ran, follows.trans later, ?_, rfl, rfl⟩
    rw [List.filter_append, silent, List.append_nil, same]
  | .call (.inl _) _ => exact ⟨after, seen, q, ran, follows, same, trivial⟩
  | .call (.inr c) next =>
    refine ⟨after, seen, q, ran, follows, same, left.1, fun answer possible => ?_⟩
    obtain ⟨later, taken, -⟩ := left.2 answer possible
    rw [taken]
    exact Option.some_ne_none later
  | .stuck => exact left.elim

def sampleAttempt : List (Event (files.sum heapCalls)) :=
  let input := ascii "intermediate/mr-0-0"
  let temp := ascii "output/mr-out-0.tmp.7.1"
  [⟨.inr .mallocList, some 0⟩, ⟨.inr (.callocRecords 4), some 1⟩, ⟨.inl (.fopenRead input), some (ascii "a\t1\n")⟩,
    ⟨.inr (.strdup (ascii "a")), some 2⟩, ⟨.inr (.strdup (ascii "1")), some 3⟩, ⟨.inr (.storeRecord 1 0 2 3), ()⟩,
    ⟨.inl (.ferror input), false⟩, ⟨.inl (.fclose input), true⟩, ⟨.inr (.qsort 1 1), [(2, 3)]⟩,
    ⟨.inl (.fopenWrite temp), true⟩, ⟨.inr (.loadRecord 1 0), (2, 3)⟩, ⟨.inr (.loadString 2), ascii "a"⟩,
    ⟨.inr (.loadString 3), ascii "1"⟩, ⟨.inl (.fprintf temp (ascii "a\t1\n")), ()⟩, ⟨.inl (.ferror temp), false⟩,
    ⟨.inl (.fclose temp), true⟩, ⟨.inl (.rename temp (ascii "output/mr-out-0")), true⟩,
    ⟨.inr (.loadRecord 1 0), (2, 3)⟩, ⟨.inr (.free 2), ()⟩, ⟨.inr (.free 3), ()⟩, ⟨.inr (.free 1), ()⟩,
    ⟨.inr (.free 0), ()⟩]

def sampleHeapUse : List (Event heapCalls) :=
  [⟨.mallocList, some 0⟩, ⟨.callocRecords 4, some 1⟩, ⟨.strdup (ascii "a"), some 2⟩, ⟨.strdup (ascii "1"), some 3⟩,
    ⟨.storeRecord 1 0 2 3, ()⟩, ⟨.qsort 1 1, [(2, 3)]⟩, ⟨.loadRecord 1 0, (2, 3)⟩, ⟨.loadString 2, ascii "a"⟩,
    ⟨.loadString 3, ascii "1"⟩, ⟨.loadRecord 1 0, (2, 3)⟩, ⟨.free 2, ()⟩, ⟨.free 3, ()⟩, ⟨.free 1, ()⟩,
    ⟨.free 0, ()⟩]

theorem reduce_heap_restored_sample :
    Runs.run Memory.rule (fun _ => none) sampleHeapUse = some (fun _ => none) ∧
      ∃ seen, Makes (MapReduce.workerReduceRun .insertion 0 1 7 1 WorkerReduce.foldWordCount) seen (.done true) := by
  have makes : Makes (workerReduceRun 0 1 7 1 WorkerReduce.foldWordCount) sampleAttempt (.done true) := by
    unfold sampleAttempt
    iterate 22 refine .cons _ ?_
    exact .nil _
  have answers : Runs.Along Memory.rule (Memory.Possible .insertion) (fun _ => none)
      (sampleAttempt.filterMap Event.inner?) := by
    change Runs.Along Memory.rule (Memory.Possible .insertion) (fun _ => none) sampleHeapUse
    simp [sampleHeapUse, Runs.Along, Memory.rule, Memory.allocated, Memory.Possible, List.replicate, Memory.text,
      QSort.insertion]
  obtain ⟨after, seen, _, ran, follows, -, rfl, rfl⟩ :=
    reduce_heap_restored .insertion 0 1 7 (by decide) WorkerReduce.foldWordCount (fun _ => none) makes answers
  exact ⟨ran, seen, follows⟩

end MapReduce.RecordList
