import MapReduce.Server.Application

/-! Connection accounting: `clients_count` and the calls of `on_disconnect`.

A client is removed from six places. The count and the notices stay right as
long as no handler loses its own client: then the failing send removes it, and
the caller of the handler removes it once more.
-/

set_option autoImplicit false

namespace MapReduce

/-- Whether the application holds a connection open, by the notices so far: `none` after a second connect or a
second disconnect in a row. -/
def Notice.track (fd : Fd) : Option Bool → Notice → Option Bool
  | some isOpen, .connected other => if other = fd then (if isOpen then none else some true) else some isOpen
  | some isOpen, .disconnected other => if other = fd then (if isOpen then some false else none) else some isOpen
  | none, _ => none

def openAfter (fd : Fd) (notices : List Notice) : Option Bool := notices.foldl (Notice.track fd) (some false)

theorem openAfter_snoc (fd : Fd) (notices : List Notice) (notice : Notice) :
    openAfter fd (notices ++ [notice]) = Notice.track fd (openAfter fd notices) notice := by
  simp [openAfter]

namespace Server

variable {σ ε : Type}

def activeCount (s : Server σ) : Nat := (Table.mk s.clients).countBelow Client.active maxFds

theorem activeCount_le (s : Server σ) : s.activeCount ≤ maxFds := by
  have bound : s.activeCount ≤ (List.range maxFds).length := List.countP_le_length
  rwa [List.length_range] at bound

theorem read_client (clients : Fd → Client) (fd : Fd) : (Table.mk clients).read fd.val = some (clients fd) := by
  simp [Table.read]

theorem activeCount_congr {s after : Server σ} (same : ∀ fd, (after.clients fd).active = (s.clients fd).active) :
    after.activeCount = s.activeCount := by
  refine Table.countBelow_congr fun i inside => ?_
  have after_read := read_client after.clients ⟨i, inside⟩
  have before_read := read_client s.clients ⟨i, inside⟩
  simp only at after_read before_read
  rw [after_read, before_read, Option.any_some, Option.any_some, same]

theorem activeCount_succ {s after : Server σ} {fd : Fd} (off : (s.clients fd).active = false)
    (on : (after.clients fd).active = true)
    (same : ∀ other, other ≠ fd → (after.clients other).active = (s.clients other).active) :
    after.activeCount = s.activeCount + 1 := by
  refine Table.countBelow_insert fd.isLt ?_ ?_ fun i ne => ?_
  · rw [read_client, Option.any_some, off]
  · rw [read_client, Option.any_some, on]
  · by_cases inside : i < maxFds
    · have after_read := read_client after.clients ⟨i, inside⟩
      have before_read := read_client s.clients ⟨i, inside⟩
      simp only at after_read before_read
      rw [after_read, before_read, Option.any_some, Option.any_some,
        same ⟨i, inside⟩ fun eq => ne (congrArg Fin.val eq)]
    · simp [Table.read, inside]

/-- The count is the number of active slots, and every connection is known to the application as long as its
slot is active. -/
structure Counted (s : Server σ) : Prop where
  count : s.clientsCount = s.activeCount
  known : ∀ fd, openAfter fd s.notices = some (s.clients fd).active

variable {app : App σ ε} {fd : Fd} {s : Server σ}

theorem init_counted (state : σ) (now clientTimeoutS : Int) : (init state now clientTimeoutS).Counted where
  count := by
    have none_active : (init state now clientTimeoutS).activeCount = 0 := by
      refine List.countP_eq_zero.mpr fun i member => ?_
      simp [init, Table.read, List.mem_range.mp member, Client.zero]
    rw [none_active]
    rfl
  known := fun _ => rfl

theorem Counted.congr {after : Server σ} (counted : s.Counted) (count : after.clientsCount = s.clientsCount)
    (active : ∀ fd, (after.clients fd).active = (s.clients fd).active) (notices : after.notices = s.notices) :
    after.Counted where
  count := by rw [count, counted.count, activeCount_congr active]
  known := fun fd => by rw [notices, counted.known, active]

theorem Counted.kept {after : Server σ} (counted : s.Counted) (kept : Kept fd s after) : after.Counted := by
  refine counted.congr kept.count (fun other => ?_) kept.notices
  by_cases same : other = fd
  · exact same ▸ kept.read.active
  · rw [kept.others other same]

theorem Counted.setClient (counted : s.Counted) {c : Client} (same : c.active = (s.clients fd).active) :
    (s.setClient fd c).Counted := by
  refine counted.congr rfl (fun other => ?_) rfl
  by_cases here : other = fd
  · subst here
    simpa [Server.setClient] using same
  · simp [Server.setClient, Function.update_of_ne here]

theorem removeClient_count (app : App σ ε) (s : Server σ) (fd : Fd) :
    (s.removeClient app fd).clientsCount = (s.clientsCount + (2 ^ 64 - 1)) % 2 ^ 64 := rfl

theorem removeClient_notices (app : App σ ε) (s : Server σ) (fd : Fd) :
    (s.removeClient app fd).notices = s.notices ++ [.disconnected fd] := rfl

theorem Counted.remove (counted : s.Counted) (active : (s.clients fd).active = true) :
    (s.removeClient app fd).Counted where
  count := by
    have fewer : s.activeCount = (s.removeClient app fd).activeCount + 1 := by
      refine activeCount_succ ?_ active fun other ne => ?_
      · simp [removeClient, Client.zero]
      · rw [(local_removeClient app s fd).clients other ne]
    have bound := s.activeCount_le
    have limit : maxFds = 1024 := rfl
    rw [removeClient_count, counted.count]
    omega
  known := fun other => by
    rw [removeClient_notices, openAfter_snoc, counted.known]
    by_cases same : other = fd
    · subst same
      simp [Notice.track, active, removeClient, Client.zero]
    · rw [(local_removeClient app s fd).clients other same]
      simp [Notice.track, Ne.symm same]

/-- Removing a client that is gone already breaks them: the count is one too low, or wraps around. -/
theorem Counted.remove_twice (counted : s.Counted) (gone : (s.clients fd).active = false) :
    (s.removeClient app fd).clientsCount ≠ (s.removeClient app fd).activeCount ∧
      openAfter fd (s.removeClient app fd).notices = none := by
  constructor
  · have same : (s.removeClient app fd).activeCount = s.activeCount := by
      refine activeCount_congr fun other => ?_
      by_cases here : other = fd
      · subst here
        simp [removeClient, Client.zero, gone]
      · rw [(local_removeClient app s fd).clients other here]
    have bound := s.activeCount_le
    have limit : maxFds = 1024 := rfl
    rw [same, removeClient_count, counted.count]
    omega
  · rw [removeClient_notices, openAfter_snoc, counted.known, gone]
    simp [Notice.track]

/-! ## The callbacks -/

/-- No write that a handler's send makes during the event fails hard. A send that has to wait behind earlier bytes,
or is refused, makes none. -/
def Event.SendsHold (app : App σ ε) (s : Server σ) (event : Event ε) : Prop :=
  ∀ call ∈ event.sends app s, call.client.WritesAtOnce call.data → call.result.write ≠ .hardError

instance (app : App σ ε) (s : Server σ) (event : Event ε) : Decidable (event.SendsHold app s) :=
  inferInstanceAs (Decidable (∀ call ∈ event.sends app s, call.client.WritesAtOnce call.data →
    call.result.write ≠ .hardError))

theorem processBuffer_counted {during : During ε} {rounds k : Nat} {after : Server σ}
    (sent : ∀ call ∈ bufferSends app during fd rounds k s, call.client.WritesAtOnce call.data →
      call.result.write ≠ .hardError) (counted : s.Counted) (active : (s.clients fd).active = true)
    (processed : processBuffer app during fd rounds k s = some after) : after.Counted := by
  induction rounds generalizing k s with
  | zero => cases processed
  | succ rounds ih =>
    cases processBuffer_round processed with
    | waits short same => exact same ▸ counted
    | oversize large removed => exact removed ▸ counted.remove active
    | refused payload handling mid found asked handled removed =>
      subst removed
      rcases handle_cases handled with kept | ⟨⟨call, made, lost⟩, -⟩
      · have noted : (mid.noteDelivered fd payload false).Counted :=
          (counted.kept kept).congr rfl (fun _ => rfl) rfl
        exact noted.remove (kept.read.active.trans active)
      · obtain ⟨writes, hard⟩ := Client.writesAtOnce_of_lost lost
        exact absurd hard (sent call (bufferSends_send found asked made) writes)
    | accepted payload handling mid found asked handled kept later =>
      have noted : (mid.noteDelivered fd payload true).Counted :=
        (counted.kept kept).congr rfl (fun _ => rfl) rfl
      refine ih (fun call made => sent call (bufferSends_later found asked handled made)) ?_ ?_ later
      · exact noted.setClient rfl
      · simpa [dropFrame, Server.setClient, noteDelivered] using kept.read.active.trans active

/-- Every reply that loses its client breaks the books: the caller of the handler removes the client again. -/
theorem processBuffer_lost_reply {during : During ε} {rounds k : Nat} {payload : Bytes} {handling : Handling σ}
    {mid : Server σ} (counted : s.Counted) (active : (s.clients fd).active = true)
    (found : frontFrame (s.clients fd).buf = .message payload)
    (asked : app.onMessage s.app fd payload (during k).1 = some handling)
    (handled : s.handle app fd (during k).2 handling = some (mid, false))
    (lost : (mid.clients fd).active = false) :
    ∃ after, processBuffer app during fd (rounds + 1) k s = some after ∧
      after.clientsCount ≠ after.activeCount ∧ openAfter fd after.notices = none := by
  refine ⟨(mid.noteDelivered fd payload false).removeClient app fd, ?_, ?_⟩
  · simp [processBuffer, found, asked, handled]
  · rcases handle_cases handled with kept | ⟨-, before, state, kept, rfl⟩
    · rw [kept.read.active, active] at lost
      cases lost
    · have once : (before.removeClient app fd).Counted :=
        (counted.kept kept).remove (kept.read.active.trans active)
      have noted : (({ before.removeClient app fd with app := state } : Server σ).noteDelivered fd payload
          false).Counted := once.congr rfl (fun _ => rfl) rfl
      exact noted.remove_twice lost

theorem onRead_counted {result : SocketRead} {during : During ε} {after : Server σ}
    (on : s.readHandlers fd = true) (sent : (Event.readable fd result during).SendsHold app s) (counted : s.Counted)
    (read : s.onRead app fd result during = some after) : after.Counted := by
  cases onRead_step read with
  | idle same => exact same ▸ counted
  | removed active same => exact same ▸ counted.remove active
  | data chunk arrived active some_byte fits processed =>
    subst arrived
    rw [Event.SendsHold, Event.sends_data on active] at sent
    have stored : (s.setClient fd { s.clients fd with
        lastActiveMs := s.nowMs, buf := (s.clients fd).buf ++ chunk }).Counted := counted.setClient rfl
    refine processBuffer_counted sent ?_ ?_ processed
    · exact stored.congr rfl (fun _ => rfl) rfl
    · simpa [noteReceived, Server.setClient] using active

theorem onWrite_counted {result : SocketWrite} {during : During ε} {after : Server σ}
    (on : s.writeHandlers fd = true) (sent : (Event.writable fd result during).SendsHold app s) (counted : s.Counted)
    (active : (s.clients fd).active = true)
    (written : s.onWrite app fd result during = some after) : after.Counted := by
  cases onWrite_step written with
  | removed same => exact same ▸ counted.remove active
  | waiting c same_read same => exact same ▸ counted.setClient same_read.active
  | drained drains processed =>
    rw [Event.SendsHold, Event.sends_drained on drains] at sent
    have same_read := (s.clients fd).flush_sameRead result
    have stored : (s.setClient fd ((s.clients fd).flush result).client).Counted := counted.setClient same_read.active
    refine processBuffer_counted sent ?_ ?_ processed
    · exact stored.congr rfl (fun _ => rfl) rfl
    · simpa [watchWrite, Server.setClient] using same_read.active.trans active

theorem onAccept_counted {result : Accept} {after : Server σ} (counted : s.Counted)
    (accepted : s.onAccept app result = some after) : after.Counted := by
  have bound := s.activeCount_le
  have limit : maxFds = 1024 := rfl
  cases result with
  | refused => exact Option.some.inj accepted ▸ counted
  | taken fd registered =>
    simp only [onAccept] at accepted
    split at accepted
    · cases accepted
    next free =>
      have off : (s.clients fd).active = false := Bool.eq_false_iff.mpr free
      cases registered with
      | true =>
        cases accepted
        constructor
        · rw [activeCount_succ off (by simp [Client.accepted]) fun other ne => by
            simp [Function.update_of_ne ne]]
          simp only [counted.count]
          omega
        · intro other
          rw [openAfter_snoc, counted.known]
          by_cases same : other = fd
          · subst same
            simp [Notice.track, off, Client.accepted]
          · simp [Notice.track, Ne.symm same, Function.update_of_ne same]
      | false =>
        cases accepted
        refine counted.congr ?_ (fun other => ?_) rfl
        · simp only [counted.count]
          omega
        · by_cases same : other = fd
          · subst same
            simp [off, Client.zero]
          · simp [Function.update_of_ne same]

theorem next_counted (s : Server σ) (event : Event ε) (after : Server σ) (sound : s.Watched ∧ s.Counted)
    (holds : event.SendsHold app s) (taken : s.next app event = some after) : after.Watched ∧ after.Counted := by
  refine ⟨next_watched sound.1 taken, ?_⟩
  obtain ⟨watched, counted⟩ := sound
  cases event with
  | accept result => exact onAccept_counted counted taken
  | readable fd result during =>
    simp only [next] at taken
    split at taken
    next on => exact onRead_counted on holds counted taken
    · exact Option.some.inj taken ▸ counted
  | writable fd result during =>
    simp only [next] at taken
    split at taken
    next on => exact onWrite_counted on holds counted (watched fd on) taken
    · exact Option.some.inj taken ▸ counted
  | checkTimeouts =>
    rw [← Option.some.inj taken]
    exact checkFrom_invariant (fun s fd (inv : s.Counted) active => inv.remove active) _ _ counted
  | beforeSleep now realtime =>
    exact beforeSleep_invariant (fun s fd (inv : s.Counted) active => inv.remove active)
      (fun _ _ _ _ _ inv => inv.congr rfl (fun _ => rfl) rfl) counted taken
  | shutdown =>
    rw [← Option.some.inj taken]
    exact counted.congr rfl (fun _ => rfl) rfl

end Server

/-- As long as no handler's send fails hard, the count is the number of active slots and the application has
been told of the end of exactly the connections that have ended, once each. -/
theorem connections_accounted {σ ε : Type} (app : App σ ε) {state : σ} {now clientTimeoutS : Int}
    {events : List (Server.Event ε)} {s : Server σ}
    (holds : Runs.Along (Server.next app) (fun s event => event.SendsHold app s)
      (Server.init state now clientTimeoutS) events)
    (reached : Runs.run (Server.next app) (Server.init state now clientTimeoutS) events = some s) :
    s.clientsCount = s.activeCount ∧ ∀ fd, openAfter fd s.notices = some (s.clients fd).active := by
  have start : (Server.init state now clientTimeoutS).Watched ∧ (Server.init state now clientTimeoutS).Counted :=
    ⟨nofun, Server.init_counted state now clientTimeoutS⟩
  obtain ⟨-, counted⟩ := Runs.along_invariant Server.next_counted start holds reached
  exact ⟨counted.count, counted.known⟩

def askOnce (result : SocketWrite) : List (Server.Event LogEnv) :=
  [.accept (.taken Server.sampleFd true),
    .readable Server.sampleFd (.data [0, 0, 0, 1, 1]) (Server.allWrites result)]

theorem connections_accounted_ask :
    ∃ s, Runs.run (Server.next masterApp) Server.sample (askOnce (.wrote bufSize)) = some s ∧
      s.clientsCount = s.activeCount ∧ openAfter Server.sampleFd s.notices = some true := by
  have ran : (Runs.run (Server.next masterApp) Server.sample (askOnce (.wrote bufSize))).any (fun s =>
      (s.clients Server.sampleFd).active) = true := by
    decide +kernel
  obtain ⟨s, reached, active⟩ := (Option.any_eq_true _ _).mp ran
  have holds : Runs.Along (Server.next masterApp) (fun s event => event.SendsHold masterApp s) Server.sample
      (askOnce (.wrote bufSize)) := by
    decide +kernel
  obtain ⟨count, known⟩ := connections_accounted masterApp holds reached
  exact ⟨s, reached, count, by rw [known, active]⟩

/-- A hard error on the reply removes the client twice: the count wraps around and the master is told twice. -/
theorem lost_reply_counted_twice :
    ∃ s, Runs.run (Server.next masterApp) Server.sample (askOnce .hardError) = some s ∧ s.activeCount = 0 ∧
      s.clientsCount = 2 ^ 64 - 1 ∧
      s.notices = [.connected Server.sampleFd, .disconnected Server.sampleFd, .disconnected Server.sampleFd] := by
  have ran : (Runs.run (Server.next masterApp) Server.sample (askOnce .hardError)).any (fun s =>
      s.activeCount == 0 && (s.clientsCount == 2 ^ 64 - 1 && s.notices ==
        [.connected Server.sampleFd, .disconnected Server.sampleFd, .disconnected Server.sampleFd])) = true := by
    decide +kernel
  obtain ⟨s, reached, holds⟩ := (Option.any_eq_true _ _).mp ran
  simp only [Bool.and_eq_true, beq_iff_eq] at holds
  exact ⟨s, reached, holds⟩

end MapReduce
