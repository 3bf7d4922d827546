import MapReduce.Server.Application

/-! What the event loop watches.

Every client that the server keeps is watched for reading, and one is watched
for writing only while bytes wait in its write buffer, so that `on_write` never
writes nothing. As long as every `el_add_write` succeeds, it is watched all that
while, and no byte is forgotten: `queue_write` does not look at the result, so
this cannot be had for less. All of it holds for any application.
-/

set_option autoImplicit false

namespace MapReduce

namespace Client

theorem flush_drained {c : Client} {result : SocketWrite} (drained : (c.flush result).ending = .drained) :
    (c.flush result).client.pending = [] := by
  cases result with
  | hardError => cases drained
  | again => cases drained
  | wrote n =>
    simp only [flush] at drained ⊢
    split
    · rfl
    next more => simp only [if_neg more] at drained; cases drained

theorem flush_waiting {c : Client} {result : SocketWrite} (ready : c.Buffered) (more : c.pending ≠ [])
    (waiting : (c.flush result).ending = .waiting) : (c.flush result).client.pending ≠ [] := by
  have after := (flush_buffered ready result).offset
  cases result with
  | hardError => cases waiting
  | again => exact more
  | wrote n =>
    simp only [flush] at waiting after ⊢
    split at waiting
    · cases waiting
    next left =>
      simp only [if_neg left] at after ⊢
      refine List.ne_nil_of_length_pos ?_
      rw [pending_length]
      simp only
      omega

theorem queueWrite_pending {c : Client} (ready : c.Buffered) {data : Bytes} (some_byte : data ≠ [])
    (result : SocketWrite) :
    ((c.queueWrite data result).ending = .full → (c.queueWrite data result).client.pending = c.pending) ∧
      ((c.queueWrite data result).ending = .waiting → (c.queueWrite data result).client.pending ≠ []) ∧
      ((c.queueWrite data result).ending = .drained →
        c.pending = [] ∧ (c.queueWrite data result).client.pending = []) := by
  have room := makeRoom_buffered ready data.length
  simp only [queueWrite]
  split
  · refine ⟨fun _ => c.makeRoom_pending data.length, fun waiting => ?_, fun drained => ?_⟩
    · cases waiting
    · cases drained
  next space =>
    have more : ({ c.makeRoom data.length with
        wbuf := (c.makeRoom data.length).wbuf ++ data } : Client).pending ≠ [] := by
      simp only [pending]
      rw [List.drop_append_of_le_length room.offset]
      simp [some_byte]
    split
    next empty =>
      refine ⟨fun full => absurd full (flush_not_full _ _), flush_waiting (append_buffered room space) more,
        fun drained => ⟨?_, flush_drained drained⟩⟩
      rw [← c.makeRoom_pending data.length, pending, empty, List.drop_nil]
    · refine ⟨fun full => ?_, fun _ => more, fun drained => ?_⟩
      · cases full
      · cases drained

end Client

namespace Server

variable {σ ε : Type} {app : App σ ε} {s after : Server σ} {fd : Fd}

/-- Every `el_add_write` that the sends of the event come to succeeds. -/
def Event.Registers (app : App σ ε) (s : Server σ) (event : Event ε) : Prop :=
  ∀ call ∈ event.sends app s, call.ending = .waiting → call.result.registered = true

instance (app : App σ ε) (s : Server σ) (event : Event ε) : Decidable (event.Registers app s) :=
  inferInstanceAs (Decidable (∀ call ∈ event.sends app s, call.ending = .waiting → call.result.registered = true))

/-- What is watched of a descriptor. That bytes which wait are watched for is promised under `always` only. -/
structure Registered (always : Prop) (c : Client) (reads writes : Bool) : Prop where
  buffered : c.Buffered
  read : reads = c.active
  write : writes = true → c.pending ≠ []
  waits : always → c.pending ≠ [] → writes = true
  gone : c.active = false → c.pending = []

def Attended (always : Prop) (s : Server σ) : Prop :=
  ∀ fd, Registered always (s.clients fd) (s.readHandlers fd) (s.writeHandlers fd)

variable {always : Prop}

theorem registered_zero (always : Prop) : Registered always .zero false false where
  buffered := ⟨Nat.le_refl _, Nat.zero_le _⟩
  read := rfl
  write := nofun
  waits := fun _ some_byte => absurd rfl some_byte
  gone := fun _ => rfl

theorem init_attended (always : Prop) (state : σ) (now clientTimeoutS : Int) :
    (init state now clientTimeoutS).Attended always := fun _ => registered_zero always

theorem Registered.sameWrite {c other : Client} {reads writes : Bool} (registered : Registered always c reads writes)
    (active : other.active = c.active) (wbuf : other.wbuf = c.wbuf) (woff : other.woff = c.woff) :
    Registered always other reads writes := by
  obtain ⟨⟨offset, bounded⟩, read, write, waits, gone⟩ := registered
  have pending : other.pending = c.pending := by rw [Client.pending, Client.pending, wbuf, woff]
  exact ⟨⟨by rw [wbuf, woff]; exact offset, by rw [wbuf]; exact bounded⟩, read.trans active.symm,
    by rw [pending]; exact write, by rw [pending]; exact waits, by rw [pending, active]; exact gone⟩

theorem Attended.setClient {c : Client} (attended : s.Attended always)
    (here : Registered always c (s.readHandlers fd) (s.writeHandlers fd)) : (s.setClient fd c).Attended always := by
  intro other
  by_cases same : other = fd
  · subst same
    simpa [Server.setClient] using here
  · simpa [Server.setClient, Function.update_of_ne same] using attended other

theorem Attended.watch {c : Client} (attended : s.Attended always) (on : Bool)
    (here : Registered always c (s.readHandlers fd) on) :
    ((s.setClient fd c).watchWrite fd on).Attended always := by
  intro other
  by_cases same : other = fd
  · subst same
    simpa [Server.setClient, watchWrite] using here
  · simpa [Server.setClient, watchWrite, Function.update_of_ne same] using attended other

theorem Attended.remove (attended : s.Attended always) (app : App σ ε) (fd : Fd) :
    (s.removeClient app fd).Attended always := by
  intro other
  by_cases same : other = fd
  · subst same
    simpa [removeClient] using registered_zero always
  · simpa [removeClient, Function.update_of_ne same] using attended other

theorem removeClient_setClient (app : App σ ε) (s : Server σ) (fd : Fd) (c : Client) :
    (s.setClient fd c).removeClient app fd = s.removeClient app fd := by
  simp [removeClient, Server.setClient, Function.update_idem]

theorem Registered.kept {c : Client} {reads writes : Bool} (buffered : c.Buffered) (active : c.active = true)
    (read : reads = true) (write : writes = true → c.pending ≠ []) (waits : always → c.pending ≠ [] → writes = true) :
    Registered always c reads writes :=
  ⟨buffered, read.trans active.symm, write, waits, fun gone => by rw [active] at gone; cases gone⟩

theorem Attended.queueWrite (attended : s.Attended always) (app : App σ ε) (open_client : (s.clients fd).active = true)
    {data : Bytes} (some_byte : data ≠ []) {result : SendResult}
    (registers : always → SendCall.ending ⟨s.clients fd, data, result⟩ = .waiting → result.registered = true) :
    (s.queueWrite app fd data result).1.Attended always := by
  obtain ⟨ready, read, write, waits, -⟩ := attended fd
  have active := ((s.clients fd).queueWrite_sameRead data result.write).active.trans open_client
  have buffered := Client.queueWrite_buffered ready data result.write
  rw [open_client] at read
  obtain ⟨full, waiting, drained⟩ := Client.queueWrite_pending ready some_byte result.write
  simp only [Server.queueWrite]
  cases ending : ((s.clients fd).queueWrite data result.write).ending with
  | full =>
    refine attended.setClient (.kept buffered active read ?_ ?_)
    · rw [full ending]
      exact write
    · rw [full ending]
      exact waits
  | waiting =>
    have more := waiting ending
    simp only
    split
    · exact attended.watch true (.kept buffered active read (fun _ => more) fun _ _ => rfl)
    next failed =>
      -- The handler stays as it was, and nothing has been promised.
      exact attended.setClient (.kept buffered active read (fun _ => more) fun promised =>
        absurd (registers promised ending) failed)
  | drained =>
    obtain ⟨before, none_left⟩ := drained ending
    refine attended.setClient (.kept buffered active read ?_ ?_)
    · intro on
      exact absurd before (write on)
    · rw [none_left]
      exact fun _ some_left => absurd rfl some_left
  | lost =>
    simp only [removeClient_setClient]
    exact attended.remove app fd

/-! ## Messages -/

theorem Attended.withApp (attended : s.Attended always) (state : σ) : Attended always { s with app := state } :=
  attended

theorem Attended.handle {result : SendResult} {handling : Handling σ} {ok : Bool} (attended : s.Attended always)
    (active : (s.clients fd).active = true)
    (registers : always → ∀ call ∈ handling.sendCall (s.clients fd) result, call.ending = .waiting →
      call.result.registered = true)
    (handled : s.handle app fd result handling = some (after, ok)) : after.Attended always := by
  cases handling with
  | finish state ended =>
    cases handled
    exact attended
  | reply state payload resume =>
    simp only [Server.handle, sendFramed] at handled
    split at handled
    · cases handled
    · cases handled
      have some_byte : frame payload ≠ [] := List.ne_nil_of_length_pos (by
        simp only [frame, Framing.frame_length, frameHdrSize]
        omega)
      exact (attended.withApp state).queueWrite app active some_byte fun promised => registers promised _ rfl

theorem Attended.processBuffer {during : During ε} {rounds k : Nat} (attended : s.Attended always)
    (active : (s.clients fd).active = true)
    (registers : always → ∀ call ∈ bufferSends app during fd rounds k s, call.ending = .waiting →
      call.result.registered = true)
    (processed : processBuffer app during fd rounds k s = some after) : after.Attended always := by
  induction rounds generalizing k s with
  | zero => cases processed
  | succ rounds ih =>
    cases processBuffer_round processed with
    | waits short same => exact same ▸ attended
    | oversize large removed => exact removed ▸ attended.remove app fd
    | refused payload handling mid found asked handled removed =>
      subst removed
      have answered := attended.handle active
        (fun promised call made => registers promised call (bufferSends_send found asked made)) handled
      have noted : (mid.noteDelivered fd payload false).Attended always := answered
      exact noted.remove app fd
    | accepted payload handling mid found asked handled kept later =>
      have answered := attended.handle active
        (fun promised call made => registers promised call (bufferSends_send found asked made)) handled
      have noted : (mid.noteDelivered fd payload true).Attended always := answered
      have dropped : ((mid.noteDelivered fd payload true).dropFrame fd
          (frameHdrSize + payload.length)).Attended always := noted.setClient ((noted fd).sameWrite rfl rfl rfl)
      refine ih dropped ?_ (fun promised call made => registers promised call
        (bufferSends_later found asked handled made)) later
      simpa [dropFrame, Server.setClient, noteDelivered] using kept.read.active.trans active

/-! ## Events -/

theorem Attended.onRead {result : SocketRead} {during : During ε} (attended : s.Attended always)
    (on : s.readHandlers fd = true) (registers : always → (Event.readable fd result during).Registers app s)
    (read : s.onRead app fd result during = some after) : after.Attended always := by
  cases onRead_step read with
  | idle same => exact same ▸ attended
  | removed active same => exact same ▸ attended.remove app fd
  | data chunk arrived active some_byte fits processed =>
    subst arrived
    have extended : ((s.setClient fd { s.clients fd with
        lastActiveMs := s.nowMs, buf := (s.clients fd).buf ++ chunk }).noteReceived fd chunk).Attended always :=
      attended.setClient ((attended fd).sameWrite rfl rfl rfl)
    refine extended.processBuffer ?_ (fun promised => ?_) processed
    · simpa [noteReceived, Server.setClient] using active
    · have holds := registers promised
      rwa [Event.Registers, Event.sends_data on active] at holds

theorem Attended.onWrite {result : SocketWrite} {during : During ε} (attended : s.Attended always)
    (on : s.writeHandlers fd = true) (registers : always → (Event.writable fd result during).Registers app s)
    (written : s.onWrite app fd result during = some after) : after.Attended always := by
  obtain ⟨ready, read, write, -, gone⟩ := attended fd
  have some_byte := write on
  have open_client : (s.clients fd).active = true := by
    cases active : (s.clients fd).active with
    | true => rfl
    | false => exact absurd (gone active) some_byte
  have active := ((s.clients fd).flush_sameRead result).active.trans open_client
  have buffered := Client.flush_buffered ready result
  rw [open_client] at read
  simp only [Server.onWrite] at written
  cases ending : ((s.clients fd).flush result).ending with
  | lost =>
    simp only [ending] at written
    exact Option.some.inj written ▸ attended.remove app fd
  | full => exact absurd ending (Client.flush_not_full _ _)
  | waiting =>
    simp only [ending] at written
    have more := Client.flush_waiting ready some_byte ending
    exact Option.some.inj written ▸ attended.setClient (.kept buffered active read (fun _ => more) fun _ _ => on)
  | drained =>
    simp only [ending] at written
    have none_left := Client.flush_drained ending
    have drained : ((s.setClient fd ((s.clients fd).flush result).client).watchWrite fd false).Attended always := by
      refine attended.watch false (.kept buffered active read (fun on => by cases on) fun _ some_left => ?_)
      exact absurd none_left some_left
    refine drained.processBuffer ?_ (fun promised => ?_) written
    · simpa [watchWrite, Server.setClient] using active
    · have holds := registers promised
      rwa [Event.Registers, Event.sends_drained on ending] at holds

theorem Attended.onAccept {result : Accept} (attended : s.Attended always)
    (accepted : s.onAccept app result = some after) : after.Attended always := by
  cases result with
  | refused => exact Option.some.inj accepted ▸ attended
  | taken fd registered =>
    obtain ⟨-, read, write, -, gone⟩ := attended fd
    simp only [Server.onAccept] at accepted
    split at accepted
    · cases accepted
    next free =>
      have inactive : (s.clients fd).active = false := by simpa using free
      have unwatched : s.writeHandlers fd = false := by
        cases on : s.writeHandlers fd with
        | false => rfl
        | true => exact absurd (gone inactive) (write on)
      cases registered with
      | true =>
        cases accepted
        intro other
        by_cases same : other = fd
        · subst same
          simp only [Function.update_self, unwatched]
          exact .kept (Client.accepted_buffered _) rfl rfl (fun on => by cases on) fun _ left => absurd rfl left
        · simpa [Function.update_of_ne same] using attended other
      | false =>
        cases accepted
        intro other
        by_cases same : other = fd
        · subst same
          rw [inactive] at read
          simp only [Function.update_self, unwatched, read]
          exact registered_zero always
        · simpa [Function.update_of_ne same] using attended other

theorem Attended.next (s : Server σ) (event : Event ε) (after : Server σ) (attended : s.Attended always)
    (registers : always → event.Registers app s) (taken : s.next app event = some after) : after.Attended always := by
  cases event with
  | accept result => exact attended.onAccept taken
  | readable fd result during =>
    simp only [Server.next] at taken
    split at taken
    next on => exact attended.onRead on registers taken
    · exact Option.some.inj taken ▸ attended
  | writable fd result during =>
    simp only [Server.next] at taken
    split at taken
    next on => exact attended.onWrite on registers taken
    · exact Option.some.inj taken ▸ attended
  | checkTimeouts =>
    rw [← Option.some.inj taken]
    exact checkFrom_invariant (fun s fd (inv : s.Attended always) _ => inv.remove app fd) _ _ attended
  | beforeSleep now realtime =>
    exact beforeSleep_invariant (fun s fd (inv : s.Attended always) _ => inv.remove app fd)
      (fun _ _ _ _ _ inv => inv) attended taken
  | shutdown => exact Option.some.inj taken ▸ attended

end Server

/-- Along every run of the server, with any application, exactly the clients it keeps are watched for reading, and
only those with bytes in their write buffer are watched for writing. As long as every `el_add_write` of a send has
succeeded, all of those are. -/
theorem interest_exact {σ ε : Type} (app : App σ ε) {state : σ} {now clientTimeoutS : Int}
    {events : List (Server.Event ε)} {s : Server σ}
    (reached : Runs.run (Server.next app) (Server.init state now clientTimeoutS) events = some s) (fd : Fd) :
    (s.readHandlers fd = true ↔ (s.clients fd).active = true) ∧
      (s.writeHandlers fd = true → (s.clients fd).active = true ∧ (s.clients fd).pending ≠ []) ∧
      (Runs.Along (Server.next app) (fun s event => event.Registers app s) (Server.init state now clientTimeoutS)
          events →
        (s.clients fd).active = true → (s.clients fd).pending ≠ [] → s.writeHandlers fd = true) := by
  have kept : ∀ always : Prop, (always → Runs.Along (Server.next app) (fun s event => event.Registers app s)
      (Server.init state now clientTimeoutS) events) → s.Attended always := by
    intro always along
    by_cases promised : always
    · exact Runs.along_invariant (fun s event after attended registers taken =>
        Server.Attended.next s event after attended (fun _ => registers) taken)
        (Server.init_attended always state now clientTimeoutS) (along promised) reached
    · exact Runs.run_invariant (fun s event after attended taken =>
        Server.Attended.next s event after attended (fun holds => absurd holds promised) taken)
        (Server.init_attended always state now clientTimeoutS) reached
  obtain ⟨-, read, write, -, gone⟩ := kept False False.elim fd
  refine ⟨by rw [read], fun on => ⟨?_, write on⟩, fun along _ more => ?_⟩
  · cases active : (s.clients fd).active with
    | true => rfl
    | false => exact absurd (gone active) (write on)
  · exact (kept True (fun _ => along) fd).waits trivial more

def partReply (registered : Bool) : List (Server.Event LogEnv) :=
  [.accept (.taken Server.sampleFd true),
    .readable Server.sampleFd (.data [0, 0, 0, 1, 1]) fun _ => (⟨[], true⟩, ⟨.wrote 3, registered⟩)]

theorem interest_exact_part : ∃ s, Runs.run (Server.next masterApp) Server.sample (partReply true) = some s ∧
    (s.clients Server.sampleFd).pending ≠ [] ∧ s.writeHandlers Server.sampleFd = true := by
  have ran : (Runs.run (Server.next masterApp) Server.sample (partReply true)).any (fun s =>
      (s.clients Server.sampleFd).active && !(s.clients Server.sampleFd).pending.isEmpty) = true := by
    decide +kernel
  have along : Runs.Along (Server.next masterApp) (fun s event => event.Registers masterApp s) Server.sample
      (partReply true) := by
    decide +kernel
  obtain ⟨s, reached, holds⟩ := (Option.any_eq_true _ _).mp ran
  simp only [Bool.and_eq_true, Bool.not_eq_true', List.isEmpty_eq_false_iff] at holds
  exact ⟨s, reached, holds.2, (interest_exact masterApp reached Server.sampleFd).2.2 along holds.1 holds.2⟩

-- After a registration that failed, the rest of the answer waits, and nothing will send it.
example : (Runs.run (Server.next masterApp) Server.sample (partReply false)).any (fun s =>
    !(s.clients Server.sampleFd).pending.isEmpty && !s.writeHandlers Server.sampleFd) = true := by
  decide +kernel

end MapReduce
