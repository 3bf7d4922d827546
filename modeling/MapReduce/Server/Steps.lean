import MapReduce.Server.Callbacks

/-! What one callback of the server can change, and the sends that it makes.

Each function has one inversion lemma. A callback for one descriptor leaves the
other connections alone, and write interest is registered for active clients only.
-/

set_option autoImplicit false

namespace MapReduce

/-- One call of `queue_write`: the slot that it finds, the bytes, and what the kernel answers. -/
structure SendCall where
  client : Client
  data : Bytes
  result : SendResult

def SendCall.ending (call : SendCall) : Client.WriteEnd := (call.client.queueWrite call.data call.result.write).ending

def Handling.sendCall {σ : Type} (client : Client) (result : SendResult) : Handling σ → Option SendCall
  | .finish _ _ => none
  | .reply _ payload _ => some ⟨client, frame payload, result⟩

namespace Server

variable {σ ε : Type} {app : App σ ε} {fd : Fd} {s : Server σ}

/-- What a send on `fd` leaves alone as long as the client is not removed. -/
structure Kept (fd : Fd) (s after : Server σ) : Prop where
  others : ∀ other, other ≠ fd → after.clients other = s.clients other
  read : Client.SameRead (s.clients fd) (after.clients fd)
  count : after.clientsCount = s.clientsCount
  notices : after.notices = s.notices
  sessions : after.sessions = s.sessions
  watched : ∀ other, other ≠ fd → after.writeHandlers other = s.writeHandlers other
  nowMs : after.nowMs = s.nowMs
  cronloops : after.cronloops = s.cronloops

theorem Kept.refl (fd : Fd) (s : Server σ) : Kept fd s s :=
  ⟨fun _ _ => rfl, .refl _, rfl, rfl, rfl, fun _ _ => rfl, rfl, rfl⟩

theorem Kept.withApp {after : Server σ} (kept : Kept fd s after) (state : σ) :
    Kept fd s { after with app := state } :=
  ⟨kept.others, kept.read, kept.count, kept.notices, kept.sessions, kept.watched, kept.nowMs, kept.cronloops⟩

theorem Kept.ofApp {after : Server σ} {state : σ} (kept : Kept fd { s with app := state } after) :
    Kept fd s after :=
  ⟨kept.others, kept.read, kept.count, kept.notices, kept.sessions, kept.watched, kept.nowMs, kept.cronloops⟩

theorem kept_setClient {c : Client} (same : Client.SameRead (s.clients fd) c) : Kept fd s (s.setClient fd c) where
  others := fun other ne => Function.update_of_ne ne _ _
  read := by simpa [setClient] using same
  count := rfl
  notices := rfl
  sessions := rfl
  watched := fun _ _ => rfl
  nowMs := rfl
  cronloops := rfl

theorem Kept.watch {after : Server σ} (kept : Kept fd s after) (on : Bool) : Kept fd s (after.watchWrite fd on) :=
  ⟨kept.others, kept.read, kept.count, kept.notices, kept.sessions,
    fun other ne => (Function.update_of_ne ne _ _).trans (kept.watched other ne), kept.nowMs, kept.cronloops⟩

theorem queueWrite_cases (app : App σ ε) (s : Server σ) (fd : Fd) (data : Bytes) (result : SendResult) :
    Kept fd s (s.queueWrite app fd data result).1 ∨
      ((s.clients fd).queueWrite data result.write).ending = .lost ∧
        ∃ mid, Kept fd s mid ∧ s.queueWrite app fd data result = (mid.removeClient app fd, false) := by
  have kept := kept_setClient (Client.queueWrite_sameRead (s.clients fd) data result.write)
  cases ending : ((s.clients fd).queueWrite data result.write).ending with
  | full =>
    left
    simpa only [queueWrite, ending] using kept
  | drained =>
    left
    simpa only [queueWrite, ending] using kept
  | waiting =>
    left
    simp only [queueWrite, ending]
    split
    · exact kept.watch true
    · exact kept
  | lost =>
    right
    refine ⟨rfl, _, kept, ?_⟩
    simp only [queueWrite, ending]

theorem handle_cases {result : SendResult} {handling : Handling σ} {after : Server σ} {ok : Bool}
    (handled : s.handle app fd result handling = some (after, ok)) :
    Kept fd s after ∨ (∃ call ∈ handling.sendCall (s.clients fd) result, call.ending = .lost) ∧
      ∃ mid state, Kept fd s mid ∧ after = { mid.removeClient app fd with app := state } := by
  cases handling with
  | finish state ended =>
    cases handled
    exact .inl ((Kept.refl fd s).withApp state)
  | reply state payload resume =>
    simp only [handle, sendFramed] at handled
    split at handled
    · cases handled
    · cases handled
      rcases queueWrite_cases app { s with app := state } fd (frame payload) result with
        kept | ⟨lost, mid, kept, same⟩
      · exact .inl (kept.ofApp.withApp _)
      · exact .inr ⟨⟨_, rfl, lost⟩, mid, _, kept.ofApp, by rw [same]⟩

/-- One round of `process_buffer`, and the rounds behind it. -/
inductive Round (app : App σ ε) (during : During ε) (fd : Fd) (rounds k : Nat) (s after : Server σ) : Prop where
  | waits (short : frontFrame (s.clients fd).buf = .short) (same : after = s)
  | oversize (large : frontFrame (s.clients fd).buf = .oversize) (removed : after = s.removeClient app fd)
  | refused (payload : Bytes) (handling : Handling σ) (mid : Server σ)
      (found : frontFrame (s.clients fd).buf = .message payload)
      (asked : app.onMessage s.app fd payload (during k).1 = some handling)
      (handled : s.handle app fd (during k).2 handling = some (mid, false))
      (removed : after = (mid.noteDelivered fd payload false).removeClient app fd)
  | accepted (payload : Bytes) (handling : Handling σ) (mid : Server σ)
      (found : frontFrame (s.clients fd).buf = .message payload)
      (asked : app.onMessage s.app fd payload (during k).1 = some handling)
      (handled : s.handle app fd (during k).2 handling = some (mid, true)) (kept : Kept fd s mid)
      (later : processBuffer app during fd rounds (k + 1)
        ((mid.noteDelivered fd payload true).dropFrame fd (frameHdrSize + payload.length)) = some after)

theorem processBuffer_round {during : During ε} {rounds k : Nat} {after : Server σ}
    (processed : processBuffer app during fd (rounds + 1) k s = some after) :
    Round app during fd rounds k s after := by
  unfold processBuffer at processed
  split at processed
  next short => exact .waits short (Option.some.inj processed).symm
  next large => exact .oversize large (Option.some.inj processed).symm
  next payload found =>
    simp only [Option.bind_eq_bind, Option.bind_eq_some_iff] at processed
    obtain ⟨handling, asked, ⟨mid, ok⟩, handled, processed⟩ := processed
    cases ok with
    | false => exact .refused payload handling mid found asked handled (Option.some.inj processed).symm
    | true =>
      simp only [↓reduceIte] at processed
      split at processed
      · cases processed
      next long =>
        rcases handle_cases handled with kept | ⟨-, before, state, -, rfl⟩
        · exact .accepted payload handling mid found asked handled kept processed
        · -- A cleared slot is shorter than the frame.
          simp [noteDelivered, removeClient, Client.zero, frameHdrSize] at long

/-! ### The sends of an event -/

/-- The sends that `process_buffer` makes, that of message `k` of the event first. -/
def bufferSends (app : App σ ε) (during : During ε) (fd : Fd) : Nat → Nat → Server σ → List SendCall
  | 0, _, _ => []
  | rounds + 1, k, s =>
    match frontFrame (s.clients fd).buf with
    | .short | .oversize => []
    | .message payload =>
      match app.onMessage s.app fd payload (during k).1 with
      | none => []
      | some handling =>
        (handling.sendCall (s.clients fd) (during k).2).toList ++
          match s.handle app fd (during k).2 handling with
          | some (mid, true) => bufferSends app during fd rounds (k + 1)
              ((mid.noteDelivered fd payload true).dropFrame fd (frameHdrSize + payload.length))
          | some (_, false) | none => []

def allSends (app : App σ ε) (s : Server σ) (fd : Fd) (during : During ε) : List SendCall :=
  bufferSends app during fd ((s.clients fd).buf.length + 1) 0 s

/-- The sends that the handlers make during an event. -/
def Event.sends (app : App σ ε) (s : Server σ) : Event ε → List SendCall
  | .readable fd (.data chunk) during =>
    if s.readHandlers fd && (s.clients fd).active then
      let c := { s.clients fd with lastActiveMs := s.nowMs, buf := (s.clients fd).buf ++ chunk }
      allSends app ((s.setClient fd c).noteReceived fd chunk) fd during
    else []
  | .writable fd result during =>
    let w := (s.clients fd).flush result
    if s.writeHandlers fd && w.ending == .drained then
      allSends app ((s.setClient fd w.client).watchWrite fd false) fd during
    else []
  | .readable _ .closed _ | .readable _ .again _ | .readable _ .hardError _ | .accept _ | .checkTimeouts
  | .beforeSleep _ _ | .shutdown => []

section

variable {during : During ε} {rounds k : Nat} {mid : Server σ} {payload : Bytes} {handling : Handling σ}
  (found : frontFrame (s.clients fd).buf = .message payload)
  (asked : app.onMessage s.app fd payload (during k).1 = some handling)

include found asked

theorem bufferSends_send {call : SendCall} (made : call ∈ handling.sendCall (s.clients fd) (during k).2) :
    call ∈ bufferSends app during fd (rounds + 1) k s := by
  unfold bufferSends
  rw [found]
  simp only [asked]
  exact List.mem_append_left _ (Option.mem_toList.mpr made)

theorem bufferSends_later (handled : s.handle app fd (during k).2 handling = some (mid, true)) {call : SendCall}
    (made : call ∈ bufferSends app during fd rounds (k + 1)
      ((mid.noteDelivered fd payload true).dropFrame fd (frameHdrSize + payload.length))) :
    call ∈ bufferSends app during fd (rounds + 1) k s := by
  rw [bufferSends, found]
  simp only [asked, handled]
  exact List.mem_append_right _ made

end

theorem Event.sends_data {chunk : Bytes} {during : During ε} (on : s.readHandlers fd = true)
    (active : (s.clients fd).active = true) :
    (Event.readable fd (.data chunk) during).sends app s = allSends app ((s.setClient fd { s.clients fd with
      lastActiveMs := s.nowMs, buf := (s.clients fd).buf ++ chunk }).noteReceived fd chunk) fd during := by
  simp only [Event.sends, on, active, Bool.and_self, ↓reduceIte]

theorem Event.sends_drained {result : SocketWrite} {during : During ε} (on : s.writeHandlers fd = true)
    (drains : ((s.clients fd).flush result).ending = .drained) :
    (Event.writable fd result during).sends app s =
      allSends app ((s.setClient fd ((s.clients fd).flush result).client).watchWrite fd false) fd during := by
  simp only [Event.sends, on, drains, beq_self_eq_true, Bool.and_self, ↓reduceIte]

/-- A callback for `fd` leaves the other connections and the clock alone. -/
structure Local (fd : Fd) (s after : Server σ) : Prop where
  clients : ∀ other, other ≠ fd → after.clients other = s.clients other
  sessions : ∀ other, other ≠ fd → after.sessions other = s.sessions other
  watched : ∀ other, other ≠ fd → after.writeHandlers other = s.writeHandlers other
  nowMs : after.nowMs = s.nowMs
  cronloops : after.cronloops = s.cronloops

theorem Local.refl (fd : Fd) (s : Server σ) : Local fd s s :=
  ⟨fun _ _ => rfl, fun _ _ => rfl, fun _ _ => rfl, rfl, rfl⟩

theorem Local.trans {mid after : Server σ} (first : Local fd s mid) (second : Local fd mid after) :
    Local fd s after where
  clients := fun other ne => (second.clients other ne).trans (first.clients other ne)
  sessions := fun other ne => (second.sessions other ne).trans (first.sessions other ne)
  watched := fun other ne => (second.watched other ne).trans (first.watched other ne)
  nowMs := second.nowMs.trans first.nowMs
  cronloops := second.cronloops.trans first.cronloops

theorem Kept.local {after : Server σ} (kept : Kept fd s after) : Local fd s after :=
  ⟨kept.others, fun _ _ => by rw [kept.sessions], kept.watched, kept.nowMs, kept.cronloops⟩

theorem local_setClient (s : Server σ) (fd : Fd) (c : Client) : Local fd s (s.setClient fd c) :=
  ⟨fun _ ne => Function.update_of_ne ne _ _, fun _ _ => rfl, fun _ _ => rfl, rfl, rfl⟩

theorem local_dropFrame (s : Server σ) (fd : Fd) (size : Nat) : Local fd s (s.dropFrame fd size) :=
  local_setClient s fd _

theorem local_removeClient (app : App σ ε) (s : Server σ) (fd : Fd) : Local fd s (s.removeClient app fd) :=
  ⟨fun _ ne => Function.update_of_ne ne _ _, fun _ _ => rfl, fun _ ne => Function.update_of_ne ne _ _, rfl, rfl⟩

theorem local_noteDelivered (s : Server σ) (fd : Fd) (payload : Bytes) (ok : Bool) :
    Local fd s (s.noteDelivered fd payload ok) :=
  ⟨fun _ _ => rfl, fun _ ne => Function.update_of_ne ne _ _, fun _ _ => rfl, rfl, rfl⟩

theorem handle_local {result : SendResult} {handling : Handling σ} {after : Server σ} {ok : Bool}
    (handled : s.handle app fd result handling = some (after, ok)) : Local fd s after := by
  rcases handle_cases handled with kept | ⟨-, mid, state, kept, rfl⟩
  · exact kept.local
  · obtain ⟨clients, sessions, watched, nowMs, cronloops⟩ := kept.local.trans (local_removeClient app mid fd)
    exact ⟨clients, sessions, watched, nowMs, cronloops⟩

theorem processBuffer_local {during : During ε} {rounds k : Nat} {after : Server σ}
    (processed : processBuffer app during fd rounds k s = some after) : Local fd s after := by
  induction rounds generalizing k s with
  | zero => cases processed
  | succ rounds ih =>
    cases processBuffer_round processed with
    | waits short same => exact same ▸ .refl fd s
    | oversize large removed => exact removed ▸ local_removeClient app s fd
    | refused payload handling mid found asked handled removed =>
      subst removed
      exact (handle_local handled).trans ((local_noteDelivered mid fd payload false).trans
        (local_removeClient app _ fd))
    | accepted payload handling mid found asked handled kept later =>
      exact kept.local.trans ((local_noteDelivered mid fd payload true).trans
        ((local_dropFrame _ fd _).trans (ih later)))

theorem local_noteReceived (s : Server σ) (fd : Fd) (chunk : Bytes) : Local fd s (s.noteReceived fd chunk) :=
  ⟨fun _ _ => rfl, fun _ ne => Function.update_of_ne ne _ _, fun _ _ => rfl, rfl, rfl⟩

theorem local_watchWrite (s : Server σ) (fd : Fd) (on : Bool) : Local fd s (s.watchWrite fd on) :=
  ⟨fun _ _ => rfl, fun _ _ => rfl, fun _ ne => Function.update_of_ne ne _ _, rfl, rfl⟩

/-! ### One inversion for each socket callback -/

inductive ReadStep (app : App σ ε) (s : Server σ) (fd : Fd) (result : SocketRead) (during : During ε)
    (after : Server σ) : Prop where
  | idle (same : after = s)
  | removed (active : (s.clients fd).active = true) (same : after = s.removeClient app fd)
  | data (chunk : Bytes) (arrived : result = .data chunk) (active : (s.clients fd).active = true)
      (some_byte : chunk ≠ [])
      (fits : chunk.length ≤ bufSize - (s.clients fd).buf.length)
      (processed : processAll app ((s.setClient fd { s.clients fd with
        lastActiveMs := s.nowMs, buf := (s.clients fd).buf ++ chunk }).noteReceived fd chunk) fd during = some after)

theorem onRead_step {result : SocketRead} {during : During ε} {after : Server σ}
    (read : s.onRead app fd result during = some after) : ReadStep app s fd result during after := by
  unfold onRead at read
  simp only at read
  split at read
  next active =>
    cases result with
    | closed => exact .removed active (Option.some.inj read).symm
    | hardError => exact .removed active (Option.some.inj read).symm
    | again => exact .idle (Option.some.inj read).symm
    | data chunk =>
      simp only at read
      split at read
      · cases read
      next possible =>
        rw [not_or] at possible
        exact .data chunk rfl active possible.1 (by omega) read
  · exact .idle (Option.some.inj read).symm

inductive WriteStep (app : App σ ε) (s : Server σ) (fd : Fd) (result : SocketWrite) (during : During ε)
    (after : Server σ) : Prop where
  | removed (same : after = s.removeClient app fd)
  | waiting (c : Client) (same_read : Client.SameRead (s.clients fd) c) (same : after = s.setClient fd c)
  | drained (drains : ((s.clients fd).flush result).ending = .drained)
      (processed : processAll app ((s.setClient fd ((s.clients fd).flush result).client).watchWrite fd false) fd
        during = some after)

theorem onWrite_step {result : SocketWrite} {during : During ε} {after : Server σ}
    (written : s.onWrite app fd result during = some after) : WriteStep app s fd result during after := by
  have same := Client.flush_sameRead (s.clients fd) result
  unfold onWrite at written
  cases ending : ((s.clients fd).flush result).ending with
  | lost =>
    simp only [ending] at written
    exact .removed (Option.some.inj written).symm
  | drained =>
    simp only [ending] at written
    exact .drained ending written
  | full =>
    simp only [ending] at written
    exact .waiting _ same (Option.some.inj written).symm
  | waiting =>
    simp only [ending] at written
    exact .waiting _ same (Option.some.inj written).symm

theorem onRead_local {result : SocketRead} {during : During ε} {after : Server σ}
    (read : s.onRead app fd result during = some after) : Local fd s after := by
  cases onRead_step read with
  | idle same => exact same ▸ .refl fd s
  | removed active same => exact same ▸ local_removeClient app s fd
  | data chunk arrived active some_byte fits processed =>
    exact (local_setClient s fd _).trans ((local_noteReceived _ fd chunk).trans (processBuffer_local processed))

theorem onWrite_local {result : SocketWrite} {during : During ε} {after : Server σ}
    (written : s.onWrite app fd result during = some after) : Local fd s after := by
  cases onWrite_step written with
  | removed same => exact same ▸ local_removeClient app s fd
  | waiting c same_read same => exact same ▸ local_setClient s fd c
  | drained drains processed =>
    exact (local_setClient s fd _).trans ((local_watchWrite _ fd false).trans (processBuffer_local processed))

/-! ### Housekeeping removes active clients one by one -/

section

variable {Inv : Server σ → Prop}
  (remove : ∀ s fd, Inv s → (s.clients fd).active = true → Inv (s.removeClient app fd))

include remove

theorem checkFrom_invariant (fds : List Fd) (found : Nat) {s : Server σ} (inv : Inv s) :
    Inv (s.checkFrom app fds found) := by
  induction fds generalizing found s with
  | nil => exact inv
  | cons fd rest ih =>
    unfold checkFrom
    split
    · split
      next active =>
        split
        · exact ih _ (remove s fd inv active)
        · exact ih _ inv
      · exact ih _ inv
    · exact inv

theorem beforeSleep_invariant {now realtime : Int} {after : Server σ}
    (clock : ∀ (s : Server σ) (now cronloops checked : Int) (state : σ), Inv s →
      Inv { s with nowMs := now, cronloops := cronloops, lastTimeoutCheckMs := checked, app := state })
    (inv : Inv s) (slept : s.serverBeforeSleep app now realtime = some after) : Inv after := by
  unfold serverBeforeSleep at slept
  obtain ⟨state, -, rfl⟩ := Option.map_eq_some_iff.mp slept
  refine clock _ _ _ _ state ?_
  unfold clientTimeoutsCron
  split
  · exact clock s _ _ _ _ inv
  · exact checkFrom_invariant remove _ _ (clock s _ _ _ _ inv)

end

/-! ### Write interest is registered for active clients only -/

def Watched (s : Server σ) : Prop := ∀ fd, s.writeHandlers fd = true → (s.clients fd).active = true

theorem Watched.move {after : Server σ} (watched : s.Watched) (moved : Local fd s after)
    (here : after.writeHandlers fd = true → (after.clients fd).active = true) : after.Watched := by
  intro other on
  by_cases same : other = fd
  · subst same
    exact here on
  · rw [moved.watched other same] at on
    rw [moved.clients other same]
    exact watched other on

theorem Watched.remove (watched : s.Watched) (app : App σ ε) (fd : Fd) : (s.removeClient app fd).Watched :=
  watched.move (local_removeClient app s fd) fun on => by simp [removeClient] at on

theorem processBuffer_watched {during : During ε} {rounds k : Nat} {after : Server σ} (watched : s.Watched)
    (active : (s.clients fd).active = true)
    (processed : processBuffer app during fd rounds k s = some after) : after.Watched := by
  induction rounds generalizing k s with
  | zero => cases processed
  | succ rounds ih =>
    cases processBuffer_round processed with
    | waits short same => exact same ▸ watched
    | oversize large removed => exact removed ▸ watched.remove app fd
    | refused payload handling mid found asked handled removed =>
      subst removed
      have moved := (handle_local handled).trans ((local_noteDelivered mid fd payload false).trans
        (local_removeClient app _ fd))
      exact watched.move moved fun on => by simp [removeClient] at on
    | accepted payload handling mid found asked handled kept later =>
      have still : (((mid.noteDelivered fd payload true).dropFrame fd
          (frameHdrSize + payload.length)).clients fd).active = true := by
        simpa [dropFrame, setClient, noteDelivered] using kept.read.active.trans active
      have moved := kept.local.trans ((local_noteDelivered mid fd payload true).trans
        (local_dropFrame _ fd (frameHdrSize + payload.length)))
      exact ih (watched.move moved fun _ => still) still later

theorem onRead_watched {result : SocketRead} {during : During ε} {after : Server σ} (watched : s.Watched)
    (read : s.onRead app fd result during = some after) : after.Watched := by
  cases onRead_step read with
  | idle same => exact same ▸ watched
  | removed active same => exact same ▸ watched.remove app fd
  | data chunk arrived active some_byte fits processed =>
    refine processBuffer_watched (watched.move ((local_setClient s fd _).trans (local_noteReceived _ fd _)) ?_) ?_
      processed
    · intro _
      simpa [noteReceived, setClient] using active
    · simpa [noteReceived, setClient] using active

theorem onWrite_watched {result : SocketWrite} {during : During ε} {after : Server σ} (watched : s.Watched)
    (active : (s.clients fd).active = true)
    (written : s.onWrite app fd result during = some after) : after.Watched := by
  cases onWrite_step written with
  | removed same => exact same ▸ watched.remove app fd
  | waiting c same_read same =>
    subst same
    exact watched.move (local_setClient s fd c) fun _ => by
      simpa [setClient] using same_read.active.trans active
  | drained drains processed =>
    have still : (((s.setClient fd ((s.clients fd).flush result).client).watchWrite fd false).clients fd).active =
        true := by
      simpa [watchWrite, setClient] using ((s.clients fd).flush_sameRead result).active.trans active
    exact processBuffer_watched (watched.move ((local_setClient s fd _).trans (local_watchWrite _ fd _))
      fun _ => still) still processed

theorem onAccept_watched {result : Accept} {after : Server σ} (watched : s.Watched)
    (accepted : s.onAccept app result = some after) : after.Watched := by
  cases result with
  | refused => exact Option.some.inj accepted ▸ watched
  | taken fd registered =>
    simp only [onAccept] at accepted
    split at accepted
    · cases accepted
    next free =>
      have off : s.writeHandlers fd ≠ true := fun on => free (watched fd on)
      cases registered with
      | true =>
        cases accepted
        intro other on
        by_cases same : other = fd
        · exact absurd (same ▸ on) off
        · simpa [Function.update_of_ne same] using watched other on
      | false =>
        cases accepted
        intro other on
        by_cases same : other = fd
        · exact absurd (same ▸ on) off
        · simpa [Function.update_of_ne same] using watched other on

theorem next_watched {event : Event ε} {after : Server σ} (watched : s.Watched)
    (taken : s.next app event = some after) : after.Watched := by
  cases event with
  | accept result => exact onAccept_watched watched taken
  | readable fd result during =>
    simp only [next] at taken
    split at taken
    · exact onRead_watched watched taken
    · exact Option.some.inj taken ▸ watched
  | writable fd result during =>
    simp only [next] at taken
    split at taken
    next on => exact onWrite_watched watched (watched fd on) taken
    · exact Option.some.inj taken ▸ watched
  | checkTimeouts =>
    rw [← Option.some.inj taken]
    exact checkFrom_invariant (fun s fd (inv : s.Watched) _ => inv.remove app fd) _ _ watched
  | beforeSleep now realtime =>
    exact beforeSleep_invariant (fun s fd (inv : s.Watched) _ => inv.remove app fd) (fun _ _ _ _ _ inv => inv)
      watched taken
  | shutdown => exact Option.some.inj taken ▸ watched

/-! ### The bound on the rounds -/

/-- `process_buffer` never runs out of rounds: with more than the buffer has bytes it does the same. -/
theorem processBuffer_rounds {during : During ε} {rounds k : Nat} (extra : Nat)
    (enough : (s.clients fd).buf.length < rounds) :
    processBuffer app during fd rounds k s = processBuffer app during fd (rounds + extra) k s := by
  induction rounds generalizing k s with
  | zero => omega
  | succ rounds ih =>
    rw [Nat.add_right_comm]
    conv_lhs => unfold processBuffer
    conv_rhs => unfold processBuffer
    split
    · rfl
    · rfl
    next payload found =>
      refine Option.bind_congr fun handling _ => Option.bind_congr fun answer handled => ?_
      obtain ⟨mid, ok⟩ := answer
      cases ok with
      | false => rfl
      | true =>
        simp only [↓reduceIte]
        split
        · rfl
        next long =>
          refine ih ?_
          have shorter : (mid.clients fd).buf.length ≤ (s.clients fd).buf.length := by
            rcases handle_cases handled with kept | ⟨-, before, state, -, rfl⟩
            · rw [kept.read.buf]
            · simp [removeClient, Client.zero]
          simp only [noteDelivered] at long
          simp only [dropFrame, setClient, noteDelivered, Function.update_self, List.length_drop]
          have header : frameHdrSize = 4 := rfl
          omega

end Server

end MapReduce
