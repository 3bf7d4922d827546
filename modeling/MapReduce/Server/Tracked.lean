import MapReduce.Server.Steps

/-! A server that remembers what its application has sent.

`server_t` keeps no trace of a send once the socket has taken it. Here the
application's state is extended by the payloads of the sends that returned 0 on
each connection. The extension changes nothing: without it, every run is a run
of the server itself.
-/

set_option autoImplicit false

namespace MapReduce

/-- The state of an application, and what was sent on the present connection of each descriptor. -/
structure Tracked (σ : Type) where
  state : σ
  sent : Fd → List Bytes

variable {σ ε : Type}

/-- A send that returns 0 is noted as the handler goes on. -/
def Handling.track (fd : Fd) (sent : Fd → List Bytes) : Handling σ → Handling (Tracked σ)
  | .finish state ok => .finish ⟨state, sent⟩ ok
  | .reply state payload resume => .reply ⟨state, sent⟩ payload fun r ok =>
    (⟨(resume r.state ok).1, if ok then Function.update r.sent fd (r.sent fd ++ [payload]) else r.sent⟩,
      (resume r.state ok).2)

def App.tracked (app : App σ ε) : App (Tracked σ) ε where
  onConnect := fun r fd => ⟨app.onConnect r.state fd, Function.update r.sent fd []⟩
  onDisconnect := fun r fd => ⟨app.onDisconnect r.state fd, r.sent⟩
  onMessage := fun r fd payload env => (app.onMessage r.state fd payload env).map (Handling.track fd r.sent)
  onPeriodic := fun r now realtime => (app.onPeriodic r.state now realtime).map (⟨·, r.sent⟩)

namespace Server

variable (app : App σ ε) (s : Server (Tracked σ)) (fd : Fd)

def erase (s : Server (Tracked σ)) : Server σ := { s with app := s.app.state }

@[simp] theorem erase_app : s.erase.app = s.app.state := rfl
@[simp] theorem erase_clients : s.erase.clients = s.clients := rfl
@[simp] theorem erase_clientsCount : s.erase.clientsCount = s.clientsCount := rfl
@[simp] theorem erase_readHandlers : s.erase.readHandlers = s.readHandlers := rfl
@[simp] theorem erase_writeHandlers : s.erase.writeHandlers = s.writeHandlers := rfl
@[simp] theorem erase_nowMs : s.erase.nowMs = s.nowMs := rfl
@[simp] theorem erase_clientTimeoutS : s.erase.clientTimeoutS = s.clientTimeoutS := rfl
@[simp] theorem erase_lastTimeoutCheckMs : s.erase.lastTimeoutCheckMs = s.lastTimeoutCheckMs := rfl

/-! ## The record changes nothing -/

theorem erase_removeClient : (s.removeClient app.tracked fd).erase = s.erase.removeClient app fd := rfl

theorem erase_queueWrite (data : Bytes) (result : SendResult) :
    ((s.queueWrite app.tracked fd data result).1.erase, (s.queueWrite app.tracked fd data result).2) =
      s.erase.queueWrite app fd data result := by
  simp only [queueWrite, erase]
  cases ((s.clients fd).queueWrite data result.write).ending with
  | full => rfl
  | drained => rfl
  | waiting => cases result.registered <;> rfl
  | lost => rfl

theorem erase_handle (result : SendResult) (handling : Handling σ) :
    (s.handle app.tracked fd result (handling.track fd s.app.sent)).map (Prod.map erase id) =
      s.erase.handle app fd result handling := by
  cases handling with
  | finish state ok => rfl
  | reply state payload resume =>
    have same := erase_queueWrite app { s with app := ⟨state, s.app.sent⟩ } fd (frame payload) result
    simp only [handle, sendFramed, Handling.track]
    split
    · rfl
    · rw [show ({ s.erase with app := state } : Server σ) = erase { s with app := ⟨state, s.app.sent⟩ } from rfl,
        ← same]
      rfl

theorem erase_processBuffer (during : During ε) (rounds k : Nat) :
    (processBuffer app.tracked during fd rounds k s).map erase = processBuffer app during fd rounds k s.erase := by
  induction rounds generalizing k s with
  | zero => rfl
  | succ rounds ih =>
    unfold processBuffer
    rw [erase_clients]
    split
    · rfl
    · rfl
    next payload found =>
      simp only [App.tracked, Option.bind_eq_bind, erase_app]
      cases app.onMessage s.app.state fd payload (during k).1 with
      | none => rfl
      | some handling =>
        have same := erase_handle app s fd (during k).2 handling
        simp only [Option.map_some, Option.bind_some]
        rw [← same]
        cases handled : s.handle app.tracked fd (during k).2 (handling.track fd s.app.sent) with
        | none =>
          simp only [App.tracked] at handled
          simp only [handled]
          rfl
        | some answer =>
          obtain ⟨mid, ok⟩ := answer
          simp only [App.tracked] at handled
          simp only [handled, Option.map_some, Option.bind_some, Prod.map_apply, id_eq]
          cases ok with
          | false => rfl
          | true =>
            simp only [↓reduceIte]
            rw [show (noteDelivered mid.erase fd payload true).clients =
              (mid.noteDelivered fd payload true).clients from rfl]
            split
            · rfl
            · exact ih _ _

theorem erase_onRead (result : SocketRead) (during : During ε) :
    (s.onRead app.tracked fd result during).map erase = s.erase.onRead app fd result during := by
  simp only [onRead]
  rw [erase_clients]
  split
  · cases result with
    | closed => rfl
    | hardError => rfl
    | again => rfl
    | data chunk =>
      simp only
      split
      · rfl
      · exact erase_processBuffer app _ fd during _ _
  · rfl

theorem erase_onWrite (result : SocketWrite) (during : During ε) :
    (s.onWrite app.tracked fd result during).map erase = s.erase.onWrite app fd result during := by
  simp only [onWrite]
  rw [erase_clients]
  cases ((s.clients fd).flush result).ending with
  | lost => rfl
  | drained => exact erase_processBuffer app _ fd during _ _
  | full => rfl
  | waiting => rfl

theorem erase_onAccept (result : Accept) :
    (s.onAccept app.tracked result).map erase = s.erase.onAccept app result := by
  cases result with
  | refused => rfl
  | taken fd registered =>
    simp only [onAccept]
    rw [erase_clients]
    split
    · rfl
    · cases registered <;> rfl

theorem erase_checkFrom (fds : List Fd) (found : Nat) :
    (s.checkFrom app.tracked fds found).erase = s.erase.checkFrom app fds found := by
  induction fds generalizing found s with
  | nil => rfl
  | cons fd rest ih =>
    simp only [checkFrom]
    rw [erase_clients, erase_clientsCount, erase_nowMs, erase_clientTimeoutS]
    split
    · split
      · split
        · rw [ih, erase_removeClient]
        · exact ih s _
      · exact ih s _
    · rfl

theorem erase_beforeSleep (now realtime : Int) :
    (s.serverBeforeSleep app.tracked now realtime).map erase = s.erase.serverBeforeSleep app now realtime := by
  have cron : ∀ s : Server (Tracked σ),
      (s.clientTimeoutsCron app.tracked).erase = s.erase.clientTimeoutsCron app := by
    intro s
    unfold clientTimeoutsCron
    rw [erase_nowMs, erase_lastTimeoutCheckMs]
    split
    · rfl
    · exact erase_checkFrom app _ _ _
  have same := cron { s with nowMs := now, cronloops := s.cronloops + 1 }
  simp only [serverBeforeSleep]
  rw [show ({ s.erase with nowMs := now, cronloops := s.erase.cronloops + 1 } : Server σ) =
    erase { s with nowMs := now, cronloops := s.cronloops + 1 } from rfl, ← same]
  simp only [App.tracked, Option.map_map]
  rfl

theorem erase_next (event : Event ε) : (s.next app.tracked event).map erase = s.erase.next app event := by
  cases event with
  | accept result => exact erase_onAccept app s result
  | readable fd result during =>
    simp only [next]
    rw [erase_readHandlers]
    split
    · exact erase_onRead app s fd result during
    · rfl
  | writable fd result during =>
    simp only [next]
    rw [erase_writeHandlers]
    split
    · exact erase_onWrite app s fd result during
    · rfl
  | checkTimeouts => exact congrArg some (erase_checkFrom app s _ _)
  | beforeSleep now realtime => exact erase_beforeSleep app s now realtime
  | shutdown => rfl

/-! ## What a reply leaves behind -/

end Server

/-- A handler that returns 0 exactly when it has sent a reply. -/
def Handling.Answers : Handling σ → Prop
  | .finish _ ok => ok = false
  | .reply _ _ resume => ∀ state ok, (resume state ok).2 = ok

namespace Server

variable {app : App σ ε} {s after : Server (Tracked σ)} {fd : Fd} {result : SendResult} {handling : Handling σ}

theorem queueWrite_sent (app : App σ ε) (s : Server (Tracked σ)) (fd : Fd) (data : Bytes) (result : SendResult) :
    (s.queueWrite app.tracked fd data result).1.app.sent = s.app.sent ∧
      ((s.queueWrite app.tracked fd data result).2 = true →
        (s.queueWrite app.tracked fd data result).1.clients fd = ((s.clients fd).queueWrite data result.write).client ∧
        ((s.clients fd).queueWrite data result.write).ending ≠ .full) := by
  cases ending : ((s.clients fd).queueWrite data result.write).ending with
  | full => simp [queueWrite, ending, setClient]
  | drained => simp [queueWrite, ending, setClient]
  | waiting => cases registered : result.registered <;> simp [queueWrite, ending, setClient, watchWrite, registered]
  | lost => simp [queueWrite, ending, setClient, removeClient, App.tracked]

/-- The reply stands behind everything sent before, on its way or still in the write buffer. -/
structure Replied (s after : Server (Tracked σ)) (fd : Fd) (payload : Bytes) (result : SendResult) : Prop where
  small : payload.length ≤ msgMax
  client : after.clients fd = ((s.clients fd).queueWrite (frame payload) result.write).client
  stored : ((s.clients fd).queueWrite (frame payload) result.write).ending ≠ .full
  sent : after.app.sent = Function.update s.app.sent fd (s.app.sent fd ++ [payload])

theorem handle_replied (answers : handling.Answers)
    (handled : s.handle app.tracked fd result (handling.track fd s.app.sent) = some (after, true)) :
    ∃ state payload resume, handling = .reply state payload resume ∧ Replied s after fd payload result := by
  cases handling with
  | finish state ok =>
    cases handled
    cases answers
  | reply state payload resume =>
    refine ⟨state, payload, resume, rfl, ?_⟩
    obtain ⟨same, queued⟩ := queueWrite_sent app { s with app := ⟨state, s.app.sent⟩ } fd (frame payload) result
    simp only [handle, Handling.track, sendFramed] at handled
    split at handled
    · cases handled
    next small =>
      simp only [Option.map_some, Option.some.injEq, Prod.mk.injEq, answers _ _] at handled
      obtain ⟨rfl, ok⟩ := handled
      obtain ⟨client, stored⟩ := queued ok
      exact ⟨by omega, client, stored, by simp only [ok, ↓reduceIte, same]⟩

theorem handle_unsent (answers : handling.Answers)
    (handled : s.handle app.tracked fd result (handling.track fd s.app.sent) = some (after, false)) :
    after.app.sent = s.app.sent := by
  cases handling with
  | finish state ok =>
    cases handled
    rfl
  | reply state payload resume =>
    obtain ⟨same, -⟩ := queueWrite_sent app { s with app := ⟨state, s.app.sent⟩ } fd (frame payload) result
    simp only [handle, Handling.track, sendFramed] at handled
    split at handled
    · cases handled
    · simp only [Option.map_some, Option.some.injEq, Prod.mk.injEq, answers _ _] at handled
      obtain ⟨rfl, refused⟩ := handled
      simp only [refused, Bool.false_eq_true, ↓reduceIte, same]

end Server

end MapReduce
