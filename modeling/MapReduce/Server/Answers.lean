import MapReduce.Effects
import MapReduce.Server.Application
import MapReduce.Server.Tracked

/-! What the master sends in answer to a message.

A handler of the master returns 0 exactly when its answer is out, and the answer
is the one the callback model sends. So a handler that the server runs is one
callback of the master, with the answer in the record of what was sent.
-/

set_option autoImplicit false

namespace MapReduce

def Handling.sends (outcome : SendOutcome) : Handling World → Option Bytes
  | .finish _ _ => none
  | .reply _ payload _ => if outcome = .queued then some payload else none

theorem replyWith_answers (w : World) (after : World → Bool → World) (buf : Option Bytes) :
    (replyWith w after buf).Answers := by
  cases buf with
  | none => rfl
  | some buf => exact fun _ _ => rfl

theorem respond_sends (w : World) (fd : Fd) (outcome : SendOutcome) (buf : Option Bytes) :
    (respond w fd outcome buf).sent = (replyWith w (fun w _ => w) buf).sends outcome := by
  cases buf with
  | none => rfl
  | some buf => cases outcome <;> rfl

theorem getTask_sends {w : World} {fd : Fd} {handling : Handling World} (asked : getTaskHandling w fd = some handling) :
    handling.Answers ∧ ∀ env r, masterHandleGetTask w fd env = some r → r.sent = handling.sends env.send := by
  unfold getTaskHandling at asked
  unfold masterHandleGetTask
  cases phase : w.master.job.phase.kind? with
  | none =>
    rw [phase] at asked
    cases asked
    refine ⟨replyWith_answers _ _ _, fun env r returned => ?_⟩
    cases returned
    exact respond_sends w fd env.send _
  | some kind =>
    rw [phase] at asked
    obtain ⟨⟨chosen, m⟩, choice, asked⟩ := Option.bind_eq_some_iff.mp asked
    simp only [choice, Option.bind_eq_bind, Option.bind_some]
    cases chosen with
    | some i =>
      obtain ⟨t, found, asked⟩ := Option.bind_eq_some_iff.mp asked
      cases asked
      refine ⟨replyWith_answers _ _ _, fun env r returned => ?_⟩
      simp only [found, Option.bind_some, Option.some.injEq] at returned
      exact returned ▸ respond_sends ⟨m, w.log⟩ fd env.send _
    | none =>
      obtain ⟨buf, waits, asked⟩ := Option.bind_eq_some_iff.mp asked
      cases asked
      refine ⟨replyWith_answers _ _ _, fun env r returned => ?_⟩
      simp only [waits, Option.bind_some, Option.some.injEq] at returned
      exact returned ▸ respond_sends ⟨m, w.log⟩ fd env.send _

theorem taskDoneHandling_ack {w : World} {fd : Fd} {env : LogEnv} {msg : TaskDoneReq} {handling : Handling World}
    (asked : taskDoneHandling w fd env msg = some handling) :
    ∃ world after, handling = replyWith world after (some ackBytes) := by
  unfold taskDoneHandling at asked
  obtain ⟨kind, phase, asked⟩ := Option.bind_eq_some_iff.mp asked
  obtain ⟨t, found, asked⟩ := Option.bind_eq_some_iff.mp asked
  rw [show rpcEncodeTaskDoneAck msgMax = some ackBytes from rfl] at asked
  simp only at asked
  split at asked
  · cases asked
    exact ⟨_, _, rfl⟩
  · obtain ⟨applied, -, rfl⟩ := Option.map_eq_some_iff.mp asked
    exact ⟨_, _, rfl⟩

theorem message_sends {w : World} {fd : Fd} {payload : Bytes} {env : LogEnv} {handling : Handling World}
    (asked : messageHandling w fd payload env = some handling) : handling.Answers ∧
    ∀ outcome r, masterOnMessage w fd payload (env.sending outcome) = some r → r.sent = handling.sends outcome := by
  -- Whatever the master does not understand is refused without an answer.
  have refused : ∀ reply : Reply, some (Handling.finish w false) = some handling → reply = ⟨w, false, none, none⟩ →
      handling.Answers ∧ ∀ outcome r, some reply = some r → r.sent = handling.sends outcome := by
    rintro reply same rfl
    cases same
    exact ⟨rfl, fun _ _ returned => by cases returned; rfl⟩
  unfold messageHandling at asked
  unfold masterOnMessage
  cases known : rpcPeekKind payload with
  | none =>
    rw [known] at asked
    exact refused _ asked rfl
  | some kind =>
    rw [known] at asked
    cases kind with
    | getTaskReq => exact (getTask_sends asked).imp_right fun sends outcome => sends (env.sending outcome)
    | taskDoneReq =>
      cases decoded : rpcDecodeTaskDoneReq payload.tail with
      | none =>
        simp only [decoded] at asked ⊢
        exact refused _ asked rfl
      | some msg =>
        simp only [decoded, masterHandleTaskDone] at asked ⊢
        have helped (asked : taskDoneHandling w fd env msg = some handling) : handling.Answers ∧
            ∀ outcome r, taskDoneHelper w fd (env.sending outcome) msg = some r → r.sent = handling.sends outcome := by
          obtain ⟨world, after, rfl⟩ := taskDoneHandling_ack asked
          exact ⟨replyWith_answers _ _ _, fun outcome r handled => taskDoneHelper_sent handled⟩
        cases phase : w.master.job.phase with
        | map =>
          simp only [phase] at asked ⊢
          exact helped asked
        | reduce =>
          simp only [phase] at asked ⊢
          exact helped asked
        | done =>
          simp only [phase] at asked ⊢
          exact refused _ asked rfl
        | failed =>
          simp only [phase] at asked ⊢
          exact refused _ asked rfl
    | taskMapResp | taskReduceResp | waitResp | doneResp | taskDoneAck => exact refused _ asked rfl

theorem handle_callback {s mid : Server (Tracked World)} {fd : Fd} {payload : Bytes} {env : LogEnv}
    {result : SendResult} {handling : Handling (Tracked World)} {ok : Bool}
    (asked : masterApp.tracked.onMessage s.app fd payload env = some handling)
    (handled : s.handle masterApp.tracked fd result handling = some (mid, ok)) :
    ∃ outcome r, callback s.app.state (.message fd payload (env.sending outcome)) = some r ∧
      r.toWorld = mid.app.state ∧ r.ok = ok ∧
      (ok = true → ∃ reply, r.sent = some reply ∧ Server.Replied s mid fd reply result) ∧
      (ok = false → mid.app.sent = s.app.sent) := by
  obtain ⟨plain, answered, rfl⟩ := Option.map_eq_some_iff.mp asked
  obtain ⟨answers, sends⟩ := message_sends answered
  have erased := Server.erase_handle masterApp s fd result plain
  rw [handled] at erased
  obtain ⟨outcome, settled⟩ := Server.handle_settles erased.symm
  have same := message_settles s.app.state fd payload env outcome
  rw [show messageHandling s.app.state fd payload env = some plain from answered, Option.map_some, settled] at same
  obtain ⟨r, returned, ending⟩ := Option.map_eq_some_iff.mp same
  simp only [Reply.ending, Prod.mk.injEq] at ending
  refine ⟨outcome, r, returned, ending.1, ending.2, ?_, ?_⟩
  · rintro rfl
    obtain ⟨state, reply, resume, rfl, replied⟩ := Server.handle_replied answers handled
    refine ⟨reply, ?_, replied⟩
    rw [sends outcome r returned]
    -- A send that returned 0 was queued.
    have queued : (serverSend state.master fd outcome).2 = true :=
      (answers ⟨(serverSend state.master fd outcome).1, state.log⟩ _).symm.trans (congrArg Prod.snd settled)
    cases outcome with
    | queued => rfl
    | full => cases queued
    | hardError => cases queued
  · rintro rfl
    exact Server.handle_unsent answers handled

end MapReduce
