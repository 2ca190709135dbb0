import SprayCC.Process.Peers

open Async Program

-- How the processes can panic.

namespace SprayCC

namespace Exec

variable {turn : Turn} {turns : List Turn} {details : TaskDetails} {task : Task} {p : Process.Panic}
variable {picks : List Stream} {runTime sendTime : Duration} {targetId : String}
variable {tr : Trace Process.signature}

-- The task can not be taken up in the turn.
def Turn.Balks (turn : Turn) (details : TaskDetails) : Prop :=
  details.getTargetId = none ∨
    Task.start turn.host details.workingDir details.cmd details.args details.outputArgs
      details.env = none

theorem runTask_within :
    (runTask picks runTime sendTime task targetId).Within (fun _ => True) (· ≠ .panic) := by
  have hw {α : Type} {p : Proc α} (h : p.Within (Call.Outputs fun _ => True) (· ≠ .panic)) :
      p.Within (fun _ => True) (· ≠ .panic) := h.mono fun _ _ => trivial
  refine .bind (hw <| relay_within fun _ => trivial) fun _ => ?_
  refine .bind (waitFor_within Fault.noConfusion Fault.noConfusion) fun _ => ?_
  refine .bind (hw <| sendOutputFiles_within fun _ _ => trivial) fun _ => ?_
  exact .bind (writeMessage_within trivial) fun _ => trivial

-- Once it has been taken up, a task does not panic any more.
theorem handles_within :
    (turn.handles details).Within (fun _ => True) fun e => e = .panic → turn.Balks details := by
  have hw {p : Proc Unit} (h : p.Within (fun _ => True) (· ≠ .panic)) :
      p.Within (fun _ => True) fun e => e = .panic → turn.Balks details :=
    h.weaken fun _ he hp => absurd hp he
  unfold Turn.handles handleNewTask
  cases ht : details.getTargetId
  case none => exact fun _ => .inl ht
  case some =>
    cases hs : Task.start turn.host details.workingDir details.cmd details.args details.outputArgs
      details.env
    case none         => exact fun _ => .inr hs
    case some started =>
      simp only [get_some_bind]
      cases started
      case error => exact hw <| writeMessage_within trivial
      case ok    => exact hw <| .bind runTask_within fun _ => trivial

-- An exec panics on a message which is no order, or on a task which it can not take up.
theorem serve_panics (h : (serve turns).Runs tr (.error (.panic p))) :
    (∃ msg ∈ Process.heard (Process.dialogue tr), ¬msg.Order) ∨ Process.Garbled tr ∨
      p = .exec ∧ ∃ (n : Nat) (turn : Turn) (accessCode userCode : UInt64) (details : TaskDetails),
        turns[n]? = some turn ∧ turn.Balks details ∧
          (Process.heard (Process.dialogue tr))[n]? =
            some (.task accessCode userCode details) := by
  induction turns generalizing tr with
  | nil => cases (Runs.fail_iff.mp h).right
  | cons turn turns hi =>
    obtain ⟨arrival, tr, rfl, hp⟩ := Runs.call_iff.mp h
    cases arrival
    case message msg =>
      rw [Process.dialogue_read, Process.heard_heard]
      cases msg
      case task a u details =>
        have hp : ((turn.handles details).lift socket Fault.ofTask >>= fun _ =>
          Process.flushOrErr >>= fun _ => serve turns).Runs tr _ := hp
        rcases Runs.bind_iff.mp hp with ⟨e, hl, he⟩ | ⟨_, tr₁, tr₂, rfl, h₁, h₂⟩
        case inl =>
          cases he
          obtain ⟨_, r, hr, _, he⟩ := hl.of_lift
          cases r
          case ok      => cases he
          case error e =>
            cases e <;> cases he
            exact .inr <| .inr ⟨rfl, 0, turn, a, u, details, rfl,
              (handles_within.runs hr).right _ rfl rfl, rfl⟩
        case inr =>
          obtain ⟨tr₁, _, rfl⟩ := h₁.ok_of_lift
          obtain ⟨ok, tr', rfl, h₃⟩ := Runs.call_iff.mp h₂
          cases ok
          case false => cases (Runs.fail_iff.mp h₃).right
          have ht : Process.heard (Process.dialogue (socket.trace tr₁ ++ ⟨.flush, true⟩ :: tr')) =
              Process.heard (Process.dialogue tr') := by
            rw [Process.dialogue_append, dialogue_socket, Process.heard_append, Process.heard_map]
            rfl
          rw [ht]
          rcases hi h₃ with ⟨msg, hm, ho⟩ | hg | ⟨hp, n, turn, a, u, details, ht, hb, hm⟩
          case inl     => exact .inl ⟨msg, .tail _ hm, ho⟩
          case inr.inl => exact .inr <| .inl <| .tail _ <| List.mem_append_right _ <| .tail _ hg
          case inr.inr => exact .inr <| .inr ⟨hp, n + 1, turn, a, u, details, ht, hb, hm⟩
      case pissOff => cases (Runs.done_iff.mp hp).right
      all_goals exact .inl ⟨_, .head _, id⟩
    case undecodable => exact .inr <| .inl <| .head _
    case closed      => cases (Runs.done_iff.mp hp).right
    case error       => cases (Runs.fail_iff.mp hp).right

theorem session_panics {accessCode userPrivateKey : UInt64}
    (h : (session accessCode userPrivateKey turns).Runs tr (.error (.panic p))) :
    (∃ msg ∈ Process.heard (Process.dialogue tr), ¬msg.Order) ∨ Process.Garbled tr ∨
      p = .exec ∧ ∃ (n : Nat) (turn : Turn) (accessCode userCode : UInt64) (details : TaskDetails),
        turns[n]? = some turn ∧ turn.Balks details ∧
          (Process.heard (Process.dialogue tr))[n]? =
            some (.task accessCode userCode details) := by
  obtain ⟨ok, tr, rfl, hw⟩ := Runs.call_iff.mp h
  cases ok
  case false => cases (Runs.fail_iff.mp hw).right
  have hw : (serve turns >>= fun _ => Process.shutdown).Runs tr _ := hw
  rcases Runs.bind_iff.mp hw with ⟨_, hs, he⟩ | ⟨_, tr₁, tr₂, rfl, _, h₂⟩
  case inl =>
    cases he
    rw [Process.dialogue_write, Process.heard_said]
    exact (serve_panics hs).imp_right <| .imp_left <| .tail _
  case inr =>
    obtain ⟨_, _, _, h₂⟩ := Runs.call_iff.mp h₂
    cases (Runs.done_iff.mp h₂).right

end Exec

namespace Client

variable {task : TaskDetails} {files files' : List LazyFile} {msg : Message} {p : Process.Panic}
variable {tr : Trace Process.signature} {fuel : Nat} {accessCode userPrivateKey : UInt64}

-- The message is one for a client with this task.
def Fits (task : TaskDetails) : Message → Prop
  | .taskOutput outputType _   => Within task outputType
  | .taskFailed _ | .taskDone .. => True
  | _                          => False

theorem handleMsg_lasts (h : Ready task files) (hm : Fits task msg) :
    Lasts (handleMsg files msg) fun (status, files') _ =>
      Ready task files' ∧ (status = none → ∀ status, ¬Closes msg status) := by
  cases msg
  case taskOutput =>
    exact .bind (writeOutput_lasts h hm) fun _ _ h => .pure ⟨h, fun _ _ => id⟩
  case taskFailed => exact .pure ⟨h, nofun⟩
  case taskDone   =>
    refine .pure ⟨h, fun hs => ?_⟩
    cases hs
    exact fun _ => id
  all_goals exact hm.elim

-- The loop does not panic on messages which are for the client, and it does not end without a
-- status after a message which has one.
theorem listen_lasts {r : Except Process.Fault (Option Int32 × List LazyFile)}
    (h : Ready task files) (hm : ∀ msg ∈ Process.heard (Process.dialogue tr), Fits task msg)
    (hr : (listen fuel files).Runs tr r) :
    (∀ p, r = .error (.panic p) → Process.Garbled tr) ∧
      ∀ files', r = .ok (none, files') →
        ∀ msg ∈ Process.heard (Process.dialogue tr), ∀ status, ¬Closes msg status := by
  induction fuel generalizing files tr with
  | zero =>
    obtain ⟨_, rfl⟩ := Runs.fail_iff.mp hr
    exact ⟨nofun, nofun⟩
  | succ fuel hi =>
    obtain ⟨arrival, tr, rfl, hp⟩ := Runs.call_iff.mp hr
    cases arrival
    case message msg =>
      have hp : ((handleMsg files msg).lift host Fault.ofFiles >>= fun (status, files) =>
        if status.isNone then listen fuel files else pure (status, files)).Runs tr r := hp
      rw [Process.dialogue_read, Process.heard_heard] at hm ⊢
      have ⟨hf, hm⟩ := List.forall_mem_cons.mp hm
      have hl := handleMsg_lasts h hf
      rcases Runs.bind_iff.mp hp with ⟨e, he, rfl⟩ | ⟨⟨status, files'⟩, tr₁, tr₂, rfl, h₁, h₂⟩
      case inl =>
        obtain ⟨_, r, hl', _, he⟩ := he.of_lift
        cases r
        case ok    => cases he
        case error =>
          rcases hl _ _ hl' with ⟨_, _, hn, _⟩ | ⟨_, hn⟩ <;> cases hn
          cases he
          exact ⟨nofun, nofun⟩
      case inr =>
        obtain ⟨tr₁, hl', rfl⟩ := h₁.ok_of_lift
        rcases hl _ _ hl' with ⟨_, _, ha, hf', hn⟩ | ⟨_, ha⟩ <;> cases ha
        rw [Process.dialogue_append, dialogue_host, List.nil_append] at hm ⊢
        cases status
        case none =>
          have ⟨hp, hs⟩ := hi hf' hm h₂
          refine ⟨fun p he => .tail _ <| List.mem_append_right _ <| hp p he, fun files' he => ?_⟩
          exact List.forall_mem_cons.mpr ⟨hn rfl, hs files' he⟩
        case some =>
          obtain ⟨_, rfl⟩ := Runs.done_iff.mp h₂
          exact ⟨nofun, nofun⟩
    case closed =>
      obtain ⟨rfl, rfl⟩ := Runs.done_iff.mp hp
      exact ⟨nofun, fun _ _ _ => nofun⟩
    case error =>
      obtain ⟨_, rfl⟩ := Runs.fail_iff.mp hp
      exact ⟨nofun, nofun⟩
    case undecodable =>
      obtain ⟨_, rfl⟩ := Runs.fail_iff.mp hp
      exact ⟨fun _ _ => .head _, nofun⟩

theorem shutdownFiles_lasts : Lasts (shutdownFiles files) fun _ _ => True := by
  unfold shutdownFiles
  generalize files.reverse = files
  induction files with
  | nil                => exact .pure trivial
  | cons file files hi =>
    refine .bind (Q := fun _ _ => True) ?_ fun _ _ _ => hi
    cases file
    case file            => exact .callOrErr trivial
    case fileName | none => exact .pure trivial

theorem close_lasts {status : Option Int32} {r : Except Process.Fault (Option Int32)}
    (hr : (close files status).Runs tr r) :
    Process.heard (Process.dialogue tr) = [] ∧ (r = .ok status ∨ r = .error .error) := by
  have hd := Process.dialogue_eq_nil (close_quiet.runs hr).left
  rw [hd]
  refine ⟨rfl, ?_⟩
  rcases Runs.bind_iff.mp hr with ⟨e, he, rfl⟩ | ⟨_, tr₁, tr₂, rfl, _, h₂⟩
  case inl =>
    obtain ⟨_, r, hl, _, he⟩ := he.of_lift
    rcases shutdownFiles_lasts _ _ hl with ⟨_, _, rfl, _⟩ | ⟨_, rfl⟩ <;> cases he
    exact .inr rfl
  case inr =>
    obtain ⟨_, _, _, h₃⟩ := Runs.call_iff.mp h₂
    exact .inl (Runs.done_iff.mp h₃).right

theorem submit_lasts {r : Except Process.Fault (Option Int32)}
    (hr : (submit accessCode userPrivateKey task fuel).Runs tr r)
    (hm : ∀ msg ∈ Process.heard (Process.dialogue tr), Fits task msg) :
    (∀ p, r = .error (.panic p) → Process.Garbled tr ∨
      p = .client "index out of bounds" ∧ makeOutputFiles task = none) ∧
      (r = .ok none →
        ∀ msg ∈ Process.heard (Process.dialogue tr), ∀ status, ¬Closes msg status) := by
  rw [submit_eq] at hr
  cases hf : makeOutputFiles task <;> rw [hf] at hr
  case none =>
    obtain ⟨_, rfl⟩ := Runs.fail_iff.mp hr
    exact ⟨fun p hp => .inr ⟨by cases hp; rfl, rfl⟩, nofun⟩
  case some files =>
    have hw : (Process.writeOrErr (.task accessCode userPrivateKey task) >>= fun _ =>
      listen fuel files >>= fun (status, files) => close files status).Runs tr r := hr
    obtain ⟨ok, tr, rfl, hl⟩ := Runs.call_iff.mp hw
    cases ok
    case false =>
      obtain ⟨_, rfl⟩ := Runs.fail_iff.mp hl
      exact ⟨nofun, nofun⟩
    have hl : (listen fuel files >>= fun (status, files) => close files status).Runs tr r := hl
    rw [Process.dialogue_write, Process.heard_said] at hm ⊢
    rcases Runs.bind_iff.mp hl with ⟨e, he, rfl⟩ | ⟨⟨status, files'⟩, tr₁, tr₂, rfl, h₁, h₂⟩
    case inl =>
      have hp := (listen_lasts (ready_makeOutputFiles hf) hm he).left
      exact ⟨fun p hp' => .inl <| .tail _ <| hp p (by cases hp'; rfl), nofun⟩
    case inr =>
      obtain ⟨hn, hc⟩ := close_lasts h₂
      rw [Process.dialogue_append, Process.heard_append, hn, List.append_nil] at hm ⊢
      have hs := (listen_lasts (ready_makeOutputFiles hf) hm h₁).right files'
      rcases hc with rfl | rfl
      case inl => exact ⟨nofun, fun hn => hs (by cases hn; rfl)⟩
      case inr => exact ⟨nofun, nofun⟩

-- A client only panics if the outputs of its task are not among the arguments, or if it is left
-- without a status.
theorem session_panics
    (h : (session accessCode userPrivateKey task fuel).Runs tr (.error (.panic p)))
    (hm : ∀ msg ∈ Process.heard (Process.dialogue tr), Fits task msg) :
    Process.Garbled tr ∨ p = .client "index out of bounds" ∧ makeOutputFiles task = none ∨
      p = .client "No task status as set" ∧
        ∀ msg ∈ Process.heard (Process.dialogue tr), ∀ status, ¬Closes msg status := by
  rcases Runs.bind_iff.mp h with ⟨e, he, hp⟩ | ⟨status, tr₁, tr₂, rfl, h₁, h₂⟩
  case inl =>
    cases hp
    exact ((submit_lasts he hm).left p rfl).imp_right .inl
  case inr =>
    cases status
    case some => cases (Runs.done_iff.mp h₂).right
    case none =>
      obtain ⟨rfl, hp⟩ := Runs.fail_iff.mp h₂
      cases hp
      rw [List.append_nil] at hm ⊢
      exact .inr <| .inr ⟨rfl, (submit_lasts h₁ hm).right rfl⟩

end Client
end SprayCC
