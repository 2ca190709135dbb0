import SprayCC.Process.Exit
import SprayCC.Process.Peers

open Async Program

-- Where a process is when it waits for a message: an exec has answered all of its tasks, and a
-- client has not heard of a status yet.

namespace SprayCC

-- A process which is connected does not call anything else.
def Process.Call.Online : Process.Call → Prop
  | connect _ | random | sleep _ | spawn .. | wait => False
  | write _ | read | flush | shutdown | file _     => True

section Online

variable {E : Process.Fault → Prop}

theorem Process.writeOrErr_online {msg : Message} (h : E .error) :
    (Process.writeOrErr msg).Within Process.Call.Online E :=
  ⟨trivial, fun ok => by cases ok <;> [exact h; trivial]⟩

theorem Process.flushOrErr_online (h : E .error) :
    Process.flushOrErr.Within Process.Call.Online E :=
  ⟨trivial, fun ok => by cases ok <;> [exact h; trivial]⟩

end Online

namespace Exec

variable {codes : Codes} {second : Bool} {turns : List Turn} {tr : Trace Process.signature}
variable {accessCode userPrivateKey : UInt64} {n : Nat}

theorem serve_online : (serve turns).Within Process.Call.Online fun _ => True := by
  induction turns with
  | nil              => trivial
  | cons turn turns hi =>
    refine ⟨trivial, fun arrival => ?_⟩
    cases arrival
    case message msg =>
      cases msg
      case task =>
        have hl {details : TaskDetails} : ((turn.handles details).lift socket Fault.ofTask).Within
            Process.Call.Online fun _ => True := lift_within (fun _ => trivial) fun _ => trivial
        exact hl.bind fun _ => (Process.flushOrErr_online trivial).bind fun _ => hi
      all_goals trivial
    all_goals trivial

theorem session_online :
    (session accessCode userPrivateKey turns).Within Process.Call.Online fun _ => True :=
  .bind (Process.writeOrErr_online trivial) fun _ => .bind serve_online fun _ =>
    ⟨trivial, fun _ => trivial⟩

theorem serve_idle {k : Process.Arrival → Process.Proc Unit}
    (h : (serve turns).After tr (Program.call (S := Process.signature) .read k)) :
    ∃ n', (Process.dialogue tr).foldlM (Peer.converses codes) (.exec second .idle n) =
      some (.exec second .idle n') := by
  induction turns generalizing tr n with
  | nil              => cases (After.fail_iff.mp h).right
  | cons turn turns hi =>
    rcases After.of_call h with ⟨rfl, _⟩ | ⟨arrival, tr, rfl, hp⟩
    case inl => exact ⟨n, rfl⟩
    cases arrival
    case message msg =>
      rw [Process.dialogue_read]
      cases msg
      case task a u details =>
        have hp : ((turn.handles details).lift socket Fault.ofTask >>= fun _ =>
          Process.flushOrErr >>= fun _ => serve turns).After tr _ := hp
        rcases hp.call_of_bind with ⟨_, hl⟩ | ⟨_, tr₁, tr₂, rfl, h₁, h₂⟩
        case inl =>
          obtain ⟨⟨_⟩, hc⟩ := hl.call_of_lift
          cases hc
        case inr =>
          obtain ⟨tr₁, hr, rfl⟩ := (After.runs_ok_iff.mpr h₁).ok_of_lift
          have he : turn.Ends (sent tr₁) (.task a u details) := ⟨tr₁, hr, rfl⟩
          rcases After.of_call h₂ with ⟨_, hq⟩ | ⟨ok, tr₃, rfl, h₃⟩
          case inl => cases hq
          cases ok
          case false => cases (After.fail_iff.mp h₃).right
          have ⟨n', hn⟩ := hi (n := n + 1) (show (serve turns).After tr₃ _ from h₃)
          refine ⟨n', ?_⟩
          rw [Process.dialogue_append, dialogue_socket, ← List.cons_append, List.foldlM_append,
            he.speaks]
          exact hn
      case pissOff => cases (After.done_iff.mp hp).right
      all_goals cases (After.fail_iff.mp hp).right
    case closed              => cases (After.done_iff.mp hp).right
    case error | undecodable => cases (After.fail_iff.mp hp).right

-- A process of a task goes on for ever: it keeps one of its streams open, or it does not exit after
-- they have been read, which is up to a line that can not be decoded.
def Turn.Hangs (turn : Turn) (details : TaskDetails) : Prop :=
  ∃ task, Task.start turn.host details.workingDir details.cmd details.args details.outputArgs
      details.env = some (.ok task) ∧
    let readers := fun stream => { rest := task.child.output stream, done := false }
    (∃ tr, (relay turn.picks readers).Runs tr (.error .blocked)) ∨
      ∃ tr readers', (relay turn.picks readers).Runs tr (.ok readers') ∧
        task.child.wait (fun stream => (readers' stream).rest) = .never

theorem writeMessage_unblocked {msg : Message} :
    (writeMessage msg).Within (fun _ => True) (· ≠ .blocked) :=
  ⟨trivial, fun ok => by cases ok <;> [exact Fault.noConfusion; trivial]⟩

theorem sendChunks_unblocked {type : OutputType} {reads : List (Option (List UInt8))} :
    (sendChunks type reads).Within (fun _ => True) (· ≠ .blocked) := by
  induction reads with
  | nil            => trivial
  | cons read _ hi =>
    cases read
    case none => exact Fault.noConfusion
    case some =>
      unfold sendChunks
      split
      case isTrue  => trivial
      case isFalse => exact .bind writeMessage_unblocked fun _ => hi

theorem sendOutputFiles_unblocked {child : Child} {idx : Nat} {paths : List String} :
    (sendOutputFiles child idx paths).Within (fun _ => True) (· ≠ .blocked) := by
  induction paths generalizing idx with
  | nil            => trivial
  | cons path _ hi =>
    refine .bind ?_ fun _ => hi
    unfold sendOutputFile
    split
    case h_1 => exact sendChunks_unblocked
    case h_2 => trivial

-- An exec is blocked by a task only if its process goes on for ever.
theorem Turn.hangs_of_blocked {turn : Turn} {details : TaskDetails} {tr : Trace signature}
    (h : (turn.handles details).Runs tr (.error .blocked)) : turn.Hangs details := by
  rcases Runs.get_cases h with ⟨_, he⟩ | ⟨targetId, _, h⟩
  case inl => cases he
  rcases Runs.get_cases h with ⟨_, he⟩ | ⟨started, hs, h⟩
  case inl => cases he
  cases started
  case error => exact absurd rfl <| (writeMessage_unblocked.runs h).right _ rfl
  case ok task =>
    refine ⟨task, hs, ?_⟩
    rcases Runs.bind_iff.mp h with ⟨e, h, he⟩ | ⟨_, _, _, _, _, hd⟩
    case inr => cases (Runs.done_iff.mp hd).right
    cases he
    rcases Runs.bind_iff.mp h with ⟨e, hr, he⟩ | ⟨readers, tr₁, _, _, h₁, h⟩
    case inl =>
      cases he
      exact .inl ⟨_, hr⟩
    rcases Runs.bind_iff.mp h with ⟨e, hw, he⟩ | ⟨code, _, _, _, _, h⟩
    case inl =>
      cases he
      refine .inr ⟨tr₁, readers, h₁, ?_⟩
      unfold waitFor at hw
      split at hw
      case h_1    => cases (Runs.done_iff.mp hw).right
      case h_2    => cases (Runs.fail_iff.mp hw).right
      case h_3 hn => exact hn
    case inr =>
      have hw {paths : List String} {msg : Message} {unread : Stream → List UInt8} :
          (sendOutputFiles task.child 0 paths >>= fun _ => writeMessage msg >>= fun _ =>
            pure unread).Within (fun _ => True) (· ≠ .blocked) :=
        .bind sendOutputFiles_unblocked fun _ => .bind writeMessage_unblocked fun _ => trivial
      exact absurd rfl <| (hw.runs h).right _ rfl

-- What an exec has said in a turn which it has not come to the end of.
theorem Turn.speaks_of_error {turn : Turn} {accessCode userCode : UInt64} {details : TaskDetails}
    {e : Fault} {tr : Trace signature} (h : (turn.handles details).Runs tr (.error e)) :
    (Process.Event.heard (.task accessCode userCode details) :: (sent tr).map .said).foldlM
      (Peer.converses codes) (.exec second .idle n) =
        some (.exec second (.busy n) (n + 1)) := by
  have ⟨outs, ends, hs, ho, he⟩ := after_handles (After.runs_error_iff.mp h)
  show ((sent tr).map _).foldlM _ (Peer.exec second (.busy n) (n + 1)) = _
  rcases he with rfl | ⟨_, _, _, _, hd⟩
  case inl => rw [foldlM_said, hs, List.append_nil, ho.speaks]
  case inr => cases hd

-- An exec which is stuck is in the turn on the last message which it has heard, a task.
theorem serve_stuck (h : (serve turns).Runs tr (.error .stuck)) :
    ∃ (k : Nat) (turn : Turn) (accessCode userCode : UInt64) (details : TaskDetails),
      turns[k]? = some turn ∧ turn.Hangs details ∧
        (Process.heard (Process.dialogue tr))[k]? = some (.task accessCode userCode details) ∧
          (Process.dialogue tr).foldlM (Peer.converses codes) (.exec second .idle n) =
            some (.exec second (.busy (n + k)) (n + k + 1)) := by
  induction turns generalizing tr n with
  | nil              => cases (Runs.fail_iff.mp h).right
  | cons turn turns hi =>
    obtain ⟨arrival, tr, rfl, hp⟩ := Runs.call_iff.mp h
    cases arrival
    case message msg =>
      rw [Process.dialogue_read]
      cases msg
      case task a u details =>
        have hp : ((turn.handles details).lift socket Fault.ofTask >>= fun _ =>
          Process.flushOrErr >>= fun _ => serve turns).Runs tr _ := hp
        rcases Runs.bind_iff.mp hp with ⟨e, hl, he⟩ | ⟨_, tr₁, tr₂, rfl, h₁, h₂⟩
        case inl =>
          cases he
          obtain ⟨tr, r, hr, rfl, he⟩ := hl.of_lift
          cases r
          case ok      => cases he
          case error e =>
            cases e <;> cases he
            refine ⟨0, turn, a, u, details, rfl, Turn.hangs_of_blocked hr, rfl, ?_⟩
            rw [dialogue_socket]
            exact Turn.speaks_of_error hr
        case inr =>
          obtain ⟨tr₁, hr, rfl⟩ := h₁.ok_of_lift
          obtain ⟨ok, tr₃, rfl, h₃⟩ := Runs.call_iff.mp h₂
          cases ok
          case false => cases (Runs.fail_iff.mp h₃).right
          have ⟨k, turn', a', u', details', ht, hh, hm, hf⟩ :=
            hi (n := n + 1) (show (serve turns).Runs tr₃ _ from h₃)
          have he : turn.Ends (sent tr₁) (.task a u details) := ⟨tr₁, hr, rfl⟩
          refine ⟨k + 1, turn', a', u', details', ht, hh, ?_, ?_⟩
          case refine_1 =>
            rw [Process.dialogue_append, dialogue_socket]
            show (Process.heard (_ :: (_ ++ Process.dialogue tr₃)))[k + 1]? = _
            simpa using hm
          case refine_2 =>
            rw [Process.dialogue_append, dialogue_socket, ← List.cons_append, List.foldlM_append,
              he.speaks, ← Nat.add_assoc, Nat.add_right_comm]
            exact hf
      case pissOff => cases (Runs.done_iff.mp hp).right
      all_goals cases (Runs.fail_iff.mp hp).right
    case closed              => cases (Runs.done_iff.mp hp).right
    case error | undecodable => cases (Runs.fail_iff.mp hp).right

theorem session_stuck
    (h : (session (codes.queueCode second) codes.userCode turns).Runs tr (.error .stuck)) :
    ∃ (k : Nat) (turn : Turn) (accessCode userCode : UInt64) (details : TaskDetails),
      turns[k]? = some turn ∧ turn.Hangs details ∧
        (Process.heard (Process.dialogue tr))[k]? = some (.task accessCode userCode details) ∧
          (Process.dialogue tr).foldlM (Peer.converses codes) (.exec second .fresh 0) =
            some (.exec second (.busy k) (k + 1)) := by
  obtain ⟨ok, tr, rfl, hw⟩ := Runs.call_iff.mp h
  cases ok
  case false => cases (Runs.fail_iff.mp hw).right
  have hw : (serve turns >>= fun _ => Process.shutdown).Runs tr _ := hw
  rcases Runs.bind_iff.mp hw with ⟨e, hs, he⟩ | ⟨_, _, _, _, _, hs⟩
  case inr =>
    obtain ⟨_, _, _, hd⟩ := Runs.call_iff.mp hs
    cases (Runs.done_iff.mp hd).right
  case inl =>
    cases he
    have ⟨k, turn, a, u, details, ht, hh, hm, hf⟩ :=
      @serve_stuck codes second turns tr 0 hs
    have hc : Peer.converses codes (.exec second .fresh 0) (.said (codes.hello second)) =
        some (.exec second .idle 0) := by simp [Peer.converses, Peer.speaks]
    rw [Nat.zero_add] at hf
    exact ⟨k, turn, a, u, details, ht, hh, hm, Option.bind_eq_some_iff.mpr ⟨_, hc, hf⟩⟩

theorem session_idle {k : Process.Arrival → Process.Proc Unit}
    (h : (session (codes.queueCode second) codes.userCode turns).After tr
      (Program.call (S := Process.signature) .read k)) :
    ∃ n, (Process.dialogue tr).foldlM (Peer.converses codes) (.exec second .fresh 0) =
      some (.exec second .idle n) := by
  rcases Process.after_writeOrErr h with ⟨_, hq⟩ | ⟨tr', rfl, hs⟩ | ⟨_, hq⟩
  case inl     => cases hq
  case inr.inr => cases hq
  case inr.inl =>
    rcases hs.call_of_bind with ⟨_, hj⟩ | ⟨_, tr₁, tr₂, rfl, _, h₂⟩
    case inr =>
      rcases After.of_call h₂ with ⟨_, hq⟩ | ⟨_, _, _, h₃⟩
      case inl => cases hq
      case inr => cases (After.done_iff.mp h₃).right
    case inl =>
      have hf : Peer.converses codes (.exec second .fresh 0) (.said (codes.hello second)) =
          some (.exec second .idle 0) := by simp [Peer.converses, Peer.speaks]
      obtain ⟨n, hn⟩ : ∃ n, (Process.dialogue tr').foldlM (Peer.converses codes)
        (.exec second .idle 0) = some (.exec second .idle n) := serve_idle hj
      exact ⟨n, Option.bind_eq_some_iff.mpr ⟨_, hf, hn⟩⟩

end Exec

namespace Client

variable {accessCode userPrivateKey : UInt64} {task : TaskDetails} {fuel : Nat}
variable {files : List LazyFile} {tr : Trace Process.signature}

theorem Fault.ofFiles_ne_stuck {e : Fault} : e.ofFiles ≠ .stuck := by
  cases e <;> exact Process.Fault.noConfusion

theorem listen_online : (listen fuel files).Within Process.Call.Online (· ≠ .stuck) := by
  induction fuel generalizing files with
  | zero         => exact Process.Fault.noConfusion
  | succ fuel hi =>
    refine ⟨trivial, fun arrival => ?_⟩
    cases arrival
    case message =>
      have hl {msg : Message} : ((handleMsg files msg).lift host Fault.ofFiles).Within
          Process.Call.Online (· ≠ .stuck) :=
        lift_within (fun _ => trivial) fun _ => Fault.ofFiles_ne_stuck
      refine hl.bind fun (status, files) => ?_
      cases status
      case none => exact hi
      case some => trivial
    case closed              => trivial
    case error | undecodable => exact Process.Fault.noConfusion

-- A client does not wait for the process of any task.
theorem session_online :
    (session accessCode userPrivateKey task fuel).Within Process.Call.Online (· ≠ .stuck) := by
  refine .bind (.of_get Process.Fault.noConfusion fun files => ?_) fun status => ?_
  case refine_1 =>
    refine .bind (Process.writeOrErr_online Process.Fault.noConfusion) fun _ => ?_
    refine .bind listen_online fun _ => .bind ?_ fun _ => ⟨trivial, fun _ => trivial⟩
    exact lift_within (fun _ => trivial) fun _ => Fault.ofFiles_ne_stuck
  case refine_2 =>
    cases status
    case none => exact Process.Fault.noConfusion
    case some => trivial

theorem listen_idle {k : Process.Arrival → Process.Proc (Option Int32 × List LazyFile)}
    (h : (listen fuel files).After tr (Program.call (S := Process.signature) .read k)) :
    ∀ msg ∈ Process.heard (Process.dialogue tr), Continues msg := by
  induction fuel generalizing files tr with
  | zero         => cases (After.fail_iff.mp h).right
  | succ fuel hi =>
    rcases After.of_call h with ⟨rfl, _⟩ | ⟨arrival, tr, rfl, hp⟩
    case inl => exact nofun
    cases arrival
    case message msg =>
      have hp : ((handleMsg files msg).lift host Fault.ofFiles >>= fun x =>
        if x.fst.isNone then listen fuel x.snd else pure x).After tr _ := hp
      rcases hp.call_of_bind with ⟨_, hl⟩ | ⟨⟨status, files'⟩, tr₁, tr₂, rfl, h₁, h₂⟩
      case inl =>
        obtain ⟨_, hc⟩ := hl.call_of_lift
        cases hc
      case inr =>
        obtain ⟨tr₁, hr, rfl⟩ := (After.runs_ok_iff.mpr h₁).ok_of_lift
        rw [Process.dialogue_read, Process.dialogue_append, dialogue_host, List.nil_append,
          Process.heard_heard]
        rcases handleMsg_runs hr with ⟨rfl, hm⟩ | ⟨_, rfl, _⟩
        case inl => exact List.forall_mem_cons.mpr ⟨hm, hi h₂⟩
        case inr => cases (After.done_iff.mp h₂).right
    case closed              => cases (After.done_iff.mp hp).right
    case error | undecodable => cases (After.fail_iff.mp hp).right

theorem session_idle {k : Process.Arrival → Process.Proc Int32}
    (h : (session accessCode userPrivateKey task fuel).After tr
      (Program.call (S := Process.signature) .read k)) :
    ∃ ms : List Message,
      Process.dialogue tr = .said (.task accessCode userPrivateKey task) :: ms.map .heard ∧
        ∀ msg ∈ ms, Continues msg := by
  rcases h.call_of_bind with ⟨k', hs⟩ | ⟨status, _, _, _, _, h₂⟩
  case inr =>
    cases status
    case none => cases (After.fail_iff.mp h₂).right
    case some => cases (After.done_iff.mp h₂).right
  rw [submit_eq] at hs
  rcases hs.of_get with ⟨_, _, hq⟩ | ⟨files, _, hw⟩
  case inl => cases hq
  rcases Process.after_writeOrErr hw with ⟨_, hq⟩ | ⟨tr', rfl, hp⟩ | ⟨_, hq⟩
  case inl     => cases hq
  case inr.inr => cases hq
  case inr.inl =>
    rcases hp.call_of_bind with ⟨_, hl⟩ | ⟨_, _, _, _, _, h₂⟩
    case inl =>
      have ⟨ms, hd⟩ := listen_heard hl
      have hm := listen_idle hl
      rw [hd, Process.heard_map_heard] at hm
      exact ⟨ms, by rw [Process.dialogue_write, hd], hm⟩
    case inr => exact (close_quiet.after h₂).right.left.elim

end Client

theorem Caller.process_online {codes : Codes} {caller : Caller} :
    (caller.process codes).Within Process.Call.Online fun _ => True := by
  cases caller
  case client => exact Client.session_online.weaken fun _ _ => trivial
  case exec   => exact Exec.session_online.bind fun _ => trivial

end SprayCC
