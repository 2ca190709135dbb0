import SprayCC.Exec.Results
import SprayCC.Process.Basic

open Async Program

-- The exec from its start to its end: it calls the server, says hello, and then serves one message
-- of the server after the other.

namespace SprayCC.Exec

-- What an exec finds on its host in a turn of its loop, if it is sent a task in that turn.
structure Turn where
  host     : Host
  picks    : List Stream
  runTime  : Duration
  sendTime : Duration

def Turn.handles (turn : Turn) (details : TaskDetails) : Proc Unit :=
  handleNewTask turn.host turn.picks turn.runTime turn.sendTime details

-- The connection on which `handle_new_task` writes is the socket of the process.
def socket : Embedding signature Process.signature where
  call   | .writeMessage msg => .write msg
  answer | .writeMessage _   => .refl Bool

def Fault.ofTask : Fault → Process.Fault
  | error   => .error
  | panic   => .panic .exec
  | blocked => .stuck

-- The loop of `run`, which has the turns in the list. Every call that returns does so for some
-- list.
def serve : List Turn → Process.Proc Unit
  | []            => .fail .waiting
  | turn :: turns => do
    match ← Process.read with
    | .message (.task _ _ details) => do
      (turn.handles details).lift socket Fault.ofTask
      Process.flushOrErr
      serve turns
    | .message .cancelTask => .fail (.panic .cancelTask)
    | .message .pissOff    => pure ()
    | .message msg         => .fail (.panic (.unexpected msg))
    | .closed              => pure ()
    | .error               => .fail .error
    | .undecodable         => .fail (.panic .undecodable)

-- What `run` does once it is connected.
def session (accessCode userPrivateKey : UInt64) (turns : List Turn) : Process.Proc Unit := do
  Process.writeOrErr (.yourObedientServant accessCode userPrivateKey)
  serve turns
  Process.shutdown

def run (callme : CallMe) (userPrivateKey : UInt64) (turns : List Turn) : Process.Proc Unit := do
  if ← Process.connect callme.addr then session callme.accessCode userPrivateKey turns
  else .fail .error

section Task

variable {α : Type} {C : Call → Prop} {picks : List Stream} {readers : Stream → Reader}
variable {child : Child} {idx : Nat} {paths : List String} {type : OutputType} {turn : Turn}
variable {P : OutputType → Prop} {tr : Trace signature} {p : Proc Unit} {details : TaskDetails}
variable {msg : Message} {msgs : List Message}

-- The call writes an output of a type in `P`.
def Call.Outputs (P : OutputType → Prop) : Call → Prop
  | writeMessage msg => ∃ type content, P type ∧ msg = .taskOutput type content

theorem writeMessage_within (h : C (.writeMessage msg)) :
    (writeMessage msg).Within C (· ≠ .panic) :=
  ⟨h, fun ok => by cases ok <;> [nofun; trivial]⟩

theorem relay_within (h : ∀ (stream : Stream), P stream.outputType) :
    (relay picks readers).Within (Call.Outputs P) (· ≠ .panic) := by
  induction picks generalizing readers with
  | nil =>
    unfold relay
    split
    case isTrue  => trivial
    case isFalse => exact Fault.noConfusion
  | cons stream picks hi =>
    unfold relay
    split
    case isTrue  => trivial
    case isFalse =>
      dsimp only
      split
      case isTrue  => exact hi
      case isFalse =>
        refine .bind ?_ fun _ => hi
        unfold relayLine
        split
        case h_1 => exact .bind (writeMessage_within ⟨_, _, h stream, rfl⟩) fun _ => trivial
        case h_2 => trivial
        case h_3 => trivial

theorem sendChunks_within {reads : List (Option (List UInt8))} (h : P type) :
    (sendChunks type reads).Within (Call.Outputs P) (· ≠ .panic) := by
  induction reads with
  | nil => trivial
  | cons read reads hi =>
    cases read
    case none     => exact Fault.noConfusion
    case some buf =>
      unfold sendChunks
      split
      case isTrue  => trivial
      case isFalse => exact .bind (writeMessage_within ⟨_, _, h, rfl⟩) fun _ => hi

theorem sendOutputFiles_within (h : ∀ k < paths.length, P (.file (idx + k))) :
    (sendOutputFiles child idx paths).Within (Call.Outputs P) (· ≠ .panic) := by
  induction paths generalizing idx with
  | nil => trivial
  | cons path paths hi =>
    refine .bind ?_ fun _ => hi fun k hk => ?_
    case refine_1 =>
      unfold sendOutputFile
      split
      case h_1 => exact sendChunks_within <| h 0 (Nat.succ_pos _)
      case h_2 => trivial
    case refine_2 =>
      have hk := h (k + 1) (Nat.succ_lt_succ hk)
      rwa [Nat.add_comm k, ← Nat.add_assoc] at hk

theorem onlyOutputs_of_forall (h : ∀ x ∈ tr, Call.Outputs P x.fst) : OnlyOutputs P (sent tr) := by
  intro msg hm
  have ⟨⟨⟨_⟩, ok⟩, hx, hm⟩ := List.mem_filterMap.mp hm
  cases ok <;> cases hm
  exact h _ hx

-- What has been written about a task so far: outputs, and possibly the message which ends it. After
-- that there is nothing left to do.
structure Told (P : OutputType → Prop) (p : Proc α) (outs ends : List Message) : Prop where
  outs : OnlyOutputs P outs
  ends : ends = [] ∨ ∃ last a, ends = [last] ∧ last.Terminal ∧ p = .done a

theorem Told.only {q : Proc α} (h : OnlyOutputs P msgs) : Told P q msgs [] :=
  ⟨h, .inl rfl⟩

theorem after_writeMessage {a : α} {q : Proc α}
    (h : (writeMessage msg >>= fun _ => .done a).After tr q) :
    ∃ ends, sent tr = ends ∧ (ends = [] ∨ ends = [msg] ∧ q = .done a) := by
  rcases After.of_call h with ⟨rfl, rfl⟩ | ⟨ok, tr', rfl, hp⟩
  case inl => exact ⟨[], rfl, .inl rfl⟩
  case inr =>
    cases ok
    case true  =>
      obtain ⟨rfl, rfl⟩ := After.done_iff.mp hp
      exact ⟨[msg], rfl, .inr ⟨rfl, rfl⟩⟩
    case false =>
      obtain ⟨rfl, rfl⟩ := After.fail_iff.mp hp
      exact ⟨[], rfl, .inl rfl⟩

-- Waiting for a process does not write anything.
theorem after_waitFor {unread : Stream → List UInt8} {f : Option Int32 → Proc α} {q : Proc α}
    (h : (waitFor child unread >>= f).After tr q) : tr = [] ∨ ∃ code, (f code).After tr q := by
  have hn {tr : Trace signature} {p : Proc (Option Int32)}
      (h : (waitFor child unread).After tr p) : tr = [] :=
    have hw : (waitFor child unread).Within (fun _ => False) fun _ => True :=
      waitFor_within trivial trivial
    List.eq_nil_iff_forall_not_mem.mpr fun _ hx => (hw.after h).left _ hx
  rcases h.of_bind with ⟨_, hw, _⟩ | ⟨code, tr₁, tr₂, rfl, hw, hf⟩
  case inl => exact .inl <| hn hw
  case inr =>
    obtain rfl := hn hw
    exact .inr ⟨code, hf⟩

theorem after_runTask {task : Task} {targetId : String} {runTime sendTime : Duration}
    {q : Proc (Stream → List UInt8)} (hs : ∀ stream : Stream, P stream.outputType)
    (hf : ∀ k < task.outputFiles.length, P (.file k))
    (h : (runTask picks runTime sendTime task targetId).After tr q) :
    ∃ outs ends, sent tr = outs ++ ends ∧ Told P q outs ends := by
  rcases h.of_bind with ⟨p, hp, rfl⟩ | ⟨readers, tr₁, tr₂, rfl, h₁, h⟩
  case inl =>
    have ho := onlyOutputs_of_forall ((relay_within hs).after hp).left
    exact ⟨_, [], (List.append_nil _).symm, .only ho⟩
  case inr =>
    have ho₁ := onlyOutputs_of_forall ((relay_within hs).after h₁).left
    rcases after_waitFor h with rfl | ⟨code, h⟩
    case inl => exact ⟨_, [], by simp, .only ho₁⟩
    case inr =>
      have hw : (sendOutputFiles task.child 0 task.outputFiles).Within _ (· ≠ .panic) :=
        sendOutputFiles_within (by simpa using hf)
      rcases h.of_bind with ⟨p, hp, rfl⟩ | ⟨_, tr₃, tr₄, rfl, h₃, h⟩
      case inl =>
        have ho := ho₁.append <| onlyOutputs_of_forall (hw.after hp).left
        exact ⟨_, [], by simp, .only ho⟩
      case inr =>
        have ho := ho₁.append <| onlyOutputs_of_forall (hw.after h₃).left
        have ⟨ends, he, hl⟩ := after_writeMessage h
        refine ⟨_, ends, by simp [he], ho, hl.imp_right fun ⟨he, hq⟩ => ?_⟩
        exact ⟨_, _, he, trivial, hq⟩

-- At any time a task has been answered by some of its outputs, or by all that there is to answer.
theorem after_handles (h : (turn.handles details).After tr p) :
    ∃ outs ends, sent tr = outs ++ ends ∧ Told (Client.Within details) p outs ends := by
  rcases h.of_get with ⟨_, rfl, rfl⟩ | ⟨targetId, _, h⟩
  case inl => exact ⟨[], [], rfl, .only .nil⟩
  rcases h.of_get with ⟨_, rfl, rfl⟩ | ⟨started, hs, h⟩
  case inl => exact ⟨[], [], rfl, .only .nil⟩
  cases started
  case error err =>
    have h : (writeMessage (.taskFailed err) >>= fun _ => done ()).After tr p := bind_done.symm ▸ h
    have ⟨ends, he, hl⟩ := after_writeMessage h
    exact ⟨[], ends, he, .nil, hl.imp_right fun ⟨he, hq⟩ => ⟨_, _, he, trivial, hq⟩⟩
  case ok task =>
    have ⟨_, hr⟩ := Task.start_ok hs
    have hf : ∀ k < task.outputFiles.length, Client.Within details (.file k) :=
      fun k hk => hk.trans_eq (redirectOutputs_length hr)
    have hs (stream : Stream) : Client.Within details stream.outputType := by
      cases stream <;> trivial
    rcases h.of_bind with ⟨p', hp, rfl⟩ | ⟨_, tr₁, tr₂, rfl, h₁, h₂⟩
    case inl =>
      have ⟨outs, ends, ht, ho, he⟩ := after_runTask hs hf hp
      refine ⟨outs, ends, ht, ho, he.imp_right fun ⟨last, a, he, hl, hp⟩ => ?_⟩
      exact ⟨last, (), he, hl, by rw [hp]; rfl⟩
    case inr =>
      obtain ⟨rfl, rfl⟩ := After.done_iff.mp h₂
      have ⟨outs, ends, ht, ho, he⟩ := after_runTask hs hf h₁
      refine ⟨outs, ends, by simpa using ht, ho, he.imp_right fun ⟨last, _, he, hl, _⟩ => ?_⟩
      exact ⟨last, (), he, hl, rfl⟩

end Task

-- What an exec has said to a message which it is at.
def Turn.Begins (turn : Turn) (ms : List Message) : Message → Prop
  | .task _ _ details => ∃ tr p, (turn.handles details).After tr p ∧ ms = sent tr
  | _                 => ms = []

-- What an exec has said to a message which it is through with.
def Turn.Ends (turn : Turn) (ms : List Message) : Message → Prop
  | .task _ _ details => ∃ tr, (turn.handles details).Runs tr (.ok ()) ∧ ms = sent tr
  | _                 => False

-- The loop serves the messages one after the other.
inductive Jobs : List Turn → List Process.Event → Prop
  | idle    : Jobs turns []
  | current : turn.Begins ms msg → Jobs (turn :: turns) (.heard msg :: ms.map .said)
  | next    : turn.Ends ms msg → Jobs turns d →
    Jobs (turn :: turns) (.heard msg :: (ms.map .said ++ d))

section Jobs

variable {turn : Turn} {turns : List Turn} {d : List Process.Event}
variable {tr : Trace Process.signature} {q : Process.Proc Unit}

theorem dialogue_socket {tr : Trace signature} :
    Process.dialogue (socket.trace tr) = (sent tr).map .said := by
  induction tr with
  | nil          => rfl
  | cons x tr hi =>
    obtain ⟨⟨_⟩, ok⟩ := x
    cases ok
    case true  => exact congrArg _ hi
    case false => exact hi

theorem Jobs.refused {msg : Message} (h : turn.Begins [] msg) : Jobs (turn :: turns) [.heard msg] :=
  .current h

theorem after_flushOrErr {p : Process.Proc Unit}
    (h : (Process.flushOrErr >>= fun _ => p).After tr q) :
    Process.dialogue tr = [] ∨
      ∃ tr', Process.dialogue tr = Process.dialogue tr' ∧ p.After tr' q := by
  rcases After.of_call h with ⟨rfl, _⟩ | ⟨ok, tr', rfl, hp⟩
  case inl => exact .inl rfl
  case inr =>
    cases ok
    case true  => exact .inr ⟨tr', rfl, hp⟩
    case false => exact .inl <| (After.fail_iff.mp hp).left ▸ rfl

theorem serve_jobs (h : (serve turns).After tr q) : Jobs turns (Process.dialogue tr) := by
  induction turns generalizing tr with
  | nil              => exact (After.fail_iff.mp h).left ▸ .idle
  | cons turn turns hi =>
    rcases After.of_call h with ⟨rfl, _⟩ | ⟨arrival, tr', rfl, hp⟩
    case inl => exact .idle
    cases arrival
    case message msg =>
      rw [Process.dialogue_read]
      cases msg
      case task a u details =>
        have hp : ((turn.handles details).lift socket Fault.ofTask >>= fun _ =>
          Process.flushOrErr >>= fun _ => serve turns).After tr' q := hp
        rcases hp.of_bind with ⟨_, hl, _⟩ | ⟨_, tr₁, tr₂, rfl, h₁, h₂⟩
        case inl =>
          obtain ⟨tr₁, p, ha, rfl, _⟩ := hl.of_lift
          have hb : turn.Begins (sent tr₁) (.task a u details) := ⟨tr₁, p, ha, rfl⟩
          exact dialogue_socket ▸ .current hb
        case inr =>
          obtain ⟨tr₁, hr, rfl⟩ := (After.runs_ok_iff.mpr h₁).ok_of_lift
          rw [Process.dialogue_append, dialogue_socket]
          have he : turn.Ends (sent tr₁) (.task a u details) := ⟨tr₁, hr, rfl⟩
          refine .next he ?_
          rcases after_flushOrErr h₂ with hn | ⟨tr', ht, hs⟩
          case inl => exact hn ▸ .idle
          case inr => exact ht ▸ hi hs
      case pissOff =>
        obtain ⟨rfl, _⟩ := After.done_iff.mp hp
        exact .refused rfl
      all_goals
        obtain ⟨rfl, _⟩ := After.fail_iff.mp hp
        exact .refused rfl
    case closed              => exact (After.done_iff.mp hp).left ▸ .idle
    case error | undecodable => exact (After.fail_iff.mp hp).left ▸ .idle

-- An exec says hello and then serves its messages.
theorem session_dialogue {accessCode userPrivateKey : UInt64}
    (h : (session accessCode userPrivateKey turns).After tr q) :
    Process.dialogue tr = [] ∨ ∃ d, Jobs turns d ∧
      Process.dialogue tr = .said (.yourObedientServant accessCode userPrivateKey) :: d := by
  rcases Process.after_writeOrErr h with ⟨rfl, _⟩ | ⟨tr', rfl, hs⟩ | ⟨rfl, _⟩
  case inl     => exact .inl rfl
  case inr.inr => exact .inl rfl
  case inr.inl =>
    rw [Process.dialogue_write]
    rcases hs.of_bind with ⟨_, hj, _⟩ | ⟨_, tr₁, tr₂, rfl, h₁, h₂⟩
    case inl => exact .inr ⟨_, serve_jobs hj, rfl⟩
    case inr =>
      have hq : Process.dialogue tr₂ = [] :=
        Process.dialogue_of_quiet (p := Process.shutdown) ⟨trivial, fun _ => trivial⟩ h₂
      exact .inr ⟨_, serve_jobs h₁, by rw [Process.dialogue_append, hq, List.append_nil]⟩

end Jobs
end SprayCC.Exec
