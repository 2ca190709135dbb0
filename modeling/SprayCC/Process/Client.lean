import SprayCC.CommandLine
import SprayCC.Process.Basic

open Async Program

-- The client from its start to its end: it reads its command line, and runs the task itself or
-- gives it to the server.

namespace SprayCC.Client

-- The files of the client are those of its host.
def host : Embedding signature Process.signature where
  call     := .file
  answer _ := .refl Bool

def Fault.ofFiles : Fault → Process.Fault
  | error      => .error
  | panic text => .panic (.client text)
  | blocked    => .waiting

def panic {α : Type} (text : String) : Process.Proc α :=
  .fail (.panic (.client text))

-- The loop of `run`, which has `fuel` for its turns. Every call that returns does so for some
-- `fuel`.
def listen : Nat → List LazyFile → Process.Proc (Option Int32 × List LazyFile)
  | 0,        _     => .fail .waiting
  | fuel + 1, files => do
    match ← Process.read with
    | .message msg => do
      let (status, files) ← (handleMsg files msg).lift host Fault.ofFiles
      if status.isNone then listen fuel files else pure (status, files)
    | .closed      => pure (none, files)
    | .error       => .fail .error
    | .undecodable => .fail (.panic .undecodable)

-- What `run` does once it is connected.
def submit (accessCode userPrivateKey : UInt64) (task : TaskDetails) (fuel : Nat) :
    Process.Proc (Option Int32) := do
  let files ← .get (makeOutputFiles task) (.panic (.client "index out of bounds"))
  Process.writeOrErr (.task accessCode userPrivateKey task)
  let (status, files) ← listen fuel files
  (shutdownFiles files).lift host Fault.ofFiles
  Process.shutdown
  pure status

-- The status is missing if the connection was dropped, or if a task without one has run locally.
def expectStatus (status : Option Int32) : Process.Proc Int32 :=
  .get status (.panic (.client "No task status as set"))

def session (accessCode userPrivateKey : UInt64) (task : TaskDetails) (fuel : Nat) :
    Process.Proc Int32 :=
  submit accessCode userPrivateKey task fuel >>= expectStatus

-- The milliseconds until the next attempt to connect.
def backoff (random : UInt64) : UInt64 :=
  random % 2048 + 512

-- The loop of `connect_w_retry`, after `count` attempts which have failed.
def connectFrom (addr : String) (count : Nat) : Process.Proc Bool := do
  if ← Process.connect addr then pure true else
    if count < 5 then do
      let random ← @Program.ask Process.signature Process.Fault .random
      @Program.ask Process.signature Process.Fault (.sleep (backoff random))
      connectFrom addr (count + 1)
    else pure false
termination_by 5 - count

def connectWRetry (callme : CallMe) : Process.Proc Bool :=
  connectFrom callme.addr 0

-- The arguments after the first one are indexed, which panics without any.
def runLocalTask (shell : Shell) (task : TaskDetails) : Process.Proc (Option Int32) :=
  match shell.which task.cmd, task.args with
  | some cmdPath, _ :: args => do
    if ← @Program.ask Process.signature Process.Fault (.spawn cmdPath args task.workingDir) then do
      let status ← @Program.ask Process.signature Process.Fault .wait
      pure (status.getD none)
    else panic s!"Failed to start process {cmdPath}"
  | some _, []              => panic "range start index 1 out of range for slice of length 0"
  | none, _                 => panic s!"Command {task.cmd} does not exit"

-- The function `run`, with the private key which it loads and the contact file which it finds.
def runArgs (shell : Shell) (userPrivateKey : UInt64) (contact : Option CallMe) (fuel : Nat)
    (args : List String) : Process.Proc Int32 :=
  match interpretCommandLine shell args with
  | none                      => panic "called `Option::unwrap()` on a `None` value"
  | some (.error e)           => panic s!"Error interpreting command line: {e}"
  | some (.ok (runLocal, task)) => do
    if runLocal then runLocalTask shell task >>= expectStatus else
      match contact with
      | some callme => do
        if ← connectWRetry callme then session callme.accessCode userPrivateKey task fuel
        else pure (-1)
      | none => panic "No server configuration found"

-- The status which the client makes of the last message about its task.
def Closes : Message → Int32 → Prop
  | .taskFailed _,            status => status = -1
  | .taskDone (some code) .., status => status = code
  | _,                        _      => False

-- The exit code of the process, which is the last eight bits of the argument of `process::exit`. A
-- panic leads to 101, and an `Err` is printed.
def exitCode : Except Process.Fault Int32 → Option UInt8
  | .ok ec             =>
    let code : Int32 := if 0 < ec then ec else if ec < 0 then -1 else 0
    some code.toUInt32.toUInt8
  | .error .error      => some 1
  | .error (.panic _)  => some 101
  | .error .waiting    => none
  | .error .stuck      => none

section Listen

variable {task : TaskDetails} {files files' : List LazyFile} {fuel : Nat} {status : Int32}
variable {tr : Trace Process.signature} {q : Process.Proc (Option Int32 × List LazyFile)}
variable {msg : Message} {ms : List Message} {rest : Incoming}

-- What a process has done to its files.
def fileCalls (tr : Trace Process.signature) : Trace signature :=
  tr.filterMap fun
    | ⟨.file c, ok⟩ => some ⟨c, ok⟩
    | _             => none

def Incoming.messages (ms : List Message) (rest : Incoming) : Incoming :=
  ms.foldr .message rest

@[simp]
theorem fileCalls_append {tr tr' : Trace Process.signature} :
    fileCalls (tr ++ tr') = fileCalls tr ++ fileCalls tr' :=
  List.filterMap_append

@[simp]
theorem fileCalls_read {arrival : Process.Arrival} :
    fileCalls (⟨.read, arrival⟩ :: tr) = fileCalls tr :=
  rfl

@[simp]
theorem fileCalls_host {tr : Trace signature} : fileCalls (host.trace tr) = tr := by
  induction tr with
  | nil          => rfl
  | cons _ _ hi  => exact congrArg _ hi

@[simp]
theorem dialogue_host {tr : Trace signature} : Process.dialogue (host.trace tr) = [] := by
  induction tr with
  | nil          => rfl
  | cons _ _ hi  => exact hi

-- The loop only hears.
theorem listen_heard (h : (listen fuel files).After tr q) :
    ∃ ms : List Message, Process.dialogue tr = ms.map .heard := by
  induction fuel generalizing files tr with
  | zero         => exact ⟨[], (After.fail_iff.mp h).left ▸ rfl⟩
  | succ fuel hi =>
    rcases After.of_call h with ⟨rfl, _⟩ | ⟨arrival, tr', rfl, hp⟩
    case inl => exact ⟨[], rfl⟩
    cases arrival
    case message msg =>
      have hp : ((handleMsg files msg).lift host Fault.ofFiles >>= fun (status, files) =>
        if status.isNone then listen fuel files else pure (status, files)).After tr' q := hp
      rw [Process.dialogue_read]
      rcases hp.of_bind with ⟨_, hl, _⟩ | ⟨⟨status, files'⟩, tr₁, tr₂, rfl, h₁, h₂⟩
      case inl =>
        obtain ⟨tr₁, _, _, rfl, _⟩ := hl.of_lift
        exact ⟨[msg], by simp⟩
      case inr =>
        obtain ⟨tr₁, _, rfl⟩ := (After.runs_ok_iff.mpr h₁).ok_of_lift
        rw [Process.dialogue_append, dialogue_host, List.nil_append]
        cases status
        case none =>
          have ⟨ms, hd⟩ := hi h₂
          exact ⟨msg :: ms, by rw [hd]; rfl⟩
        case some => exact ⟨[msg], by rw [(After.done_iff.mp h₂).left]; rfl⟩
    case closed              => exact ⟨[], (After.done_iff.mp hp).left ▸ rfl⟩
    case error | undecodable => exact ⟨[], (After.fail_iff.mp hp).left ▸ rfl⟩

-- What the loop makes of the messages which it hears is what it makes of them if they are all there
-- when it starts.
theorem listen_runs (h : (listen fuel files).Runs tr (.ok (some status, files'))) :
    ∃ ms : List Message, Process.dialogue tr = ms.map .heard ∧ ∀ rest,
      (receive files (.messages ms rest)).Runs (fileCalls tr)
        (.ok (some status, files', rest)) := by
  induction fuel generalizing files tr with
  | zero         => cases (Runs.fail_iff.mp h).right
  | succ fuel hi =>
    obtain ⟨arrival, tr', rfl, hp⟩ := Runs.call_iff.mp h
    cases arrival
    case message msg =>
      have hp : ((handleMsg files msg).lift host Fault.ofFiles >>= fun (status, files) =>
        if status.isNone then listen fuel files else pure (status, files)).Runs tr' _ := hp
      obtain ⟨⟨status', files''⟩, tr₁, tr₂, rfl, h₁, h₂⟩ := hp.of_bind
      obtain ⟨tr₁, hr, rfl⟩ := h₁.ok_of_lift
      have hm {ms rest tr r} (hn : (if status'.isNone then receive files'' (.messages ms rest)
        else pure (status', files'', .messages ms rest)).Runs tr r) :
          (receive files (.messages (msg :: ms) rest)).Runs (tr₁ ++ tr) r :=
        Runs.bind_iff.mpr <| .inr ⟨_, _, _, rfl, hr, hn⟩
      rw [Process.dialogue_read, Process.dialogue_append, dialogue_host, List.nil_append,
        fileCalls_read, fileCalls_append, fileCalls_host]
      cases status'
      case none =>
        have ⟨ms, hd, hs⟩ := hi h₂
        exact ⟨msg :: ms, by rw [hd]; rfl, fun rest => hm (hs rest)⟩
      case some =>
        have ⟨ht, he⟩ := Runs.done_iff.mp h₂
        cases he
        exact ⟨[msg], by rw [ht]; rfl, fun rest => hm (ht ▸ .done)⟩
    case closed              => cases (Runs.done_iff.mp hp).right
    case error | undecodable => cases (Runs.fail_iff.mp hp).right

end Listen

section Session

variable {task : TaskDetails} {files files' : List LazyFile} {fuel : Nat} {status : Int32}
variable {tr : Trace Process.signature} {accessCode userPrivateKey : UInt64}

-- What is left to do after the loop.
def close (files : List LazyFile) (status : Option Int32) : Process.Proc (Option Int32) := do
  (shutdownFiles files).lift host Fault.ofFiles
  Process.shutdown
  pure status

theorem close_quiet {status : Option Int32} :
    (close files status).Within Process.Call.Quiet fun _ => True :=
  .bind (lift_within (fun _ => trivial) fun _ => trivial) fun _ => ⟨trivial, fun _ => trivial⟩

theorem submit_eq : submit accessCode userPrivateKey task fuel =
    (.get (makeOutputFiles task) (.panic (.client "index out of bounds")) >>= fun files =>
      Process.writeOrErr (.task accessCode userPrivateKey task) >>= fun _ =>
        listen fuel files >>= fun (status, files) => close files status) :=
  rfl

theorem submit_dialogue {q : Process.Proc (Option Int32)}
    (h : (submit accessCode userPrivateKey task fuel).After tr q) :
    Process.dialogue tr = [] ∨ ∃ ms : List Message, Process.dialogue tr =
      .said (.task accessCode userPrivateKey task) :: ms.map .heard := by
  rw [submit_eq] at h
  rcases h.of_get with ⟨_, rfl, _⟩ | ⟨files, _, h⟩
  case inl => exact .inl rfl
  rcases Process.after_writeOrErr h with ⟨rfl, _⟩ | ⟨tr', rfl, hs⟩ | ⟨rfl, _⟩
  case inl     => exact .inl rfl
  case inr.inr => exact .inl rfl
  case inr.inl =>
    rw [Process.dialogue_write]
    rcases hs.of_bind with ⟨_, hl, _⟩ | ⟨⟨status, files'⟩, tr₁, tr₂, rfl, h₁, h₂⟩
    case inl => exact have ⟨ms, hd⟩ := listen_heard hl; .inr ⟨ms, by rw [hd]⟩
    case inr =>
      have ⟨ms, hd⟩ := listen_heard h₁
      have hq := Process.dialogue_of_quiet close_quiet h₂
      exact .inr ⟨ms, by rw [Process.dialogue_append, hd, hq, List.append_nil]⟩

-- A client submits its task and then only listens.
theorem session_dialogue {q : Process.Proc Int32}
    (h : (session accessCode userPrivateKey task fuel).After tr q) :
    Process.dialogue tr = [] ∨ ∃ ms : List Message, Process.dialogue tr =
      .said (.task accessCode userPrivateKey task) :: ms.map .heard := by
  rcases h.of_bind with ⟨_, hs, _⟩ | ⟨status, tr₁, tr₂, rfl, h₁, h₂⟩
  case inl => exact submit_dialogue hs
  case inr =>
    have hn : tr₂ = [] := by
      cases status
      case none => exact (After.fail_iff.mp h₂).left
      case some => exact (After.done_iff.mp h₂).left
    rw [hn, List.append_nil]
    exact submit_dialogue h₁

theorem close_runs {status status' : Option Int32}
    (h : (close files status).Runs tr (.ok status')) :
    status' = status ∧ Process.dialogue tr = [] ∧
      (shutdownFiles files).Runs (fileCalls tr) (.ok ()) := by
  obtain ⟨_, tr₁, tr₂, rfl, h₁, h₂⟩ := h.of_bind
  obtain ⟨tr₁, hr, rfl⟩ := h₁.ok_of_lift
  obtain ⟨_, _, rfl, h₃⟩ := Runs.call_iff.mp h₂
  obtain ⟨rfl, he⟩ := Runs.done_iff.mp h₃
  cases he
  rw [Process.dialogue_append, dialogue_host, fileCalls_append, fileCalls_host]
  exact ⟨rfl, rfl, (List.append_nil tr₁).symm ▸ hr⟩

-- A client which has come to its end has the status which it makes of the messages.
theorem session_runs (h : (session accessCode userPrivateKey task fuel).Runs tr (.ok status)) :
    ∃ (ms : List Message) (files files' : List LazyFile) (tr₁ tr₂ : Trace signature),
      Process.dialogue tr = .said (.task accessCode userPrivateKey task) :: ms.map .heard ∧
        makeOutputFiles task = some files ∧ fileCalls tr = tr₁ ++ tr₂ ∧
          (shutdownFiles files').Runs tr₂ (.ok ()) ∧ ∀ rest,
            (receive files (.messages ms rest)).Runs tr₁ (.ok (some status, files', rest)) := by
  obtain ⟨status', tr₁, tr₂, rfl, h₁, h₂⟩ := h.of_bind
  have hs : status' = some status ∧ tr₂ = [] := by
    cases status'
    case none => cases (Runs.fail_iff.mp h₂).right
    case some => exact have ⟨ht, he⟩ := Runs.done_iff.mp h₂; ⟨by cases he; rfl, ht⟩
  obtain ⟨rfl, rfl⟩ := hs
  rw [List.append_nil]
  rw [submit_eq] at h₁
  have ⟨files, hf, hw⟩ := h₁.of_get
  obtain ⟨ok, tr₃, rfl, hl⟩ := Runs.call_iff.mp hw
  cases ok
  case false => cases (Runs.fail_iff.mp hl).right
  have hl : (listen fuel files >>= fun (status, files) => close files status).Runs tr₃ _ := hl
  obtain ⟨⟨status', files'⟩, tr₄, tr₅, rfl, h₄, h₅⟩ := hl.of_bind
  obtain ⟨rfl, hd, hc⟩ := close_runs h₅
  have ⟨ms, hm, hr⟩ := listen_runs h₄
  refine ⟨ms, files, files', _, _, ?_, hf, ?_, hc, hr⟩
  case refine_1 => rw [Process.dialogue_write, Process.dialogue_append, hm, hd, List.append_nil]
  case refine_2 => exact fileCalls_append

end Session
end SprayCC.Client
