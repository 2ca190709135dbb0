import SprayCC.Async.Trace
import SprayCC.Exec.Task

-- The exec, from when it has been sent a task.

open Async

namespace SprayCC.Exec

inductive Call
  | writeMessage (msg : Message)

-- Writing to the connection can fail with an I/O error.
@[reducible]
def signature : Signature where
  Call     := Call
  Answer _ := Bool

-- The ways to leave `handle_new_task` other than by returning: an `Err` which is passed up by `?`,
-- or a panic. An exec whose process goes on for ever is `blocked`.
inductive Fault
  | error
  | panic
  | blocked

abbrev Proc := Program signature Fault

def writeMessage (msg : Message) : Proc Unit := do
  if ← @Program.ask signature Fault (.writeMessage msg) then pure () else .fail .error

def newline : UInt8 :=
  10

def carriageReturn : UInt8 :=
  13

def isUtf8 (bytes : List UInt8) : Bool :=
  (ByteArray.mk bytes.toArray).validateUTF8

inductive NextLine
  | line (line : List UInt8)
  | eof
  | error

def stripReturn (line : List UInt8) : List UInt8 :=
  if line.getLast? = some carriageReturn then line.dropLast else line

-- The `next_line` of a reader, and what it has not read then.
def nextLine (bytes : List UInt8) : NextLine × List UInt8 :=
  let line := bytes.takeWhile (· != newline)
  match bytes.dropWhile (· != newline) with
  | []        => (if line = [] then .eof else if isUtf8 line then .line line else .error, [])
  | _ :: rest => (if isUtf8 line then .line (stripReturn line) else .error, rest)

structure Reader where
  rest : List UInt8
  done : Bool

-- The branch of the `select!` for a stream.
def relayLine (stream : Stream) (reader : Reader) : Proc Reader :=
  match nextLine reader.rest with
  | (.line line, rest) => do
    writeMessage (.taskOutput stream.outputType (line ++ [newline]))
    pure { rest, done := false }
  | (.eof, rest)       => pure { rest, done := true }
  | (.error, rest)     => pure { rest, done := true }

-- The loop around the `select!`, where the picks tell which stream gives the next line. It does not
-- take a line of a stream which is done.
def relay : List Stream → (Stream → Reader) → Proc (Stream → Reader)
  | picks, readers =>
    if (readers .stdout).done ∧ (readers .stderr).done then pure readers else
      match picks with
      | []              => .fail .blocked
      | stream :: picks =>
        if (readers stream).done then relay picks readers else do
          let reader ← relayLine stream (readers stream)
          relay picks (Function.update readers stream reader)

-- The loop of `send_output_file`. Nothing is left to read after the last of the reads.
def sendChunks (outputType : OutputType) : List (Option (List UInt8)) → Proc Unit
  | []                => pure ()
  | none :: _         => .fail .error
  | some buf :: reads =>
    if buf = [] then pure () else do
      writeMessage (.taskOutput outputType buf)
      sendChunks outputType reads

def sendOutputFile (child : Child) (outputType : OutputType) (path : String) : Proc Unit :=
  match child.reads path with
  | some reads => sendChunks outputType reads
  | none       => pure ()

-- The files from the one with number `idx` on.
def sendOutputFiles (child : Child) : Nat → List String → Proc Unit
  | _,   []            => pure ()
  | idx, path :: paths => do
    sendOutputFile child (.file idx) path
    sendOutputFiles child (idx + 1) paths

-- The streams are not closed meanwhile, also if they are not read to their ends.
def waitFor (child : Child) (unread : Stream → List UInt8) : Proc (Option Int32) :=
  match child.wait unread with
  | .exited exitCode => pure exitCode
  | .error           => .fail .error
  | .never           => .fail .blocked

-- It also tells what of the streams it has not read.
def runTask (picks : List Stream) (runTime sendTime : Duration) (task : Task) (targetId : String) :
    Proc (Stream → List UInt8) := do
  let readers ← relay picks fun stream => { rest := task.child.output stream, done := false }
  let code ← waitFor task.child fun stream => (readers stream).rest
  sendOutputFiles task.child 0 task.outputFiles
  writeMessage (.taskDone code targetId runTime sendTime)
  pure fun stream => (readers stream).rest

def handleNewTask (host : Host) (picks : List Stream) (runTime sendTime : Duration)
    (details : TaskDetails) : Proc Unit := do
  let targetId ← .get details.getTargetId .panic
  let task ← .get (Task.start host details.workingDir details.cmd details.args details.outputArgs
    details.env) .panic
  match task with
  | .ok task   => do
    let _ ← runTask picks runTime sendTime task targetId
    pure ()
  | .error err => writeMessage (.taskFailed err)

-- The messages which have been written.
def sent (tr : Trace signature) : List Message :=
  tr.filterMap fun
    | ⟨.writeMessage msg, true⟩  => some msg
    | ⟨.writeMessage _,   false⟩ => none

-- The content of the outputs of one type, in order.
def contents (outputType : OutputType) (msgs : List Message) : List (List UInt8) :=
  msgs.filterMap fun
    | .taskOutput type content => if type = outputType then some content else none
    | _                        => none

-- All of the messages are outputs, of the types in `P`.
def OnlyOutputs (P : OutputType → Prop) (msgs : List Message) : Prop :=
  ∀ msg ∈ msgs, ∃ type content, P type ∧ msg = .taskOutput type content

variable {tr tr' : Trace signature} {msg : Message} {msgs msgs' : List Message} {type : OutputType}
variable {child : Child} {path : String} {paths : List String} {idx : Nat}
variable {picks : List Stream} {runTime sendTime : Duration} {task : Task} {targetId : String}

@[simp]
theorem sent_append : sent (tr ++ tr') = sent tr ++ sent tr' :=
  List.filterMap_append

@[simp]
theorem contents_append :
    contents type (msgs ++ msgs') = contents type msgs ++ contents type msgs' :=
  List.filterMap_append

@[simp]
theorem contents_output {type' : OutputType} {content : List UInt8} :
    contents type [.taskOutput type' content] = if type' = type then [content] else [] := by
  unfold contents
  split <;> simp_all

@[simp]
theorem contents_taskDone {code : Option Int32} :
    contents type [.taskDone code targetId runTime sendTime] = [] :=
  rfl

theorem runs_waitFor {unread : Stream → List UInt8} {code : Option Int32}
    (hr : (waitFor child unread).Runs tr (.ok code)) :
    tr = [] ∧ child.wait unread = .exited code := by
  unfold waitFor at hr
  split at hr
  case h_1 hw =>
    obtain ⟨ht, hc⟩ := Program.Runs.done_iff.mp hr
    cases hc
    exact ⟨ht, hw⟩
  case h_2 => cases (Program.Runs.fail_iff.mp hr).right
  case h_3 => cases (Program.Runs.fail_iff.mp hr).right

theorem waitFor_within {unread : Stream → List UInt8} {C : Call → Prop} {E : Fault → Prop}
    (he : E .error) (hb : E .blocked) : (waitFor child unread).Within C E := by
  unfold waitFor
  split
  case h_1 => trivial
  case h_2 => exact he
  case h_3 => exact hb

theorem runs_writeMessage (hr : (writeMessage msg).Runs tr (.ok ())) : sent tr = [msg] := by
  have ⟨ok, tr', ht, hk⟩ := Program.Runs.call_iff.mp hr
  cases ok
  case true  => rw [ht, (Program.Runs.done_iff.mp hk).left]; rfl
  case false => cases (Program.Runs.fail_iff.mp hk).right

namespace OnlyOutputs

variable {P Q : OutputType → Prop}

theorem nil : OnlyOutputs P [] :=
  nofun

theorem output {content : List UInt8} (h : P type) : OnlyOutputs P [.taskOutput type content] :=
  fun _ hm => ⟨type, content, h, List.mem_singleton.mp hm⟩

theorem append (h : OnlyOutputs P msgs) (h' : OnlyOutputs P msgs') :
    OnlyOutputs P (msgs ++ msgs') :=
  fun msg hm => (List.mem_append.mp hm).elim (h msg) (h' msg)

theorem mono (h : OnlyOutputs P msgs) (hp : ∀ {type}, P type → Q type) : OnlyOutputs Q msgs := by
  intro msg hm
  have ⟨type, content, ht, hm⟩ := h msg hm
  exact ⟨type, content, hp ht, hm⟩

theorem contents_eq_nil (h : OnlyOutputs P msgs) (ht : ¬P type) : contents type msgs = [] := by
  refine List.filterMap_eq_nil_iff.mpr fun msg hm => ?_
  have ⟨type', content, hp, hm⟩ := h msg hm
  have hn : type' ≠ type := fun he => ht (he ▸ hp)
  rw [hm]
  exact if_neg hn

end OnlyOutputs

theorem sendChunks_only {reads : List (Option (List UInt8))}
    (hr : (sendChunks type reads).Runs tr (.ok ())) : OnlyOutputs (· = type) (sent tr) := by
  induction reads generalizing tr with
  | nil => exact (Program.Runs.done_iff.mp hr).left ▸ .nil
  | cons read reads hi =>
    cases read
    case none     => cases (Program.Runs.fail_iff.mp hr).right
    case some buf =>
      unfold sendChunks at hr
      split at hr
      case isTrue  => exact (Program.Runs.done_iff.mp hr).left ▸ .nil
      case isFalse =>
        have ⟨_, _, _, ht, hw, hr⟩ := hr.of_bind
        rw [ht, sent_append, runs_writeMessage hw]
        exact .append (.output rfl) (hi hr)

theorem sendOutputFile_only (hr : (sendOutputFile child type path).Runs tr (.ok ())) :
    OnlyOutputs (· = type) (sent tr) := by
  unfold sendOutputFile at hr
  split at hr
  case h_1 => exact sendChunks_only hr
  case h_2 => exact (Program.Runs.done_iff.mp hr).left ▸ .nil

-- The files are sent under their numbers.
theorem sendOutputFiles_only (hr : (sendOutputFiles child idx paths).Runs tr (.ok ())) :
    OnlyOutputs (fun type => ∃ k < paths.length, type = .file (idx + k)) (sent tr) := by
  induction paths generalizing idx tr with
  | nil => exact (Program.Runs.done_iff.mp hr).left ▸ .nil
  | cons path paths hi =>
    have ⟨_, _, _, ht, h₁, h₂⟩ := hr.of_bind
    rw [ht, sent_append]
    refine .append ((sendOutputFile_only h₁).mono ?_) ((hi h₂).mono ?_)
    case refine_1 => exact fun he => ⟨0, Nat.succ_pos _, he⟩
    case refine_2 =>
      rintro _ ⟨k, hk, he⟩
      exact ⟨k + 1, Nat.succ_lt_succ hk, he.trans (by rw [Nat.add_assoc, Nat.add_comm 1])⟩

-- What a task which is done has written.
theorem runs_runTask {rest : Stream → List UInt8}
    (hr : (runTask picks runTime sendTime task targetId).Runs tr (.ok rest)) :
    ∃ readers code tr₁ tr₂,
      (relay picks fun stream => { rest := task.child.output stream, done := false }).Runs tr₁
        (.ok readers) ∧
        (sendOutputFiles task.child 0 task.outputFiles).Runs tr₂ (.ok ()) ∧
          sent tr = sent tr₁ ++ sent tr₂ ++ [.taskDone code targetId runTime sendTime] ∧
            rest = fun stream => (readers stream).rest := by
  have ⟨readers, tr₁, _, ht₁, h₁, hr⟩ := hr.of_bind
  have ⟨code, tr', _, ht', hw, hr⟩ := hr.of_bind
  have ⟨_, tr₂, _, ht₂, h₂, hr⟩ := hr.of_bind
  have ⟨_, tr₃, _, ht₃, h₃, hr⟩ := hr.of_bind
  have ⟨ht₄, hr⟩ := Program.Runs.done_iff.mp hr
  refine ⟨readers, code, tr₁, tr₂, h₁, h₂, ?_, Except.ok.inj hr⟩
  simp [ht₁, ht', (runs_waitFor hw).left, ht₂, ht₃, ht₄, runs_writeMessage h₃]

end SprayCC.Exec
