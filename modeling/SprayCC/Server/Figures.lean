import Mathlib.Algebra.GroupWithZero.Nat
import Mathlib.Data.List.DropRight
import SprayCC.Server.Making

open Async Program

-- The figures which the server keeps for its reports.

namespace SprayCC

namespace Message

def submits : Message → Bool
  | task .. => true
  | _       => false

-- The bytes of output which a message brings.
def size : Message → Nat
  | taskOutput _ content => content.length
  | _                    => 0

-- How long a task has run and how long its outputs were sent for.
def times : Message → Duration × Duration
  | taskDone _ _ runTime sendTime => (runTime, sendTime)
  | _                             => (0, 0)

end Message

-- What the server has received in the events.
abbrev heardIn (evs : List Event) : List Message :=
  evs.flatMap Event.heard

def Event.isInbound : Event → Bool
  | inbound .. => true
  | watchdog   => false

-- The events since the last report.
abbrev sinceReport (evs : List Event) : List Event :=
  evs.rtakeWhile Event.isInbound

structure Figures where
  submitted : Nat
  finished  : Nat
  bytes     : Nat
  period    : Nat
  runTime   : Duration
  sendTime  : Duration
  peak      : Duration
  deriving DecidableEq

namespace Figures

-- The figures of all that the server has received.
def of (evs : List Event) : Figures where
  submitted := (heardIn evs).countP Message.submits
  finished  := (heardIn evs).countP (·.Terminal)
  bytes     := ((heardIn evs).map Message.size).sum
  period    := ((heardIn (sinceReport evs)).map Message.size).sum
  runTime   := ((heardIn evs).map (·.times.fst)).sum
  sendTime  := ((heardIn evs).map (·.times.snd)).sum
  peak      := ((heardIn evs).map (·.times.snd)).foldl max 0

-- The figures after one more message.
def hear (f : Figures) (msg : Message) : Figures where
  submitted := f.submitted + if msg.submits then 1 else 0
  finished  := f.finished + if msg.Terminal then 1 else 0
  bytes     := f.bytes + msg.size
  period    := f.period + msg.size
  runTime   := f.runTime + msg.times.fst
  sendTime  := f.sendTime + msg.times.snd
  peak      := max f.peak msg.times.snd

-- The figures after one more event.
def after (f : Figures) : Event → Figures
  | .inbound _ msg => f.hear msg
  | .watchdog      => { f with period := 0 }

variable {evs : List Event} {ev : Event} {f : Figures} {msg : Message}

theorem of_concat : of (evs ++ [ev]) = (of evs).after ev := by
  cases ev
  case inbound i msg =>
    have hr : (evs ++ [Event.inbound i msg]).rtakeWhile Event.isInbound = _ :=
      List.rtakeWhile_concat_pos _ _ _ rfl
    simp [of, after, hear, hr, Event.heard, List.countP_singleton]
  case watchdog =>
    have hr : (evs ++ [Event.watchdog]).rtakeWhile Event.isInbound = [] :=
      List.rtakeWhile_concat_neg _ _ _ Bool.false_ne_true
    simp [of, after, hr, Event.heard]

-- What each message counts for.

theorem hear_task {accessCode userCode : UInt64} {details : TaskDetails} :
    f.hear (.task accessCode userCode details) = { f with submitted := f.submitted + 1 } := by
  simp [hear, Message.submits, Message.Terminal, Message.size, Message.times]

theorem hear_taskOutput {outputType : OutputType} {content : List UInt8} :
    f.hear (.taskOutput outputType content) =
      { f with bytes := f.bytes + content.length, period := f.period + content.length } := by
  simp [hear, Message.submits, Message.Terminal, Message.size, Message.times]

theorem hear_taskFailed {errorMessage : String} :
    f.hear (.taskFailed errorMessage) = { f with finished := f.finished + 1 } := by
  simp [hear, Message.submits, Message.Terminal, Message.size, Message.times]

theorem hear_taskDone {exitCode : Option Int32} {targetId : String} {runTime sendTime : Duration} :
    f.hear (.taskDone exitCode targetId runTime sendTime) =
      { f with
        finished := f.finished + 1
        runTime  := f.runTime + runTime
        sendTime := f.sendTime + sendTime
        peak     := max f.peak sendTime } := by
  simp [hear, Message.submits, Message.Terminal, Message.size, Message.times]

theorem hear_other (hs : msg.submits = false) (hr : ¬msg.Result) : f.hear msg = f := by
  cases msg
  case task                               => cases hs
  case taskOutput | taskDone | taskFailed => exact absurd trivial hr
  all_goals simp [hear, Message.submits, Message.Terminal, Message.size, Message.times]

end Figures

namespace ServerState

def figures (s : ServerState) : Figures where
  submitted := s.submitCount
  finished  := s.finishCount
  bytes     := s.totalBytes
  period    := s.bytesThisPeriod
  runTime   := s.totalRunTime
  sendTime  := s.totalSendTime
  peak      := s.peakSendTime

-- Whatever the program is answered, it comes to a server with these figures.
abbrev Prints (f : Figures) (p : Proc ServerState) : Prop :=
  p.Always (·.figures = f) fun _ => True

variable {s : ServerState} {f f' : Figures} {p : Proc ServerState} {α : Type}
variable {fuel connId : Nat} {q : Bool} {msg : Message}

namespace Prints

theorem bind {k : ServerState → Proc ServerState} (hp : Prints f p)
    (hk : ∀ s, s.figures = f → Prints f' (k s)) : Prints f' (p >>= k) :=
  always_bind.mpr <| hp.mono hk fun _ => id

theorem past {p : Proc α} {k : α → Proc ServerState} (hk : ∀ a, Prints f (k a)) :
    Prints f (p >>= k) :=
  always_bind.mpr <| always_true.mono (fun a _ => hk a) fun _ => id

theorem of_onlyRemotes (hp : s.OnlyRemotes p) (h : s.figures = f) : Prints f p := by
  refine hp.mono (fun s' hs => ?_) fun _ => id
  obtain ⟨_, rfl⟩ := hs
  exact h

end Prints

-- The figures stay what they are while the queues are updated.

theorem figures_execSpawned : (s.execSpawned q).figures = s.figures := by
  rw [execSpawned_eq]
  rfl

theorem figures_execStarted : (s.execStarted q).figures = s.figures := by
  rw [execStarted_eq]
  rfl

theorem assignTasks_prints {queue : List Nat} (h : s.figures = f) :
    Prints f (assignTasks queue s) := by
  induction queue generalizing s with
  | nil => exact h
  | cons execId rest hi =>
    rw [assignTasks_cons]
    split
    case isTrue  => exact h
    case isFalse =>
      refine .past fun _ => .past fun _ => .bind (f := f) ?_ fun _ => hi
      exact .of_onlyRemotes assignTask_onlyRemotes h

theorem releaseExecs_prints {queue : List Nat} (h : s.figures = f) :
    Prints f (releaseExecs queue s) := by
  induction queue generalizing s with
  | nil => exact h
  | cons execId rest hi => exact .past fun _ => .past fun _ => .past fun _ => hi h

theorem checkQueues_prints (h : s.figures = f) : Prints f s.checkQueues := by
  refine .bind (assignTasks_prints h) fun s h => .past fun ok => ?_
  split
  case isTrue  => exact releaseExecs_prints h
  case isFalse => exact h

theorem spawnExecs_prints {cmd : String} {keepPending : Nat} (h : s.figures = f) :
    Prints f (spawnExecs q cmd keepPending fuel s) := by
  induction fuel generalizing s with
  | zero =>
    unfold spawnExecs
    split
    case isTrue  => trivial
    case isFalse => exact h
  | succ fuel hi =>
    unfold spawnExecs
    split
    case isFalse => exact h
    case isTrue  =>
      refine .past fun ok => ?_
      split
      case isTrue  => exact hi <| figures_execSpawned.trans h
      case isFalse => exact hi h

theorem startExecsInQueue_prints {keepPending : Nat} (h : s.figures = f) :
    Prints f (startExecsInQueue fuel s q keepPending) := by
  unfold startExecsInQueue
  cases q
  case false => exact spawnExecs_prints h
  case true  => exact .past fun _ => spawnExecs_prints h

theorem startExecs_prints (h : s.figures = f) : Prints f (startExecs fuel s) := by
  unfold startExecs
  split
  case isTrue  => exact h
  case isFalse =>
    dsimp only
    split
    case isTrue  => exact .bind (startExecsInQueue_prints h) fun _ => startExecsInQueue_prints
    case isFalse => exact startExecsInQueue_prints h

theorem update_prints (h : s.figures = f) : Prints f (update fuel s) :=
  .bind (startExecs_prints h) fun _ => checkQueues_prints

theorem execIsReady_prints (h : s.figures = f) : Prints f (execIsReady fuel s connId) :=
  .past fun _ => update_prints h

theorem handleDropped_prints (h : s.figures = f) : Prints f (s.handleDropped connId) := by
  refine .past fun remote => ?_
  split
  case isTrue  => exact .past fun _ => .past fun _ => h
  case isFalse => exact h

theorem taskIsDone_prints {exitCode : Option Int32} {targetId : String}
    {runTime sendTime : Duration} (h : s.figures = f) :
    let msg := Message.taskDone exitCode targetId runTime sendTime
    Prints (f.hear msg) (taskIsDone fuel s connId msg runTime sendTime) := by
  refine .bind (.of_onlyRemotes sendToPairedRemote_onlyRemotes h) fun s₁ h₁ => ?_
  refine .bind (execIsReady_prints rfl) fun s₂ h₂ => ?_
  subst h₁
  rw [Figures.hear_taskDone]
  exact congrArg (fun f : Figures => { f with
    runTime  := f.runTime + runTime
    sendTime := f.sendTime + sendTime
    peak     := max f.peak sendTime }) h₂

end ServerState

open ServerState

variable {s : ServerState} {fuel connId : Nat} {msg : Message} {ev : Event}

theorem handleMsg_prints : Prints (s.figures.hear msg) (handleMsg fuel s connId msg) := by
  cases msg
  case yourObedientServant =>
    rw [Figures.hear_other rfl id]
    exact .past fun _ => execIsReady_prints figures_execStarted
  case task =>
    rw [Figures.hear_task]
    exact .past fun _ => .past fun _ => .past fun _ => update_prints rfl
  case taskOutput =>
    rw [Figures.hear_taskOutput]
    exact .of_onlyRemotes sendToPairedRemote_onlyRemotes rfl
  case taskDone =>
    rw [handleMsg_taskDone]
    split
    case isTrue  => exact .past fun _ => taskIsDone_prints rfl
    case isFalse => exact taskIsDone_prints rfl
  case taskFailed =>
    rw [Figures.hear_taskFailed]
    refine .bind (.of_onlyRemotes sendToPairedRemote_onlyRemotes rfl) fun s h => ?_
    exact h ▸ execIsReady_prints rfl
  case dropped =>
    rw [Figures.hear_other rfl id]
    exact handleDropped_prints rfl
  case cancelTask | pissOff => trivial

theorem onEvent_prints : Prints (s.figures.after ev) (onEvent fuel s ev) := by
  cases ev
  case inbound  => exact handleMsg_prints.bind fun _ h _ => h
  case watchdog =>
    refine .bind (update_prints rfl) fun s h => .past fun _ => ?_
    exact congrArg (fun f : Figures => { f with period := 0 }) h

end SprayCC
