import SprayCC.Async.Program
import SprayCC.Config
import SprayCC.History

open Async

namespace SprayCC

inductive ConnectionType
  | pending
  | client
  | exec
  | dead
  deriving DecidableEq

-- The channel `send_chan` of a remote is known by the remote's position, see `Call.send`.
structure Remote where
  connType : ConnectionType
  pairedId : Option UInt32

-- A task with the ID of the client which submitted it, and its priority.
abbrev Entry := (Nat × TaskDetails) × Duration

-- The entries of a `PriorityQueue`, in no particular order. An item which is already in the queue
-- only has its priority changed.
def pushEntry (queue : List Entry) (item : Nat × TaskDetails) (prior : Duration) : List Entry :=
  if queue.any (·.1 = item) then
    queue.map fun e => if e.1 = item then (item, prior) else e
  else
    queue ++ [(item, prior)]

structure ServerState where
  remotes                : List Remote
  taskQueue              : List Entry
  execQueue              : List Nat
  submitCount            : Nat
  finishCount            : Nat
  pendingExecCount       : Nat
  secondPendingExecCount : Nat
  runningExecCount       : Nat
  lastSubmitTime         : Option SystemTime
  lastActivityTime       : SystemTime
  userConfig             : ExecConfig
  userPrivateKey         : UInt64
  startCmd               : String
  secondStartCmd         : Option String
  priorHistory           : History
  inTheMaking            : History
  totalBytes             : Nat
  bytesThisPeriod        : Nat
  totalRunTime           : Duration
  totalSendTime          : Duration
  peakSendTime           : Duration

inductive Panic
  | index
  | unwrap
  | notPaired
  | sameId
  | clientPaired (clientId : Nat) (got : Option UInt32)
  | execPaired (execId : Nat) (got : Option UInt32)
  | runningUnderflow
  | statusUnderflow
  | oddAccessCode
  | cancelTask
  | pissOff

def Panic.text : Panic → String
  | index            => "index out of bounds"
  | unwrap           => "called `Option::unwrap()` on a `None` value"
  | notPaired        => "Expected connection to already be paired"
  | sameId           => "Somehow exec and client ID are the same"
  | clientPaired i g => s!"Client {i} paired ID should be None, got {debug g}"
  | execPaired i g   => s!"Exec {i} paired ID should be None, got {debug g}"
  | runningUnderflow => "attempt to subtract with overflow"
  | statusUnderflow  => "attempt to subtract with overflow"
  | oddAccessCode    => "Expected bit-0 of access code to be 0"
  | cancelTask       => "not implemented: Task cancellation"
  | pissOff          => "A lowly remote should never tell the server to piss off"
where
  debug : Option UInt32 → String
    | some id => s!"Some({id.toNat})"
    | none    => "None"

-- The ways in which the server can leave its loop other than by shutting down: an `Err` which is
-- passed up by `?`, or a panic. A server that never gets back to its loop is `spinning`.
inductive Fault
  | error (text : String)
  | panic (p : Panic)
  | spinning

-- What the server asks of its surroundings: to put a message on the channel of remote `dest`, to
-- read the clock, to start a process, and to choose the entry (of maximal priority) which is popped
-- off a priority queue. The remote `about` on whose account a message is sent is for the record
-- only.
inductive Call
  | send (about dest : Nat) (msg : Message)
  | now
  | spawn (cmd : String)
  | pick (queue : List Entry)

@[reducible]
def Call.Answer : Call → Type
  | send .. => Bool
  | now     => SystemTime
  | spawn _ => Bool
  | pick _  => Nat

@[reducible]
def signature : Signature where
  Call   := Call
  Answer := Call.Answer

abbrev Proc := Program signature Fault

def send (about dest : Nat) (msg : Message) : Proc Bool :=
  @Program.ask signature Fault (.send about dest msg)

def now : Proc SystemTime :=
  @Program.ask signature Fault .now

def spawn (cmd : String) : Proc Bool :=
  @Program.ask signature Fault (.spawn cmd)

def pick (queue : List Entry) : Proc Nat :=
  @Program.ask signature Fault (.pick queue)

namespace ServerState

-- Everything about a server which does not change after `ServerState::new`, with no remotes yet.
def start (config : ExecConfig) (userPrivateKey : UInt64) (startCmd : String)
    (secondStartCmd : Option String) (priorHistory : History) (now : SystemTime) : ServerState where
  remotes                := []
  taskQueue              := []
  execQueue              := []
  submitCount            := 0
  finishCount            := 0
  pendingExecCount       := 0
  secondPendingExecCount := 0
  runningExecCount       := 0
  lastSubmitTime         := none
  lastActivityTime       := now
  userConfig             := config
  userPrivateKey         := userPrivateKey
  startCmd               := startCmd
  secondStartCmd         := secondStartCmd
  priorHistory           := priorHistory
  inTheMaking            := .default
  totalBytes             := 0
  bytesThisPeriod        := 0
  totalRunTime           := 0
  totalSendTime          := 0
  peakSendTime           := 0

def execCmd (cmd addr : String) (accessCode : UInt64) : String :=
  s!"{cmd} exec --callme={addr} --code={accessCode}"

-- The configuration, the history and the time are those which the function reads itself.
def new (port : CallMe) (userPrivateKey : UInt64) (maxCpus : Option Nat)
    (altStartCmd bothQueues : Bool) (config : ExecConfig) (priorHistory : History)
    (now : SystemTime) : Except Fault ServerState :=
  let config := { config with maxCount := maxCpus.getD config.maxCount }
  let cmd := if altStartCmd then config.altStartCmd.getD config.startCmd else config.startCmd
  if port.accessCode &&& 1 ≠ 0 then
    .error (.panic .oddAccessCode)
  else
    -- The last bit of the access code tells the queues apart.
    let second := if bothQueues then config.altStartCmd else none
    .ok <| start config userPrivateKey (execCmd cmd port.addr port.accessCode)
      (second.map (execCmd · port.addr (port.accessCode + 1))) priorHistory now

def activityOccurred (s : ServerState) (now : SystemTime) : ServerState :=
  { s with lastActivityTime := now }

def okToShutdown (s : ServerState) (now : SystemTime) : Bool :=
  s.taskQueue.isEmpty && s.runningExecCount == 0 &&
    decide (s.userConfig.idleShutdownAfter < (elapsed now s.lastActivityTime).asSecs)

def recordElapsed (s : ServerState) (targetId : String) (elapsed : Duration) (now : SystemTime) :
    ServerState :=
  { s with inTheMaking := s.inTheMaking.update targetId elapsed now }

-- Indexing into the remotes.
def remote (s : ServerState) (connId : Nat) : Proc Remote :=
  .get s.remotes[connId]? (.panic .index)

def setConnType (s : ServerState) (connId : Nat) (connType : ConnectionType) : ServerState :=
  { s with remotes := s.remotes.modify connId fun r => { r with connType } }

def setPairedId (s : ServerState) (connId : Nat) (pairedId : Option UInt32) : ServerState :=
  { s with remotes := s.remotes.modify connId fun r => { r with pairedId } }

def addRemote (s : ServerState) : ServerState :=
  { s with remotes := s.remotes ++ [{ connType := .pending, pairedId := none }] }

end ServerState
end SprayCC
