import Mathlib.Logic.Function.Basic
import SprayCC.Server.Codes
import SprayCC.Server.State

namespace SprayCC

-- Where an exec process is: it has not said hello yet, it waits for the server, it runs the task
-- which was the message at position `job` on its channel, or it was told to go.
inductive Stage
  | fresh
  | idle
  | busy (job : Nat)
  | done
  deriving DecidableEq

-- The process at the other end of a connection: `client.rs` with its task, `exec.rs` from one of
-- the queues, which has read the first `read` messages of its channel, or any other program.
inductive Peer
  | client (details : TaskDetails) (submitted : Bool)
  | exec (secondQueue : Bool) (stage : Stage) (read : Nat)
  | rogue (said : List Message)
  deriving DecidableEq

namespace Peer

def Fresh : Peer → Prop
  | client _ submitted  => submitted = false
  | exec _ stage read   => stage = .fresh ∧ read = 0
  | rogue said          => said = []

instance : DecidablePred Fresh
  | client .. | rogue .. => inferInstanceAs <| Decidable (_ = _)
  | exec ..              => inferInstanceAs <| Decidable (_ ∧ _)

-- What is left of the peer once it has said `msg`, if it can say that.
def speaks (codes : Codes) : Peer → Message → Option Peer
  | client details false, msg =>
    if msg = codes.submission details then some (client details true) else none
  | exec second .fresh read, msg =>
    if msg = codes.hello second then some (exec second .idle read) else none
  | exec second (.busy job) read, msg =>
    if msg.Result then some (exec second (if msg.Terminal then .idle else .busy job) read) else none
  | rogue said, msg => some (rogue (said ++ [msg]))
  | _, _            => none

end Peer

-- A connection task: it is in its `select!`, it waits for room on the inbound channel, either with
-- a message it has read or with the final `Dropped`, it has put the `Dropped` there, it has
-- returned after that, or it has returned because a write to its socket failed.
inductive ConnTask
  | select
  | forwarding (msg : Message)
  | ending
  | noticed
  | closed
  | failed
  deriving DecidableEq

namespace ConnTask

-- The task still serves its connection.
def Connected : ConnTask → Prop
  | select | forwarding _ => True
  | _                     => False

-- The loop of the task was left by `break`.
def HungUp : ConnTask → Prop
  | ending | noticed | closed => True
  | _                         => False

-- The task still holds the receiver of its outbound channel.
def Open : ConnTask → Prop
  | closed | failed => False
  | _               => True

instance : DecidablePred Connected
  | select | forwarding _                => .isTrue trivial
  | ending | noticed | closed | failed   => .isFalse id

instance : DecidablePred HungUp
  | ending | noticed | closed         => .isTrue trivial
  | select | forwarding _ | failed    => .isFalse id

instance : DecidablePred Open
  | closed | failed                                => .isFalse id
  | select | forwarding _ | ending | noticed       => .isTrue trivial

theorem Connected.not_hungUp {t : ConnTask} (h : t.Connected) : ¬t.HungUp := by
  cases t <;> first | exact id | exact h.elim

theorem Connected.opened {t : ConnTask} (h : t.Connected) : t.Open := by
  cases t <;> trivial

-- What the task holds for the inbound channel.
def held : ConnTask → List Message
  | forwarding msg => [msg]
  | ending         => [.dropped]
  | _              => []

end ConnTask

-- A connection: its peer, its task, and its outbound channel as the list of all messages that were
-- ever put there (each with the remote on whose account), of which the task has taken the first
-- `taken`. For the record, `produced` holds all results the peer has sent, by their job.
structure Conn where
  peer     : Peer
  task     : ConnTask
  sent     : List (Nat × Message)
  taken    : Nat
  produced : List (Nat × Message)

namespace Conn

def fresh (peer : Peer) : Conn where
  peer     := peer
  task     := .select
  sent     := []
  taken    := 0
  produced := []

def speaks (codes : Codes) (c : Conn) (msg : Message) : Option Conn :=
  (c.peer.speaks codes msg).map fun peer =>
    match c.peer with
    | .exec _ (.busy job) _ => { c with peer, produced := c.produced ++ [(job, msg)] }
    | _                     => { c with peer }

-- An exec which waits for the server reads the next message of its channel.
def reads (c : Conn) : Option Conn :=
  match c.peer with
  | .exec second .idle read =>
    if read < c.taken then
      match c.sent[read]? with
      | some (_, .task ..) => some { c with peer := .exec second (.busy read) (read + 1) }
      | some (_, .pissOff) => some { c with peer := .exec second .done (read + 1) }
      | _                  => none
    else none
  | _ => none

end Conn

-- What does not change while the server runs. The capacities are those of its channels.
structure Setup where
  codes          : Codes
  inboundCap     : Nat
  outboundCap    : Nat
  inbound_pos    : 0 < inboundCap
  outbound_pos   : 0 < outboundCap
  config         : ExecConfig
  startCmd       : String
  secondStartCmd : Option String
  priorHistory   : History
  startTime      : SystemTime

-- The capacities are those of the code, and the configuration is the default one.
def Setup.plain : Setup where
  codes          := ⟨2, 1, by decide⟩
  inboundCap     := 256
  outboundCap    := 256
  inbound_pos    := by decide
  outbound_pos   := by decide
  config         := .default
  startCmd       := "spraycc"
  secondStartCmd := none
  priorHistory   := .default
  startTime      := 0

def TaskDetails.plain : TaskDetails where
  workingDir   := "/"
  cmd          := "/bin/true"
  args         := ["true"]
  outputArgs   := []
  env          := ∅
  priorityTask := false

def Setup.server (S : Setup) : ServerState :=
  .start S.config S.codes.userCode S.startCmd S.secondStartCmd S.priorHistory S.startTime

-- Everything around the main loop: the inbound channel and the connections `i < size`.
structure Net where
  inbound : List (Nat × Message)
  size    : Nat
  conns   : Nat → Conn

-- The steps of connection `i`.
inductive Act
  | speaks (i : Nat) (msg : Message)
  | pushes (i : Nat)
  | ends (i : Nat)
  | closes (i : Nat)
  | takes (i : Nat)
  | breaks (i : Nat)
  | reads (i : Nat)

namespace Net

def empty : Net where
  inbound := []
  size    := 0
  conns   := fun _ => .fresh (.rogue [])

def set (w : Net) (i : Nat) (c : Conn) : Net :=
  { w with conns := Function.update w.conns i c }

def accept (w : Net) (peer : Peer) : Net :=
  { w.set w.size (.fresh peer) with size := w.size + 1 }

-- The messages of connection `i` which the server has not received yet, the oldest first.
def flight (w : Net) (i : Nat) : List Message :=
  (w.inbound.filter (·.fst = i)).map Prod.snd ++ (w.conns i).task.held

-- The server has received the `Dropped` of the connection.
def Reported (w : Net) (i : Nat) : Prop :=
  (w.conns i).task.HungUp ∧ w.flight i = []

instance (w : Net) : DecidablePred w.Reported :=
  fun _ => inferInstanceAs <| Decidable (_ ∧ _)

-- The client has been told of the end of its task.
def Answered (w : Net) (i : Nat) : Prop :=
  ∃ m ∈ (w.conns i).sent, m.snd.Terminal

instance (w : Net) : DecidablePred w.Answered :=
  fun _ => inferInstanceAs <| Decidable (∃ _ ∈ _, _)

def Room (S : Setup) (w : Net) : Prop :=
  w.inbound.length < S.inboundCap

instance (S : Setup) (w : Net) : Decidable (w.Room S) :=
  inferInstanceAs <| Decidable (_ < _)

-- Connection `i` turns to `c` and puts `msg` on the inbound channel, after which its task is at
-- `next`. Without room on the channel it waits at `wait`.
def offer (S : Setup) (w : Net) (i : Nat) (c : Conn) (msg : Message) (next wait : ConnTask) : Net :=
  if w.Room S then { w.set i { c with task := next } with inbound := w.inbound ++ [(i, msg)] }
  else w.set i { c with task := wait }

def step (S : Setup) (w : Net) : Act → Option Net
  -- The read arm of the `select!`, with a message.
  | .speaks i msg =>
    if i < w.size ∧ (w.conns i).task = .select then
      (w.conns i).speaks S.codes msg |>.map fun c =>
        w.offer S i c (S.codes.forwards msg) .select (.forwarding (S.codes.forwards msg))
    else none
  -- A send on the inbound channel gets the room it has waited for.
  | .pushes i =>
    if i < w.size ∧ w.Room S then
      match (w.conns i).task with
      | .forwarding msg => some <| w.offer S i (w.conns i) msg .select (.forwarding msg)
      | .ending         => some <| w.offer S i (w.conns i) .dropped .noticed .ending
      | _               => none
    else none
  -- The read arm of the `select!`, with the end of the stream or an error.
  | .ends i =>
    if i < w.size ∧ (w.conns i).task = .select then
      some <| w.offer S i (w.conns i) .dropped .noticed .ending
    else none
  -- The task returns and drops its receiver.
  | .closes i =>
    if i < w.size ∧ (w.conns i).task = .noticed then
      some <| w.set i { w.conns i with task := .closed }
    else none
  -- The write arm of the `select!`.
  | .takes i =>
    if i < w.size ∧ (w.conns i).task = .select ∧ (w.conns i).taken < (w.conns i).sent.length then
      some <| w.set i { w.conns i with taken := (w.conns i).taken + 1 }
    else none
  -- The write arm of the `select!`, where the write fails.
  | .breaks i =>
    if i < w.size ∧ (w.conns i).task = .select ∧ (w.conns i).taken < (w.conns i).sent.length then
      some <| w.set i { w.conns i with taken := (w.conns i).taken + 1, task := .failed }
    else none
  | .reads i =>
    if i < w.size ∧ (w.conns i).task.Connected then
      (w.conns i).reads |>.map (w.set i)
    else none

def put (w : Net) (about dest : Nat) (msg : Message) : Net :=
  w.set dest { w.conns dest with sent := (w.conns dest).sent ++ [(about, msg)] }

-- The channel to connection `dest` is full.
def Full (S : Setup) (w : Net) (dest : Nat) : Prop :=
  (w.conns dest).task.Open ∧
    S.outboundCap ≤ (w.conns dest).sent.length - (w.conns dest).taken

instance (S : Setup) (w : Net) : DecidablePred (w.Full S) :=
  fun _ => inferInstanceAs <| Decidable (_ ∧ _)

-- The outcome of a send, which is `none` as long as the channel is full.
def send (S : Setup) (w : Net) (about dest : Nat) (msg : Message) : Option (Bool × Net) :=
  if w.Full S dest then none
  else if (w.conns dest).task.Open then some (true, w.put about dest msg)
  else some (false, w)

end Net
end SprayCC
