import Mathlib.Data.Fintype.Sum
import Mathlib.Tactic.DeriveFintype
import SprayCC.Cluster.Basic
import SprayCC.Process.Peers
import SprayCC.Server.Connection

open Async

-- The server and the processes which call it, all of them as programs, with the sockets and the
-- channels between them.

namespace SprayCC

-- A process which has called the server, and the connection task there. Between them are the two
-- directions of the socket, which carries whole messages; the task has the receiver of an outbound
-- channel as long as that is `opened`. For the record, there are the calls of the process so far,
-- and all messages which were ever put on the channel.
structure Link where
  caller  : Caller
  process : Process.Proc Int32
  trace   : Trace Process.signature
  up      : List Message
  down    : List Message
  task    : Connection.Proc Unit
  channel : List (Nat × Message)
  opened  : Bool
  sent    : List (Nat × Message)

-- The steps of a link: how the calls of the connection task and of the process are answered. The
-- flags of `hangs` and `loses` tell an error from the end of the stream.
inductive LinkAct
  | arrives
  | hangs (error : Bool)
  | departs
  | writes (ok : Bool)
  | pushes
  | returns
  | tells (ok : Bool)
  | hears
  | loses (error : Bool)
  | does (ok : Bool)
  deriving DecidableEq, Fintype

namespace Link

-- The process has shut its socket down, or it has come to its end.
def Closed (l : Link) : Bool :=
  match l.process with
  | .done _ | .fail .error | .fail (.panic _) => true
  | _ => l.trace.any fun
    | ⟨.shutdown, _⟩ => true
    | _              => false

def fresh (codes : Codes) (i : Nat) (caller : Caller) (fuel : Nat) : Link where
  caller  := caller
  process := caller.process codes
  trace   := []
  up      := []
  down    := []
  task    := Connection.handleConnection codes i fuel
  channel := []
  opened  := true
  sent    := []

-- The call of the process is answered.
def answer (l : Link) (c : Process.Call) (a : c.Answer) (p : Process.Proc Int32) : Link :=
  { l with process := p, trace := l.trace ++ [⟨c, a⟩] }

def put (l : Link) (about : Nat) (msg : Message) : Link :=
  { l with channel := l.channel ++ [(about, msg)], sent := l.sent ++ [(about, msg)] }

-- What the step puts on the inbound channel comes with it.
def step (l : Link) : LinkAct → Option (Link × List (Nat × Message))
  -- The read arm of the `select!`.
  | .arrives =>
    match l.task, l.up with
    | .call .select k, msg :: rest => some ({ l with task := k (.message msg), up := rest }, [])
    | _, _                         => none
  | .hangs error =>
    match l.task with
    | .call .select k =>
      if error then some ({ l with task := k .error }, [])
      else if l.Closed ∧ l.up = [] then some ({ l with task := k .closed }, [])
      else none
    | _ => none
  -- The write arm of the `select!`.
  | .departs =>
    match l.task, l.channel with
    | .call .select k, (_, msg) :: rest =>
      some ({ l with task := k (.outbound msg), channel := rest }, [])
    | _, _ => none
  | .writes ok =>
    match l.task with
    | .call (.write msg) k =>
      if ok then some ({ l with task := k true, down := l.down ++ [msg] }, [])
      else some ({ l with task := k false }, [])
    | _ => none
  | .pushes =>
    match l.task with
    | .call (.send connId msg) k => some ({ l with task := k true }, [(connId, msg)])
    | _                          => none
  -- The task drops its receiver some time after it has come to its end.
  | .returns =>
    match l.task with
    | .done _ | .fail .error => if l.opened then some ({ l with opened := false }, []) else none
    | _                      => none
  | .tells ok =>
    match l.process with
    | .call (.write msg) k =>
      if ok then some ({ l.answer (.write msg) true (k true) with up := l.up ++ [msg] }, [])
      else some (l.answer (.write msg) false (k false), [])
    | _ => none
  | .hears =>
    match l.process, l.down with
    | .call .read k, msg :: rest =>
      some ({ l.answer .read (.message msg) (k (.message msg)) with down := rest }, [])
    | _, _ => none
  | .loses error =>
    match l.process with
    | .call .read k =>
      if error then some (l.answer .read .error (k .error), [])
      else if ¬l.opened ∧ l.down = [] then some (l.answer .read .closed (k .closed), [])
      else none
    | _ => none
  -- The other calls of a process.
  | .does ok =>
    match l.process with
    | .call .flush k    => some (l.answer .flush ok (k ok), [])
    | .call .shutdown k => some (l.answer .shutdown () (k ()), [])
    | .call (.file c) k => some (l.answer (.file c) ok (k ok), [])
    | _                 => none

def returned (l : Link) : Option Int32 :=
  match l.process with
  | .done status => some status
  | _            => none

theorem returned_iff {l : Link} {status : Int32} :
    l.returned = some status ↔ l.process = .done status := by
  unfold returned
  split
  case h_1 hp => simp [hp]
  case h_2 hn => simpa using hn status

def panicked (l : Link) : Option Process.Panic :=
  match l.process with
  | .fail (.panic p) => some p
  | _                => none

theorem panicked_iff {l : Link} {p : Process.Panic} :
    l.panicked = some p ↔ l.process = .fail (.panic p) := by
  unfold panicked
  split
  case h_1 hp => simp [hp]
  case h_2 hn => simpa using hn p

-- The process is a client which has come to its end with the status.
def ended (l : Link) (details : TaskDetails) (status : Int32) : Bool :=
  match l.caller, l.process with
  | .client details' _, .done status' => details' = details ∧ status' = status
  | _, _                              => false

theorem ended_iff {l : Link} {details : TaskDetails} {status : Int32} :
    l.ended details status ↔
      ∃ fuel, l.caller = .client details fuel ∧ l.process = .done status := by
  unfold ended
  split
  case h_1 hc hp => simp [hc, hp]
  case h_2 hn =>
    refine ⟨nofun, fun ⟨_, hc, hp⟩ => ?_⟩
    exact hn _ _ _ hc hp |>.elim

end Link

structure Farm where
  main    : Main
  inbound : List (Nat × Message)
  size    : Nat
  links   : Nat → Link

namespace Farm

-- The steps of the main loop are those of a cluster. A main loop which waits for room on a channel
-- makes no step.
inductive Label
  | accept (caller : Caller) (fuel : Nat)
  | recv (fuel : Nat)
  | tick (fuel : Nat)
  | send
  | clock (now : SystemTime)
  | spawned (ok : Bool)
  | picked (k : Nat)
  | finish
  | check (now : SystemTime)
  | link (i : Nat) (a : LinkAct)

def start (S : Setup) : Farm where
  main    := .select S.server
  inbound := []
  size    := 0
  links i := .fresh S.codes i (.exec false []) 0

def set (F : Farm) (i : Nat) (l : Link) : Farm :=
  { F with links := Function.update F.links i l }

-- The outcome of a send, which is `none` as long as the channel is full.
def put (S : Setup) (F : Farm) (about dest : Nat) (msg : Message) : Option (Bool × Farm) :=
  let l := F.links dest
  if l.opened then
    if l.channel.length < S.outboundCap then
      some (true, F.set dest (l.put about msg))
    else none
  else some (false, F)

-- There are fewer processes than there are IDs of type `u32`.
def step (S : Setup) (F : Farm) : Label → Option Farm
  | .accept caller fuel =>
    match F.main with
    | .select s =>
      if F.size + 1 < 2 ^ 32 then
        some { F.set F.size (.fresh S.codes F.size caller fuel) with
          main := .checking s.addRemote
          size := F.size + 1 }
      else none
    | _ => none
  | .recv fuel =>
    match F.main, F.inbound with
    | .select s, (i, msg) :: rest =>
      let ev := .inbound i msg
      some { F with main := .running ev s false (onEvent fuel s ev), inbound := rest }
    | _, _ => none
  | .tick fuel =>
    match F.main with
    | .select s => some { F with main := .running .watchdog s false (onEvent fuel s .watchdog) }
    | _         => none
  | .send =>
    match F.main with
    | .running ev s _ (.call (.send about dest msg) k) =>
      (F.put S about dest msg).map fun (ok, F) => { F with main := .running ev s false (k ok) }
    | _ => none
  | .clock now =>
    match F.main with
    | .running ev s _ (.call .now k) => some { F with main := .running ev s false (k now) }
    | _                              => none
  | .spawned ok =>
    match F.main with
    | .running ev s _ (.call (.spawn _) k) => some { F with main := .running ev s false (k ok) }
    | _                                    => none
  | .picked j =>
    match F.main with
    | .running ev s _ (.call (.pick queue) k) =>
      if Picks queue j then some { F with main := .running ev s false (k j) } else none
    | _ => none
  | .finish =>
    match F.main with
    | .running _ _ _ (.done s) => some { F with main := .checking s }
    | .running _ _ _ (.fail f) => some { F with main := .faulted f }
    | _                        => none
  | .check now =>
    match F.main with
    | .checking s =>
      some { F with main := if s.okToShutdown now then .shutdown s else .select s }
    | _ => none
  | .link i a =>
    if i < F.size then
      (F.links i).step a >>= fun (l, msgs) =>
        if msgs = [] ∨ F.inbound.length < S.inboundCap then
          some { F.set i l with inbound := F.inbound ++ msgs }
        else none
    else none

inductive Reaches (S : Setup) : Farm → Prop
  | start : Reaches S (start S)
  | step  : Reaches S F → F.step S l = some F' → Reaches S F'

def run (S : Setup) : List Label → Farm → Option Farm
  | [],      F => some F
  | l :: ls, F => F.step S l >>= run S ls

section Run

variable {S : Setup} {F F' : Farm} {ls : List Label}

theorem Reaches.run (h : F.Reaches S) (hr : F.run S ls = some F') : F'.Reaches S := by
  induction ls generalizing F with
  | nil          => cases hr; exact h
  | cons l ls hi =>
    have ⟨_, hs, hr⟩ := Option.bind_eq_some_iff.mp hr
    exact hi (h.step hs) hr

-- What a run from the start leads to can be found out by evaluation.
theorem Reaches.of_run {f : Farm → Bool} (ls : List Label)
    (h : ((Farm.start S).run S ls).any f) : ∃ F, Reaches S F ∧ f F := by
  cases hr : (Farm.start S).run S ls
  case none   => simp [hr] at h
  case some F => exact ⟨F, Reaches.start.run hr, by simpa [hr] using h⟩

end Run

-- A task with an output file, and how it goes on the host of an exec.
def tourTask : TaskDetails :=
  { TaskDetails.plain with args := ["true", "a.o"], outputArgs := [1] }

def tourTurn : Exec.Turn where
  host     := {
    hostname       := "host"
    pathExists _   := true
    tempdir        := .ok "/tmp"
    spawn _ _ _ _  := some {
      output  := fun
        | .stdout => [104, 105, Exec.newline]
        | .stderr => []
      wait _  := .exited (some 3)
      reads _ := some [some [1, 2], some []] } }
  picks    := [.stdout, .stdout, .stderr]
  runTime  := 7
  sendTime := 8

-- Nothing is there, or nothing can be started.

def missingTurn : Exec.Turn :=
  { tourTurn with host := { tourTurn.host with pathExists _ := false } }

def stuckTurn : Exec.Turn :=
  { tourTurn with host := { tourTurn.host with spawn _ _ _ _ := none } }

-- An exec is sent the task of a client.
def opening (turn : Exec.Turn) : List Label :=
  [.accept (.exec false [turn, turn]) 10, .check 0,
    .link 0 (.tells true), .link 0 .arrives, .link 0 .pushes, .recv 0, .clock 0, .finish, .check 0,
    .accept (.client tourTask 10) 10, .check 0,
    .link 1 (.tells true), .link 1 .arrives, .link 1 .pushes,
    .recv 0, .clock 0, .picked 0, .send, .clock 0, .clock 0, .finish, .check 0,
    .link 0 .departs, .link 0 (.writes true), .link 0 .hears]

-- The exec runs the task, and its outputs come to the client.
def tour : List Label :=
  opening tourTurn ++ [
    .link 0 (.tells true), .link 0 (.tells true), .link 0 (.tells true), .link 0 (.does true),
    .link 0 .arrives, .link 0 .pushes, .recv 0, .send, .clock 0, .finish, .check 0,
    .link 0 .arrives, .link 0 .pushes, .recv 0, .send, .clock 0, .finish, .check 0,
    .link 0 .arrives, .link 0 .pushes, .recv 0, .send, .clock 0, .clock 0, .finish, .check 0,
    .link 1 .departs, .link 1 (.writes true), .link 1 .hears, .link 1 (.does true),
    .link 1 .departs, .link 1 (.writes true), .link 1 .hears, .link 1 (.does true),
    .link 1 (.does true), .link 1 .departs, .link 1 (.writes true), .link 1 .hears,
    .link 1 (.does true), .link 1 (.does true)]

-- The task can not be started.
def failedTour : List Label :=
  opening missingTurn ++ [
    .link 0 (.tells true), .link 0 (.does true),
    .link 0 .arrives, .link 0 .pushes, .recv 0, .send, .clock 0, .clock 0, .finish, .check 0,
    .link 1 .departs, .link 1 (.writes true), .link 1 .hears, .link 1 (.does true)]

end Farm
end SprayCC
