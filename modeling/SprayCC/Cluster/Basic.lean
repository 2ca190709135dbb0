import SprayCC.Async.Safe
import SprayCC.Server.Handlers
import SprayCC.Cluster.Net

open Async

namespace SprayCC

-- Where the main loop is: in its `select!`, in an arm of it (which was entered with the server in
-- state `s`, and possibly waits for room on an outbound channel), at the test for shutdown, or it
-- has been left, with or without the server shutting down.
inductive Main
  | select (s : ServerState)
  | running (ev : Event) (s : ServerState) (waits : Bool) (p : Proc ServerState)
  | checking (s : ServerState)
  | shutdown (s : ServerState)
  | faulted (f : Fault)

namespace Main

-- The server between two events.
def resting : Main → Option ServerState
  | select s | checking s | shutdown s => some s
  | _                                  => none

-- The `Err` with which the server has left its loop.
def error : Main → Option String
  | faulted (.error text) => some text
  | _                     => none

end Main

-- The server with all of its remotes.
structure Cluster where
  main : Main
  net  : Net

-- The steps of a cluster: those of the main loop, with the answers to its calls, and those of the
-- connections.
inductive Label
  | accept (peer : Peer)
  | recv (fuel : Nat)
  | tick (fuel : Nat)
  | wait
  | send
  | clock (now : SystemTime)
  | spawned (ok : Bool)
  | picked (k : Nat)
  | finish
  | check (now : SystemTime)
  | act (a : Act)

-- The entry at position `k` has maximal priority.
def Picks (queue : List Entry) (k : Nat) : Prop :=
  match queue[k]? with
  | some e => ∀ e' ∈ queue, e'.snd ≤ e.snd
  | none   => False

instance (queue : List Entry) : DecidablePred (Picks queue) := fun k => by
  unfold Picks; split <;> infer_instance

theorem Picks.exists_entry {queue : List Entry} {k : Nat} (h : Picks queue k) :
    ∃ e, queue[k]? = some e := by
  unfold Picks at h
  split at h
  case h_1 e he => exact ⟨e, he⟩
  case h_2      => exact h.elim

namespace Cluster

def start (S : Setup) : Cluster where
  main := .select S.server
  net  := .empty

-- One step of the loop of `run` or of a connection, if it is possible.
def step (S : Setup) (σ : Cluster) : Label → Option Cluster
  | .accept peer =>
    match σ.main with
    | .select s => if peer.Fresh then some ⟨.checking s.addRemote, σ.net.accept peer⟩ else none
    | _         => none
  | .recv fuel =>
    match σ.main, σ.net.inbound with
    | .select s, (i, msg) :: rest =>
      let ev := .inbound i msg
      some ⟨.running ev s false (onEvent fuel s ev), { σ.net with inbound := rest }⟩
    | _, _ => none
  | .tick fuel =>
    match σ.main with
    | .select s => some ⟨.running .watchdog s false (onEvent fuel s .watchdog), σ.net⟩
    | _         => none
  | .wait =>
    match σ.main with
    | .running ev s false (.call (.send about dest msg) k) =>
      if σ.net.Full S dest then some ⟨.running ev s true (.call (.send about dest msg) k), σ.net⟩
      else none
    | _ => none
  | .send =>
    match σ.main with
    | .running ev s _ (.call (.send about dest msg) k) =>
      (σ.net.send S about dest msg).map fun (ok, w) => ⟨.running ev s false (k ok), w⟩
    | _ => none
  | .clock now =>
    match σ.main with
    | .running ev s _ (.call .now k) => some ⟨.running ev s false (k now), σ.net⟩
    | _                              => none
  | .spawned ok =>
    match σ.main with
    | .running ev s _ (.call (.spawn _) k) => some ⟨.running ev s false (k ok), σ.net⟩
    | _                                    => none
  | .picked j =>
    match σ.main with
    | .running ev s _ (.call (.pick queue) k) =>
      if Picks queue j then some ⟨.running ev s false (k j), σ.net⟩ else none
    | _ => none
  | .finish =>
    match σ.main with
    | .running _ _ _ (.done s) => some ⟨.checking s, σ.net⟩
    | .running _ _ _ (.fail f) => some ⟨.faulted f, σ.net⟩
    | _                        => none
  | .check now =>
    match σ.main with
    | .checking s => some ⟨if s.okToShutdown now then .shutdown s else .select s, σ.net⟩
    | _           => none
  | .act a => (σ.net.step S a).map fun w => ⟨σ.main, w⟩

end Cluster

-- A restriction of the steps of a cluster to some of those which are possible.
structure Policy where
  accept : Net → Peer → Bool
  recv   : ServerState → Net → Nat → Message → Bool
  send   : Event → Net → Nat → Message → Bool
  wait   : Net → Nat → Bool
  act    : Net → Act → Bool
  check  : ServerState → Net → SystemTime → Bool

namespace Policy

def any : Policy where
  accept _ _   := true
  recv _ _ _ _ := true
  send _ _ _ _ := true
  wait _ _     := true
  act _ _      := true
  check _ _ _  := true

def and (P Q : Policy) : Policy where
  accept w p      := P.accept w p && Q.accept w p
  recv s w i msg  := P.recv s w i msg && Q.recv s w i msg
  send ev w i msg := P.send ev w i msg && Q.send ev w i msg
  wait w i        := P.wait w i && Q.wait w i
  act w a         := P.act w a && Q.act w a
  check s w t     := P.check s w t && Q.check s w t

-- The remotes are clients and execs, fewer of them than there are IDs of type `u32`.
def wellBehaved : Policy where
  accept w
    | .client .. | .exec .. => w.size + 1 < 2 ^ 32
    | .rogue _              => false
  recv _ _ _ _ := true
  send _ _ _ _ := true
  wait _ _     := true
  act _ _      := true
  check _ _ _  := true

-- These messages are not sent to a remote once the server has received that it is gone, not even
-- while its connection task has not returned yet.
def goneSpared (p : Message → Prop) [DecidablePred p] : Policy :=
  { any with send _ w dest msg := ¬(p msg ∧ w.Reported dest ∧ (w.conns dest).task.Open) }

def Spares (P : Policy) (msg : Message) : Prop :=
  ∀ ev w dest, P.send ev w dest msg → (w.conns dest).task.Open → ¬w.Reported dest

section And

variable {P Q : Policy} {ev : Event} {s : ServerState} {w : Net} {i : Nat} {msg : Message}

theorem and_recv (h : (P.and Q).recv s w i msg) : Q.recv s w i msg :=
  Bool.and_eq_true_iff.mp h |>.right

theorem and_act {a : Act} (h : (P.and Q).act w a) : Q.act w a :=
  Bool.and_eq_true_iff.mp h |>.right

theorem goneSpared_spares {p : Message → Prop} [DecidablePred p] (h : p msg) :
    (goneSpared p).Spares msg := by
  intro ev w dest ha ho
  simpa [goneSpared, h, ho] using ha

theorem Spares.and_left (h : P.Spares msg) : (P.and Q).Spares msg :=
  fun _ _ _ ha => h _ _ _ (Bool.and_eq_true_iff.mp ha).left

theorem Spares.and_right (h : Q.Spares msg) : (P.and Q).Spares msg :=
  fun _ _ _ ha => h _ _ _ (Bool.and_eq_true_iff.mp ha).right

end And

def allows (P : Policy) (σ : Cluster) : Label → Bool
  | .accept peer => P.accept σ.net peer
  | .recv _ =>
    match σ.main, σ.net.inbound with
    | .select s, (i, msg) :: _ => P.recv s σ.net i msg
    | _, _                     => true
  | .wait =>
    match σ.main with
    | .running _ _ _ (.call (.send _ dest _) _) => P.wait σ.net dest
    | _                                         => true
  | .send =>
    match σ.main with
    | .running ev _ _ (.call (.send _ dest msg) _) => P.send ev σ.net dest msg
    | _                                            => true
  | .check now =>
    match σ.main with
    | .checking s => P.check s σ.net now
    | _           => true
  | .act a => P.act σ.net a
  | _      => true

end Policy

namespace Cluster

theorem allows_any {σ : Cluster} {l : Label} : Policy.any.allows σ l := by
  cases l <;> simp only [Policy.allows, Policy.any] <;> split <;> rfl

-- The states of the runs all of whose steps the policy allows.
inductive Reaches (S : Setup) (P : Policy) : Cluster → Prop
  | start : Reaches S P (start S)
  | step  : Reaches S P σ → P.allows σ l → σ.step S l = some σ' → Reaches S P σ'

def run (S : Setup) (P : Policy) : List Label → Cluster → Option Cluster
  | [],     σ => some σ
  | l :: ls, σ => if P.allows σ l then σ.step S l >>= run S P ls else none

theorem Reaches.run {S : Setup} {P : Policy} {ls : List Label} {σ σ' : Cluster}
    (h : Reaches S P σ) (hr : σ.run S P ls = some σ') : Reaches S P σ' := by
  induction ls generalizing σ with
  | nil => cases hr; exact h
  | cons l ls hi =>
    simp only [Cluster.run, Option.bind_eq_bind] at hr
    split at hr
    case isTrue ha =>
      have ⟨_, hs, hr⟩ := Option.bind_eq_some_iff.mp hr
      exact hi (h.step ha hs) hr
    case isFalse => cases hr

-- What a run from the start leads to can be found out by evaluation.
theorem Reaches.of_run {S : Setup} {P : Policy} {f : Cluster → Bool} (ls : List Label)
    (h : ((Cluster.start S).run S P ls).any f) : ∃ σ, Reaches S P σ ∧ f σ := by
  cases hr : (Cluster.start S).run S P ls
  case none   => simp [hr] at h
  case some σ => exact ⟨σ, Reaches.start.run hr, by simpa [hr] using h⟩

end Cluster

-- An exec and a client connect, and the exec runs the client's task. Then it is given the task of a
-- second client and drops its connection, which the client is notified of.
def tour : List Label :=
  [.accept (.exec false .fresh 0), .check 0, .act (.speaks 0 (Setup.plain.codes.hello false)),
    .recv 0, .clock 0, .finish, .check 0,
    .accept (.client .plain false), .check 0,
    .act (.speaks 1 (Setup.plain.codes.submission .plain)),
    .recv 0, .clock 0, .picked 0, .send, .clock 0, .clock 0, .finish, .check 0,
    .act (.takes 0), .act (.reads 0), .act (.speaks 0 (.taskOutput .stdout [104, 105])),
    .recv 0, .send, .clock 0, .finish, .check 0,
    .act (.speaks 0 (.taskDone (some 0) "/;true" 7 8)),
    .recv 0, .clock 0, .send, .clock 0, .clock 0, .finish, .check 0,
    .act (.takes 1), .act (.takes 1), .act (.ends 1), .act (.closes 1), .recv 0, .clock 0,
    .finish, .check 0,
    .accept (.client .plain false), .check 0,
    .act (.speaks 2 (Setup.plain.codes.submission .plain)),
    .recv 0, .clock 0, .picked 0, .send, .clock 0, .clock 0, .finish, .check 0,
    .act (.takes 0), .act (.reads 0), .act (.ends 0), .recv 0, .send, .clock 0, .finish, .check 0]

end SprayCC
