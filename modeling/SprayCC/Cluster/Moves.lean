import SprayCC.Cluster.Basic
import SprayCC.Cluster.Wire
import SprayCC.Server.Remotes

-- The steps of a cluster in the large: between two of them the main loop waits for an answer, and
-- each is all that the main loop or a connection does to the server and to the net.

namespace SprayCC

-- The server has a message in its hand from when it receives it until what it does with it is done.
structure Config where
  server : ServerState
  hand   : Option (Nat × Message)
  net    : Net

def Config.start (S : Setup) : Config where
  server := S.server
  hand   := none
  net    := .empty

-- What the server sends for an exec which has dropped its connection.
def droppedNotice : Message :=
  .taskFailed "exec dropped connection"

theorem droppedNotice_terminal : droppedNotice.Terminal :=
  trivial

-- What `send_to_paired_remote` does with a result of exec `i`.
inductive Forwards (P : Policy) (i : Nat) (msg : Message) (s : ServerState) (w : Net) :
    ServerState → Net → Prop
  | sent :
    s.partner i = some j → s.kind j = .client → (w.conns j).task.Open →
    P.send (.inbound i msg) w j msg → Forwards P i msg s w s (w.put i j msg)
  | lost :
    s.partner i = some j → s.kind j = .client → ¬(w.conns j).task.Open →
    P.send (.inbound i msg) w j msg → Forwards P i msg s w (s.setConnType j .dead) w
  | skipped :
    s.partner i = some j → s.kind j ≠ .client → Forwards P i msg s w s w

namespace Forwards

variable {P : Policy} {i : Nat} {msg : Message} {s s' : ServerState} {w w' : Net}

theorem lt_length (h : Forwards P i msg s w s' w') : i < s.remotes.length := by
  cases h <;> exact lt_length_of_partnerOf ‹_›

theorem length_eq (h : Forwards P i msg s w s' w') : s'.remotes.length = s.remotes.length := by
  cases h <;> simp

theorem partner_ne_none (h : Forwards P i msg s w s' w') : s.partner i ≠ none := by
  cases h <;> simp_all

theorem partner_eq {j : Nat} (h : Forwards P i msg s w s' w') : s'.partner j = s.partner j := by
  cases h
  case sent | skipped => rfl
  case lost           => simp [ServerState.partner]

theorem size_eq (h : Forwards P i msg s w s' w') : w'.size = w.size := by
  cases h <;> rfl

theorem peer_eq {j : Nat} (h : Forwards P i msg s w s' w') :
    (w'.conns j).peer = (w.conns j).peer := by
  cases h
  case sent           => exact Net.peer_put
  case lost | skipped => rfl

theorem role_eq {j : Nat} (h : Forwards P i msg s w s' w') : (w'.conns j).role = (w.conns j).role :=
  congrArg Peer.role h.peer_eq

theorem kind_of_exec {e : Nat} (h : Forwards P i msg s w s' w') (hk : s.kind e = .exec) :
    s'.kind e = .exec := by
  cases h
  case sent | skipped  => exact hk
  case lost j _ hj _ _ =>
    have hn : e ≠ j := by rintro rfl; cases hk.symm.trans hj
    refine congrFun (ServerState.kindOf_setConnType (s.lt_length hj nofun)) e |>.trans ?_
    simpa [hn] using hk

end Forwards

inductive Move (S : Setup) (P : Policy) : Config → Config → Prop
  | act :
    P.act w a → w.step S a = some w' → Move S P ⟨s, h, w⟩ ⟨s, h, w'⟩
  | accept :
    peer.Fresh → P.accept w peer → Move S P ⟨s, none, w⟩ ⟨s.addRemote, none, w.accept peer⟩
  | recv :
    w.inbound = (i, msg) :: rest → P.recv s w i msg →
    Move S P ⟨s, none, w⟩ ⟨s, some (i, msg), { w with inbound := rest }⟩
  -- What is written down of a message or at a tick of the watchdog.
  | record (now : SystemTime) (inTheMaking : History) (total period : Nat)
      (run send peak : Duration) :
    Move S P ⟨s, h, w⟩
      ⟨{ s with
        lastActivityTime := now
        inTheMaking
        totalBytes       := total
        bytesThisPeriod  := period
        totalRunTime     := run
        totalSendTime    := send
        peakSendTime     := peak }, h, w⟩
  | spawn :
    s.needsExec altQueue keepPending →
    Move S P ⟨s, none, w⟩ ⟨s.execSpawned altQueue, none, w⟩
  | register :
    i < s.remotes.length →
    Move S P ⟨s, some (i, .yourObedientServant accessCode userCode), w⟩
      ⟨((s.setConnType i .exec).execStarted (accessCode &&& 1 ≠ 0)).makeReady i, none, w⟩
  | submit (now : SystemTime) :
    i < s.remotes.length → details.getTargetId = some targetId →
    Move S P ⟨s, some (i, .task accessCode userCode details), w⟩
      ⟨{ s with submitCount := s.submitCount + 1 }.queueTask i details
        (s.priority details targetId) now, none, w⟩
  | output :
    msg.Result → ¬msg.Terminal → Forwards P i msg s w s' w' →
    Move S P ⟨s, some (i, msg), w⟩ ⟨s', none, w'⟩
  | complete :
    msg.Terminal → Forwards P i msg s w s' w' →
    Move S P ⟨s, some (i, msg), w⟩ ⟨s'.countFinished.makeReady i, none, w'⟩
  | drop :
    i < s.remotes.length → s.kind i ≠ .exec →
    Move S P ⟨s, some (i, .dropped), w⟩ ⟨s.setConnType i .dead, none, w⟩
  | dropIdle :
    s.kind i = .exec → s.partner i = none →
    Move S P ⟨s, some (i, .dropped), w⟩ ⟨s.bury i, none, w⟩
  | dropBusy :
    s.kind i = .exec → s.partner i = some j → (w.conns j).task.Open →
    P.send (.inbound i .dropped) w j droppedNotice →
    Move S P ⟨s, some (i, .dropped), w⟩ ⟨s.bury i, none, w.put i j droppedNotice⟩
  | assign :
    Picks s.taskQueue k → s.taskQueue[k]? = some ((i, details), prior) → s.execQueue = e :: rest →
    i ≠ e → i < s.remotes.length → e < s.remotes.length → s.partner i = none → s.partner e = none →
    (w.conns e).task.Open → P.send ev w e (.task 0 0 details) →
    Move S P ⟨s, none, w⟩ ⟨(s.pop k rest).pair i e, none, w.put i e (.task 0 0 details)⟩
  | release :
    s.taskQueue = [] → s.execQueue = e :: rest → e < s.remotes.length →
    (w.conns e).task.Open → P.send ev w e .pissOff →
    Move S P ⟨s, none, w⟩ ⟨s.dismiss e rest, none, w.put e e .pissOff⟩

-- The ways in which the server leaves its loop because of a fault.
inductive Fails (P : Policy) : Config → Fault → Prop
  | notice :
    s.kind i = .exec → s.partner i = some j → ¬(w.conns j).task.Open →
    P.send (.inbound i .dropped) w j droppedNotice →
    Fails P ⟨s, some (i, .dropped), w⟩ (.error "channel closed")
  | assign :
    ((i, details), prior) ∈ s.taskQueue → s.execQueue = e :: rest →
    ¬(w.conns e).task.Open → P.send ev w e (.task 0 0 details) →
    Fails P ⟨s, none, w⟩ (.error "channel closed")
  | release :
    s.taskQueue = [] → s.execQueue = e :: rest → ¬(w.conns e).task.Open → P.send ev w e .pissOff →
    Fails P ⟨s, none, w⟩ (.error "channel closed")
  | dropUnderflow :
    s.kind i = .exec → s.runningExecCount = 0 →
    Fails P ⟨s, some (i, .dropped), w⟩ (.panic .runningUnderflow)
  | releaseUnderflow :
    s.taskQueue = [] → s.execQueue = e :: rest → (w.conns e).task.Open → P.send ev w e .pissOff →
    s.runningExecCount = 0 →
    Fails P ⟨s, none, w⟩ (.panic .runningUnderflow)
  | absent :
    s.remotes.length ≤ i → Fails P ⟨s, some (i, msg), w⟩ (.panic .index)
  | absentPartner :
    s.partner i = some j → s.remotes.length ≤ j → Fails P ⟨s, some (i, msg), w⟩ (.panic .index)
  | absentClient :
    ((i, details), prior) ∈ s.taskQueue → s.remotes.length ≤ i →
    Fails P ⟨s, none, w⟩ (.panic .index)
  | absentExec :
    s.execQueue = e :: rest → s.remotes.length ≤ e → Fails P ⟨s, none, w⟩ (.panic .index)
  | badTarget :
    details.getTargetId = none →
    Fails P ⟨s, some (i, .task accessCode userCode details), w⟩ (.panic .index)
  | notPaired :
    msg.Result → s.partner i = none → Fails P ⟨s, some (i, msg), w⟩ (.panic .notPaired)
  | sameId :
    ((i, details), prior) ∈ s.taskQueue → s.execQueue = i :: rest →
    Fails P ⟨s, none, w⟩ (.panic .sameId)
  | clientPaired :
    ((i, details), prior) ∈ s.taskQueue → s.partner i ≠ none →
    Fails P ⟨s, none, w⟩ (.panic (.clientPaired i got))
  | execPaired :
    s.execQueue = e :: rest → s.partner e ≠ none → Fails P ⟨s, none, w⟩ (.panic (.execPaired e got))
  | cancelTask :
    Fails P ⟨s, some (i, .cancelTask), w⟩ (.panic .cancelTask)
  | pissOff :
    Fails P ⟨s, some (i, .pissOff), w⟩ (.panic .pissOff)
  | status :
    s.submitCount < s.finishCount + s.taskQueue.length →
    Fails P ⟨s, none, w⟩ (.panic .statusUnderflow)
  | spinning :
    Fails P c .spinning

inductive Reach (S : Setup) (P : Policy) : Config → Prop
  | start : Reach S P (.start S)
  | move  : Reach S P c → Move S P c c' → Reach S P c'

end SprayCC
