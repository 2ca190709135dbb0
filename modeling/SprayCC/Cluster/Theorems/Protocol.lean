import SprayCC.Cluster.Jobs
import SprayCC.Cluster.Refinement
import SprayCC.Cluster.Theorems.Scheduling

open Async Program

-- The session of an exec from the side of the server.

namespace SprayCC

-- The call does not send anyone away.
abbrev Stays {α : Type} (c : Call) (_ : c.Answer → Proc α) : Prop :=
  ∀ about dest, c ≠ .send about dest .pissOff

-- Where an exec is sent away, the server is in the loop of `check_queues` for this, its queue of
-- tasks is empty, and what it does once it has left the loop is `f`.
def Drained {α : Type} (f : ServerState → Proc α) (c : Call) (k : c.Answer → Proc α) : Prop :=
  ∀ about e, c = .send about e .pissOff →
    ∃ (s : ServerState) (rest : List Nat), s.taskQueue = [] ∧ s.execQueue = e :: rest ∧
      @call signature Fault α c k = ServerState.releaseExecs (e :: rest) s >>= f

section Asks

variable {α β : Type} {p : Proc α} {f : α → Proc β} {c : Call} {k : c.Answer → Proc α}
variable {g : ServerState → Proc α} {about dest m n : Nat} {msg : Message}

theorem Stays.send (h : msg ≠ .pissOff) {k : Bool → Proc α} : Stays (.send about dest msg) k := by
  rintro _ _ ⟨⟩
  exact h rfl

theorem Stays.spawn {cmd : String} {k : Bool → Proc α} : Stays (.spawn cmd) k :=
  nofun

theorem Stays.drained (h : Stays c k) : Drained g c k :=
  fun _ _ hc => absurd hc <| h _ _

theorem Drained.bind (h : Drained g c k) : Drained (fun s => g s >>= f) c fun a => k a >>= f := by
  intro about e hc
  have ⟨s, rest, ht, he, hp⟩ := h about e hc
  refine ⟨s, rest, ht, he, ?_⟩
  rw [← bind_assoc, ← hp]
  rfl

theorem stays_bind (hp : p.Asks Stays) (hf : ∀ a, (f a).Asks Stays) : (p >>= f).Asks Stays :=
  hp.bind always_true (fun _ _ h => h) fun a _ => hf a

theorem drained_of_stays (hp : p.Asks Stays) : p.Asks (Drained g) := by
  have h : (p >>= done).Asks (Drained g) :=
    hp.bind always_true (fun _ _ (h : Stays _ _) => Stays.drained h) fun _ _ => trivial
  rwa [bind_done] at h

theorem drained_bind {q : β → Proc α} {p : Proc β} (hp : p.Asks Stays)
    (hq : ∀ b, (q b).Asks (Drained g)) : (p >>= q).Asks (Drained g) :=
  hp.bind always_true (fun _ _ (h : Stays _ _) => Stays.drained h) fun b _ => hq b

theorem bind_stays (hp : p.Asks (Drained g)) (hf : ∀ a, (f a).Asks Stays) :
    (p >>= f).Asks (Drained fun s => g s >>= f) :=
  hp.bind always_true (fun _ _ => Drained.bind) fun a _ => drained_of_stays (hf a)

theorem sendOrErr_stays (h : msg ≠ .pissOff) : (sendOrErr about dest msg).Asks Stays :=
  ⟨.send h, fun ok => by cases ok <;> trivial⟩

theorem checkedSub_stays {reason : Panic} : (checkedSub m n reason).Asks Stays := by
  unfold checkedSub
  split <;> trivial

end Asks

namespace ServerState

variable {s : ServerState} {fuel connId : Nat} {msg : Message} {ev : Event}

theorem sendToPairedRemote_stays (h : msg ≠ .pissOff) :
    (s.sendToPairedRemote connId msg).Asks Stays := by
  apply Asks.of_get
  intro remote _
  apply Asks.of_get
  intro otherId _
  apply Asks.of_get
  intro other _
  split
  case isTrue  => exact ⟨.send h, fun ok => by cases ok <;> trivial⟩
  case isFalse => trivial

theorem notifyPaired_stays {pairedId : Option UInt32} :
    (s.notifyPaired connId pairedId).Asks Stays := by
  cases pairedId
  case none => trivial
  case some => exact .of_get fun _ _ => sendOrErr_stays nofun

theorem handleDropped_stays : (s.handleDropped connId).Asks Stays := by
  apply Asks.of_get
  intro remote _
  split
  case isTrue  =>
    apply stays_bind notifyPaired_stays
    exact fun _ => stays_bind checkedSub_stays fun _ => trivial
  case isFalse => trivial

theorem assignTask_stays {clientId execId : Nat} {task : TaskDetails} :
    (s.assignTask clientId execId task).Asks Stays := by
  rcases s.assignTask_cases with ⟨_, h⟩ | h <;> rw [h]
  case inl => trivial
  case inr => exact stays_bind (sendOrErr_stays nofun) fun _ => trivial

theorem assignTasks_stays {queue : List Nat} : (assignTasks queue s).Asks Stays := by
  induction queue generalizing s with
  | nil => trivial
  | cons execId rest hi =>
    rw [assignTasks_cons]
    split
    case isTrue  => trivial
    case isFalse =>
      refine ⟨nofun, fun k => ?_⟩
      apply Asks.of_get
      intro _ _
      exact stays_bind assignTask_stays fun _ => hi

theorem okToRelease_stays : s.okToRelease.Asks Stays := by
  unfold okToRelease
  split
  case h_1 => exact ⟨nofun, fun _ => trivial⟩
  case h_2 => trivial

theorem releaseExecs_drained {queue : List Nat} (he : s.execQueue = queue)
    (h : s.taskQueue = [] ∨ queue = []) : (releaseExecs queue s).Asks (Drained done) := by
  induction queue generalizing s with
  | nil => trivial
  | cons execId rest hi =>
    have ht := h.resolve_right <| List.cons_ne_nil _ _
    cases hr : s.remotes[execId]?
    case none =>
      simp only [releaseExecs, remote, hr]
      trivial
    case some r =>
      have hp : releaseExecs (execId :: rest) s =
          (sendOrErr execId execId .pissOff >>= fun _ =>
            checkedSub s.runningExecCount 1 .runningUnderflow >>= fun running =>
              releaseExecs rest
                { { s with execQueue := rest }.setConnType execId .dead with runningExecCount :=
                  running }) := by
        simp only [releaseExecs, remote, hr]
        rfl
      rw [hp]
      refine ⟨?_, fun ok => ?_⟩
      case refine_1 =>
        rintro _ _ ⟨⟩
        exact ⟨s, rest, ht, he, hp.symm.trans bind_done.symm⟩
      case refine_2 =>
        cases ok
        case false => trivial
        case true  =>
          show (checkedSub _ _ _ >>= _).Asks (Drained done)
          exact drained_bind checkedSub_stays fun _ => hi rfl (.inl ht)

theorem checkQueues_drained : s.checkQueues.Asks (Drained done) := by
  have hr {s : ServerState} (h : s.Balanced) : (s.okToRelease >>= fun ok =>
      if ok then releaseExecs s.execQueue s else pure s).Asks (Drained done) := by
    apply drained_bind okToRelease_stays
    intro ok
    split
    case isTrue  => exact releaseExecs_drained rfl h
    case isFalse => trivial
  exact assignTasks_stays.bind (assignTasks_balances rfl) (fun _ _ h => Stays.drained h) fun _ => hr

theorem spawnExecs_stays {altQueue : Bool} {cmd : String} {keepPending : Nat} :
    (spawnExecs altQueue cmd keepPending fuel s).Asks Stays := by
  induction fuel generalizing s with
  | zero =>
    unfold spawnExecs
    split <;> trivial
  | succ fuel hi =>
    unfold spawnExecs
    split
    case isTrue  => exact ⟨.spawn, fun ok => by cases ok <;> exact hi⟩
    case isFalse => trivial

theorem startExecsInQueue_stays {altQueue : Bool} {keepPending : Nat} :
    (startExecsInQueue fuel s altQueue keepPending).Asks Stays := by
  cases altQueue
  case false => exact spawnExecs_stays
  case true  => exact .of_get fun _ _ => spawnExecs_stays

theorem startExecs_stays : (startExecs fuel s).Asks Stays := by
  unfold startExecs
  split
  case isTrue => trivial
  dsimp only
  split
  case isTrue  => exact stays_bind startExecsInQueue_stays fun _ => startExecsInQueue_stays
  case isFalse => exact startExecsInQueue_stays

theorem update_drained : (update fuel s).Asks (Drained done) :=
  drained_bind startExecs_stays fun _ => checkQueues_drained

theorem execIsReady_drained : (execIsReady fuel s connId).Asks (Drained done) :=
  .of_get fun _ _ => update_drained

theorem reportStatus_stays {n : Nat} : (s.reportStatus n).Asks Stays := by
  apply stays_bind checkedSub_stays
  intro unfinished
  apply stays_bind checkedSub_stays
  intro running
  split <;> trivial

theorem taskIsDone_drained {runTime sendTime : Duration} (h : msg ≠ .pissOff) :
    (taskIsDone fuel s connId msg runTime sendTime).Asks
      (Drained fun s => pure (s.countTimes runTime sendTime)) := by
  apply drained_bind (sendToPairedRemote_stays h)
  intro s
  exact bind_stays execIsReady_drained fun _ => trivial

theorem handleMsg_drained :
    (handleMsg fuel s connId msg).Asks (Drained fun s => pure (msg.rest s)) := by
  cases msg
  case yourObedientServant => exact .of_get fun _ _ => execIsReady_drained
  case task =>
    apply Asks.of_get
    intro targetId _
    apply Asks.of_get
    intro _ _
    exact ⟨nofun, fun _ => update_drained⟩
  case taskOutput => exact drained_of_stays <| sendToPairedRemote_stays nofun
  case taskFailed =>
    exact drained_bind (sendToPairedRemote_stays nofun) fun _ => execIsReady_drained
  case taskDone =>
    rw [handleMsg_taskDone]
    split
    case isTrue  => exact ⟨nofun, fun _ => taskIsDone_drained nofun⟩
    case isFalse => exact taskIsDone_drained nofun
  case cancelTask => trivial
  case pissOff    => trivial
  case dropped    => exact drained_of_stays handleDropped_stays

theorem onEvent_drained : (onEvent fuel s ev).Asks (Drained ev.rest) := by
  cases ev
  case inbound =>
    exact bind_stays (f := fun s => s.activityOccurred <$> now) handleMsg_drained fun _ =>
      ⟨nofun, fun _ => trivial⟩
  case watchdog =>
    exact bind_stays update_drained fun _ => stays_bind reportStatus_stays fun _ => trivial

theorem rest_idle (h : s.taskQueue = []) : (ev.rest s).Always (·.taskQueue = []) fun _ => True := by
  cases ev
  case inbound i msg => cases msg <;> exact fun _ => h
  case watchdog      => exact always_bind.mpr <| always_true.mono (fun _ _ => h) fun _ => id

-- From there on the queue of tasks stays empty until the event has been handled.
theorem always_of_drained {about e : Nat} {k : Bool → Proc ServerState}
    (h : Drained ev.rest (.send about e .pissOff) k) (ok : Bool) :
    (k ok).Always (·.taskQueue = []) fun _ => True := by
  have ⟨s, rest, ht, _, hp⟩ := h about e rfl
  have ha : (releaseExecs (e :: rest) s >>= ev.rest).Always (·.taskQueue = []) fun _ => True :=
    always_bind.mpr <| (releaseExecs_idle ht).mono (fun _ => rest_idle) fun _ => id
  exact (hp ▸ ha) ok

end ServerState

-- The server has received the end of the task which was the message at position `n` on the channel
-- of exec `e`: it is not among the results which are still to come.
def Net.Ended (w : Net) (e n : Nat) : Prop :=
  ∃ heard fresh, (w.conns e).produced = heard ++ fresh ∧
    fresh.map Prod.snd = (w.flight e).filter (·.Result) ∧
      ∃ msg : Message, msg.Terminal ∧ (n, msg) ∈ heard

namespace Config

variable {S : Setup} {P : Policy} {c c' : Config} {view : Nat → Phase} {e n : Nat}

theorem Heard.ended (h : c.Heard) (hr : (c.net.conns e).role.Exec)
    (hn : n + 1 < (c.net.conns e).sent.length) : (c.net.conns e).Tasked n ∧ c.net.Ended e n := by
  obtain ⟨s, hand, w⟩ := c
  have ⟨heard, fresh, hf, h⟩ := h e hr
  have hl := Nat.lt_of_succ_lt hn
  have ⟨msg, ht, hm⟩ := h.ended hl <| .inr hn
  refine ⟨h.tasked hl <| .inr hn, ?_⟩
  simp only [Net.traffic, Net.unheard, List.filter_append] at hf
  obtain ⟨fresh₁, fresh₂, hf', h₁, h₂⟩ := List.map_eq_append_iff.mp hf
  refine ⟨heard ++ fresh₁, fresh₂, ?_, h₂, msg, ht, List.mem_append_left _ hm⟩
  rw [h.produced, hf', List.append_assoc]

-- Only execs are sent away.
def Dismisses (c : Config) : Prop :=
  ∀ e about, (about, .pissOff) ∈ (c.net.conns e).sent → (c.net.conns e).role.Exec

theorem Dismisses.put {s s' : ServerState} {hand hand' : Option (Nat × Message)} {w : Net}
    {about dest : Nat}
    {msg : Message} (h : Dismisses ⟨s, hand, w⟩) (hm : msg = .pissOff → (w.conns dest).role.Exec) :
    Dismisses ⟨s', hand', w.put about dest msg⟩ := by
  intro e about' he
  rw [Net.role_put]
  rw [Net.sent_put] at he
  split at he
  case isFalse => exact h e about' he
  case isTrue hd =>
    rcases List.mem_append.mp he with he | he
    case inl => exact hd ▸ h dest about' he
    case inr =>
      cases List.mem_singleton.mp he
      exact hd ▸ hm rfl

theorem Dismisses.forwards {s s' : ServerState} {s'' : ServerState} {w w' : Net} {i : Nat}
    {msg : Message}
    (h : Dismisses ⟨s, some (i, msg), w⟩) (hm : msg.Result) (hf : Forwards P i msg s w s' w') :
    Dismisses ⟨s'', none, w'⟩ := by
  cases hf
  case sent           => exact h.put fun h => by simp [h, Message.Result] at hm
  case lost | skipped => exact h

theorem Dismisses.move (hs : c.Sound S view) (h : c.Dismisses) (m : Move S P c c') :
    c'.Dismisses := by
  cases m
  case act ha =>
    have ⟨ms, c, hm⟩ := Net.step_moved ha
    intro e about he
    have hr :=
      hm.forall_conns (P := fun c c' => c'.role = c.role) (fun _ => rfl) Conn.Step.role_eq e
    have hn :=
      hm.forall_conns (P := fun c c' => c'.sent = c.sent) (fun _ => rfl) Conn.Step.sent_eq e
    exact hr ▸ h e about (hn ▸ he)
  case accept w peer s _ _ =>
    intro e about he
    by_cases hj : e = w.size
    case pos => subst hj; exact absurd (Net.conns_accept_size ▸ he) List.not_mem_nil
    case neg =>
      have hc : (w.accept peer).conns e = w.conns e := Net.conns_accept_ne hj
      exact hc ▸ h e about (hc ▸ he)
  case output hm _ hf            => exact h.forwards hm hf
  case complete ht hf            => exact h.forwards ht.result hf
  case dropBusy                  => exact h.put nofun
  case assign                    => exact h.put nofun
  case release he _ _ _          =>
    exact h.put fun _ => (hs.queued he).left
  all_goals exact h

end Config

theorem Reach.dismisses {S : Setup} {P : Policy} {c : Config} (h : Reach S P c) (ht : P.Tame) :
    c.Dismisses := by
  induction h with
  | start       => exact fun _ _ => nofun
  | move h m hi => exact have ⟨_, hs⟩ := h.sound ht; hi.move hs m

-- None of the assertions about the pairing of remotes.
def Panic.Unpaired : Panic → Prop
  | .notPaired | .sameId | .clientPaired .. | .execPaired .. => True
  | _                                                       => False

theorem Reach.not_unpaired {S : Setup} {P : Policy} {c : Config} {p : Panic} (h : Reach S P c)
    (ht : P.Tame) (hp : p.Unpaired) : ¬Fails P c (.panic p) := by
  have ⟨view, hs⟩ := h.sound ht
  intro hf
  cases hf
  case notPaired hm hn =>
    have ⟨_, _, hr, _⟩ := hs.wired.hear
    have ⟨_, _, _, _, hsv⟩ := hs.ledger.busy (hr.of_result hm).right.left
    cases hsv.exec.symm.trans hn
  case sameId hm he =>
    have hr := (hs.queued he).left
    have hc := (hs.ledger.tasked hm).left
    simp only [ServerState.ledger] at hc
    simp [hc] at hr
  case clientPaired hm hn => exact hn (hs.ledger.tasked hm).right.left
  case execPaired he hn   => exact hn (hs.queued he).right.left
  all_goals exact hp

namespace Cluster

variable {S : Setup} {P : Policy} {σ σ' : Cluster} {l : Label}

def Drains (σ : Cluster) : Prop :=
  match σ.main with
  | .running ev _ _ p => p.Asks (Drained ev.rest)
  | _                 => True

theorem Turn.drains (t : σ.Turn S l σ') (h : σ.Drains) : σ'.Drains := by
  cases t
  case recv | tick          => exact ServerState.onEvent_drained
  case wait | act           => exact h
  case answer               => exact h.right _
  case accept | done | fail => trivial
  case check s _ now        => cases ho : s.okToShutdown now <;> trivial

theorem Reaches.drains (h : Reaches S P σ) : σ.Drains := by
  induction h with
  | start          => trivial
  | step _ _ hs hi => exact (turn_of_step hs).drains hi

-- What the server and the execs hold each other to.
structure Protocol (σ : Cluster) : Prop where
  -- An exec is only sent more once the server has received the end of all tasks it was sent before.
  ended    : (σ.net.conns e).role.Exec → n + 1 < (σ.net.conns e).sent.length →
    (σ.net.conns e).Tasked n ∧ σ.net.Ended e n
  last     : (σ.net.conns e).sent[n]? = some (about, .pissOff) →
    (σ.net.conns e).role.Exec ∧ n + 1 = (σ.net.conns e).sent.length
  drained  : σ.main = .running ev s waits (.call c k) → Drained ev.rest c k
  emptied  : σ.main = .running ev s waits (.call (.send about e .pissOff) k) →
    (k ok).Always (·.taskQueue = []) fun _ => True
  unpaired : σ.main = .faulted (.panic p) → ¬p.Unpaired

theorem Reaches.protocol (h : Reaches S .wellBehaved σ) : Protocol σ := by
  have ht : Policy.wellBehaved.Tame := Policy.tame_wellBehaved
  have ⟨s, hand, hr⟩ := h.reached
  have hh := hr.heard ht
  constructor
  case ended => exact hh.ended
  case last =>
    intro e n about hn
    have he := hr.dismisses ht e about <| List.mem_of_getElem? hn
    have hl := (List.getElem?_eq_some_iff.mp hn).choose
    refine ⟨he, (Nat.lt_or_eq_of_le hl).resolve_left fun hl => ?_⟩
    have ⟨⟨_, _, ht⟩, _⟩ := hh.ended he hl
    cases ht.symm.trans hn
  case drained =>
    intro ev s waits c k hm
    have hd := h.drains
    simp only [Drains, hm] at hd
    exact hd.left
  case emptied =>
    intro ev s waits about e k ok hm
    have hd := h.drains
    simp only [Drains, hm] at hd
    exact ServerState.always_of_drained hd.left ok
  case unpaired =>
    intro p hm hp
    have ⟨_, hr, hf⟩ := h.explained hm
    exact hr.not_unpaired ht hp hf

theorem protocol_tour : ∃ σ, Reaches .plain .wellBehaved σ ∧ σ.net.size = 3 ∧ Protocol σ :=
  have ⟨σ, h, hs⟩ := Reaches.of_run (f := fun σ => σ.net.size = 3) tour (by decide +kernel)
  ⟨σ, h, of_decide_eq_true hs, h.protocol⟩

end Cluster
end SprayCC
