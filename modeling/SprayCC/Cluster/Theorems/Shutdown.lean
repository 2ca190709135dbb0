import Mathlib.Logic.Function.Basic
import SprayCC.Cluster.Theorems.Placement
import SprayCC.Server.Making

open Async Program

-- For whom the server stays: the test for shutdown and those who are still connected.

namespace SprayCC
namespace ServerState

-- The server has received a message at `t` or later.
abbrev Lasts (t : SystemTime) (s : ServerState) (_ : Unit) : Prop :=
  t ≤ s.lastActivityTime

variable {s : ServerState} {t : SystemTime} {fuel connId : Nat} {msg : Message} {ev : Event}

theorem Lasts.of_eq {s' : ServerState} {u : Unit} (h : s.Lasts t u)
    (hs : s'.lastActivityTime = s.lastActivityTime) : s'.Lasts t u :=
  h.trans_eq hs.symm

theorem lasts_upholds : Upholds (clocked t) (Lasts t) where
  still      := id
  frame h hs := by
    simp only [core, Prod.mk.injEq] at hs
    exact h.of_eq <| by simp only [hs]
  fewer h    := h
  send h _   := h
  now h _    := h
  active _ h := h
  spawn {_ _ _ _ _ ok _} h _ _ _ := by
    cases ok
    case true  => exact h.of_eq <| by rw [if_pos rfl, execSpawned_eq]
    case false => exact h
  pick h _   := h

theorem handleMsg_lasts (h : s.Lasts t ()) :
    Upheld (clocked t) (Lasts t) (handleMsg fuel s connId msg) () := by
  have hU : Upholds (clocked t) (Lasts t) := lasts_upholds
  cases msg
  case yourObedientServant =>
    exact Upholds.get (s := s) h fun _ _ => hU.execIsReady <| h.of_eq <| by rw [execStarted_eq]; rfl
  case task =>
    refine Upholds.get (s := s) h fun _ _ => Upholds.get (s := s) h fun _ _ => ?_
    exact hU.call (s := s) h fun _ _ _ => hU.update h
  case taskDone =>
    rw [handleMsg_taskDone]
    split
    case isTrue  => exact hU.call (s := s) h fun _ _ _ => hU.taskIsDone h
    case isFalse => exact hU.taskIsDone h
  all_goals exact hU.handleMsg h id nofun

theorem onEvent_lasts (h : s.Lasts t ()) :
    Upheld (clocked t) (Lasts t) (onEvent fuel s ev) () := by
  cases ev
  case inbound  => exact lasts_upholds.activity <| handleMsg_lasts h
  case watchdog => exact lasts_upholds.watchdog h

end ServerState

-- Every connection which is alive has been heard of.
def Identified (s : ServerState) (w : Net) : Prop :=
  ∀ i < w.size, (w.conns i).task.Connected → s.kind i ≠ .pending

structure Idle (s : ServerState) (w : Net) : Prop where
  tasks      : s.taskQueue = []
  execs      : s.runningExecCount = 0
  identified : Identified s w

-- Nobody waits for the server.
structure Deserted (s : ServerState) (w : Net) : Prop where
  identified : Identified s w
  answered   : ∀ i < w.size, (w.conns i).task.Connected →
    ∀ details, (w.conns i).peer = .client details true → w.Answered i

theorem ServerState.Counted.kind_ne_exec {s : ServerState} {i : Nat} (h : s.Counted)
    (hz : s.runningExecCount = 0) : s.kind i ≠ .exec :=
  fun hk => h.running_ne_zero hk hz

theorem Conn.Step.connected_of {codes : Codes} {c c' : Conn} {a : Act} {ms : List Message}
    (h : c.Step codes a ms c') (hc : c'.task.Connected) : c.task.Connected := by
  cases h
  case starts | leaves => exact hc
  all_goals simp_all [ConnTask.Connected]

namespace Cluster

-- When the server had last received a message, for each connection as of when it was accepted.
def sinceThen (σ : Cluster) (since : Nat → SystemTime) : Label → Nat → SystemTime
  | .accept _ =>
    match σ.main with
    | .select s => Function.update since σ.net.size s.lastActivityTime
    | _         => since
  | _ => since

-- The clock is not set back, and at a test for shutdown no connection which has not been heard of
-- yet is late: the time for which the server may be idle has not passed since it last received a
-- message before it accepted the connection. They may be late while a task is queued or an exec is
-- filed.
def Timely (σ : Cluster) (since : Nat → SystemTime) : Label → Prop
  | .clock now =>
    match σ.main with
    | .running _ s _ _ => s.lastActivityTime ≤ now
    | _                => True
  | .check now =>
    match σ.main with
    | .checking s => s.taskQueue ≠ [] ∨ (∃ e < σ.net.size, s.kind e = .exec) ∨
      ∀ i < σ.net.size, (σ.net.conns i).task.Connected → s.kind i = .pending →
        (elapsed now (since i)).asSecs ≤ s.userConfig.idleShutdownAfter
    | _ => True
  | _ => True

-- The runs all of whose steps the policy allows and are timely.
inductive Punctual (S : Setup) (P : Policy) : Cluster → (Nat → SystemTime) → Prop
  | start : Punctual S P (start S) fun _ => S.startTime
  | step  : Punctual S P σ since → P.allows σ l → σ.Timely since l → σ.step S l = some σ' →
    Punctual S P σ' (σ.sinceThen since l)

variable {S : Setup} {P : Policy} {σ σ' : Cluster} {s : ServerState} {l : Label}
variable {since : Nat → SystemTime} {t : SystemTime}

instance : Decidable (σ.Timely since l) := by
  unfold Timely
  split <;> (try split) <;> infer_instance

theorem Punctual.reaches (h : Punctual S P σ since) : Reaches S P σ := by
  induction h with
  | start             => exact .start
  | step _ ha _ hs hi => exact hi.step ha hs

-- The server has received a message at `t` or later, or it will have once it has handled the event.
def Lasting (t : SystemTime) (σ : Cluster) : Prop :=
  match σ.main with
  | .select s | .checking s | .shutdown s => s.Lasts t ()
  | .running _ s _ p                      =>
    s.Lasts t () ∧
      Safe (clocked t) (fun _ => True) (ServerState.Lasts t) (fun _ _ => True) p ()
  | .faulted _                            => True

theorem Turn.lasting (h : σ.Turn S l σ') (ht : σ.Timely since l) (hl : σ.Lasting t) :
    σ'.Lasting t := by
  have hr {fuel : Nat} {s : ServerState} {ev : Event} (h : s.Lasts t ()) :
      Safe (clocked t) (fun _ => True) (ServerState.Lasts t) (fun _ _ => True)
        (onEvent fuel s ev) () :=
    (ServerState.onEvent_lasts h).weaken (fun _ _ => trivial) fun _ _ _ => trivial
  cases h
  case recv | tick                => exact ⟨hl, hr hl⟩
  case accept | wait | act        => exact hl
  case done                       => exact hl.right
  case fail                       => trivial
  case check s _ now              => cases ho : s.okToShutdown now <;> simpa [Lasting, ho] using hl
  case answer ev s _ _ c k a _    =>
    have ha (ha : (clocked t).answers () c a ()) :
        Safe (clocked t) (fun _ => True) (ServerState.Lasts t) (fun _ _ => True) (k a) () :=
      Safe.answered hl.right ha
    refine ⟨hl.left, ?_⟩
    cases c
    case now => exact ha <| hl.left.trans ht
    all_goals exact ha trivial

theorem Punctual.lasting (h : Punctual S P σ since) : ∀ i, σ.Lasting (since i) := by
  induction h with
  | start             => exact fun _ => Nat.le_refl _
  | step h _ ht hs hi =>
    intro i
    have hl := (turn_of_step hs).lasting ht (hi i)
    cases turn_of_step hs
    case accept s w _ _ _ =>
      show Lasting ((Function.update _ w.size s.lastActivityTime : Nat → SystemTime) i) _
      rw [Function.update_apply]
      split
      case isTrue  => exact Nat.le_refl s.lastActivityTime
      case isFalse => exact hl
    case answer c _ _ _ _ => cases c <;> exact hl
    all_goals exact hl

-- The server shuts down at a test, and from then on only the connections do anything.
theorem step_shutdown (h : σ.step S l = some σ') (hm : σ'.main = .shutdown s) :
    (∃ a, l = .act a ∧ σ.main = .shutdown s ∧ σ.net.step S a = some σ'.net) ∨
      ∃ now, l = .check now ∧ σ.main = .checking s ∧ s.okToShutdown now ∧ σ'.net = σ.net := by
  cases turn_of_step h
  case act ha    => exact .inl ⟨_, rfl, hm, ha⟩
  case check now =>
    split at hm <;> cases hm
    exact .inr ⟨now, rfl, rfl, ‹_›, rfl⟩
  all_goals cases hm

theorem Punctual.idle (h : Punctual S P σ since) (ht : P.Tame) (hs : P.Spares .pissOff)
    (hm : σ.main = .shutdown s) : Idle s σ.net := by
  induction h with
  | start              => cases hm
  | @step _ since _ _ h _ hl h' hi =>
    rcases step_shutdown h' hm with ⟨a, rfl, hm, hw⟩ | ⟨now, rfl, hm, ho, hw⟩
    case inl =>
      have hi := hi hm
      have ⟨_, _, hw⟩ := Net.step_moved hw
      refine ⟨hi.tasks, hi.execs, fun i hl hc => hi.identified i (hw.size ▸ hl) ?_⟩
      exact hw.forall_conns (P := fun c c' => c'.task.Connected → c.task.Connected) (fun _ => id)
        Conn.Step.connected_of i hc
    case inr =>
      simp only [ServerState.okToShutdown, Bool.and_eq_true, List.isEmpty_iff, beq_iff_eq,
        decide_eq_true_eq] at ho
      have ⟨⟨hq, hz⟩, ho⟩ := ho
      have hr : Reach S P ⟨s, none, _⟩ := h.reaches.settled (by rw [hm]; rfl)
      have hn i := (hr.counted ht hs).kind_ne_exec (i := i) hz
      refine ⟨hq, hz, hw ▸ fun i hi hc hk => ?_⟩
      simp only [Timely, hm] at hl
      rcases hl with hl | ⟨e, _, he⟩ | hl
      case inl     => exact hl hq
      case inr.inl => exact hn e he
      case inr.inr =>
        -- Its time has passed no later than that of the server.
        have ha : since i ≤ s.lastActivityTime := by simpa [Lasting, hm] using h.lasting i
        have hd : (elapsed now s.lastActivityTime).asSecs ≤ (elapsed now (since i)).asSecs :=
          Nat.div_le_div_right <| Nat.sub_le_sub_left ha now
        exact absurd (hd.trans <| hl i hi hc hk) ho.not_ge

-- The server only shuts down when nobody waits for it.
theorem Punctual.deserted
    (h : Punctual S (.and .wellBehaved (.goneSpared fun msg => msg.Assigns ∨ msg = .pissOff)) σ
      since)
    (hm : σ.main = .shutdown s) : Deserted s σ.net := by
  have hr := h.reaches.settled (s := s) (by rw [hm]; rfl)
  have hp : (Policy.and .wellBehaved (.goneSpared fun msg => msg.Assigns ∨ msg = .pissOff)).Spares
      .pissOff := .and_right <| Policy.goneSpared_spares <| .inr rfl
  have hi := h.idle Policy.tame_and hp hm
  have hc := hr.counted Policy.tame_and hp
  have ht := hr.tracked Policy.tame_and fun _ =>
    .and_right <| Policy.goneSpared_spares <| .inl trivial
  have ⟨_, hs⟩ := hr.sound Policy.tame_and
  refine ⟨hi.identified, fun i hl hc' _ hp => ?_⟩
  have hv := mt (hs.ledger.pending · |>.left) <| hi.identified i hl hc'
  rcases ht i <| hs.kind_of_submitted hl hp hc' hv with ⟨_, _, hq⟩ | ⟨e, he, _⟩ | ha
  case inl     => simp [ServerState.ledger, hi.tasks] at hq
  case inr.inl => exact absurd he <| hc.kind_ne_exec hi.execs
  case inr.inr => exact ha

def punctualAlong (S : Setup) (P : Policy) :
    List Label → Cluster × (Nat → SystemTime) → Option (Cluster × (Nat → SystemTime))
  | [],      c          => some c
  | l :: ls, (σ, since) =>
    if P.allows σ l ∧ σ.Timely since l then
      (σ.step S l).bind fun σ' => punctualAlong S P ls (σ', σ.sinceThen since l)
    else none

theorem Punctual.run {ls : List Label} {c : Cluster × (Nat → SystemTime)} (h : Punctual S P σ since)
    (hr : punctualAlong S P ls (σ, since) = some c) : Punctual S P c.fst c.snd := by
  induction ls generalizing σ since with
  | nil => cases hr; exact h
  | cons l ls hi =>
    unfold punctualAlong at hr
    split at hr
    case isTrue ha  =>
      have ⟨_, hs, hr⟩ := Option.bind_eq_some_iff.mp hr
      exact hi (h.step ha.left ha.right hs) hr
    case isFalse    => cases hr

theorem deserted_tour :
    ∃ σ s since, Punctual .plain
        (.and .wellBehaved (.goneSpared fun msg => msg.Assigns ∨ msg = .pissOff)) σ since ∧
      σ.net.size = 3 ∧ σ.main = .shutdown s ∧ Deserted s σ.net := by
  have hr : (punctualAlong .plain
      (.and .wellBehaved (.goneSpared fun msg => msg.Assigns ∨ msg = .pissOff))
      (tour ++ [.tick 0, .clock (secs 1000), .finish, .check (secs 1000)])
      (Cluster.start .plain, fun _ => Setup.plain.startTime)).any fun c =>
        match c.fst.main with | .shutdown _ => c.fst.net.size = 3 | _ => false := by decide +kernel
  have ⟨⟨σ, since⟩, hr, hs⟩ := Option.any_eq_true .. |>.mp hr
  split at hs
  case h_1 s hm =>
    have h := Punctual.start.run hr
    exact ⟨σ, s, since, h, of_decide_eq_true hs, hm, h.deserted hm⟩
  case h_2      => cases hs

-- The first client connects, but the server has been idle for too long.
theorem client_turned_away :
    ¬∀ S σ s, Reaches S .wellBehaved σ → σ.main = .shutdown s → Deserted s σ.net := by
  intro h
  have ⟨σ, hr, hs⟩ := Reaches.of_run (S := .plain) (P := .wellBehaved)
    (f := fun σ =>
      match σ.main with
      | .shutdown s => 0 < σ.net.size ∧ (σ.net.conns 0).task.Connected ∧ s.kind 0 = .pending
      | _           => false)
    [.accept (.client .plain false), .check (secs 61)] (by decide +kernel)
  split at hs
  case h_1 s hm =>
    have ⟨hn, hc, hk⟩ := of_decide_eq_true hs
    exact (h _ _ s hr hm).identified 0 hn hc hk
  case h_2      => cases hs

end Cluster
end SprayCC
