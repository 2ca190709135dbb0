import SprayCC.Cluster.Strangers
import SprayCC.Cluster.Turns
import SprayCC.Exec.Results
import SprayCC.Merging
import SprayCC.Server.Making

open Async

-- The run times of one session come back as the priorities of the next one.

namespace SprayCC

namespace ServerState

def bonus (details : TaskDetails) : Duration :=
  secs (if details.priorityTask then 300 else 0)

-- What `shutdown` leaves in the history file.
def shutdown (J : Json) (s : ServerState) (file : Option (List UInt8)) (now : SystemTime) :
    Option (List UInt8) :=
  if s.inTheMaking.isEmpty then file else (J.write s.inTheMaking file now).or file

-- Each task is queued with the priority which `d` gives to its target, and a bonus.
structure Prioritizes (s : ServerState) (d : String → Duration) : Prop where
  queued : ∀ e ∈ s.taskQueue, ∃ target, e.fst.snd.getTargetId = some target ∧
    e.snd = d target + bonus e.fst.snd
  queues : ∀ fuel i accessCode userCode details target, i < s.remotes.length →
    details.getTargetId = some target → ∃ s' : SystemTime → ServerState,
      handleMsg fuel s i (.task accessCode userCode details) =
        .call .now (fun now => update fuel (s' now)) ∧
      ∀ now, ((i, details), d target + bonus details) ∈ (s' now).taskQueue

variable {s s' : ServerState} {d : String → Duration}

theorem mem_pushEntry {queue : List Entry} {item : Nat × TaskDetails} {prior : Duration} :
    (item, prior) ∈ pushEntry queue item prior := by
  unfold pushEntry
  split
  case isTrue h  =>
    have ⟨e, he, hi⟩ := List.any_eq_true.mp h
    exact List.mem_map.mpr ⟨e, he, if_pos <| of_decide_eq_true hi⟩
  case isFalse h => simp

theorem of_mem_pushEntry {queue : List Entry} {item : Nat × TaskDetails} {prior : Duration}
    {e : Entry} (h : e ∈ pushEntry queue item prior) : e ∈ queue ∨ e = (item, prior) := by
  unfold pushEntry at h
  split at h
  case isTrue  =>
    have ⟨e', he', h⟩ := List.mem_map.mp h
    split at h
    case isTrue  => exact .inr h.symm
    case isFalse => exact .inl <| h ▸ he'
  case isFalse => simpa using h

theorem queues_priority {fuel i : Nat} {accessCode userCode : UInt64} {details : TaskDetails}
    {target : String} (hi : i < s.remotes.length) (ht : details.getTargetId = some target) :
    ∃ s' : SystemTime → ServerState,
      handleMsg fuel s i (.task accessCode userCode details) =
        .call .now (fun now => update fuel (s' now)) ∧
      ∀ now, ((i, details), s.priority details target) ∈ (s' now).taskQueue := by
  refine ⟨fun now => queueTask { s with submitCount := s.submitCount + 1 } i details
    (s.priority details target) now, ?_, fun now => mem_pushEntry⟩
  simp only [handleMsg, remoteIsClient, ht, remote, List.getElem?_eq_getElem hi,
    Program.get_some_bind]
  rfl

end ServerState

open ServerState

theorem Forwards.priorHistory_eq {P : Policy} {i : Nat} {msg : Message} {s s' : ServerState}
    {w w' : Net} (h : Forwards P i msg s w s' w') :
    s'.priorHistory = s.priorHistory ∧ s'.taskQueue = s.taskQueue := by
  cases h <;> exact ⟨rfl, rfl⟩

-- The priorities in the queue are from the history which was loaded.
structure Config.Ranked (S : Setup) (c : Config) : Prop where
  history : c.server.priorHistory = S.priorHistory
  queue   : ∀ e ∈ c.server.taskQueue, ∃ target, e.fst.snd.getTargetId = some target ∧
    e.snd = c.server.priority e.fst.snd target

namespace Config.Ranked

variable {S : Setup} {P : Policy} {c c' : Config}

theorem frame (h : c.Ranked S) (hp : c'.server.priorHistory = c.server.priorHistory)
    (hq : ∀ e ∈ c'.server.taskQueue, e ∈ c.server.taskQueue) : c'.Ranked S where
  history    := hp.trans h.history
  queue e he := by
    have ⟨target, ht, he⟩ := h.queue e (hq e he)
    exact ⟨target, ht, by rw [he, ServerState.priority, ServerState.priority, hp]⟩

theorem move (h : c.Ranked S) (m : Move S P c c') : c'.Ranked S := by
  cases m
  case submit details target i _ _ _ _ now _ ht =>
    refine ⟨h.history, fun e he => ?_⟩
    rcases of_mem_pushEntry he with he | rfl
    case inl => exact h.queue e he
    case inr => exact ⟨target, ht, rfl⟩
  case output hf   =>
    have ⟨hp, hq⟩ := hf.priorHistory_eq
    exact h.frame hp fun _ he => hq ▸ he
  case complete hf =>
    have ⟨hp, hq⟩ := hf.priorHistory_eq
    exact h.frame hp fun _ he => hq ▸ he
  case spawn       => exact h.frame priorHistory_execSpawned fun _ he => taskQueue_execSpawned ▸ he
  case register    =>
    refine h.frame priorHistory_execStarted fun _ he => ?_
    simpa [makeReady] using he
  case assign      => exact h.frame rfl fun _ he => List.mem_of_mem_eraseIdx he
  all_goals exact h.frame rfl fun _ he => he

end Config.Ranked

theorem Reach.ranked {S : Setup} {P : Policy} {c : Config} (h : Reach S P c) : c.Ranked S := by
  induction h with
  | start       => exact ⟨rfl, nofun⟩
  | move _ m hi => exact hi.move m

-- The server does not read a time from before its start.
def Label.since (start : SystemTime) : Label → Bool
  | .clock now => start ≤ now
  | _          => true

namespace Cluster

-- The messages which the main loop receives in a step.
def hears (σ : Cluster) : Label → List Message
  | .recv _ =>
    match σ.main, σ.net.inbound with
    | .select _, (_, msg) :: _ => [msg]
    | _, _                     => []
  | _ => []

-- The runs in which the clock is not set back, with the messages which the server has received.
inductive Heard (S : Setup) : Cluster → List Message → Prop
  | start : Heard S (start S) []
  | step  : Heard S σ msgs → l.since S.startTime → σ.step S l = some σ' →
    Heard S σ' (msgs ++ σ.hears l)

def Making (S : Setup) (σ : Cluster) (msgs : List Message) : Prop :=
  match σ.main with
  | .select s | .checking s | .shutdown s => s.inTheMaking.Holds S.startTime msgs
  | .running _ _ _ p                      => Makes S.startTime msgs p
  | .faulted _                            => True

variable {S S' : Setup} {P : Policy} {σ σ' : Cluster} {l : Label} {msgs : List Message}
variable {s s' : ServerState} {J : Json} {file : Option (List UInt8)} {data : List UInt8}
variable {now : SystemTime}

theorem Turn.making (t : σ.Turn S l σ') (h : σ.Making S msgs) (hl : l.since S.startTime) :
    σ'.Making S (msgs ++ σ.hears l) := by
  cases t
  case recv i msg _ _ _ _ hi =>
    simp only [hears, hi]
    exact onEvent_makes (.inbound i msg) h
  case tick              => exact onEvent_makes .watchdog h
  case answer c k a _    =>
    have h (ha : (clocked S.startTime).answers () c a ()) : Makes S.startTime msgs (k a) :=
      Program.Safe.answered h ha
    cases c
    case now =>
      have hl : S.startTime ≤ a := of_decide_eq_true hl
      exact (List.append_nil msgs).symm ▸ h hl
    all_goals exact (List.append_nil msgs).symm ▸ h trivial
  case fail              => trivial
  case check s _ now     => cases ho : s.okToShutdown now <;> simpa [Making, hears, ho] using h
  all_goals exact (List.append_nil msgs).symm ▸ h

theorem Heard.making (h : Heard S σ msgs) : σ.Making S msgs := by
  induction h with
  | start           => exact .default
  | step _ hl hs hi => exact (turn_of_step hs).making hi hl

theorem Heard.holds (h : Heard S σ msgs) (hs : σ.main.resting = some s) :
    s.inTheMaking.Holds S.startTime msgs := by
  have h := h.making
  unfold Making at h
  split at h <;> simp_all [Main.resting]

end Cluster

-- What is known of a target after a session: the last run time in the session, else what the file
-- had if it was recent when the history was written, else nothing.
def remembered (J : Json) (file : Option (List UInt8)) (now : SystemTime) (msgs : List Message)
    (target : String) : Option Duration :=
  (lastRunTime msgs target).or
    (((J.load file).history[target]?.filter (History.recent now ·.snd)).map Prod.fst)

theorem History.Holds.get_written {J : Json} {h : History} {start now : SystemTime}
    {msgs : List Message} {file : Option (List UInt8)} {data : List UInt8}
    (hh : h.Holds start msgs) (hJ : J.Inverse) (hw : J.write h file now = some data)
    (hr : recent now start) (target : String) :
    (J.load (some data)).get target = remembered J file now msgs target := by
  rw [hJ.load_write hw, get_dropStale_merge, remembered, ← hh.last]
  cases he : h.history[target]?
  case none       => simp [History.get, he]
  case some entry =>
    have hr : recent now entry.snd := recent_mono hr <| hh.since _ _ he
    simp [History.get, he, Option.filter, hr]

theorem History.isEmpty_of_get {h : History} {target : String} (ht : h.get target ≠ none) :
    h.isEmpty = false := by
  refine Bool.eq_false_iff.mpr fun he => ht ?_
  have he : h.history = ∅ := Std.ExtTreeMap.isEmpty_iff.mp he
  simp [History.get, he]

theorem lastRunTime_ne_none {msgs : List Message} {target : String} {run send : Duration}
    (h : .taskDone (some 0) target run send ∈ msgs) : lastRunTime msgs target ≠ none := by
  intro hn
  have hn := List.findSome?_eq_none_iff.mp hn _ (List.mem_reverse.mpr h)
  simp [Message.runTime] at hn

namespace Cluster

variable {S S' : Setup} {P : Policy} {σ σ' : Cluster} {msgs : List Message}
variable {s s' : ServerState} {J : Json} {file : Option (List UInt8)} {data : List UInt8}
variable {now : SystemTime}

-- An exec reports the target which the server has for the task, and the tasks of the next session
-- are queued with the last run times which were reported for their targets.
theorem Heard.prioritizes (hJ : J.Inverse) (h : Heard S σ msgs) (hm : σ.main = .shutdown s)
    (hd : ∃ target run send, Message.taskDone (some 0) target run send ∈ msgs)
    (hr : History.recent now S.startTime)
    (hw : J.write s.inTheMaking file now = some data)
    (h' : Reaches S' P σ') (hp : S'.priorHistory = J.load (s.shutdown J file now))
    (hs' : σ'.main.resting = some s') :
    s'.Prioritizes (fun target => (remembered J file now msgs target).getD (secs 1)) ∧
      ∀ host picks runTime sendTime details tr r,
        (Exec.handleNewTask host picks runTime sendTime details).Runs tr r →
          ∀ msg ∈ Exec.sent tr, Exec.Reports details msg := by
  have hh := h.holds (s := s) (by rw [hm]; rfl)
  constructor
  case left  =>
    have ⟨target, run, send, hd⟩ := hd
    have he := History.isEmpty_of_get <| hh.last target ▸ lastRunTime_ne_none hd
    have hk := (h'.settled hs').ranked
    have hg (target) : s'.priorHistory.get target = remembered J file now msgs target := by
      rw [hk.history, hp, shutdown, he, hw]
      exact hh.get_written hJ hw hr target
    have hq (details target) : s'.priority details target =
        (remembered J file now msgs target).getD (secs 1) + bonus details := by
      rw [ServerState.priority, hg, bonus]
    constructor
    case queued =>
      intro e he
      have ⟨target, ht, he⟩ := hk.queue e he
      exact ⟨target, ht, he.trans <| hq ..⟩
    case queues =>
      intro fuel i accessCode userCode details target hi ht
      rw [← hq]
      exact queues_priority hi ht
  case right =>
    exact fun _ _ _ _ _ _ _ => Exec.sent_reports

def listen (S : Setup) : List Label → Cluster × List Message → Option (Cluster × List Message)
  | [],      c         => some c
  | l :: ls, (σ, msgs) =>
    if l.since S.startTime then (σ.step S l).bind fun σ' => listen S ls (σ', msgs ++ σ.hears l)
    else none

theorem Heard.run {ls : List Label} {c : Cluster × List Message} (h : Heard S σ msgs)
    (hr : listen S ls (σ, msgs) = some c) : Heard S c.fst c.snd := by
  induction ls generalizing σ msgs with
  | nil => cases hr; exact h
  | cons l ls hi =>
    have ⟨hl, hr⟩ := Option.ite_none_right_eq_some.mp hr
    have ⟨_, hs, hr⟩ := Option.bind_eq_some_iff.mp hr
    exact hi (h.step hl hs) hr

theorem Heard.of_run {f : Cluster → List Message → Bool} (ls : List Label)
    (h : (listen S ls (Cluster.start S, [])).any fun (σ, msgs) => f σ msgs) :
    ∃ σ msgs, Heard S σ msgs ∧ f σ msgs := by
  have ⟨⟨σ, msgs⟩, hr, h⟩ := Option.any_eq_true .. |>.mp h
  exact ⟨σ, msgs, Heard.start.run hr, h⟩

-- The history of a session in which one task was done.
def toured : History :=
  History.default.update "/;true" 7 0

theorem inverse_toured : (Json.only [toured]).Inverse :=
  Json.inverse_only (by decide +kernel)

-- The next session after the tour begins.
theorem prioritizes_tour :
    let J := Json.only [toured]
    ∃ σ s msgs, Heard .plain σ msgs ∧ σ.main = .shutdown s ∧
      Message.taskDone (some 0) "/;true" 7 8 ∈ msgs ∧
        let S' := { Setup.plain with priorHistory := J.load (s.shutdown J none (secs 1000)) }
        S'.server.Prioritizes fun target =>
          (remembered J none (secs 1000) msgs target).getD (secs 1) := by
  intro J
  have ⟨σ, msgs, h, hr⟩ := Heard.of_run (S := .plain)
    (f := fun σ msgs =>
      match σ.main with
      | .shutdown s => Message.taskDone (some 0) "/;true" 7 8 ∈ msgs ∧
        J.write s.inTheMaking none (secs 1000) = some (Json.text toured)
      | _           => false)
    (tour ++ [.tick 0, .clock (secs 1000), .finish, .check (secs 1000)]) (by decide +kernel)
  split at hr
  case h_1 s hm =>
    have ⟨hd, hw⟩ := of_decide_eq_true hr
    let S' := { Setup.plain with priorHistory := J.load (s.shutdown J none (secs 1000)) }
    have h' : Reaches S' .any (start S') := .start
    exact ⟨σ, s, msgs, h, hm, hd,
      (h.prioritizes inverse_toured hm ⟨_, _, _, hd⟩ (by decide) hw h' rfl rfl).left⟩
  case h_2      => cases hr

end Cluster
end SprayCC
