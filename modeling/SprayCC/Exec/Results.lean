import SprayCC.Client
import SprayCC.Cluster.Net
import SprayCC.Exec.Streams

-- The messages in which an exec answers a task: those which a peer of the cluster may say while it
-- is busy, with outputs for which the client has a file.

open Async

namespace SprayCC.Exec

variable {host : Host} {picks : List Stream} {runTime sendTime : Duration} {details : TaskDetails}
variable {task : Task} {targetId : String} {tr : Trace signature} {msgs : List Message}
variable {codes : Codes} {second : Bool} {job read : Nat} {P : OutputType → Prop}

theorem runs_runTask_only {rest : Stream → List UInt8}
    (hr : (runTask picks runTime sendTime task targetId).Runs tr (.ok rest)) :
    ∃ outs last, sent tr = outs ++ [last] ∧ last.Terminal ∧
      OnlyOutputs (fun type => (∃ stream : Stream, type = stream.outputType) ∨
        ∃ k < task.outputFiles.length, type = .file k) outs := by
  have ⟨readers, code, tr₁, tr₂, h₁, h₂, ht, _⟩ := runs_runTask hr
  refine ⟨_, _, ht, trivial, .append ?_ ?_⟩
  case refine_1 => exact (runs_relay h₁).only.mono .inl
  case refine_2 => exact (sendOutputFiles_only h₂).mono fun h => .inr <| by simpa using h

-- A task is answered by its outputs and the message which ends it.
theorem runs_handleNewTask
    (hr : (handleNewTask host picks runTime sendTime details).Runs tr (.ok ())) :
    ∃ outs last, sent tr = outs ++ [last] ∧ last.Terminal ∧
      OnlyOutputs (Client.Within details) outs := by
  have ⟨targetId, _, hr⟩ := hr.of_get
  have ⟨started, hs, hr⟩ := hr.of_get
  cases started
  case error err => exact ⟨[], _, runs_writeMessage hr, trivial, .nil⟩
  case ok task   =>
    have ⟨_, tr₁, tr₂, ht, h₁, h₂⟩ := hr.of_bind
    have ⟨outs, last, hm, hl, ho⟩ := runs_runTask_only h₁
    have ⟨_, hp⟩ := Task.start_ok hs
    refine ⟨outs, last, ?_, hl, ho.mono ?_⟩
    case refine_1 => rw [ht, (Program.Runs.done_iff.mp h₂).left, List.append_nil, hm]
    case refine_2 =>
      rintro _ (⟨stream, rfl⟩ | ⟨k, hk, rfl⟩)
      case inl => cases stream <;> trivial
      case inr => exact hk.trans_eq (redirectOutputs_length hp)

theorem OnlyOutputs.speaks (h : OnlyOutputs P msgs) :
    msgs.foldlM (Peer.speaks codes) (.exec second (.busy job) read) =
      some (.exec second (.busy job) read) := by
  induction msgs with
  | nil => rfl
  | cons msg msgs hi =>
    have ⟨⟨type, content, _, hm⟩, hn⟩ := List.forall_mem_cons.mp h
    subst hm
    exact hi hn

-- The peer of the cluster, which may say any results while it is busy, may say these ones.
theorem handleNewTask_speaks
    (hr : (handleNewTask host picks runTime sendTime details).Runs tr (.ok ())) :
    (sent tr).foldlM (Peer.speaks codes) (.exec second (.busy job) read) =
      some (.exec second .idle read) := by
  have ⟨outs, last, ht, hl, ho⟩ := runs_handleNewTask hr
  rw [ht, List.foldlM_append, ho.speaks]
  simp [Peer.speaks, hl, hl.result]

-- The message is not the end of a task with another target.
def Reports (details : TaskDetails) (msg : Message) : Prop :=
  ∀ code target run send, msg = .taskDone code target run send → details.getTargetId = some target

def Call.Reports (details : TaskDetails) : Call → Prop
  | writeMessage msg => Exec.Reports details msg

theorem reports_taskOutput {type : OutputType} {bytes : List UInt8} :
    Reports details (.taskOutput type bytes) :=
  nofun

abbrev Truthful {α : Type} (details : TaskDetails) (p : Program signature Fault α) : Prop :=
  p.Within (Call.Reports details) fun _ => True

theorem writeMessage_truthful {msg : Message} (h : Reports details msg) :
    Truthful details (writeMessage msg) :=
  ⟨h, fun ok => by cases ok <;> trivial⟩

theorem relay_truthful {readers : Stream → Reader} : Truthful details (relay picks readers) := by
  induction picks generalizing readers with
  | nil =>
    unfold relay
    split <;> trivial
  | cons stream picks hi =>
    unfold relay
    split
    case isTrue  => trivial
    case isFalse =>
      dsimp only
      split
      case isTrue  => exact hi
      case isFalse =>
        refine .bind ?_ fun _ => hi
        unfold relayLine
        split
        case h_1 => exact .bind (writeMessage_truthful reports_taskOutput) fun _ => trivial
        case h_2 => trivial
        case h_3 => trivial

theorem sendChunks_truthful {type : OutputType} {reads : List (Option (List UInt8))} :
    Truthful details (sendChunks type reads) := by
  induction reads with
  | nil => trivial
  | cons read reads hi =>
    cases read
    case none     => trivial
    case some buf =>
      unfold sendChunks
      split
      case isTrue  => trivial
      case isFalse => exact .bind (writeMessage_truthful reports_taskOutput) fun _ => hi

theorem sendOutputFiles_truthful {child : Child} {idx : Nat} {paths : List String} :
    Truthful details (sendOutputFiles child idx paths) := by
  induction paths generalizing idx with
  | nil => trivial
  | cons path paths hi =>
    refine .bind ?_ fun _ => hi
    unfold sendOutputFile
    split
    case h_1 => exact sendChunks_truthful
    case h_2 => trivial

-- The target which an exec reports is the one which the server has for the task.
theorem handleNewTask_truthful :
    Truthful details (handleNewTask host picks runTime sendTime details) := by
  unfold handleNewTask
  cases ht : details.getTargetId
  case none          => trivial
  case some targetId =>
    rw [Program.get_some_bind]
    refine .of_get trivial fun task => ?_
    cases task
    case error => exact writeMessage_truthful nofun
    case ok    =>
      refine .bind ?_ fun _ => trivial
      refine .bind relay_truthful fun readers => ?_
      refine .bind (waitFor_within trivial trivial) fun code => ?_
      refine .bind sendOutputFiles_truthful fun _ => ?_
      refine .bind (writeMessage_truthful fun _ _ _ _ he => ?_) fun _ => trivial
      cases he
      exact ht

theorem sent_reports {r : Except Fault Unit}
    (hr : (handleNewTask host picks runTime sendTime details).Runs tr r) :
    ∀ msg ∈ sent tr, Reports details msg := by
  intro msg hm
  have ⟨⟨⟨_⟩, ok⟩, hx, hm⟩ := List.mem_filterMap.mp hm
  cases ok <;> cases hm
  exact (handleNewTask_truthful.runs hr).left _ hx

end SprayCC.Exec
