import SprayCC.Cluster.Theorems.Reception
import SprayCC.Farm.Replies

open Async Program

-- What a client which has come to its end was told, and by whom.

namespace SprayCC

theorem Transcript.of_prefix {ms ms' : List Message} (h : Transcript ms) (hp : ms' <+: ms) :
    Transcript ms' := by
  obtain ⟨outs, ends, rfl, ho, he⟩ := h
  have ho (hp : ms' <+: outs) : Transcript ms' :=
    ⟨ms', [], (List.append_nil _).symm, fun m hm => ho m (hp.subset hm), .inl rfl⟩
  rcases he with rfl | ⟨m, hm, rfl⟩
  case inl => exact ho (by simpa using hp)
  case inr =>
    rcases List.prefix_concat_iff.mp hp with rfl | hp
    case inl => exact ⟨outs, [m], rfl, ‹_›, .inr ⟨m, hm, rfl⟩⟩
    case inr => exact ho hp

namespace Exec

variable {turn : Turn} {details : TaskDetails} {tr : Trace signature} {p : Proc Unit}
variable {outs : List Message} {last : Message} {code : Option Int32} {targetId : String}
variable {runTime sendTime : Duration} {task : Task} {picks : List Stream}

-- A task whose end has been sent is done with, and nothing was sent after its end.
theorem runs_of_terminal (h : (turn.handles details).After tr p) (hp : outs ++ [last] <+: sent tr)
    (hl : last.Terminal) : (turn.handles details).Runs tr (.ok ()) ∧ sent tr = outs ++ [last] := by
  have ⟨outs', ends, hs, ho, he⟩ := after_handles h
  have hn : ∀ m ∈ outs', ¬m.Terminal := by
    intro m hm
    obtain ⟨_, _, _, rfl⟩ := ho m hm
    exact id
  have hn (hp : outs ++ [last] <+: outs') : False :=
    hn last (hp.subset <| by simp) hl
  rw [hs] at hp
  rcases he with rfl | ⟨last', _, rfl, _, rfl⟩
  case inl => exact (hn <| by simpa using hp).elim
  case inr =>
    rcases List.prefix_concat_iff.mp hp with he | hp
    case inl => exact ⟨h.runs .done, hs.trans he.symm⟩
    case inr => exact (hn hp).elim

theorem runs_runTask_status {rest : Stream → List UInt8}
    (hr : (runTask picks runTime sendTime task targetId).Runs tr (.ok rest)) :
    ∃ code, task.child.wait rest = .exited code ∧
      (sent tr).getLast? = some (.taskDone code targetId runTime sendTime) := by
  obtain ⟨readers, tr₁, _, rfl, h₁, hr⟩ := hr.of_bind
  obtain ⟨code, tr', _, rfl, hw, hr⟩ := hr.of_bind
  obtain ⟨_, tr₂, _, rfl, h₂, hr⟩ := hr.of_bind
  obtain ⟨_, tr₃, _, rfl, h₃, hr⟩ := hr.of_bind
  obtain ⟨rfl, he⟩ := Runs.done_iff.mp hr
  cases he
  exact ⟨code, (runs_waitFor hw).right, by simp [runs_writeMessage h₃]⟩

theorem runs_runTask_drains {rest : Stream → List UInt8} {stream : Stream}
    (hr : (runTask picks runTime sendTime task targetId).Runs tr (.ok rest)) :
    Drains { rest := task.child.output stream, done := false }
      (contents stream.outputType (sent tr)).flatten (rest stream) := by
  have ⟨readers, code, tr₁, tr₂, h₁, h₂, ht, hrest⟩ := runs_runTask hr
  have hd : Drains _ (contents stream.outputType (sent tr₁)).flatten (readers stream).rest :=
    (runs_relay h₁).drains
  have hn : contents stream.outputType (sent tr₂) = [] :=
    (sendOutputFiles_only h₂).contents_eq_nil fun ⟨_, _, he⟩ => Stream.outputType_ne_file he
  have hc : contents stream.outputType (sent tr) = contents stream.outputType (sent tr₁) := by
    simp [ht, hn]
  rw [hc, hrest]
  exact hd

-- What a task which is done with was: it could not be started, or it has run.
theorem runs_handles_cases (h : (turn.handles details).Runs tr (.ok ())) :
    (∃ err, Task.start turn.host details.workingDir details.cmd details.args details.outputArgs
        details.env = some (.error err) ∧ sent tr = [.taskFailed err]) ∨
      ∃ targetId task rest, details.getTargetId = some targetId ∧
        Task.start turn.host details.workingDir details.cmd details.args details.outputArgs
          details.env = some (.ok task) ∧
        (runTask turn.picks turn.runTime turn.sendTime task targetId).Runs tr (.ok rest) := by
  obtain ⟨targetId, ht, h⟩ := h.of_get
  obtain ⟨started, hs, h⟩ := h.of_get
  cases started
  case error err => exact .inl ⟨err, hs, runs_writeMessage h⟩
  case ok task   =>
    obtain ⟨rest, tr₁, tr₂, rfl, h₁, h₂⟩ := h.of_bind
    obtain ⟨rfl, _⟩ := Runs.done_iff.mp h₂
    exact .inr ⟨targetId, task, rest, ht, hs, by rwa [List.append_nil]⟩

end Exec
namespace Client

-- What the client has handed to a stream of its own. It does not flush the stream, and the last of
-- this may be lost when the process exits.
def handed (stream : Stream) (tr : Trace signature) : List UInt8 :=
  tr.flatMap fun
    | ⟨.writeAll .stdout content, true⟩ => if stream = .stdout then content else []
    | ⟨.writeAll .stderr content, true⟩ => if stream = .stderr then content else []
    | _                                 => []

variable {stream : Stream} {tr tr' : Trace signature} {files files' : List LazyFile}
variable {outs : List Output}

@[simp]
theorem handed_append : handed stream (tr ++ tr') = handed stream tr ++ handed stream tr' :=
  List.flatMap_append

theorem handed_asFile {file : LazyFile} {r : LazyFile × String}
    (hr : file.asFile.Runs tr (.ok r)) : handed stream tr = [] := by
  cases file
  case fileName =>
    obtain ⟨_, tr₁, tr₂, rfl, h₁, h₂⟩ := hr.of_bind
    obtain ⟨rfl, _⟩ := Runs.done_iff.mp h₂
    simp [runs_callOrErr h₁, handed]
  case file     => exact (Runs.done_iff.mp hr).left ▸ rfl
  case none     => cases (Runs.fail_iff.mp hr).right

theorem handed_writeOutput {type : OutputType} {content : List UInt8}
    (hr : (writeOutput files type content).Runs tr (.ok files')) :
    handed stream tr = if type = stream.outputType then content else [] := by
  cases type
  case stdout | stderr =>
    obtain ⟨_, tr₁, tr₂, rfl, h₁, h₂⟩ := hr.of_bind
    obtain ⟨rfl, _⟩ := Runs.done_iff.mp h₂
    cases stream <;> simp [runs_callOrErr h₁, handed, Stream.outputType]
  case file =>
    obtain ⟨file, _, hr⟩ := hr.of_get
    obtain ⟨_, tr₁, _, rfl, h₁, hr⟩ := hr.of_bind
    obtain ⟨_, tr₂, tr₃, rfl, h₂, h₃⟩ := hr.of_bind
    obtain ⟨rfl, _⟩ := Runs.done_iff.mp h₃
    rw [if_neg Stream.outputType_ne_file.symm, handed_append, handed_append, handed_asFile h₁,
      runs_callOrErr h₂]
    rfl

theorem handed_writeOutputs (hr : (writeOutputs files outs).Runs tr (.ok files')) :
    handed stream tr = (outs.filter (·.fst = stream.outputType)).flatMap Prod.snd := by
  induction outs generalizing files tr with
  | nil            => exact (Runs.done_iff.mp hr).left ▸ rfl
  | cons out outs hi =>
    obtain ⟨type, content⟩ := out
    obtain ⟨files₁, tr₁, tr₂, rfl, h₁, h₂⟩ := hr.of_bind
    rw [handed_append, handed_writeOutput h₁, hi h₂, List.filter_cons]
    split <;> simp_all

theorem flatMap_outputs {type : OutputType} {ms : List Message} :
    ((Exec.outputs ms).filter (·.fst = type)).flatMap Prod.snd =
      (Exec.contents type ms).flatten := by
  induction ms with
  | nil          => rfl
  | cons m ms hi =>
    cases m
    case taskOutput type' content =>
      show (((type', content) :: Exec.outputs ms).filter (·.fst = type)).flatMap Prod.snd =
        (Exec.contents type ([.taskOutput type' content] ++ ms)).flatten
      rw [Exec.contents_append, Exec.contents_output, List.filter_cons]
      split <;> simp_all
    all_goals exact hi

-- Shutting the files down leaves them as they are.
theorem runs_shutdownFiles (hr : (shutdownFiles files).Runs tr (.ok ())) :
    (∀ stream, handed stream tr = []) ∧
      ∀ {F : Type} [DecidableEq F] (fileOf : String → F) (fs : Files F),
        fs.after fileOf tr = fs := by
  unfold shutdownFiles at hr
  generalize files.reverse = files at hr
  induction files generalizing tr with
  | nil             => exact (Runs.done_iff.mp hr).left ▸ ⟨fun _ => rfl, fun _ _ => rfl⟩
  | cons file files hi =>
    obtain ⟨_, tr₁, tr₂, rfl, h₁, h₂⟩ := hr.of_bind
    have ⟨hp, hf⟩ := hi h₂
    have ht : tr₁ = [] ∨ ∃ name, tr₁ = [⟨.shutdown name, true⟩] := by
      cases file
      case file name       => exact .inr ⟨name, runs_callOrErr h₁⟩
      case fileName | none => exact .inl (Runs.done_iff.mp h₁).left
    rcases ht with rfl | ⟨name, rfl⟩
    case inl => exact ⟨hp, hf⟩
    case inr => exact ⟨hp, fun fileOf fs => hf fileOf fs⟩

end Client

-- The process has written the outputs among the messages to its files, and then shut these down.
def Client.Writes (details : TaskDetails) (ms : List Message) (tr : Trace Process.signature) :
    Prop :=
  ∃ files files' tr₁ tr₂, makeOutputFiles details = some files ∧ fileCalls tr = tr₁ ++ tr₂ ∧
    (writeOutputs files (Exec.outputs ms)).Runs tr₁ (.ok files') ∧
      (shutdownFiles files').Runs tr₂ (.ok ())

-- The turn of an exec on the task, from its beginning to its end.
structure Farm.Serves (F : Farm) (e n : Nat) (details : TaskDetails) (turn : Exec.Turn)
    (tr : Trace Exec.signature) : Prop where
  takes   : F.Takes e n details turn
  runs    : (turn.handles details).Runs tr (.ok ())
  replies : replies 0 (Process.dialogue (F.links e).trace) n = Exec.sent tr

theorem Stands.done_of_hungUp {codes : Codes} {i : Nat} {p : Connection.Proc Unit} {opened : Bool}
    {task : ConnTask} {held : List Message} {flying : List (Nat × Message)}
    (h : Stands codes i p opened task held flying) (ht : task.HungUp) : p = .done () := by
  cases h
  case noticed | closed => rfl
  all_goals exact ht.elim

namespace Farm

-- What exec `e` has told about the task of client `i`, and whether its connection is known to have
-- `ended`.
structure Told (F : Farm) (e n i : Nat) (details : TaskDetails) (results : List Message)
    (ended : Bool) : Prop where
  job        : F.Job e n i details
  turn       : results ≠ [] → ∃ turn tr p, F.Takes e n details turn ∧
    (turn.handles details).After tr p ∧
      replies 0 (Process.dialogue (F.links e).trace) n = Exec.sent tr ∧ results <+: Exec.sent tr
  transcript : Transcript (account results ended)
  ended      : ended → (F.links e).task = .done ()

variable {S : Setup} {F : Farm} {i e n fuel : Nat} {details : TaskDetails} {status : Int32}

theorem Reaches.after (h : F.Reaches S) (hi : i < F.size) :
    ((F.links i).caller.process S.codes).After (F.links i).trace (F.links i).process :=
  have ⟨_, _, _, hw⟩ := h.simulated
  (hw.links hi).after

-- What a client has heard is the beginning of what a single exec has told about its task.
theorem Reaches.told (h : F.Reaches S) (hi : i < F.size)
    (hc : (F.links i).caller = .client details fuel) :
    Process.heard (Process.dialogue (F.links i).trace) = [] ∨
      ∃ e n results ended, F.Told e n i details results ended ∧
        Process.heard (Process.dialogue (F.links i).trace) <+: account results ended := by
  have ⟨σ, hr, _, hw⟩ := h.simulated
  have ⟨_, _, hreach⟩ := hr.reached
  have hman := hreach.mannered Policy.tame_wellBehaved
  have hrole : (σ.net.conns i).role = .client details := by
    rw [(hw.links hi).role_eq, hc]
    rfl
  have hp := (hw.links hi).heard_isPrefix
  rcases (hreach.tells Policy.tame_wellBehaved).received hman hreach.works hrole with
    hn | ⟨e, n, he⟩
  case inl =>
    rw [hn] at hp
    exact .inl <| List.prefix_nil.mp hp
  case inr =>
    have hl : e < F.size := hw.size ▸ he.present
    have hm := hw.links hl
    have hx : (F.links e).caller.peer.role.Exec := hm.role_eq ▸ he.exec
    refine .inr ⟨e, n, _, _, ⟨⟨hl, hx, ?_⟩, fun hn => ?_, he.transcript, fun hh => ?_⟩,
      hp.trans he.told⟩
    case refine_1 =>
      have ⟨_, _, _, _, hm⟩ := hm
      exact hm.sent ▸ he.job
    case refine_2 =>
      have ⟨second, turns, turn, tr, p, hc, ht, hh, ha, hs⟩ := hm.replied he.exec he.job hn
      exact ⟨turn, tr, p, ⟨⟨hl, hx, _, _, hh⟩, second, turns, hc, ht⟩, ha, hs⟩
    case refine_3 =>
      have ⟨_, _, _, _, hm⟩ := hm
      exact hm.stands.done_of_hungUp (of_decide_eq_true hh)

theorem Told.served {results ms : List Message} {ended : Bool} {last : Message}
    (h : F.Told e n i details results ended) (hp : ms ++ [last] <+: results) (hl : last.Terminal) :
    ∃ turn tr, F.Serves e n details turn tr ∧ Exec.sent tr = ms ++ [last] := by
  have hn : results ≠ [] :=
    List.ne_nil_of_mem (hp.subset <| List.mem_append_right _ <| .head _)
  have ⟨turn, tr, p, ht, ha, hrep, hs⟩ := h.turn hn
  have ⟨hr, hs⟩ := Exec.runs_of_terminal ha (hp.trans hs) hl
  exact ⟨turn, tr, ⟨ht, hr, hrep⟩, hs⟩

-- A client with a status was told everything by the exec which was sent its task, or that exec is
-- gone.
theorem Reaches.finished (h : F.Reaches S) (hi : i < F.size)
    (hc : (F.links i).caller = .client details fuel) (hd : (F.links i).process = .done status) :
    ∃ ms last e n, Process.heard (Process.dialogue (F.links i).trace) = ms ++ [last] ∧
      Client.Writes details (ms ++ [last]) (F.links i).trace ∧ Client.Closes last status ∧
      F.Job e n i details ∧
      ((∃ turn tr, F.Serves e n details turn tr ∧ Exec.sent tr = ms ++ [last]) ∨
        last = droppedNotice ∧ (F.links e).task = .done ()) := by
  have hrun : (Client.session S.codes.accessCode S.codes.userCode details fuel).Runs
      (F.links i).trace (.ok status) := by
    have h := h.after hi
    rw [hc, hd] at h
    exact After.runs_ok_iff.mpr h
  obtain ⟨ms, files, files', tr₁, tr₂, hdial, hf, hcalls, hsh, hrec⟩ := Client.session_runs hrun
  have ht := h.told hi hc
  have hheard : Process.heard (Process.dialogue (F.links i).trace) = ms := by
    rw [hdial, Process.heard_said, Process.heard_map_heard]
  rw [hheard] at ht
  rcases ht with rfl | ⟨e, n, results, ended, he, hp⟩
  case inl => cases (Runs.done_iff.mp (hrec .closed)).right
  case inr =>
    obtain ⟨outs, last, rfl, hl, hcl, hwr⟩ :=
      Client.receive_transcript (he.transcript.of_prefix hp) (hrec .closed)
    refine ⟨outs, last, e, n, hheard, ⟨files, files', tr₁, tr₂, hf, hcalls, hwr, hsh⟩, hcl,
      he.job, ?_⟩
    unfold account at hp
    split at hp
    case isFalse    => exact .inl <| he.served hp hl
    case isTrue hh  =>
      rcases List.prefix_concat_iff.mp hp with hp | hp
      case inl =>
        refine .inr ⟨?_, he.ended hh.left⟩
        exact (List.append_inj' hp rfl).right |> List.singleton_injective
      case inr => exact .inl <| he.served hp hl

end Farm
end SprayCC
