import SprayCC.Farm.Finish

open Async Program

-- What the farm does for its clients.

namespace SprayCC
namespace Farm

-- Exec `e` has started the task which it was sent by the message with number `n`, and run it to its
-- end. It has answered the message with what it has sent of the task.
structure Ran (F : Farm) (e n : Nat) (details : TaskDetails) (turn : Exec.Turn) (task : Task)
    (tr : Trace Exec.signature) (rest : Stream → List UInt8) : Prop where
  takes   : F.Takes e n details turn
  start   : Task.start turn.host details.workingDir details.cmd details.args details.outputArgs
    details.env = some (.ok task)
  runs    : ∃ targetId, details.getTargetId = some targetId ∧
    (Exec.runTask turn.picks turn.runTime turn.sendTime task targetId).Runs tr (.ok rest)
  replies : replies 0 (Process.dialogue (F.links e).trace) n = Exec.sent tr

-- The exec can not start the task, and has answered the message with the reason.
structure Rejects (F : Farm) (e n : Nat) (details : TaskDetails) (turn : Exec.Turn)
    (err : String) : Prop where
  takes   : F.Takes e n details turn
  start   : Task.start turn.host details.workingDir details.cmd details.args details.outputArgs
    details.env = some (.error err)
  replies : replies 0 (Process.dialogue (F.links e).trace) n = [.taskFailed err]

variable {S : Setup} {F : Farm} {i e n fuel : Nat} {details : TaskDetails} {status : Int32}
variable {turn : Exec.Turn} {tr : Trace Exec.signature} {ms : List Message} {last : Message}

-- The client has its status from the exec, which has run the task or could not start it.
theorem Serves.cases (h : F.Serves e n details turn tr) (hm : Exec.sent tr = ms ++ [last])
    (hc : Client.Closes last status) :
    (∃ err, F.Rejects e n details turn err ∧ status = -1) ∨
      ∃ task rest, F.Ran e n details turn task tr rest ∧
        task.child.wait rest = .exited (some status) := by
  rcases Exec.runs_handles_cases h.runs with
    ⟨err, hst, he⟩ | ⟨targetId, task, rest, hid, hst, hrun⟩
  case inl =>
    have hl : [] ++ [Message.taskFailed err] = ms ++ [last] := he.symm.trans hm
    cases (List.append_inj' hl rfl).right
    exact .inl ⟨err, ⟨h.takes, hst, h.replies.trans he⟩, hc⟩
  case inr =>
    have ⟨code, hw, hlast⟩ := Exec.runs_runTask_status hrun
    rw [hm, List.getLast?_concat] at hlast
    cases hlast
    refine .inr ⟨task, rest, ⟨h.takes, hst, ⟨targetId, hid, hrun⟩, h.replies⟩, ?_⟩
    cases code
    case none => exact hc.elim
    case some => exact hw.trans <| congrArg (Wait.exited ∘ some) hc.symm

-- A client whose status is not the one for a failure leaves its host as if it had run the task
-- there: the exec which was sent its task has run it to its end with this exit code, the client has
-- handed to its own streams what the task has written, and its output files are what the task has
-- left.
theorem Reaches.transparent (h : F.Reaches S) (hi : i < F.size)
    (hc : (F.links i).caller = .client details fuel) (hd : (F.links i).process = .done status)
    (hs : status ≠ -1) :
    ∃ e n turn task tr rest, F.Job e n i details ∧ F.Ran e n details turn task tr rest ∧
      task.child.wait rest = .exited (some status) ∧
      (∀ stream, Exec.Clean (task.child.output stream) →
        Client.handed stream (Client.fileCalls (F.links i).trace) = task.child.output stream) ∧
      ∀ {α : Type} [DecidableEq α] (fileOf : String → α) (fs : Client.Files α)
        (left : String → Option (List UInt8)),
        (details.outputArgs.map fun i => details.args[i.toNat]?.map fileOf).Nodup →
        (∀ path ∈ task.outputFiles, Exec.Yields (left path) (task.child.reads path)) →
        ∀ k name path, details.outputName k = some name → task.outputFiles[k]? = some path →
          (left path = some [] → fs (fileOf name) = some []) →
          fs.after fileOf (Client.fileCalls (F.links i).trace) (fileOf name) =
            (left path <|> fs (fileOf name)) := by
  obtain ⟨ms, last, e, n, _, ⟨files, files', tr₁, tr₂, hf, hcalls, hw, hsh⟩, hcl, hj, hend⟩ :=
    h.finished hi hc hd
  rcases hend with ⟨turn, tr, hserves, hm⟩ | ⟨rfl, _⟩
  case inr => exact absurd hcl hs
  rw [← hm] at hw
  rcases hserves.cases hm hcl with ⟨_, _, hn⟩ | ⟨task, rest, hran, hst⟩
  case inl => exact absurd hn hs
  case inr =>
    have hshut := Client.runs_shutdownFiles hsh
    have ⟨_, _, hrun⟩ := hran.runs
    refine ⟨e, n, turn, task, tr, rest, hj, hran, hst, fun stream hclean => ?_,
      fun fileOf fs left hdist hy k name path hn hp hempty => ?_⟩
    case refine_1 =>
      rw [hcalls, Client.handed_append, hshut.left, List.append_nil,
        Client.handed_writeOutputs hw, Client.flatMap_outputs]
      exact (Exec.runs_runTask_drains hrun).eq_iff.mpr hclean |>.left
    case refine_2 =>
      rw [hcalls, Client.Files.after_append, hshut.right]
      exact (arrived_output hf hdist (hy path <| List.mem_of_getElem? hp) hrun hw hn hp).mpr hempty

-- A client which fails does so for a reason, which is with the exec that was sent its task: the
-- task has this exit code there, or it can not be started there, or the connection of the exec has
-- come to its end.
theorem Reaches.failed_cause (h : F.Reaches S) (hi : i < F.size)
    (hc : (F.links i).caller = .client details fuel) (hd : (F.links i).process = .done (-1)) :
    ∃ e n, F.Job e n i details ∧
      ((∃ turn task tr rest, F.Ran e n details turn task tr rest ∧
          task.child.wait rest = .exited (some (-1))) ∨
        (∃ turn err, F.Rejects e n details turn err) ∨
        (F.links e).task = .done () ∧
          droppedNotice ∈ Process.heard (Process.dialogue (F.links i).trace)) := by
  obtain ⟨ms, last, e, n, hheard, _, hcl, hj, hend⟩ := h.finished hi hc hd
  refine ⟨e, n, hj, ?_⟩
  rcases hend with ⟨turn, tr, hserves, hm⟩ | ⟨rfl, hg⟩
  case inl =>
    rcases hserves.cases hm hcl with ⟨err, hr, _⟩ | ⟨task, rest, hran, hst⟩
    case inl => exact .inr <| .inl ⟨turn, err, hr⟩
    case inr => exact .inl ⟨turn, task, tr, rest, hran, hst⟩
  case inr => exact .inr <| .inr ⟨hg, hheard ▸ List.mem_append_right _ (.head _)⟩

-- The client of `tour` comes to its end with the exit code of its task.
theorem transparent_tour :
    ∃ F, Reaches .plain F ∧ (F.links 1).process = .done 3 ∧
      ∃ e n turn task tr rest, F.Job e n 1 tourTask ∧ F.Ran e n tourTask turn task tr rest ∧
        task.child.wait rest = .exited (some 3) ∧
        ∀ stream, Exec.Clean (task.child.output stream) →
          Client.handed stream (Client.fileCalls (F.links 1).trace) =
            task.child.output stream := by
  have ⟨F, h, hs⟩ := Reaches.of_run (S := .plain) (f := fun F => 1 < F.size &&
    (F.links 1).ended tourTask 3) tour (by decide +kernel)
  have ⟨hi, hl⟩ := Bool.and_eq_true_iff.mp hs
  have ⟨_, hc, hd⟩ := Link.ended_iff.mp hl
  have ⟨e, n, turn, task, tr, rest, hj, hr, hc, hp, _⟩ :=
    h.transparent (of_decide_eq_true hi) hc hd (by decide)
  exact ⟨F, h, hd, e, n, turn, task, tr, rest, hj, hr, hc, hp⟩

theorem failed_missing :
    ∃ F, Reaches .plain F ∧ (F.links 1).process = .done (-1) ∧
      ∃ e n, F.Job e n 1 tourTask ∧
        ((∃ turn task tr rest, F.Ran e n tourTask turn task tr rest ∧
            task.child.wait rest = .exited (some (-1))) ∨
          (∃ turn err, F.Rejects e n tourTask turn err) ∨
          (F.links e).task = .done () ∧
            droppedNotice ∈ Process.heard (Process.dialogue (F.links 1).trace)) := by
  have ⟨F, h, hs⟩ := Reaches.of_run (S := .plain) (f := fun F => 1 < F.size &&
    (F.links 1).ended tourTask (-1)) failedTour (by decide +kernel)
  have ⟨hi, hl⟩ := Bool.and_eq_true_iff.mp hs
  have ⟨_, hc, hd⟩ := Link.ended_iff.mp hl
  exact ⟨F, h, hd, h.failed_cause (of_decide_eq_true hi) hc hd⟩

end Farm
end SprayCC
