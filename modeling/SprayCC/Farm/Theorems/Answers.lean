import SprayCC.Farm.Theorems.Once

open Async Program

-- What an exec leaves behind when it returns.

namespace SprayCC

namespace Exec

-- The exec is through with all of the messages, the last one of which may have sent it away.
inductive Served : List Turn → List Process.Event → Prop
  | closed    : Served turns []
  | dismissed : Served (turn :: turns) [.heard .pissOff]
  | next      : turn.Ends ms msg → Served turns d →
    Served (turn :: turns) (.heard msg :: (ms.map .said ++ d))

variable {turn : Turn} {turns : List Turn} {d : List Process.Event} {n k : Nat}
variable {details : TaskDetails} {accessCode userCode : UInt64} {tr : Trace signature}

theorem Served.jobs (h : Served turns d) : Jobs turns d := by
  induction h with
  | closed       => exact .idle
  | dismissed    => exact .refused rfl
  | next he _ hi => exact .next he hi

-- A task has been answered with all that its turn has sent.
theorem Served.replies (h : Served turns d)
    (hm : (Process.heard d)[k]? = some (.task accessCode userCode details)) :
    ∃ turn tr, turns[k]? = some turn ∧ (turn.handles details).Runs tr (.ok ()) ∧
      SprayCC.replies n d (n + k) = sent tr := by
  induction h generalizing n k with
  | closed    => cases hm
  | dismissed => cases k <;> cases hm
  | @next _ d turn msg _ he hs hi =>
    rw [replies_heard fun _ hm => hs.jobs.lt_of_mem hm]
    cases k
    case zero =>
      cases hm
      obtain ⟨tr, hr, rfl⟩ := he
      exact ⟨turn, tr, rfl, hr, if_pos rfl⟩
    case succ k =>
      have hm : (Process.heard d)[k]? = some (.task accessCode userCode details) := by
        simpa using hm
      have ⟨turn, tr, ht, hr, hs⟩ := hi (n := n + 1) hm
      refine ⟨turn, tr, ht, hr, ?_⟩
      rw [if_neg (by omega), ← hs, Nat.add_right_comm, Nat.add_assoc]

theorem serve_served {tr : Trace Process.signature} (h : (serve turns).Runs tr (.ok ())) :
    Served turns (Process.dialogue tr) := by
  induction turns generalizing tr with
  | nil => cases (Runs.fail_iff.mp h).right
  | cons turn turns hi =>
    obtain ⟨arrival, tr, rfl, hp⟩ := Runs.call_iff.mp h
    cases arrival
    case message msg =>
      rw [Process.dialogue_read]
      cases msg
      case task a u details =>
        have hp : ((turn.handles details).lift socket Fault.ofTask >>= fun _ =>
          Process.flushOrErr >>= fun _ => serve turns).Runs tr _ := hp
        obtain ⟨_, tr₁, tr₂, rfl, h₁, h₂⟩ := hp.of_bind
        obtain ⟨tr₁, hr, rfl⟩ := h₁.ok_of_lift
        obtain ⟨ok, tr', rfl, h₃⟩ := Runs.call_iff.mp h₂
        cases ok
        case false => cases (Runs.fail_iff.mp h₃).right
        have he : turn.Ends (sent tr₁) (.task a u details) := ⟨tr₁, hr, rfl⟩
        rw [Process.dialogue_append, dialogue_socket]
        exact .next he (show Served turns (Process.dialogue tr') from hi h₃)
      case pissOff =>
        obtain ⟨rfl, _⟩ := Runs.done_iff.mp hp
        exact .dismissed
      all_goals cases (Runs.fail_iff.mp hp).right
    case closed =>
      obtain ⟨rfl, _⟩ := Runs.done_iff.mp hp
      exact .closed
    case error | undecodable => cases (Runs.fail_iff.mp hp).right

theorem session_served {tr : Trace Process.signature}
    (h : (session accessCode userCode turns).Runs tr (.ok ())) :
    ∃ d, Process.dialogue tr = .said (.yourObedientServant accessCode userCode) :: d ∧
      Served turns d := by
  obtain ⟨ok, tr, rfl, hw⟩ := Runs.call_iff.mp h
  cases ok
  case false => cases (Runs.fail_iff.mp hw).right
  have hw : (serve turns >>= fun _ => Process.shutdown).Runs tr _ := hw
  obtain ⟨_, tr₁, tr₂, rfl, h₁, h₂⟩ := hw.of_bind
  obtain ⟨_, _, rfl, h₃⟩ := Runs.call_iff.mp h₂
  obtain ⟨rfl, _⟩ := Runs.done_iff.mp h₃
  refine ⟨Process.dialogue tr₁, ?_, serve_served h₁⟩
  rw [Process.dialogue_write, Process.dialogue_append]
  exact congrArg _ (List.append_nil _)

-- The end of a task is sent once, after all of its outputs.
theorem runs_handles_ends (h : (turn.handles details).Runs tr (.ok ())) :
    ∃ outs last, sent tr = outs ++ [last] ∧ last.Terminal ∧ ∀ m ∈ outs, ¬m.Terminal := by
  have hl : ∃ last, (sent tr).getLast? = some last ∧ last.Terminal := by
    rcases runs_handles_cases h with ⟨err, _, hs⟩ | ⟨targetId, task, rest, _, _, hr⟩
    case inl => exact ⟨.taskFailed err, hs ▸ rfl, trivial⟩
    case inr => exact have ⟨_, _, hs⟩ := runs_runTask_status hr; ⟨_, hs, trivial⟩
  have ⟨last, hs, ht⟩ := hl
  have ⟨outs, ends, hse, ho, he⟩ := after_handles (After.runs_ok_iff.mp h)
  have hn : ∀ m ∈ outs, ¬m.Terminal := by
    intro m hm
    obtain ⟨_, _, _, rfl⟩ := ho m hm
    exact id
  rcases he with rfl | ⟨last', _, rfl, ht', _⟩
  case inl =>
    rw [List.append_nil] at hse
    exact absurd ht <| hn last (hse ▸ List.mem_of_getLast? hs)
  case inr => exact ⟨outs, last', hse, ht', hn⟩

end Exec

namespace Farm

variable {S : Setup} {F : Farm} {e n : Nat} {details : TaskDetails} {second : Bool}
variable {turns : List Exec.Turn} {status : Int32}

-- An exec which returns has run each task which it was sent, and has answered it with the outputs
-- of the task and then its end.
theorem Reaches.answered_all (h : F.Reaches S) (hc : (F.links e).caller = .exec second turns)
    (hd : (F.links e).process = .done status) (hs : F.Starts e n details) :
    ∃ turn tr outs last, turns[n]? = some turn ∧ (turn.handles details).Runs tr (.ok ()) ∧
      Exec.sent tr = outs ++ [last] ∧ last.Terminal ∧ (∀ m ∈ outs, ¬m.Terminal) ∧
        replies 0 (Process.dialogue (F.links e).trace) n = outs ++ [last] := by
  obtain ⟨he, _, a, u, hn⟩ := hs
  have hrun := h.after he
  rw [hc, hd] at hrun
  obtain ⟨_, tr₁, tr₂, ht, h₁, h₂⟩ := (After.runs_ok_iff.mpr hrun).of_bind
  obtain ⟨rfl, _⟩ := Runs.done_iff.mp h₂
  have ⟨d, hdial, hserved⟩ := Exec.session_served h₁
  rw [ht, List.append_nil, hdial] at hn ⊢
  have ⟨turn, tr, htu, hr, hrep⟩ := hserved.replies (n := 0) hn
  have ⟨outs, last, hs, hl, ho⟩ := Exec.runs_handles_ends hr
  refine ⟨turn, tr, outs, last, htu, hr, hs, hl, ho, ?_⟩
  rw [Nat.zero_add, hs] at hrep
  exact hrep

-- After the tour, the exec is sent away.
theorem answered_tour :
    ∃ F, Reaches .plain F ∧ (F.links 0).process = .done 0 ∧ F.Starts 0 0 tourTask ∧
      ∃ (turn : Exec.Turn) (tr : Trace Exec.signature) (outs : List Message) (last : Message),
        (turn.handles tourTask).Runs tr (.ok ()) ∧ Exec.sent tr = outs ++ [last] ∧ last.Terminal ∧
          replies 0 (Process.dialogue (F.links 0).trace) 0 = outs ++ [last] := by
  have ⟨F, h, hs⟩ := Reaches.of_run (S := .plain) (f := fun F => (F.links 0).returned = some 0 ∧
    0 < F.size ∧ (F.links 0).caller.peer.role = .exec false ∧
      (Process.heard (Process.dialogue (F.links 0).trace))[0]? = some (.task 0 0 tourTask))
    (tour ++ [.tick 0, .clock (secs 1000), .send, .finish, .check 0, .link 0 .departs,
      .link 0 (.writes true), .link 0 .hears, .link 0 (.does true)]) (by decide +kernel)
  have ⟨hd, hs⟩ := of_decide_eq_true hs
  have hd := Link.returned_iff.mp hd
  have hs := Starts.of_heard hs
  have ⟨_, _, hc⟩ := Caller.exists_exec hs.right.left
  have ⟨turn, tr, outs, last, _, hr, hse, hl, _, hrep⟩ := h.answered_all hc hd hs
  exact ⟨F, h, hd, hs, turn, tr, outs, last, hr, hse, hl, hrep⟩

end Farm
end SprayCC
