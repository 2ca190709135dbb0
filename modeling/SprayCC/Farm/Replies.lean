import SprayCC.Cluster.Work
import SprayCC.Farm.Refinement
import SprayCC.Outputs

open Async

-- What an exec has answered to each of its messages.

namespace SprayCC

-- The answers to the message with number `j`.
def replies (n : Nat) (d : List Process.Event) (j : Nat) : List Message :=
  ((answers n d).filter (·.fst = j)).map Prod.snd

section Replies

variable {n j k : Nat} {d d' : List Process.Event} {ms : List Message} {m : Nat × Message}

theorem answers_said : answers (n + 1) (ms.map .said) = ms.map (Prod.mk n) := by
  induction ms with
  | nil         => rfl
  | cons _ _ hi => exact congrArg _ hi

theorem le_of_mem_answers (h : m ∈ answers (n + 1) d) : n ≤ m.fst := by
  induction d generalizing n with
  | nil          => cases h
  | cons ev d hi =>
    cases ev
    case heard => exact (Nat.le_succ n).trans <| hi h
    case said  =>
      rcases List.mem_cons.mp h with rfl | hm
      case inl => exact le_rfl
      case inr => exact hi hm

theorem replies_append : replies n d j <+: replies n (d ++ d') j := by
  simp [replies, answers_append]

theorem replies_heard {msg : Message} (hn : ∀ m ∈ answers (n + 1) d, n < m.fst) :
    replies n (.heard msg :: (ms.map .said ++ d)) j =
      if j = n then ms else replies (n + 1) d j := by
  have ha : answers n (.heard msg :: (ms.map .said ++ d)) =
      ms.map (Prod.mk n) ++ answers (n + 1) d := by
    show answers (n + 1) _ = _
    rw [answers_append, answers_said, Process.heard_map]
    rfl
  unfold replies
  rw [ha, List.filter_append, List.map_append]
  split
  case isTrue hj  =>
    subst hj
    have hd : (answers (j + 1) d).filter (·.fst = j) = [] :=
      List.filter_eq_nil_iff.mpr fun m hm => by simpa using (hn m hm).ne'
    simp [hd, List.filter_map, Function.comp_def]
  case isFalse hj =>
    simp [List.filter_map, Function.comp_def, Ne.symm hj]

end Replies

namespace Exec

variable {turn : Turn} {turns : List Turn} {d : List Process.Event} {ms : List Message}
variable {msg : Message} {n j : Nat}

theorem Turn.Ends.begins (h : turn.Ends ms msg) : turn.Begins ms msg := by
  cases msg
  case task =>
    obtain ⟨tr, hr, hs⟩ := h
    exact ⟨tr, _, Program.After.runs_ok_iff.mp hr, hs⟩
  all_goals exact h.elim

theorem Jobs.lt_of_mem {m : Nat × Message} (h : Jobs turns d) (hm : m ∈ answers (n + 1) d) :
    n < m.fst := by
  cases h
  case idle           => cases hm
  case current | next => exact le_of_mem_answers hm

-- The answers to a message are what the turn which is about the message has sent.
theorem Jobs.replies (h : Jobs turns d) (hr : replies n d j ≠ []) :
    ∃ k turn msg, j = n + k ∧ turns[k]? = some turn ∧ (Process.heard d)[k]? = some msg ∧
      turn.Begins (SprayCC.replies n d j) msg := by
  induction h generalizing n with
  | idle       => exact absurd rfl hr
  | @current turn _ msg ms hb =>
    have hn : ∀ m ∈ answers (n + 1) ([] : List Process.Event), n < m.fst := nofun
    have he : SprayCC.replies n (.heard msg :: (ms.map .said ++ [])) j =
        if j = n then ms else SprayCC.replies (n + 1) [] j := replies_heard hn
    rw [List.append_nil] at he
    rw [he] at hr ⊢
    split at hr <;> [skip; exact absurd rfl hr]
    case isTrue hj => exact ⟨0, turn, msg, hj, rfl, rfl, by rwa [if_pos hj]⟩
  | @next _ d turn msg ms he hj hi =>
    rw [replies_heard fun _ hm => hj.lt_of_mem hm] at hr ⊢
    split at hr
    case isTrue hn  => exact ⟨0, turn, msg, hn, rfl, rfl, if_pos hn ▸ he.begins⟩
    case isFalse hn =>
      have ⟨k, turn, msg, hk, ht, hm, hb⟩ := hi hr
      refine ⟨k + 1, turn, msg, by omega, ht, ?_, if_neg hn ▸ hb⟩
      simpa using hm

end Exec

theorem Conn.written_prefix {c : Conn} : c.written <+: (c.sent.take c.taken).map Prod.snd := by
  refine List.IsPrefix.map _ ?_
  split
  case isTrue  => exact List.take_prefix_take_left (Nat.sub_le ..)
  case isFalse => exact List.prefix_rfl

namespace Matched

variable {codes : Codes} {i n : Nat} {l : Link} {c : Conn} {msg : Message}

theorem heard_isPrefix (h : Matched codes i l c) :
    Process.heard (Process.dialogue l.trace) <+: (c.sent.take c.taken).map Prod.snd := by
  obtain ⟨_, _, _, _, h⟩ := h
  exact (List.prefix_append ..).trans <| h.written ▸ Conn.written_prefix

-- What a process has heard was put on its channel.
theorem sent_of_heard (h : Matched codes i l c)
    (hn : (Process.heard (Process.dialogue l.trace))[n]? = some msg) :
    ∃ about, c.sent[n]? = some (about, msg) := by
  have hl := (List.getElem?_eq_some_iff.mp hn).choose
  have ⟨rest, hr⟩ := h.heard_isPrefix
  rw [← List.getElem?_append_left hl, hr, List.getElem?_map] at hn
  obtain ⟨m, hm, rfl⟩ := Option.map_eq_some_iff.mp hn
  exact ⟨m.fst, (Option.ite_none_right_eq_some.mp <| List.getElem?_take ▸ hm).right⟩

theorem role_eq (h : Matched codes i l c) : c.role = l.caller.peer.role :=
  have ⟨_, _, _, _, h⟩ := h
  h.role_eq

theorem orders (h : Matched codes i l c) (hc : c.Mannered) (hr : l.caller.peer.role.Exec)
    (hm : msg ∈ Process.heard (Process.dialogue l.trace)) : msg.Order := by
  have ⟨m, hm, he⟩ := List.mem_map.mp <| h.heard_isPrefix.subset hm
  exact he ▸ hc.order (h.role_eq ▸ hr) m (List.mem_of_mem_take hm)

theorem after (h : Matched codes i l c) : (l.caller.process codes).After l.trace l.process :=
  have ⟨_, _, _, _, h⟩ := h
  h.runs

end Matched

namespace Farm

variable {F : Farm} {e n : Nat} {details : TaskDetails}

-- The message with number `n` which was put on the channel of exec `e` is the task of client `i`.
structure Job (F : Farm) (e n i : Nat) (details : TaskDetails) : Prop where
  present : e < F.size
  exec    : (F.links e).caller.peer.role.Exec
  sent    : (F.links e).sent[n]? = some (i, .task 0 0 details)

-- Exec `e` has been sent the task by the message with number `n` which it has heard.
def Starts (F : Farm) (e n : Nat) (details : TaskDetails) : Prop :=
  e < F.size ∧ (F.links e).caller.peer.role.Exec ∧ ∃ accessCode userCode,
    (Process.heard (Process.dialogue (F.links e).trace))[n]? =
      some (.task accessCode userCode details)

theorem Starts.of_heard {accessCode userCode : UInt64} {second : Bool}
    (h : e < F.size ∧ (F.links e).caller.peer.role = .exec second ∧
      (Process.heard (Process.dialogue (F.links e).trace))[n]? =
        some (.task accessCode userCode details)) : F.Starts e n details :=
  ⟨h.left, h.right.left ▸ trivial, accessCode, userCode, h.right.right⟩

-- The exec takes the task up in this turn.
structure Takes (F : Farm) (e n : Nat) (details : TaskDetails) (turn : Exec.Turn) : Prop where
  starts : F.Starts e n details
  turn   : ∃ second turns, (F.links e).caller = .exec second turns ∧ turns[n]? = some turn

end Farm

-- What has come from an exec about one of its jobs is the first of what its turn has sent.
theorem Matched.replied {codes : Codes} {e n about : Nat} {l : Link} {c : Conn}
    {accessCode userCode : UInt64} {details : TaskDetails} (h : Matched codes e l c)
    (hr : c.role.Exec) (hj : c.sent[n]? = some (about, .task accessCode userCode details))
    (hn : c.results n ≠ []) :
    ∃ second turns turn tr p, l.caller = .exec second turns ∧ turns[n]? = some turn ∧
      (Process.heard (Process.dialogue l.trace))[n]? = some (.task accessCode userCode details) ∧
        (turn.handles details).After tr p ∧
          replies 0 (Process.dialogue l.trace) n = Exec.sent tr ∧ c.results n <+: Exec.sent tr := by
  obtain ⟨held, flying, past, coming, h⟩ := h
  have hs : c.results n <+: replies 0 (Process.dialogue l.trace) n := by
    rw [h.dialogue, Conn.results, h.produced hr]
    exact replies_append
  have hn : replies 0 (Process.dialogue l.trace) n ≠ [] := fun he =>
    hn <| List.prefix_nil.mp <| he ▸ hs
  have hrun := h.runs
  cases hc : l.caller
  case client => simp [h.role_eq, hc, Caller.peer, Peer.role] at hr
  case exec second turns =>
    rw [hc] at hrun
    rcases Caller.exec_dialogue hrun with hd | ⟨d, hj', hd⟩ <;> rw [hd] at hs hn
    case inl => exact absurd rfl hn
    case inr =>
      have hs : c.results n <+: replies 0 d n := hs
      obtain ⟨k, turn, msg, rfl, ht, hm, hb⟩ := hj'.replies (n := 0) hn
      rw [Nat.zero_add] at hj hs hb ⊢
      have hk : (Process.heard (Process.dialogue l.trace))[k]? = some msg := hd ▸ hm
      obtain ⟨_, hsent⟩ := Matched.sent_of_heard ⟨held, flying, past, coming, h⟩ hk
      cases hsent.symm.trans hj
      obtain ⟨tr, p, ha, hb⟩ := hb
      exact ⟨second, turns, turn, tr, p, rfl, ht, hk, ha, hd ▸ hb, hb ▸ hs⟩

namespace Client

variable {files files' : List LazyFile} {ms outs : List Message} {rest : Incoming} {status : Int32}
variable {tr : Trace signature} {last : Message}

theorem messages_outputs (h : ∀ m ∈ outs, m.Result ∧ ¬m.Terminal) :
    Incoming.messages outs rest = .outputs (Exec.outputs outs) rest := by
  induction outs with
  | nil            => rfl
  | cons m outs hi =>
    have ⟨⟨hr, ht⟩, ho⟩ := List.forall_mem_cons.mp h
    cases m
    case taskOutput => exact congrArg _ (hi ho)
    case taskFailed | taskDone => exact absurd trivial ht
    all_goals exact hr.elim

theorem outputs_append_terminal (h : last.Terminal) :
    Exec.outputs (outs ++ [last]) = Exec.outputs outs := by
  cases last
  case taskFailed | taskDone => simp [Exec.outputs]
  all_goals exact h.elim

theorem receive_last (h : last.Terminal)
    (hr : (receive files (.message last .closed)).Runs tr (.ok (some status, files', .closed))) :
    tr = [] ∧ files' = files ∧ Closes last status := by
  cases last
  case taskFailed          =>
    have ⟨ht, he⟩ := Program.Runs.done_iff.mp hr
    cases he
    exact ⟨ht, rfl, rfl⟩
  case taskDone code _ _ _ =>
    cases code
    case none      => cases (Program.Runs.done_iff.mp hr).right
    case some code =>
      have ⟨ht, he⟩ := Program.Runs.done_iff.mp hr
      cases he
      exact ⟨ht, rfl, rfl⟩
  all_goals exact h.elim

-- A client which stops has written all outputs in the transcript, and has its status from the end.
theorem receive_transcript (ht : Transcript ms)
    (hr : (receive files (.messages ms .closed)).Runs tr (.ok (some status, files', .closed))) :
    ∃ outs last, ms = outs ++ [last] ∧ last.Terminal ∧ Closes last status ∧
      (writeOutputs files (Exec.outputs ms)).Runs tr (.ok files') := by
  obtain ⟨outs, ends, rfl, ho, he⟩ := ht
  have hm : Incoming.messages (outs ++ ends) .closed =
      .outputs (Exec.outputs outs) (.messages ends .closed) := by
    rw [← messages_outputs ho]
    exact List.foldr_append
  rw [hm, receive_outputs] at hr
  obtain ⟨files₁, tr₁, tr₂, rfl, h₁, h₂⟩ := hr.of_bind
  rcases he with rfl | ⟨last, hl, rfl⟩
  case inl => cases (Program.Runs.done_iff.mp h₂).right
  case inr =>
    obtain ⟨rfl, rfl, hc⟩ := receive_last hl h₂
    refine ⟨outs, last, rfl, hl, hc, ?_⟩
    rwa [List.append_nil, outputs_append_terminal hl]

end Client
end SprayCC
