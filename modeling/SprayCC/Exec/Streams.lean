import Mathlib.Data.List.TakeWhile
import SprayCC.Exec.Run

-- What an exec sends of the streams of a process.

open Async

namespace SprayCC.Exec

-- All lines can be decoded, and each of them ends with a newline but not with a carriage return
-- before.
def Clean (bytes : List UInt8) : Prop :=
  let lines := bytes.splitOn newline
  lines.getLast? = some [] ∧
    ∀ line ∈ lines.dropLast, isUtf8 line ∧ line.getLast? ≠ some carriageReturn

instance : DecidablePred Clean :=
  fun _ => inferInstanceAs <| Decidable (_ ∧ _)

-- The content which is relayed from a reader until it is done, and what it has not read then.
inductive Drains : Reader → List UInt8 → List UInt8 → Prop
  | done  : Drains { rest, done := true } [] rest
  | eof   : nextLine bytes = (.eof, rest) → Drains { rest := bytes, done := false } [] rest
  | error : nextLine bytes = (.error, rest) → Drains { rest := bytes, done := false } [] rest
  | line  : nextLine bytes = (.line line, rest) → Drains { rest, done := false } content left →
    Drains { rest := bytes, done := false } (line ++ newline :: content) left

-- The turns of the loop, each of which takes a line of one stream and leaves the other one as it
-- is.
inductive Relays : (Stream → Reader) → List Message → (Stream → Reader) → Prop
  | nil  : (∀ stream, (readers stream).done) → Relays readers [] readers
  | cons : (readers pick).done = false → (relayLine pick (readers pick)).Runs tr (.ok reader) →
    Relays (Function.update readers pick reader) msgs readers' →
      Relays readers (sent tr ++ msgs) readers'

variable {bytes line rest content left : List UInt8} {tr : Trace signature} {stream : Stream}
variable {picks : List Stream} {readers readers' : Stream → Reader} {reader reader' : Reader}

theorem clean_append (h : newline ∉ line) :
    Clean (line ++ newline :: rest) ↔
      (isUtf8 line ∧ line.getLast? ≠ some carriageReturn) ∧ Clean rest := by
  have hn := List.splitOn_ne_nil newline rest
  have hs : (line ++ newline :: rest).splitOn newline = line :: rest.splitOn newline := by
    rw [List.splitOn_append_cons_self, List.splitOn_eq_singleton h, List.singleton_append]
  simp only [Clean, hs, List.dropLast_cons_of_ne_nil hn, List.forall_mem_cons]
  rw [List.getLast?_cons_of_ne_nil hn]
  exact and_left_comm

theorem clean_iff_of_not_mem (h : newline ∉ bytes) : Clean bytes ↔ bytes = [] := by
  simp [Clean, List.splitOn_eq_singleton h]

theorem forall_ne_newline (h : newline ∉ line) : ∀ b ∈ line, (b != newline) = true :=
  fun _ hb => bne_iff_ne.mpr <| ne_of_mem_of_not_mem hb h

theorem nextLine_append (h : newline ∉ line) :
    nextLine (line ++ newline :: rest) =
      (if isUtf8 line then .line (stripReturn line) else .error, rest) := by
  have hp := forall_ne_newline h
  simp [nextLine, List.takeWhile_append_of_pos hp, List.dropWhile_append_of_pos hp]

theorem nextLine_of_not_mem (h : newline ∉ bytes) :
    nextLine bytes =
      (if bytes = [] then .eof else if isUtf8 bytes then .line bytes else .error, []) := by
  have hp := forall_ne_newline h
  simp only [nextLine, List.dropWhile_eq_nil_iff.mpr hp, List.takeWhile_eq_self_iff.mpr hp]

theorem stripReturn_eq_self_iff : stripReturn line = line ↔
    line.getLast? ≠ some carriageReturn := by
  unfold stripReturn
  split
  case isTrue h  =>
    refine iff_of_false (fun he => ?_) fun hn => hn h
    have hl := congrArg List.length he
    have hn : line ≠ [] := by rintro rfl; cases h
    have := List.length_pos_iff.mpr hn
    rw [List.length_dropLast] at hl
    omega
  case isFalse h => exact iff_of_true rfl h

theorem nextLine_cases (bytes : List UInt8) :
    newline ∉ bytes ∨ ∃ line rest, newline ∉ line ∧ bytes = line ++ newline :: rest := by
  by_cases h : newline ∈ bytes
  case neg => exact .inl h
  case pos =>
    have ⟨line, rest, hb, hn⟩ := List.eq_append_cons_of_mem h
    exact .inr ⟨line, rest, hn, hb⟩

theorem append_newline_inj {line' rest' : List UInt8} (h : newline ∉ line) (h' : newline ∉ line') :
    line ++ newline :: rest = line' ++ newline :: rest' ↔ line = line' ∧ rest = rest' := by
  refine ⟨fun he => ?_, by rintro ⟨rfl, rfl⟩; rfl⟩
  have hl := congrArg (List.takeWhile (· != newline)) he
  rw [List.takeWhile_append_of_pos (forall_ne_newline h)] at hl
  rw [List.takeWhile_append_of_pos (forall_ne_newline h')] at hl
  simp only [bne_self_eq_false, Bool.false_eq_true, not_false_eq_true, List.takeWhile_cons_of_neg,
    List.append_nil] at hl
  subst hl
  exact ⟨rfl, (List.cons.inj <| List.append_cancel_left he).right⟩

theorem Drains.cases (h : Drains { rest := bytes, done := false } content left) :
    match nextLine bytes with
    | (.line line, rest) =>
      ∃ content', content = line ++ newline :: content' ∧
        Drains { rest, done := false } content' left
    | (_, rest)          => content = [] ∧ left = rest := by
  generalize hr : ({ rest := bytes, done := false } : Reader) = reader at h
  cases h <;> cases hr
  case eof h      => simp only [h, and_self]
  case error h    => simp only [h, and_self]
  case line h₁ h₂ => simpa only [h₂] using ⟨_, rfl, h₁⟩

theorem Drains.of_append (hl : newline ∉ line)
    (h : Drains { rest := line ++ newline :: rest, done := false } content left) :
    (isUtf8 line ∧ ∃ content', content = stripReturn line ++ newline :: content' ∧
      Drains { rest, done := false } content' left) ∨ ¬isUtf8 line ∧ content = [] := by
  have h := h.cases
  rw [nextLine_append hl] at h
  by_cases hu : isUtf8 line
  case pos =>
    rw [if_pos hu] at h
    exact .inl ⟨hu, h⟩
  case neg =>
    rw [if_neg hu] at h
    exact .inr ⟨hu, h.left⟩

-- What follows the last newline gets one of its own.
theorem Drains.of_not_mem (hb : newline ∉ bytes)
    (h : Drains { rest := bytes, done := false } content left) :
    left = [] ∧ (content = [] ∨ bytes ≠ [] ∧ content = bytes ++ [newline]) := by
  have h := h.cases
  rw [nextLine_of_not_mem hb] at h
  by_cases hn : bytes = []
  case pos =>
    rw [if_pos hn] at h
    exact ⟨h.right, .inl h.left⟩
  case neg =>
    rw [if_neg hn] at h
    by_cases hu : isUtf8 bytes
    case pos =>
      rw [if_pos hu] at h
      have ⟨content', hc, h⟩ := h
      have h := h.cases
      rw [nextLine_of_not_mem List.not_mem_nil] at h
      exact ⟨h.right, .inr ⟨hn, h.left ▸ hc⟩⟩
    case neg =>
      rw [if_neg hu] at h
      exact ⟨h.right, .inl h.left⟩

theorem not_mem_stripReturn (h : newline ∉ line) : newline ∉ stripReturn line := by
  unfold stripReturn
  split
  case isTrue  => exact fun hm => h <| List.mem_of_mem_dropLast hm
  case isFalse => exact h

-- What is relayed is what was written just if it is clean.
theorem Drains.eq_iff (h : Drains { rest := bytes, done := false } content left) :
    content = bytes ∧ left = [] ↔ Clean bytes := by
  induction hn : bytes.length using Nat.strong_induction_on generalizing bytes content with
  | _ n hi =>
  rcases nextLine_cases bytes with hb | ⟨line, rest, hl, rfl⟩
  case inl =>
    have ⟨hl, hc⟩ := h.of_not_mem hb
    simp only [clean_iff_of_not_mem hb, hl, and_true]
    rcases hc with rfl | ⟨hn, rfl⟩
    case inl => exact eq_comm
    case inr => exact iff_of_false (by simp) hn
  case inr =>
    rw [clean_append hl]
    rcases h.of_append hl with ⟨hu, content', rfl, hd⟩ | ⟨hu, rfl⟩
    case inl =>
      have hi := hi rest.length (by simp [← hn]; omega) hd rfl
      rw [append_newline_inj (not_mem_stripReturn hl) hl, stripReturn_eq_self_iff, and_assoc, hi]
      simp only [hu, true_and]
    case inr => exact iff_of_false (by simp) fun h => hu h.left.left

theorem relayLine_only (hr : (relayLine stream reader).Runs tr (.ok reader')) :
    OnlyOutputs (· = stream.outputType) (sent tr) := by
  unfold relayLine at hr
  split at hr
  case h_1 =>
    have ⟨_, _, _, ht, hw, hr⟩ := hr.of_bind
    rw [ht, (Program.Runs.done_iff.mp hr).left, List.append_nil, runs_writeMessage hw]
    exact .output rfl
  case h_2 => exact (Program.Runs.done_iff.mp hr).left ▸ .nil
  case h_3 => exact (Program.Runs.done_iff.mp hr).left ▸ .nil

theorem relayLine_drains
    (hr : (relayLine stream { rest := bytes, done := false }).Runs tr (.ok reader))
    (hd : Drains reader content left) :
    Drains { rest := bytes, done := false }
      ((contents stream.outputType (sent tr)).flatten ++ content) left := by
  unfold relayLine at hr
  split at hr
  case h_1 line rest hn =>
    have ⟨_, tr', _, ht, hw, hr⟩ := hr.of_bind
    have ⟨ht', hr⟩ := Program.Runs.done_iff.mp hr
    cases hr
    rw [ht, ht', List.append_nil, runs_writeMessage hw]
    simpa using Drains.line hn hd
  case h_2 rest hn =>
    have ⟨ht, hr⟩ := Program.Runs.done_iff.mp hr
    cases hr
    cases hd
    exact ht ▸ .eof hn
  case h_3 rest hn =>
    have ⟨ht, hr⟩ := Program.Runs.done_iff.mp hr
    cases hr
    cases hd
    exact ht ▸ .error hn

theorem runs_relay (hr : (relay picks readers).Runs tr (.ok readers')) :
    Relays readers (sent tr) readers' := by
  induction picks generalizing readers tr with
  | nil =>
    unfold relay at hr
    split at hr
    case isTrue hd  =>
      have ⟨ht, hr⟩ := Program.Runs.done_iff.mp hr
      cases hr
      exact ht ▸ .nil fun | .stdout => hd.left | .stderr => hd.right
    case isFalse hd => cases (Program.Runs.fail_iff.mp hr).right
  | cons pick picks hi =>
    unfold relay at hr
    split at hr
    case isTrue hd  =>
      have ⟨ht, hr⟩ := Program.Runs.done_iff.mp hr
      cases hr
      exact ht ▸ .nil fun | .stdout => hd.left | .stderr => hd.right
    case isFalse hd =>
      dsimp only at hr
      by_cases hp : (readers pick).done
      case pos =>
        rw [if_pos hp] at hr
        exact hi hr
      case neg =>
        rw [if_neg hp] at hr
        have ⟨reader, tr₁, tr₂, ht, h₁, h₂⟩ := hr.of_bind
        rw [ht, sent_append]
        exact .cons (eq_false_of_ne_true hp) h₁ (hi h₂)

namespace Relays

variable {msgs : List Message}

theorem drains (h : Relays readers msgs readers') :
    Drains (readers stream) (contents stream.outputType msgs).flatten (readers' stream).rest := by
  induction h with
  | @nil readers hd =>
    have he : readers stream = { rest := (readers stream).rest, done := true } := hd stream ▸ rfl
    rw [he]
    exact .done
  | @cons readers pick tr reader msgs _ hp hr _ hi =>
    have he : readers pick = { rest := (readers pick).rest, done := false } := hp ▸ rfl
    rw [contents_append, List.flatten_append]
    by_cases hs : stream = pick
    case pos =>
      subst hs
      rw [Function.update_self] at hi
      rw [he] at hr
      exact he ▸ relayLine_drains hr hi
    case neg =>
      rw [Function.update_of_ne hs] at hi
      rw [(relayLine_only hr).contents_eq_nil fun ht => hs <| Stream.outputType_injective ht]
      exact hi

theorem only (h : Relays readers msgs readers') :
    OnlyOutputs (∃ stream : Stream, · = stream.outputType) msgs := by
  induction h with
  | nil            => exact .nil
  | cons _ hr _ hi => exact .append ((relayLine_only hr).mono fun he => ⟨_, he⟩) hi

end Relays

-- Both streams come back as they were written, and are read to their end, just if they are clean.
theorem relayed_iff {picks : List Stream} {runTime sendTime : Duration} {task : Task}
    {targetId : String} {rest : Stream → List UInt8}
    (hr : (runTask picks runTime sendTime task targetId).Runs tr (.ok rest)) :
    (∀ stream, (contents (Stream.outputType stream) (sent tr)).flatten = task.child.output stream ∧
        rest stream = []) ↔
      ∀ stream, Clean (task.child.output stream) := by
  have ⟨readers, code, tr₁, tr₂, h₁, h₂, ht, hrest⟩ := runs_runTask hr
  refine forall_congr' fun stream => ?_
  have hd : Drains _ (contents stream.outputType (sent tr₁)).flatten (readers stream).rest :=
    (runs_relay h₁).drains
  have hc : contents stream.outputType (sent tr) = contents stream.outputType (sent tr₁) := by
    have hn : contents stream.outputType (sent tr₂) = [] :=
      (sendOutputFiles_only h₂).contents_eq_nil fun ⟨_, _, he⟩ => Stream.outputType_ne_file he
    simp [ht, hn]
  rw [hc, hrest]
  exact hd.eq_iff

def echo (stdout : List UInt8) : Task where
  child :=
    { output := fun
        | .stdout => stdout
        | .stderr => []
      wait   := fun _ => .exited (some 0)
      reads  := fun _ => none }
  outputFiles := []

-- A line which is written at once, in the order in which the loop reads.
def echoed (stdout : List UInt8) : Trace signature × Except Fault (Stream → List UInt8) :=
  (runTask [.stdout, .stderr, .stdout] 7 8 (echo stdout) "/;echo").play fun _ => true

theorem relayed_echo :
    ∃ rest, (runTask [.stdout, .stderr, .stdout] 7 8 (echo [104, 105, 10]) "/;echo").Runs
        (echoed [104, 105, 10]).fst (.ok rest) ∧
      ((∀ stream, (contents (Stream.outputType stream) (sent (echoed [104, 105, 10]).fst)).flatten =
            (echo [104, 105, 10]).child.output stream ∧ rest stream = []) ↔
        ∀ stream, Clean ((echo [104, 105, 10]).child.output stream)) := by
  have hk : (echoed [104, 105, 10]).snd.isOk := by decide +kernel
  have ⟨rest, hr⟩ := Program.exists_runs_play hk
  exact ⟨rest, hr, relayed_iff hr⟩

-- A newline is made up at the end of the output if there is none.
theorem newline_added :
    ¬∀ picks runTime sendTime task targetId tr rest,
      (runTask picks runTime sendTime task targetId).Runs tr (.ok rest) →
        ∀ stream,
          (contents (Stream.outputType stream) (sent tr)).flatten = task.child.output stream ∧
          rest stream = [] := by
  intro h
  have hk : (echoed [104, 105]).snd.isOk := by decide +kernel
  have ⟨rest, hr⟩ := Program.exists_runs_play hk
  have hc := (h _ _ _ _ _ _ _ hr .stdout).left
  have he : (contents .stdout (sent (echoed [104, 105]).fst)).flatten = [104, 105, 10] := by
    decide +kernel
  cases he.symm.trans hc

end SprayCC.Exec
