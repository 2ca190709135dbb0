import SprayCC.Farm.Theorems.Once
import SprayCC.Process.Panics

open Async Program

-- What the processes of the farm can panic on.

namespace SprayCC

section Outputs

variable {details : TaskDetails} {host : Host}

theorem mapM_getElem? {args : List String} {is : List UInt16} {α : Type} {f : String → α}
    {as : List α} (h : is.mapM (fun i => args[i.toNat]?.map f) = some as) :
    ∀ i ∈ is, i.toNat < args.length := by
  induction is generalizing as with
  | nil          => nofun
  | cons i is hi =>
    simp only [List.mapM_cons, Option.bind_eq_bind, Option.bind_eq_some_iff] at h
    obtain ⟨_, ha, as, hs, _⟩ := h
    have ⟨_, ha, _⟩ := Option.map_eq_some_iff.mp ha
    exact List.forall_mem_cons.mpr ⟨(List.getElem?_eq_some_iff.mp ha).choose, hi hs⟩

-- A task whose outputs are among its arguments can only not be taken up if its command can not be
-- started.
theorem Exec.Turn.Balks.startTask_eq_none {turn : Turn} (h : turn.Balks details)
    (hf : (Client.makeOutputFiles details).isSome) :
    ∃ args outputFiles, redirectOutputs turn.host.tempdir details.args details.outputArgs =
        some (.ok (args, outputFiles)) ∧
      startTask turn.host details.workingDir details.cmd args details.env = none := by
  have ⟨_, hf⟩ := Option.isSome_iff_exists.mp hf
  have hl : ∀ i ∈ details.outputArgs, i.toNat < details.args.length := mapM_getElem? hf
  rcases h with ht | hs
  case inl => simpa [ht] using getTargetId_isSome hl
  case inr =>
    unfold Task.start at hs
    dsimp only at hs
    split at hs <;> [cases hs; skip]
    split at hs <;> [cases hs; skip]
    have hr : (redirectOutputs turn.host.tempdir details.args details.outputArgs).isSome :=
      redirectOutputs_isSome hl
    split at hs
    case h_1 he               => simp [he] at hr
    case h_2                  => cases hs
    case h_3 args paths he    => exact ⟨args, paths, he, Option.map_eq_none_iff.mp hs⟩

end Outputs

-- A client which has submitted its task has found the outputs among the arguments.
theorem Client.makeOutputFiles_of_said {accessCode userPrivateKey : UInt64} {details : TaskDetails}
    {fuel : Nat} {tr : Trace Process.signature} {q : Process.Proc Int32} {msg : Message}
    (h : (session accessCode userPrivateKey details fuel).After tr q)
    (hm : msg ∈ Process.said (Process.dialogue tr)) : (makeOutputFiles details).isSome := by
  cases hf : makeOutputFiles details
  case some => rfl
  case none =>
    have hs : session accessCode userPrivateKey details fuel =
        .fail (.panic (.client "index out of bounds")) := by
      unfold session
      rw [submit_eq, hf]
      rfl
    obtain ⟨rfl, _⟩ := After.fail_iff.mp (hs ▸ h)
    cases hm

theorem Link.Stepped.not_garbled {l l' : Link} {msgs : List (Nat × Message)}
    (h : l.Stepped l' msgs) (hg : ¬Process.Garbled l.trace) : ¬Process.Garbled l'.trace := by
  cases h
  case answers ha _ _ => exact fun hm => (List.mem_append.mp hm).elim hg ha
  all_goals exact hg

namespace Farm

variable {S : Setup} {F : Farm} {i e n : Nat} {details : TaskDetails}
variable {results : List Message} {ended : Bool} {p : Process.Panic}

theorem Told.fits (h : F.Told e n i details results ended) :
    ∀ m ∈ account results ended, Client.Fits details m := by
  have hr m (hm : m ∈ results) : Client.Fits details m := by
    have ⟨turn, tr, p, _, ha, _, hp⟩ := h.turn <| List.ne_nil_of_mem hm
    have ⟨outs, ends, hs, ho, he⟩ := Exec.after_handles ha
    rcases List.mem_append.mp (hs ▸ hp.subset hm) with hm | hm
    case inl =>
      obtain ⟨type, content, ht, rfl⟩ := ho m hm
      exact ht
    case inr =>
      rcases he with rfl | ⟨last, _, rfl, hl, _⟩
      case inl => cases hm
      case inr =>
        obtain rfl := List.mem_singleton.mp hm
        cases m
        case taskFailed | taskDone => trivial
        all_goals exact hl.elim
  unfold account
  split
  case isFalse => exact hr
  case isTrue  =>
    refine List.forall_mem_append.mpr ⟨hr, fun m hm => ?_⟩
    obtain rfl := List.mem_singleton.mp hm
    trivial

theorem Reaches.not_garbled (h : F.Reaches S) : ¬Process.Garbled (F.links i).trace :=
  h.forall_links (P := fun l => ¬Process.Garbled l.trace) nofun id Link.Stepped.not_garbled i

-- The panics which are left: an exec can not start the command of a task, the outputs of a client's
-- task are not among its arguments, or a client is left without a status.
inductive Panics (F : Farm) (i : Nat) : Process.Panic → Prop
  | exec {second turns turn n details args outputFiles} :
    (F.links i).caller = .exec second turns → turns[n]? = some turn → F.Starts i n details →
    redirectOutputs turn.host.tempdir details.args details.outputArgs =
      some (.ok (args, outputFiles)) →
    startTask turn.host details.workingDir details.cmd args details.env = none →
    Panics F i .exec
  | outputs {details fuel} :
    (F.links i).caller = .client details fuel → Client.makeOutputFiles details = none →
    Panics F i (.client "index out of bounds")
  | status {details fuel} :
    (F.links i).caller = .client details fuel →
    (∀ msg ∈ Process.heard (Process.dialogue (F.links i).trace), ∀ status,
      ¬Client.Closes msg status) →
    Panics F i (.client "No task status as set")

theorem Reaches.fits {fuel : Nat} {msg : Message} (h : F.Reaches S) (hi : i < F.size)
    (hc : (F.links i).caller = .client details fuel)
    (hm : msg ∈ Process.heard (Process.dialogue (F.links i).trace)) : Client.Fits details msg := by
  rcases h.told hi hc with hn | ⟨e, n, results, ended, he, hp⟩
  case inl => exact absurd (hn ▸ hm) List.not_mem_nil
  case inr => exact he.fits msg (hp.subset hm)

-- No process panics on what another one sends.
theorem Reaches.panics (h : F.Reaches S) (hi : i < F.size)
    (hp : (F.links i).process = .fail (.panic p)) : F.Panics i p := by
  have ⟨σ, hr, hσ⟩ := h.simulated
  have ⟨_, _, hreach⟩ := hr.reached
  have hman := hreach.mannered Policy.tame_wellBehaved
  have hm := hσ.right.links hi
  have hrun : ((F.links i).caller.process S.codes).Runs (F.links i).trace (.error (.panic p)) :=
    hm.after.runs (hp ▸ .fail)
  cases hc : (F.links i).caller
  case client details fuel =>
    rw [hc] at hrun
    rcases Client.session_panics hrun fun msg hm => h.fits hi hc hm with
      hg | ⟨rfl, hf⟩ | ⟨rfl, hs⟩
    case inl     => exact absurd hg h.not_garbled
    case inr.inl => exact .outputs hc hf
    case inr.inr => exact .status hc hs
  case exec second turns =>
    have hx : (F.links i).caller.peer.role.Exec := hc ▸ trivial
    rw [hc] at hrun
    rcases Runs.bind_iff.mp hrun with ⟨_, hs, he⟩ | ⟨_, _, _, _, _, hd⟩
    case inr => cases (Runs.done_iff.mp hd).right
    cases he
    rcases Exec.session_panics hs with
      ⟨msg, hmsg, ho⟩ | hg | ⟨rfl, n, turn, a, u, details, ht, hb, hn⟩
    case inl     => exact absurd (hm.orders (hman i) hx hmsg) ho
    case inr.inl => exact absurd hg h.not_garbled
    case inr.inr =>
      have hst : F.Starts i n details := ⟨hi, hx, a, u, hn⟩
      obtain ⟨j, _, hj, ⟨fuel, hcj⟩, hsub⟩ := hσ.owner hr hst
      have haft := h.after hj
      rw [hcj] at haft
      obtain ⟨args, outputFiles, hr, hst'⟩ :=
        hb.startTask_eq_none (Client.makeOutputFiles_of_said haft hsub)
      exact .exec hc ht hst hr hst'

-- The exec can not start the command of its task.
theorem panics_stuck :
    ∃ F, Reaches .plain F ∧ (F.links 0).process = .fail (.panic .exec) ∧ F.Panics 0 .exec := by
  have ⟨F, h, hs⟩ := Reaches.of_run (S := .plain)
    (f := fun F => 0 < F.size ∧ (F.links 0).panicked = some .exec) (opening stuckTurn)
    (by decide +kernel)
  have ⟨hi, hp⟩ := of_decide_eq_true hs
  have hp := Link.panicked_iff.mp hp
  exact ⟨F, h, hp, h.panics hi hp⟩

end Farm
end SprayCC
