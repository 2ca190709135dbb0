import SprayCC.Outputs
import SprayCC.Process.Panics

open Async Program

-- What the exit code of a client tells about its task.

namespace SprayCC.Client

-- The files of the client have been written.
def Written : (c : Process.Call) → c.Answer → Prop
  | .file _, ok => ok = true
  | _,       _  => True

-- The client goes on after the message.
def Continues : Message → Prop
  | .taskOutput ..      => True
  | .taskDone none ..   => True
  | _                   => False

variable {shell : Shell} {userPrivateKey : UInt64} {contact : Option CallMe} {fuel : Nat}
variable {args : List String} {task : TaskDetails} {tr : Trace Process.signature}
variable {r : Except Process.Fault Int32} {files files' : List LazyFile} {ms : List Message}
variable {status : Int32}

-- The caller of the process takes the status for a success.
def Passes (status : Int32) : Prop :=
  0 ≤ status ∧ 256 ∣ status.toInt

theorem toUInt8_eq_zero (h : 0 ≤ status) :
    status.toUInt32.toUInt8 = 0 ↔ 256 ∣ status.toInt := by
  have hn : (status.toUInt32.toNat : Int) = status.toInt := by
    rw [Int32.toNat_toUInt32_of_le h]
    exact Int.toNat_of_nonneg (Int32.le_iff_toInt_le.mp h)
  rw [← UInt8.toNat_inj, UInt32.toNat_toUInt8, ← hn]
  show status.toUInt32.toNat % 256 = 0 ↔ _
  omega

theorem exitCode_eq_zero : exitCode r = some 0 ↔ ∃ status, r = .ok status ∧ Passes status := by
  cases r
  case error e => cases e <;> simp [exitCode]
  case ok ec =>
    simp only [exitCode, Option.some.injEq, Except.ok.injEq, exists_eq_left', Passes]
    by_cases hn : ec < 0
    case pos =>
      rw [if_neg (Int32.not_lt.mpr (Int32.le_of_lt hn)), if_pos hn]
      exact iff_of_false (by decide) fun h => Int32.not_lt.mpr h.left hn
    case neg =>
      have hl := Int32.not_lt.mp hn
      have hc : (if 0 < ec then ec else if ec < 0 then -1 else 0) = ec := by
        split
        case isTrue     => rfl
        case isFalse hp => exact Int32.le_antisymm hl (Int32.not_lt.mp hp)
      rw [hc, toUInt8_eq_zero hl, and_iff_right hl]

section Accepts

variable {α : Type} {p : Proc α}

theorem callOrErr_accepts {c : Call} : (callOrErr c).Accepts fun _ ok => ok = true
  | true  => ⟨.inl rfl, trivial⟩
  | false => ⟨.inr ⟨_, rfl⟩, trivial⟩

theorem writeOutput_accepts {type : OutputType} {content : List UInt8} :
    (writeOutput files type content).Accepts fun _ ok => ok = true := by
  cases type
  case stdout | stderr => exact callOrErr_accepts.bind fun _ => trivial
  case file =>
    refine .of_get fun file _ => .bind ?_ fun _ => callOrErr_accepts.bind fun _ => trivial
    cases file
    case fileName    => exact callOrErr_accepts.bind fun _ => trivial
    case file | none => trivial

theorem handleMsg_accepts {msg : Message} :
    (handleMsg files msg).Accepts fun _ ok => ok = true := by
  cases msg
  case taskOutput => exact writeOutput_accepts.bind fun _ => trivial
  all_goals trivial

theorem shutdownFiles_accepts : (shutdownFiles files).Accepts fun _ ok => ok = true := by
  unfold shutdownFiles
  generalize files.reverse = files
  induction files with
  | nil                => trivial
  | cons file files hi =>
    refine .bind ?_ fun _ => hi
    cases file
    case file            => exact callOrErr_accepts
    case fileName | none => trivial

theorem lift_accepts (h : p.Accepts fun _ ok => ok = true) :
    (p.lift host Fault.ofFiles).Accepts Written :=
  h.lift fun _ _ => id

theorem listen_accepts : (listen fuel files).Accepts Written := by
  induction fuel generalizing files with
  | zero => trivial
  | succ fuel hi =>
    intro arrival
    refine ⟨.inl trivial, ?_⟩
    cases arrival
    case message =>
      refine (lift_accepts handleMsg_accepts).bind fun (status, files) => ?_
      cases status
      case none => exact hi
      case some => trivial
    all_goals trivial

theorem session_accepts {accessCode : UInt64} :
    (session accessCode userPrivateKey task fuel).Accepts Written := by
  refine .bind (.of_get fun files _ => ?_) fun status => ?_
  case refine_1 =>
    have hw : (Process.writeOrErr (.task accessCode userPrivateKey task)).Accepts Written :=
      fun ok => ⟨.inl trivial, by cases ok <;> trivial⟩
    refine hw.bind fun _ => listen_accepts.bind fun (_, files) => ?_
    exact (lift_accepts shutdownFiles_accepts).bind fun _ => fun _ => ⟨.inl trivial, trivial⟩
  case refine_2 => cases status <;> trivial

end Accepts

section Listen

theorem handleMsg_runs {msg : Message} {status : Option Int32} {tr : Trace signature}
    (h : (handleMsg files msg).Runs tr (.ok (status, files'))) :
    status = none ∧ Continues msg ∨ ∃ code, status = some code ∧ Closes msg code := by
  cases msg
  case taskOutput =>
    obtain ⟨_, _, tr', _, _, h₂⟩ := h.of_bind
    cases (Runs.done_iff.mp h₂).right
    exact .inl ⟨rfl, trivial⟩
  case taskFailed =>
    cases (Runs.done_iff.mp h).right
    exact .inr ⟨_, rfl, rfl⟩
  case taskDone =>
    cases (Runs.done_iff.mp h).right
    cases status
    case none => exact .inl ⟨rfl, trivial⟩
    case some => exact .inr ⟨_, rfl, rfl⟩
  all_goals cases (Runs.fail_iff.mp h).right

theorem handleMsg_closes {msg : Message} (h : Closes msg status) :
    handleMsg files msg = pure (some status, files) := by
  cases msg
  case taskFailed => cases h; rfl
  case taskDone exitCode _ _ _ =>
    cases exitCode <;> cases h
    rfl
  all_goals exact h.elim

theorem Continues.not_closes {msg : Message} (h : Continues msg) : ¬Closes msg status := by
  cases msg
  case taskOutput => exact id
  case taskDone exitCode _ _ _ =>
    cases exitCode
    case none => exact id
    case some => exact h.elim
  all_goals exact h.elim

-- The status is that of the first message which has one.
theorem receive_closes {tr : Trace signature}
    (h : (receive files (.messages ms .closed)).Runs tr (.ok (some status, files', .closed))) :
    ∃ outs last, ms = outs ++ [last] ∧ (∀ msg ∈ outs, Continues msg) ∧ Closes last status := by
  induction ms generalizing files tr with
  | nil            => cases (Runs.done_iff.mp h).right
  | cons msg ms hi =>
    obtain ⟨⟨status', files''⟩, tr₁, tr₂, rfl, h₁, h₂⟩ := h.of_bind
    rcases handleMsg_runs h₁ with ⟨rfl, hm⟩ | ⟨code, rfl, hm⟩
    case inl =>
      have ⟨outs, last, he, ho, hl⟩ := hi h₂
      exact ⟨msg :: outs, last, congrArg _ he, List.forall_mem_cons.mpr ⟨hm, ho⟩, hl⟩
    case inr =>
      obtain ⟨_, he⟩ := Runs.done_iff.mp h₂
      cases ms
      case nil  => cases he; exact ⟨[], msg, rfl, nofun, hm⟩
      case cons => cases he

-- A loop which has heard the status has ended with it.
theorem listen_closed {outs : List Message} {last : Message}
    {r : Except Process.Fault (Option Int32 × List LazyFile)} (ho : ∀ msg ∈ outs, Continues msg)
    (hl : Closes last status) (hd : Process.dialogue tr = (outs ++ [last]).map .heard)
    (h : (listen fuel files).Runs tr r) : ∃ files', r = .ok (some status, files') := by
  induction fuel generalizing files outs tr with
  | zero =>
    obtain ⟨rfl, _⟩ := Runs.fail_iff.mp h
    cases outs <;> cases hd
  | succ fuel hi =>
    obtain ⟨arrival, tr, rfl, hp⟩ := Runs.call_iff.mp h
    cases arrival
    case message msg =>
      have hp : ((handleMsg files msg).lift host Fault.ofFiles >>= fun x =>
        if x.fst.isNone then listen fuel x.snd else pure x).Runs tr r := hp
      rw [Process.dialogue_read] at hd
      cases outs with
      | nil           =>
        cases (List.cons.inj hd).left
        rw [handleMsg_closes hl] at hp
        exact ⟨files, (Runs.done_iff.mp hp).right⟩
      | cons out outs =>
        obtain ⟨he, ht⟩ := List.cons.inj hd
        cases he
        obtain ⟨hm, ho⟩ := List.forall_mem_cons.mp ho
        rcases Runs.bind_iff.mp hp with ⟨e, hf, rfl⟩ | ⟨⟨status', files'⟩, tr₁, tr₂, rfl, h₁, h₂⟩
        case inl =>
          obtain ⟨tr₁, _, _, rfl, _⟩ := hf.of_lift
          rw [dialogue_host] at ht
          cases outs <;> cases ht
        case inr =>
          obtain ⟨tr₁, hr, rfl⟩ := h₁.ok_of_lift
          rw [Process.dialogue_append, dialogue_host, List.nil_append] at ht
          rcases handleMsg_runs hr with ⟨rfl, _⟩ | ⟨_, _, hc⟩
          case inl => exact hi ho ht h₂
          case inr => exact absurd hc hm.not_closes
    case closed =>
      obtain ⟨rfl, _⟩ := Runs.done_iff.mp hp
      cases outs <;> cases hd
    case error | undecodable =>
      obtain ⟨rfl, _⟩ := Runs.fail_iff.mp hp
      cases outs <;> cases hd

end Listen

section Session

variable {accessCode : UInt64} {rt : Except Process.Fault (Option Int32)}

theorem written_files {tr : Trace signature} (h : ∀ x ∈ host.trace tr, Written x.fst x.snd) :
    Succeeds tr :=
  fun _ hx => h _ <| List.mem_map_of_mem hx

theorem close_ok {status : Option Int32} (h : (close files status).Runs tr rt)
    (hw : ∀ x ∈ tr, Written x.fst x.snd) : rt = .ok status := by
  rcases Runs.bind_iff.mp h with ⟨e, hf, rfl⟩ | ⟨_, _, tr₂, rfl, _, h₂⟩
  case inl =>
    obtain ⟨tr, r, hr, rfl, he⟩ := hf.of_lift
    rcases shutdownFiles_lasts _ _ hr with ⟨_, _, rfl, _⟩ | ⟨hn, _⟩
    case inl => cases he
    case inr => exact absurd (written_files hw) hn
  case inr =>
    obtain ⟨_, _, _, h₃⟩ := Runs.call_iff.mp h₂
    exact (Runs.done_iff.mp h₃).right

theorem submit_closed {outs : List Message} {last : Message} {msg : Message}
    (ho : ∀ msg ∈ outs, Continues msg) (hl : Closes last status)
    (hd : Process.dialogue tr = .said msg :: (outs ++ [last]).map .heard)
    (hw : ∀ x ∈ tr, Written x.fst x.snd)
    (h : (submit accessCode userPrivateKey task fuel).Runs tr rt) : rt = .ok (some status) := by
  rw [submit_eq] at h
  cases hf : makeOutputFiles task <;> rw [hf] at h
  case none =>
    obtain ⟨rfl, _⟩ := Runs.fail_iff.mp h
    cases hd
  case some files =>
    have hs : (Process.writeOrErr (.task accessCode userPrivateKey task) >>= fun _ =>
      listen fuel files >>= fun x => close x.snd x.fst).Runs tr rt := h
    obtain ⟨ok, tr, rfl, hp⟩ := Runs.call_iff.mp hs
    cases ok
    case false =>
      obtain ⟨rfl, _⟩ := Runs.fail_iff.mp hp
      cases hd
    case true =>
      have hp : (listen fuel files >>= fun x => close x.snd x.fst).Runs tr rt := hp
      rw [Process.dialogue_write] at hd
      have hd := (List.cons.inj hd).right
      have hw := (List.forall_mem_cons.mp hw).right
      rcases Runs.bind_iff.mp hp with ⟨e, he, rfl⟩ | ⟨⟨status', files'⟩, tr₁, tr₂, rfl, h₁, h₂⟩
      case inl =>
        obtain ⟨_, hn⟩ := listen_closed ho hl hd he
        cases hn
      case inr =>
        have hq := Process.dialogue_eq_nil (close_quiet.runs h₂).left
        rw [Process.dialogue_append, hq, List.append_nil] at hd
        obtain ⟨_, hn⟩ := listen_closed ho hl hd h₁
        cases hn
        exact close_ok h₂ fun x hx => hw x <| List.mem_append_right _ hx

-- A client returns the status of the first message which has one, if it could write its files.
theorem session_ok_iff (h : (session accessCode userPrivateKey task fuel).Runs tr r) :
    r = .ok status ↔ (∀ x ∈ tr, Written x.fst x.snd) ∧
      ∃ (outs : List Message) (last : Message), (∀ msg ∈ outs, Continues msg) ∧
        Closes last status ∧ Process.dialogue tr =
          .said (.task accessCode userPrivateKey task) :: (outs ++ [last]).map .heard := by
  constructor
  case mp =>
    intro hr
    subst hr
    have ⟨ms, _, _, _, _, hd, _, _, _, hr⟩ := session_runs h
    obtain ⟨outs, last, rfl, ho, hl⟩ := receive_closes (hr .closed)
    exact ⟨session_accepts.runs h, outs, last, ho, hl, hd⟩
  case mpr =>
    intro ⟨hw, outs, last, ho, hl, hd⟩
    rcases Runs.bind_iff.mp h with ⟨e, hs, _⟩ | ⟨status', tr₁, tr₂, rfl, h₁, h₂⟩
    case inl => cases submit_closed ho hl hd hw hs
    case inr =>
      have hn : tr₂ = [] := by
        cases status'
        case none => exact (Runs.fail_iff.mp h₂).left
        case some => exact (Runs.done_iff.mp h₂).left
      rw [hn, List.append_nil] at hd hw
      cases submit_closed ho hl hd hw h₁
      exact (Runs.done_iff.mp h₂).right

end Session

section Connect

variable {addr : String} {count : Nat} {callme : CallMe} {rb : Except Process.Fault Bool}

-- An attempt to connect which has failed, and the pause after it.
def retry (addr : String) (random : UInt64) : Trace Process.signature :=
  [⟨.connect addr, false⟩, ⟨.random, random⟩, ⟨.sleep (backoff random), ()⟩]

theorem connectFrom_runs (hc : count ≤ 5) : (connectFrom addr count).Runs tr rb ↔
    ∃ (randoms : List UInt64) (ok : Bool), rb = .ok ok ∧ count + randoms.length ≤ 5 ∧
      (ok = false → count + randoms.length = 5) ∧
        tr = randoms.flatMap (retry addr) ++ [⟨.connect addr, ok⟩] := by
  induction hn : 5 - count generalizing count tr with
  | zero =>
    obtain rfl : count = 5 := by omega
    rw [connectFrom]
    constructor
    case mp =>
      intro h
      obtain ⟨ok, tr, rfl, hd⟩ := Runs.call_iff.mp h
      cases ok
      case false =>
        obtain ⟨rfl, rfl⟩ := Runs.done_iff.mp hd
        exact ⟨[], false, rfl, le_rfl, fun _ => rfl, rfl⟩
      case true  =>
        obtain ⟨rfl, rfl⟩ := Runs.done_iff.mp hd
        exact ⟨[], true, rfl, le_rfl, fun _ => rfl, rfl⟩
    case mpr =>
      rintro ⟨randoms, ok, rfl, hl, _, rfl⟩
      obtain rfl : randoms = [] := List.eq_nil_of_length_eq_zero (by omega)
      cases ok <;> exact .call .done
  | succ n hi =>
    have hlt : count < 5 := by omega
    have hi {tr} := @hi tr (count + 1) (by omega) (by omega)
    rw [connectFrom]
    simp only [if_pos hlt]
    constructor
    case mp =>
      intro h
      obtain ⟨ok, tr, rfl, hk⟩ := Runs.call_iff.mp h
      cases ok
      case true =>
        obtain ⟨rfl, rfl⟩ := Runs.done_iff.mp hk
        exact ⟨[], true, rfl, hc, nofun, rfl⟩
      case false =>
        obtain ⟨random, tr, rfl, hs⟩ := Runs.call_iff.mp hk
        obtain ⟨_, tr, rfl, hf⟩ := Runs.call_iff.mp hs
        obtain ⟨randoms, ok, rfl, hl, ho, rfl⟩ := hi.mp hf
        refine ⟨random :: randoms, ok, rfl, ?_, fun he => ?_, rfl⟩
        case refine_1 => rw [List.length_cons]; omega
        case refine_2 => rw [List.length_cons, ← ho he]; omega
    case mpr =>
      rintro ⟨randoms, ok, rfl, hl, ho, rfl⟩
      cases randoms with
      | nil                  =>
        cases ok
        case false => exact absurd (ho rfl) (by rw [List.length_nil]; omega)
        case true  => exact .call .done
      | cons random randoms =>
        rw [List.length_cons] at hl ho
        have hf := hi.mpr ⟨randoms, ok, rfl, by omega, fun he => by have := ho he; omega, rfl⟩
        exact .call <| .call <| .call hf

theorem dialogue_retries {randoms : List UInt64} {ok : Bool} :
    Process.dialogue (randoms.flatMap (retry addr) ++ [⟨.connect addr, ok⟩]) = [] := by
  induction randoms with
  | nil         => rfl
  | cons _ _ hi => exact hi

theorem written_retries {randoms : List UInt64} {ok : Bool} :
    ∀ x ∈ randoms.flatMap (retry addr) ++ [⟨.connect addr, ok⟩], Written x.fst x.snd := by
  intro x hx
  rcases List.mem_append.mp hx with hx | hx
  case inl =>
    obtain ⟨random, _, hx⟩ := List.mem_flatMap.mp hx
    simp only [retry, List.mem_cons, List.not_mem_nil, or_false] at hx
    rcases hx with rfl | rfl | rfl <;> trivial
  case inr => exact List.mem_singleton.mp hx ▸ trivial

theorem runs_connectWRetry : (connectWRetry callme).Runs tr rb ↔
    ∃ (randoms : List UInt64) (ok : Bool), rb = .ok ok ∧ randoms.length ≤ 5 ∧
      (ok = false → randoms.length = 5) ∧
        tr = randoms.flatMap (retry callme.addr) ++ [⟨.connect callme.addr, ok⟩] := by
  unfold connectWRetry
  simpa only [Nat.zero_add] using connectFrom_runs (Nat.zero_le 5)

end Connect

section Success

variable {callme : CallMe} {rt : Except Process.Fault (Option Int32)}

-- The task has run on the host of the client, with success.
def RanLocally (shell : Shell) (task : TaskDetails) (tr : Trace Process.signature) : Prop :=
  ∃ (cmdPath : String) (code : Int32), Passes code ∧ shell.which task.cmd = some cmdPath ∧
    tr = [⟨.spawn cmdPath task.args.tail task.workingDir, true⟩, ⟨.wait, some (some code)⟩]

-- The task was given to the server, from which the client has heard that it has run with success.
-- All of what the client has heard before that is in its files.
def RanRemotely (callme : CallMe) (userPrivateKey : UInt64) (task : TaskDetails)
    (tr : Trace Process.signature) : Prop :=
  (∀ x ∈ tr, Written x.fst x.snd) ∧
    ∃ (outs : List Message) (code : Int32) (targetId : String) (runTime sendTime : Duration),
      Passes code ∧ (∀ msg ∈ outs, Continues msg) ∧ Process.dialogue tr =
        .said (.task callme.accessCode userPrivateKey task) ::
          (outs ++ [Message.taskDone (some code) targetId runTime sendTime]).map .heard

theorem exists_of_closes {msg : Message} (h : Closes msg status) (hp : Passes status) :
    ∃ (targetId : String) (runTime sendTime : Duration),
      msg = .taskDone (some status) targetId runTime sendTime := by
  cases msg
  case taskFailed =>
    cases h
    exact absurd hp.left (by decide)
  case taskDone exitCode targetId runTime sendTime =>
    cases exitCode <;> cases h
    exact ⟨targetId, runTime, sendTime, rfl⟩
  all_goals exact h.elim

theorem runLocalTask_passes (h : (runLocalTask shell task >>= expectStatus).Runs tr r) :
    (∃ status, r = .ok status ∧ Passes status) ↔ RanLocally shell task tr := by
  unfold RanLocally
  unfold runLocalTask at h
  have hn {e : Process.Fault} (hr : r = .error e) {P : Prop} (hp : ¬P) :
      (∃ status, r = .ok status ∧ Passes status) ↔ P :=
    iff_of_false (fun ⟨_, he, _⟩ => by cases hr.symm.trans he) hp
  split at h
  case h_1 cmdPath _ args hw ha =>
    obtain ⟨ok, tr, rfl, hk⟩ := Runs.call_iff.mp h
    rw [hw, ha, List.tail_cons]
    cases ok
    case false => exact hn (Runs.fail_iff.mp hk).right fun ⟨_, _, _, _, ht⟩ => by cases ht
    case true =>
      obtain ⟨status, tr, rfl, hs⟩ := Runs.call_iff.mp hk
      rcases status with _ | _ | code
      case none | some.none =>
        exact hn (Runs.fail_iff.mp hs).right fun ⟨_, _, _, _, ht⟩ => by cases ht
      case some.some =>
        obtain ⟨rfl, rfl⟩ := Runs.done_iff.mp hs
        constructor
        case mp =>
          intro ⟨status, he, hp⟩
          cases he
          exact ⟨cmdPath, code, hp, rfl, rfl⟩
        case mpr =>
          intro ⟨_, _, hp, _, ht⟩
          cases ht
          exact ⟨_, rfl, hp⟩
  case h_2 | h_3 =>
    obtain ⟨rfl, he⟩ := Runs.fail_iff.mp h
    exact hn he fun ⟨_, _, _, _, ht⟩ => by cases ht

theorem connected_passes (h : (connectWRetry callme >>= fun ok =>
      if ok then session callme.accessCode userPrivateKey task fuel else pure (-1)).Runs tr r) :
    (∃ status, r = .ok status ∧ Passes status) ↔ RanRemotely callme userPrivateKey task tr := by
  rcases Runs.bind_iff.mp h with ⟨e, he, _⟩ | ⟨ok, tr₁, tr₂, rfl, h₁, h₂⟩
  case inl => obtain ⟨_, _, he, _⟩ := runs_connectWRetry.mp he; cases he
  obtain ⟨randoms, _, _, _, _, rfl⟩ := runs_connectWRetry.mp h₁
  unfold RanRemotely
  rw [Process.dialogue_append, dialogue_retries, List.nil_append]
  cases ok
  case false =>
    obtain ⟨rfl, rfl⟩ := Runs.done_iff.mp h₂
    refine iff_of_false (fun ⟨_, he, hp⟩ => ?_) fun ⟨_, _, _, _, _, _, _, _, hd⟩ => by cases hd
    cases he
    exact absurd hp.left (by decide)
  case true =>
    constructor
    case mp =>
      intro ⟨status, hr, hp⟩
      obtain ⟨hw, outs, last, ho, hl, hd⟩ := (session_ok_iff h₂).mp hr
      obtain ⟨targetId, runTime, sendTime, rfl⟩ := exists_of_closes hl hp
      exact ⟨List.forall_mem_append.mpr ⟨written_retries, hw⟩, outs, status, targetId, runTime,
        sendTime, hp, ho, hd⟩
    case mpr =>
      intro ⟨hw, outs, code, targetId, runTime, sendTime, hp, ho, hd⟩
      refine ⟨code, (session_ok_iff h₂).mpr ?_, hp⟩
      exact ⟨(List.forall_mem_append.mp hw).right, outs,
        .taskDone (some code) targetId runTime sendTime, ho, rfl, hd⟩

-- The exit code of a client is zero if and only if its task has been done with success.
theorem runArgs_success_iff (h : (runArgs shell userPrivateKey contact fuel args).Runs tr r) :
    exitCode r = some 0 ↔ ∃ runLocal task,
      interpretCommandLine shell args = some (.ok (runLocal, task)) ∧
        if runLocal then RanLocally shell task tr
        else ∃ callme, contact = some callme ∧ RanRemotely callme userPrivateKey task tr := by
  rw [exitCode_eq_zero]
  unfold runArgs at h
  split at h
  case h_1 hc | h_2 hc =>
    obtain ⟨_, rfl⟩ := Runs.fail_iff.mp h
    exact iff_of_false nofun fun ⟨_, _, he, _⟩ => by rw [hc] at he; cases he
  case h_3 runLocal task hc =>
    rw [hc]
    cases runLocal
    case true =>
      rw [if_pos rfl] at h
      rw [runLocalTask_passes h]
      exact ⟨fun hr => ⟨true, task, rfl, hr⟩, fun ⟨_, _, he, hr⟩ => by cases he; exact hr⟩
    case false =>
      cases contact
      case none =>
        obtain ⟨_, rfl⟩ := Runs.fail_iff.mp h
        refine iff_of_false nofun ?_
        rintro ⟨_, _, he, hr⟩
        cases he
        obtain ⟨_, hn, _⟩ := hr
        cases hn
      case some callme =>
        rw [connected_passes h]
        constructor
        case mp  => exact fun hr => ⟨false, task, rfl, callme, rfl, hr⟩
        case mpr =>
          intro ⟨_, _, he, hr⟩
          cases he
          obtain ⟨_, hn, hr⟩ := hr
          cases hn
          exact hr

-- A compilation which the server has done.
def compiling : List String :=
  ["gcc", "-c", "a.c", "-o", "a.o"]

def compilingTask : TaskDetails where
  workingDir   := "/home"
  cmd          := "/usr/bin/gcc"
  args         := compiling
  outputArgs   := [4]
  env          := ∅
  priorityTask := false

theorem interpretCommandLine_compiling :
    interpretCommandLine workstation compiling = some (.ok (false, compilingTask)) := by
  have hn : fileName "/usr/bin/gcc" = some "gcc" := by decide +kernel
  have hf : handleGnu compiling = ⟨false, false, [4]⟩ := rfl
  have ha : compiling[0]? = some "gcc" := rfl
  simp [interpretCommandLine, workstation, compilingTask, ha, hn, hf]

theorem runArgs_success_compiling :
    ∃ tr r, (runArgs workstation 7 (some ⟨"10.0.0.1:80", 5⟩) 2 compiling).Runs tr r ∧
      exitCode r = some 0 ∧ (exitCode r = some 0 ↔ ∃ runLocal task,
        interpretCommandLine workstation compiling = some (.ok (runLocal, task)) ∧
          if runLocal then RanLocally workstation task tr
          else ∃ callme, some ⟨"10.0.0.1:80", 5⟩ = some callme ∧ RanRemotely callme 7 task tr) := by
  have hr : (runArgs workstation 7 (some ⟨"10.0.0.1:80", 5⟩) 2 compiling).Runs
      [⟨.connect "10.0.0.1:80", true⟩,
        ⟨.write (.task 5 7 compilingTask), true⟩,
        ⟨.read, .message (.taskOutput (.file 0) [1, 2])⟩, ⟨.file (.create "a.o"), true⟩,
        ⟨.file (.writeAll (.file "a.o") [1, 2]), true⟩,
        ⟨.read, .message (.taskDone (some 0) "/home;a.o" 7 8)⟩,
        ⟨.file (.shutdown "a.o"), true⟩, ⟨.shutdown, ()⟩] (.ok 0) := by
    unfold runArgs
    rw [interpretCommandLine_compiling]
    simp only [connectWRetry]
    rw [connectFrom]
    exact .call <| .call <| .call <| .call <| .call <| .call <| .call <| .call .done
  exact ⟨_, _, hr, rfl, runArgs_success_iff hr⟩

end Success

end SprayCC.Client
