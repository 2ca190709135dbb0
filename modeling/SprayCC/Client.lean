import SprayCC.Async.Trace
import SprayCC.Ipc.Message

-- The client, from when it has submitted its task.

open Async

namespace SprayCC.Client

-- A file which is created when it is first written to. An open file is known by its name.
inductive LazyFile
  | fileName (fileName : String)
  | file (fileName : String)
  | none

inductive Target
  | stdout
  | stderr
  | file (fileName : String)

-- What the client asks of its surroundings. Each of it can fail with an I/O error.
inductive Call
  | create (fileName : String)
  | writeAll (target : Target) (content : List UInt8)
  | shutdown (fileName : String)

@[reducible]
def signature : Signature where
  Call     := Call
  Answer _ := Bool

-- The ways to leave `run` other than by returning a status: an `Err` which is passed up by `?`, or
-- a panic. A client to which nothing more is sent is `blocked`.
inductive Fault
  | error
  | panic (text : String)
  | blocked

abbrev Proc := Program signature Fault

def callOrErr (c : Call) : Proc Unit := do
  if ← @Program.ask signature Fault c then pure () else .fail .error

-- The file is returned as it is afterwards, with the name of the open file.
def LazyFile.asFile : LazyFile → Proc (LazyFile × String)
  | fileName name => do
    callOrErr (.create name)
    pure (.file name, name)
  | file name => pure (.file name, name)
  | none      => .fail (.panic "Attempt to use a shutdown file")

-- Nothing uses a file once it has been shut down.
def LazyFile.shutdown : LazyFile → Proc Unit
  | file name => callOrErr (.shutdown name)
  | _         => pure ()

def writeOutput (files : List LazyFile) (outputType : OutputType) (content : List UInt8) :
    Proc (List LazyFile) :=
  match outputType with
  | .stdout => do
    callOrErr (.writeAll .stdout content)
    pure files
  | .stderr => do
    callOrErr (.writeAll .stderr content)
    pure files
  | .file idx => do
    let file ← .get files[idx]? (.panic "index out of bounds")
    let (file, fileName) ← file.asFile
    callOrErr (.writeAll (.file fileName) content)
    pure (files.set idx file)

-- The status is `none` for as long as the task has not finished.
def handleMsg (files : List LazyFile) : Message → Proc (Option Int32 × List LazyFile)
  | .taskOutput outputType content => do
    let files ← writeOutput files outputType content
    pure (none, files)
  | .taskFailed _         => pure (some (-1), files)
  | .taskDone exitCode .. => pure (exitCode, files)
  | _                     => .fail (.panic "Unhandled message")

-- An index which is out of range panics, which is `none` here.
def makeOutputFiles (task : TaskDetails) : Option (List LazyFile) :=
  task.outputArgs.mapM fun idx => task.args[idx.toNat]?.map .fileName

-- What is still to come on the connection: messages, and then its end, an error, or nothing at all.
inductive Incoming
  | message (msg : Message) (rest : Incoming)
  | closed
  | reset
  | silent

abbrev Output := OutputType × List UInt8

def Incoming.outputs (outs : List Output) (rest : Incoming) : Incoming :=
  outs.foldr (fun (outputType, content) => .message (.taskOutput outputType content)) rest

-- The loop of `run`, which also tells what of the connection it has not read.
def receive (files : List LazyFile) : Incoming → Proc (Option Int32 × List LazyFile × Incoming)
  | .message msg rest => do
    let (status, files) ← handleMsg files msg
    if status.isNone then receive files rest else pure (status, files, rest)
  | .closed => pure (none, files, .closed)
  | .reset  => .fail .error
  | .silent => .fail .blocked

def shutdownFiles (files : List LazyFile) : Proc Unit :=
  files.reverse.forM LazyFile.shutdown

-- What `run` does with a connection on which it has submitted its task.
def run (task : TaskDetails) (incoming : Incoming) : Proc Int32 := do
  let files ← .get (makeOutputFiles task) (.panic "index out of bounds")
  let (status, files, _) ← receive files incoming
  shutdownFiles files
  .get status (.panic "No task status as set")

-- All calls of a run have succeeded.
def Succeeds (tr : Trace signature) : Prop :=
  ∀ e ∈ tr, e.snd = true

-- The status of the client if its task ends with a message.
def Reports : Message → Int32 → Prop
  | .taskDone (some exitCode) .., status => status = exitCode
  | .taskDone none ..,            status => status < 0
  | .taskFailed _,                status => status < 0
  | _,                            _      => False

-- The end of a task which was terminated by a signal.
def Codeless : Message → Prop
  | .taskDone none .. => True
  | _                 => False

def Within (task : TaskDetails) : OutputType → Prop
  | .file idx => idx < task.outputArgs.length
  | _         => True

-- There is an open file, or the name of one, for each of the outputs.
structure Ready (task : TaskDetails) (files : List LazyFile) : Prop where
  length : files.length = task.outputArgs.length
  usable : ∀ file ∈ files, file ≠ .none

variable {task : TaskDetails} {files files' : List LazyFile} {file : LazyFile} {outs : List Output}
variable {tr tr' : Trace signature} {incoming rest : Incoming} {status : Int32}
  {c : Call} {α β : Type}

@[simp]
theorem succeeds_nil : Succeeds [] :=
  nofun

@[simp]
theorem succeeds_cons {ok : Bool} : Succeeds (⟨c, ok⟩ :: tr) ↔ ok = true ∧ Succeeds tr :=
  List.forall_mem_cons

@[simp]
theorem succeeds_append : Succeeds (tr ++ tr') ↔ Succeeds tr ∧ Succeeds tr' :=
  List.forall_mem_append

-- The program comes to a result as in `Q` if all of its calls succeed, and else it fails.
def Lasts (p : Proc α) (Q : α → Trace signature → Prop) : Prop :=
  ∀ tr r, p.Runs tr r →
    (Succeeds tr ∧ ∃ a, r = .ok a ∧ Q a tr) ∨ (¬Succeeds tr ∧ r = .error .error)

namespace Lasts

variable {p : Proc α} {f : α → Proc β} {Q : α → Trace signature → Prop}
variable {R : β → Trace signature → Prop} {a : α}

theorem pure (h : Q a []) : Lasts (pure a) Q := by
  intro tr r hr
  have ⟨ht, hr⟩ := Program.Runs.done_iff.mp hr
  exact .inl ⟨ht ▸ succeeds_nil, a, hr, ht ▸ h⟩

theorem bind (hp : Lasts p Q) (hf : ∀ a tr, Q a tr → Lasts (f a) fun b tr' => R b (tr ++ tr')) :
    Lasts (p >>= f) R := by
  intro tr r hr
  rcases Program.Runs.bind_iff.mp hr with ⟨e, he, rfl⟩ | ⟨a, tr₁, tr₂, rfl, h₁, h₂⟩
  case inl =>
    rcases hp _ _ he with ⟨_, _, he, _⟩ | ⟨hs, he⟩ <;> cases he
    exact .inr ⟨hs, rfl⟩
  case inr =>
    rcases hp _ _ h₁ with ⟨hs, _, ha, hq⟩ | ⟨_, ha⟩ <;> cases ha
    rcases hf a tr₁ hq _ _ h₂ with ⟨hs', h⟩ | ⟨hs', h⟩
    case inl => exact .inl ⟨succeeds_append.mpr ⟨hs, hs'⟩, h⟩
    case inr => exact .inr ⟨fun h => hs' (succeeds_append.mp h).right, h⟩

theorem callOrErr {Q : Unit → Trace signature → Prop} (h : Q () [⟨c, true⟩]) :
    Lasts (callOrErr c) Q := by
  intro tr r hr
  have ⟨ok, tr', ht, hk⟩ := Program.Runs.call_iff.mp hr
  subst ht
  cases ok
  case true  =>
    have ⟨ht, hk⟩ := Program.Runs.done_iff.mp hk
    exact .inl ⟨succeeds_cons.mpr ⟨rfl, ht ▸ succeeds_nil⟩, (), hk, ht ▸ h⟩
  case false =>
    have ⟨_, hk⟩ := Program.Runs.fail_iff.mp hk
    exact .inr ⟨fun hs => Bool.false_ne_true (succeeds_cons.mp hs).left, hk⟩

end Lasts

theorem LazyFile.asFile_lasts (h : file ≠ .none) :
    Lasts file.asFile fun (file', _) _ => file' ≠ .none := by
  cases file
  case fileName name =>
    exact .bind (Q := fun _ _ => True) (.callOrErr trivial) fun _ _ _ => .pure nofun
  case file name     => exact .pure nofun
  case none          => exact absurd rfl h

theorem Ready.set {idx : Nat} (h : Ready task files) (hf : file ≠ .none) :
    Ready task (files.set idx file) where
  length          := by simp [h.length]
  usable file' hm := by
    rcases List.mem_or_eq_of_mem_set hm with hm | rfl
    case inl => exact h.usable file' hm
    case inr => exact hf

theorem ready_makeOutputFiles (h : makeOutputFiles task = some files) : Ready task files := by
  unfold makeOutputFiles at h
  generalize hl : task.outputArgs = idxs at h
  suffices hf : files.length = idxs.length ∧
    ∀ file ∈ files, file ≠ .none from ⟨hl ▸ hf.left, hf.right⟩
  clear hl
  induction idxs generalizing files with
  | nil            => cases h; exact ⟨rfl, nofun⟩
  | cons idx idxs hi =>
    simp only [List.mapM_cons, Option.bind_eq_bind, Option.bind_eq_some_iff, Option.map_eq_some_iff,
      Option.pure_def, Option.some.injEq] at h
    obtain ⟨_, ⟨name, _, rfl⟩, files, h, rfl⟩ := h
    have ⟨hl, hu⟩ := hi h
    exact ⟨by simp [hl], List.forall_mem_cons.mpr ⟨nofun, hu⟩⟩

theorem writeOutput_lasts {outputType : OutputType} {content : List UInt8} (h : Ready task files)
    (ht : Within task outputType) :
    Lasts (writeOutput files outputType content) fun files' _ => Ready task files' := by
  cases outputType
  case stdout   => exact .bind (Q := fun _ _ => True) (.callOrErr trivial) fun _ _ _ => .pure h
  case stderr   => exact .bind (Q := fun _ _ => True) (.callOrErr trivial) fun _ _ _ => .pure h
  case file idx =>
    have hi : idx < files.length := h.length ▸ ht
    unfold writeOutput
    simp only [List.getElem?_eq_getElem hi, Program.get_some_bind]
    refine .bind (LazyFile.asFile_lasts <| h.usable _ <| List.getElem_mem hi) fun _ _ hf => ?_
    exact .bind (Q := fun _ _ => True) (.callOrErr trivial) fun _ _ _ => .pure <| h.set hf

-- What is left of the files after some outputs of the task.
def writeOutputs (files : List LazyFile) (outs : List Output) : Proc (List LazyFile) :=
  outs.foldlM (fun files (outputType, content) => writeOutput files outputType content) files

theorem writeOutputs_lasts (h : Ready task files) (ho : ∀ out ∈ outs, Within task out.fst) :
    Lasts (writeOutputs files outs) fun files' _ => Ready task files' := by
  induction outs generalizing files with
  | nil            => exact .pure h
  | cons out outs hi =>
    have ⟨ht, ho⟩ := List.forall_mem_cons.mp ho
    exact .bind (writeOutput_lasts h ht) fun _ _ h => hi h ho

-- The loop writes the outputs before it comes to what is behind them.
theorem receive_outputs :
    receive files (.outputs outs rest) = writeOutputs files outs >>= fun files =>
      receive files rest := by
  induction outs generalizing files with
  | nil              => rfl
  | cons out outs hi =>
    simp only [Incoming.outputs, List.foldr_cons, writeOutputs, List.foldlM_cons] at hi ⊢
    simp only [receive, handleMsg, Program.bind_assoc, Program.pure_eq, Program.done_bind,
      Option.isNone_none, if_true, hi]

-- The loop does not put anything back.
theorem sizeOf_lt_of_runs {tr : Trace signature} {status : Int32}
    (hr : (receive files incoming).Runs tr (.ok (some status, files', rest))) :
    sizeOf rest < sizeOf incoming := by
  induction incoming generalizing files tr with
  | message msg incoming hi =>
    rcases Program.Runs.bind_iff.mp hr with ⟨_, _, hr⟩ | ⟨⟨status', files''⟩, tr₁, tr₂, _, _, hr⟩
    case inl => cases hr
    case inr =>
      simp only [Incoming.message.sizeOf_spec]
      cases status'
      case none => exact Nat.lt_add_left _ <| hi hr
      case some =>
        cases (Program.Runs.done_iff.mp hr).right
        omega
  | closed => cases (Program.Runs.done_iff.mp hr).right
  | reset | silent => cases (Program.Runs.fail_iff.mp hr).right

theorem receive_codeless {last : Message} (h : Codeless last) :
    receive files (.message last rest) = receive files rest := by
  cases last
  case taskDone code _ _ _ =>
    cases code
    case none => rfl
    case some => exact h.elim
  all_goals exact h.elim

theorem exists_status {last : Message} (ht : last.Terminal) (hc : ¬Codeless last) :
    ∃ status, Reports last status ∧
      ∀ files rest, receive files (.message last rest) = pure (some status, files, rest) := by
  cases last
  case taskFailed          => exact ⟨-1, show (-1 : Int32) < 0 by decide, fun _ _ => rfl⟩
  case taskDone code _ _ _ =>
    cases code
    case none      => exact absurd trivial hc
    case some code => exact ⟨code, rfl, fun _ _ => rfl⟩
  all_goals exact ht.elim

-- The loop stops at the end of its task with the right status, unless the end comes without an exit
-- code, or an output can not be written.
theorem receive_iff {last : Message} {r : Except Fault (Option Int32 × List LazyFile × Incoming)}
    (hf : makeOutputFiles task = some files) (ho : ∀ out ∈ outs, Within task out.fst)
    (ht : last.Terminal) (hr : (receive files (.outputs outs (.message last rest))).Runs tr r) :
    (∃ status files', r = .ok (some status, files', rest) ∧ Reports last status) ↔
      ¬Codeless last ∧ Succeeds tr := by
  have hl := writeOutputs_lasts (ready_makeOutputFiles hf) ho
  rw [receive_outputs] at hr
  rcases Program.Runs.bind_iff.mp hr with ⟨e, he, rfl⟩ | ⟨files', tr₁, tr₂, rfl, h₁, h₂⟩
  case inl =>
    rcases hl _ _ he with ⟨_, _, he, _⟩ | ⟨hs, _⟩
    case inl => cases he
    case inr => exact iff_of_false nofun fun h => hs h.right
  case inr =>
    rcases hl _ _ h₁ with ⟨hs, _⟩ | ⟨_, he⟩ <;> [skip; cases he]
    by_cases hc : Codeless last
    case pos =>
      rw [receive_codeless hc] at h₂
      refine iff_of_false ?_ fun h => h.left hc
      rintro ⟨status, files', rfl, _⟩
      have hn := sizeOf_lt_of_runs h₂
      omega
    case neg =>
      have ⟨status, hs', hp⟩ := exists_status ht hc
      rw [hp] at h₂
      have ⟨hn, hr⟩ := Program.Runs.done_iff.mp h₂
      refine iff_of_true ⟨status, files', hr, hs'⟩ ⟨hc, ?_⟩
      simpa [hn] using hs

def compilation : TaskDetails where
  workingDir   := "/"
  cmd          := "/usr/bin/gcc"
  args         := ["gcc", "-c", "a.c", "-o", "a.o"]
  outputArgs   := [4]
  env          := ∅
  priorityTask := false

theorem receive_compilation :
    ∃ tr r, (receive [.fileName "a.o"]
        (.outputs [(.file 0, [1, 2])]
          (.message (.taskDone (some 1) "a.o" 7 8) .silent))).Runs tr r ∧
      ((∃ status files', r = .ok (some status, files', .silent) ∧
          Reports (.taskDone (some 1) "a.o" 7 8) status) ↔
        ¬Codeless (.taskDone (some 1) "a.o" 7 8) ∧ Succeeds tr) := by
  have hf : makeOutputFiles compilation = some [.fileName "a.o"] := rfl
  have ho : ∀ out ∈ [(OutputType.file 0, [(1 : UInt8), 2])], Within compilation out.fst := by
    simp [Within, compilation]
  have hr : (receive [.fileName "a.o"] (.outputs [(.file 0, [1, 2])]
      (.message (.taskDone (some 1) "a.o" 7 8) .silent))).Runs
      [⟨.create "a.o", true⟩, ⟨.writeAll (.file "a.o") [1, 2], true⟩]
      (.ok (some 1, [.file "a.o"], .silent)) := .call (.call .done)
  exact ⟨_, _, hr, receive_iff hf ho trivial hr⟩

-- A task which was terminated by a signal has no exit code, and so the client waits for more.
theorem signal_unnoticed :
    ¬∀ task files outs last rest tr r, makeOutputFiles task = some files →
      (∀ out ∈ outs, Within task out.fst) → last.Terminal →
      (receive files (.outputs outs (.message last rest))).Runs tr r → Succeeds tr →
      ∃ status files', r = .ok (some status, files', rest) ∧ Reports last status := by
  intro h
  have hr : (receive [] (.outputs [] (.message (.taskDone none "/;true" 7 8) .silent))).Runs []
      (.error .blocked) := .fail
  have ho : ∀ out ∈ ([] : List Output), Within { compilation with outputArgs := [] } out.fst :=
    nofun
  have ⟨_, _, hr, _⟩ := h _ [] [] (.taskDone none "/;true" 7 8) .silent [] _ rfl ho trivial hr nofun
  cases hr

end SprayCC.Client
