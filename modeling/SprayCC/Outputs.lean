import SprayCC.Client
import SprayCC.Exec.Streams

-- The output files of a task, from the host of the exec to the host of the client.

open Async

namespace SprayCC

namespace Exec

-- The ways to open and read a file which is absent, or present with some content.
inductive Yields : Option (List UInt8) → Option (List (Option (List UInt8))) → Prop
  | absent  : Yields none none
  | present {chunks : List (List UInt8)} : (∀ chunk ∈ chunks, chunk ≠ [] ∧ chunk.length ≤ 65536) →
    Yields (some chunks.flatten) (some (chunks.map some))

def outputs (msgs : List Message) : List Client.Output :=
  msgs.filterMap fun
    | .taskOutput outputType content => some (outputType, content)
    | _                              => none

variable {tr : Trace signature} {type : OutputType} {child : Child} {path : String}
variable {paths : List String} {idx : Nat} {left : Option (List UInt8)} {chunks : List (List UInt8)}

theorem sendChunks_chunks (hr : (sendChunks type (chunks.map some)).Runs tr (.ok ()))
    (hn : ∀ chunk ∈ chunks, chunk ≠ []) : contents type (sent tr) = chunks := by
  induction chunks generalizing tr with
  | nil => rw [(Program.Runs.done_iff.mp hr).left]; rfl
  | cons chunk chunks hi =>
    have ⟨hc, hn⟩ := List.forall_mem_cons.mp hn
    rw [List.map_cons, sendChunks, if_neg hc] at hr
    have ⟨_, tr₁, tr₂, h, h₁, h₂⟩ := hr.of_bind
    rw [h, sent_append, contents_append, runs_writeMessage h₁, hi h₂ hn,
      contents_output, if_pos rfl]
    rfl

-- Of a file which is there, the content is sent in pieces which are not empty.
theorem sendOutputFile_yields (hr : (sendOutputFile child type path).Runs tr (.ok ()))
    (hy : Yields left (child.reads path)) :
    (contents type (sent tr)).flatten = left.getD [] ∧ [] ∉ contents type (sent tr) := by
  unfold sendOutputFile at hr
  generalize child.reads path = reads at hr hy
  cases hy
  case absent             =>
    rw [(Program.Runs.done_iff.mp hr).left]
    exact ⟨rfl, List.not_mem_nil⟩
  case present chunks hn =>
    have hc := sendChunks_chunks hr fun chunk hm => (hn chunk hm).left
    exact ⟨congrArg List.flatten hc, fun hm => (hn [] (hc ▸ hm)).left rfl⟩

theorem sendOutputFiles_yields {k : Nat} (hr : (sendOutputFiles child idx paths).Runs tr (.ok ()))
    (hp : paths[k]? = some path) (hy : Yields left (child.reads path)) :
    (contents (.file (idx + k)) (sent tr)).flatten = left.getD [] ∧
      [] ∉ contents (.file (idx + k)) (sent tr) := by
  induction paths generalizing idx k tr with
  | nil => cases hp
  | cons path' paths hi =>
    have ⟨_, tr₁, tr₂, h, h₁, h₂⟩ := hr.of_bind
    rw [h, sent_append, contents_append]
    cases k
    case zero   =>
      cases hp
      have hn : contents (.file idx) (sent tr₂) = [] :=
        (sendOutputFiles_only h₂).contents_eq_nil fun ⟨_, _, he⟩ => by
          have := OutputType.file.inj he
          omega
      rw [Nat.add_zero, hn, List.append_nil]
      exact sendOutputFile_yields h₁ hy
    case succ k =>
      have hn : contents (.file (idx + (k + 1))) (sent tr₁) = [] :=
        (sendOutputFile_only h₁).contents_eq_nil fun he => by
          have := OutputType.file.inj he
          omega
      rw [hn, List.nil_append, Nat.add_comm k 1, ← Nat.add_assoc]
      exact hi h₂ hp

end Exec

namespace Client

-- The contents of the files on the host of the client, where different names can mean one file.
abbrev Files (F : Type) :=
  F → Option (List UInt8)

def LazyFile.name? : LazyFile → Option String
  | fileName name => some name
  | file name     => some name
  | none          => Option.none

-- What a file contains after some writes, which create it if it is not open.
def LazyFile.written (file : LazyFile) (before : Option (List UInt8)) :
    List (List UInt8) → Option (List UInt8)
  | []              => before
  | chunk :: chunks =>
    match file with
    | .file _ => some (before.getD [] ++ (chunk :: chunks).flatten)
    | _       => some (chunk :: chunks).flatten

section

variable {F : Type} [DecidableEq F] (fileOf : String → F)

-- A call which fails is not looked at, as it ends the client.
def Files.apply (fs : Files F) : (Σ c : Call, signature.Answer c) → Files F
  | ⟨.create name, _⟩                   => Function.update fs (fileOf name) (some [])
  | ⟨.writeAll (.file name) content, _⟩ =>
    Function.update fs (fileOf name) (some ((fs (fileOf name)).getD [] ++ content))
  | _                                   => fs

def Files.after (fs : Files F) (tr : Trace signature) : Files F :=
  tr.foldl (Files.apply fileOf) fs

-- The files of the outputs are different ones.
def Apart (files : List LazyFile) : Prop :=
  (files.map fun file => file.name?.map fileOf).Nodup

end

def chunks (idx : Nat) (outs : List Output) : List (List UInt8) :=
  outs.filterMap fun (outputType, content) => if outputType = .file idx then some content else none

variable {F : Type} [DecidableEq F] {fileOf : String → F} {fs : Files F} {tr tr' : Trace signature}
variable {files files' : List LazyFile} {file : LazyFile} {name : String}
  {before : Option (List UInt8)}
variable {outs : List Output} {outputType : OutputType} {content : List UInt8} {idx : Nat}

theorem Files.after_append :
    Files.after fileOf fs (tr ++ tr') = (fs.after fileOf tr).after fileOf tr' :=
  List.foldl_append

@[simp]
theorem LazyFile.name?_file : (LazyFile.file name).name? = some name :=
  rfl

theorem chunks_cons : chunks idx ((outputType, content) :: outs) =
    if outputType = .file idx then content :: chunks idx outs else chunks idx outs := by
  unfold chunks
  split <;> simp_all

theorem LazyFile.written_cons {chunk : List UInt8} {chunks : List (List UInt8)} :
    file.written before (chunk :: chunks) =
      (LazyFile.file name).written (file.written before [chunk]) chunks := by
  cases file <;> cases chunks <;> simp [written]

theorem runs_callOrErr {c : Call} (hr : (callOrErr c).Runs tr (.ok ())) : tr = [⟨c, true⟩] := by
  have ⟨ok, tr', ht, hk⟩ := Program.Runs.call_iff.mp hr
  cases ok
  case true  => rw [ht, (Program.Runs.done_iff.mp hk).left]
  case false => cases (Program.Runs.fail_iff.mp hk).right

-- One output is written to its file, which is open then.
theorem runs_writeOutput_file (fs : Files F) (fileOf : String → F)
    (hr : (writeOutput files (.file idx) content).Runs tr (.ok files')) :
    ∃ file name, files[idx]? = some file ∧ file.name? = some name ∧
      files' = files.set idx (.file name) ∧
      fs.after fileOf tr =
        Function.update fs (fileOf name) (file.written (fs (fileOf name)) [content]) := by
  have ⟨file, hf, hr⟩ := hr.of_get
  have ⟨⟨file', name⟩, tr₁, _, ht, h₁, hr⟩ := hr.of_bind
  have ⟨_, tr₂, _, ht₂, h₂, hr⟩ := hr.of_bind
  have ⟨ht₃, hr⟩ := Program.Runs.done_iff.mp hr
  cases hr
  have h₂ := runs_callOrErr h₂
  cases file
  case fileName name' =>
    have ⟨_, tr₄, _, ht₄, h₄, h₁⟩ := h₁.of_bind
    have ⟨ht₅, h₁⟩ := Program.Runs.done_iff.mp h₁
    cases h₁
    have h₄ := runs_callOrErr h₄
    refine ⟨_, _, hf, rfl, rfl, ?_⟩
    simp [ht, ht₂, ht₃, ht₄, ht₅, h₂, h₄, Files.after, Files.apply, LazyFile.written]
  case file name'     =>
    have ⟨ht₄, h₁⟩ := Program.Runs.done_iff.mp h₁
    cases h₁
    refine ⟨_, _, hf, rfl, rfl, ?_⟩
    simp [ht, ht₂, ht₃, ht₄, h₂, Files.after, Files.apply, LazyFile.written]
  case none           => cases (Program.Runs.fail_iff.mp h₁).right

theorem runs_writeOutput_stream (hr : (writeOutput files outputType content).Runs tr (.ok files'))
    (ht : ∀ idx, outputType ≠ .file idx) : files' = files ∧ fs.after fileOf tr = fs := by
  cases outputType
  case file idx => exact absurd rfl (ht idx)
  all_goals
    have ⟨_, tr₁, _, ht, h₁, hr⟩ := hr.of_bind
    have ⟨ht₂, hr⟩ := Program.Runs.done_iff.mp hr
    cases hr
    rw [ht, ht₂, runs_callOrErr h₁]
    exact ⟨rfl, rfl⟩

namespace Apart

variable {idx' : Nat} {file' : LazyFile} {name' : String}

omit [DecidableEq F] in
theorem fileOf_ne (h : Apart fileOf files) (hf : files[idx]? = some file)
    (hn : file.name? = some name)
    (hf' : files[idx']? = some file') (hn' : file'.name? = some name') (hi : idx ≠ idx') :
    fileOf name ≠ fileOf name' := by
  intro he
  have hl : idx < (files.map fun file => file.name?.map fileOf).length := by
    have ⟨hl, _⟩ := List.getElem?_eq_some_iff.mp hf
    rwa [List.length_map]
  refine hi <| (List.getElem?_inj hl h).mp ?_
  simp [hf, hf', hn, hn', he]

omit [DecidableEq F] in
theorem set (h : Apart fileOf files) (hf : files[idx]? = some file) (hn : file.name? = some name) :
    Apart fileOf (files.set idx (.file name)) := by
  have ⟨hl, hf⟩ := List.getElem?_eq_some_iff.mp hf
  have he : files.map (fun file => file.name?.map fileOf) =
      (files.set idx (.file name)).map fun file => file.name?.map fileOf := by
    rw [List.map_set]
    refine (List.set_getElem_self (i := idx) ?_).symm.trans ?_
    case refine_1 => rwa [List.length_map]
    case refine_2 => simp [hf, hn]
  unfold Apart
  exact he ▸ h

end Apart

-- The files after the client has written the outputs of a task.
theorem runs_writeOutputs (ha : Apart fileOf files)
    (hr : (writeOutputs files outs).Runs tr (.ok files')) (hf : files[idx]? = some file)
    (hn : file.name? = some name) :
    fs.after fileOf tr (fileOf name) = file.written (fs (fileOf name)) (chunks idx outs) := by
  induction outs generalizing files file fs tr with
  | nil => rw [(Program.Runs.done_iff.mp hr).left]; rfl
  | cons out outs hi =>
    obtain ⟨outputType, content⟩ := out
    have ⟨files₁, tr₁, tr₂, ht, h₁, h₂⟩ := hr.of_bind
    rw [ht, Files.after_append]
    by_cases hs : ∃ idx', outputType = .file idx'
    case neg =>
      have hs : ∀ idx', outputType ≠ .file idx' := fun idx' he => hs ⟨idx', he⟩
      have ⟨hf₁, he⟩ : files₁ = files ∧ fs.after fileOf tr₁ = fs := runs_writeOutput_stream h₁ hs
      rw [he, chunks_cons, if_neg (hs idx)]
      exact hi (hf₁ ▸ ha) h₂ (hf₁ ▸ hf) hn
    case pos =>
      obtain ⟨idx', rfl⟩ := hs
      have ⟨file', name', hf', hn', hf₁, he⟩ := runs_writeOutput_file fs fileOf h₁
      have ha₁ : Apart fileOf files₁ := hf₁ ▸ ha.set hf' hn'
      by_cases hx : idx = idx'
      case pos =>
        subst hx
        cases hf.symm.trans hf'
        cases hn.symm.trans hn'
        have hl := (List.getElem?_eq_some_iff.mp hf).fst
        have hf₁ : files₁[idx]? = some (.file name) := by simp [hf₁, hl]
        rw [hi ha₁ h₂ hf₁ rfl, he, Function.update_self, chunks_cons, if_pos rfl]
        exact LazyFile.written_cons.symm
      case neg =>
        have hf₁ : files₁[idx]? = some file := by simpa [hf₁, Ne.symm hx] using hf
        rw [hi ha₁ h₂ hf₁ hn, he, Function.update_of_ne (ha.fileOf_ne hf hn hf' hn' hx),
          chunks_cons, if_neg]
        exact fun he => hx (OutputType.file.inj he).symm

theorem makeOutputFiles_names {task : TaskDetails} (h : makeOutputFiles task = some files) :
    files.map LazyFile.name? = task.outputArgs.map (fun i => task.args[i.toNat]?) ∧
      ∀ file ∈ files, ∃ name, file = .fileName name := by
  unfold makeOutputFiles at h
  generalize task.outputArgs = idxs at h
  induction idxs generalizing files with
  | nil            => cases h; exact ⟨rfl, nofun⟩
  | cons idx idxs hi =>
    simp only [List.mapM_cons, Option.bind_eq_bind, Option.bind_eq_some_iff, Option.map_eq_some_iff,
      Option.pure_def, Option.some.injEq] at h
    obtain ⟨_, ⟨name, hn, rfl⟩, files, h, rfl⟩ := h
    have ⟨hm, hc⟩ := hi h
    exact ⟨by simp [hm, hn, LazyFile.name?], List.forall_mem_cons.mpr ⟨⟨name, rfl⟩, hc⟩⟩

-- A file which was not open contains what is in the output just if an output which is empty does
-- not have to be told from one which is absent.
theorem LazyFile.written_eq_iff {left : Option (List UInt8)} {cs : List (List UInt8)}
    (hf : cs.flatten = left.getD []) (hn : [] ∉ cs) :
    (LazyFile.fileName name).written before cs = (left <|> before) ↔
      (left = some [] → before = some []) := by
  cases cs
  case nil =>
    cases left
    case none         => simp [written]
    case some content =>
      cases (show [] = content from hf)
      simp [written]
  case cons c cs =>
    have hc : c ≠ [] := fun he => hn (he ▸ .head _)
    cases left
    case none         => exact absurd (List.append_eq_nil_iff.mp hf).left hc
    case some content =>
      have hf : c ++ cs.flatten = content := hf
      have hne : content ≠ [] := fun he => hc (List.append_eq_nil_iff.mp (hf.trans he)).left
      simp [written, hf, hne]

end Client

open Client Exec

variable {F : Type} [DecidableEq F] {fileOf : String → F} {fs : Files F} {details : TaskDetails}
variable {files files' : List LazyFile} {host : Host} {task : Task} {picks : List Stream}
variable {runTime sendTime : Duration} {targetId : String} {tr : Trace Exec.signature}
variable {tr' : Trace Client.signature} {rest : Stream → List UInt8} {idx : Nat}
  {msgs : List Message}
variable {left : String → Option (List UInt8)}

-- The name of an output file, as the client has given it.
def TaskDetails.outputName (details : TaskDetails) (k : Nat) : Option String :=
  details.outputArgs[k]?.bind fun i => details.args[i.toNat]?

theorem chunks_outputs : chunks idx (outputs msgs) = contents (.file idx) msgs := by
  unfold chunks outputs contents
  rw [List.filterMap_filterMap]
  congr 1
  funext msg
  cases msg <;> rfl

omit [DecidableEq F] in
theorem apart_makeOutputFiles (hm : makeOutputFiles details = some files)
    (hd : (details.outputArgs.map fun i => details.args[i.toNat]?.map fileOf).Nodup) :
    Apart fileOf files := by
  have hf := congrArg (List.map (Option.map fileOf)) (makeOutputFiles_names hm).left
  simp only [List.map_map] at hf
  unfold Apart
  exact hf ▸ hd

theorem makeOutputFiles_outputName {k : Nat} {name : String}
    (hm : makeOutputFiles details = some files) (hn : details.outputName k = some name) :
    files[k]? = some (.fileName name) := by
  have ⟨hf, hc⟩ := makeOutputFiles_names hm
  have ⟨i, hi, ha⟩ := Option.bind_eq_some_iff.mp hn
  have hk := congrArg (·[k]?) hf
  simp only [List.getElem?_map, hi, Option.map_some, ha] at hk
  have ⟨file, hf, hn⟩ := Option.map_eq_some_iff.mp hk
  have ⟨name', he⟩ := hc file (List.mem_of_getElem? hf)
  subst he
  cases hn
  exact hf

-- What becomes of a single output.
theorem arrived_output {k : Nat} {name path : String} (hm : makeOutputFiles details = some files)
    (hd : (details.outputArgs.map fun i => details.args[i.toNat]?.map fileOf).Nodup)
    (hy : Yields (left path) (task.child.reads path))
    (hr : (runTask picks runTime sendTime task targetId).Runs tr (.ok rest))
    (hc : (writeOutputs files (outputs (sent tr))).Runs tr' (.ok files'))
    (hn : details.outputName k = some name) (hp : task.outputFiles[k]? = some path) :
    fs.after fileOf tr' (fileOf name) = (left path <|> fs (fileOf name)) ↔
      (left path = some [] → fs (fileOf name) = some []) := by
  have ⟨readers, code, tr₁, tr₂, h₁, h₂, hs, _⟩ := runs_runTask hr
  have hs : contents (.file k) (sent tr) = contents (.file (0 + k)) (sent tr₂) := by
    have hn : contents (.file k) (sent tr₁) = [] :=
      (runs_relay h₁).only.contents_eq_nil fun ⟨_, he⟩ => Stream.outputType_ne_file he.symm
    simp [hs, hn]
  have ⟨hf, he⟩ := sendOutputFiles_yields h₂ hp hy
  rw [runs_writeOutputs (apart_makeOutputFiles hm hd) hc (makeOutputFiles_outputName hm hn) rfl]
  rw [chunks_outputs, hs]
  exact LazyFile.written_eq_iff hf he

-- The files of the client become those which the process has left just if none of these is empty,
-- or the file of the client is so as well.
theorem arrived_iff (hm : makeOutputFiles details = some files)
    (hd : (details.outputArgs.map fun i => details.args[i.toNat]?.map fileOf).Nodup)
    (ht : Task.start host details.workingDir details.cmd details.args details.outputArgs
      details.env = some (.ok task))
    (hl : ∀ path ∈ task.outputFiles, Yields (left path) (task.child.reads path))
    (hr : (runTask picks runTime sendTime task targetId).Runs tr (.ok rest))
    (hc : (writeOutputs files (outputs (sent tr))).Runs tr' (.ok files')) :
    (∀ k name, details.outputName k = some name → ∃ path, task.outputFiles[k]? = some path ∧
        fs.after fileOf tr' (fileOf name) = (left path <|> fs (fileOf name))) ↔
      ∀ k name path, details.outputName k = some name → task.outputFiles[k]? = some path →
        left path = some [] → fs (fileOf name) = some [] := by
  have hk {k name path} (hn : details.outputName k = some name)
    (hp : task.outputFiles[k]? = some path) :
      fs.after fileOf tr' (fileOf name) = (left path <|> fs (fileOf name)) ↔ _ :=
    arrived_output hm hd (hl path <| List.mem_of_getElem? hp) hr hc hn hp
  constructor
  case mp =>
    intro h k name path hn hp
    have ⟨_, hp', he⟩ := h k name hn
    cases hp.symm.trans hp'
    exact (hk hn hp).mp he
  case mpr =>
    intro h k name hn
    have ⟨i, hi, _⟩ := Option.bind_eq_some_iff.mp hn
    have ⟨_, hp⟩ := Task.start_ok ht
    have hlt : k < task.outputFiles.length := by
      rw [redirectOutputs_length hp]
      exact (List.getElem?_eq_some_iff.mp hi).fst
    have hp := List.getElem?_eq_getElem hlt
    exact ⟨_, hp, (hk hn hp).mpr <| h k name _ hn hp⟩

def compiler (reads : Option (List (Option (List UInt8)))) : Child where
  output _ := []
  wait _   := .exited (some 0)
  reads _  := reads

def farm (reads : Option (List (Option (List UInt8)))) : Host where
  hostname      := "farm"
  pathExists _  := true
  tempdir       := .ok "/tmp/farm"
  spawn _ _ _ _ := some (compiler reads)

def compiled (reads : Option (List (Option (List UInt8)))) : Task where
  child       := compiler reads
  outputFiles := ["/tmp/farm/a.o"]

def compiling (reads : Option (List (Option (List UInt8)))) :
    Trace Exec.signature × Except Exec.Fault (Stream → List UInt8) :=
  (runTask [.stdout, .stderr] 7 8 (compiled reads) "a.o").play fun _ => true

def receiving (reads : Option (List (Option (List UInt8)))) :
    Trace Client.signature × Except Client.Fault (List LazyFile) :=
  (writeOutputs [.fileName "a.o"] (outputs (sent (compiling reads).fst))).play fun _ => true

theorem start_farm {reads : Option (List (Option (List UInt8)))} :
    Task.start (farm reads) compilation.workingDir compilation.cmd compilation.args
      compilation.outputArgs compilation.env = some (.ok (compiled reads)) := by
  have hr : redirectOutputs (.ok "/tmp/farm") compilation.args compilation.outputArgs =
      some (.ok (["gcc", "-c", "a.c", "-o", "/tmp/farm/a.o"], ["/tmp/farm/a.o"])) := by
    decide +kernel
  simp [Task.start, farm, hr, startTask, compiled]

theorem arrived_object :
    ∃ tr tr' rest files',
      (runTask [.stdout, .stderr] 7 8 (compiled (some [some [1, 2]])) "a.o").Runs tr (.ok rest) ∧
      (writeOutputs [.fileName "a.o"] (outputs (sent tr))).Runs tr' (.ok files') ∧
        ((∀ k name, compilation.outputName k = some name →
            ∃ path, (compiled (some [some [1, 2]])).outputFiles[k]? = some path ∧
              Files.after id (fun _ => none) tr' name = (some [1, 2] <|> none)) ↔
          ∀ k name path, compilation.outputName k = some name →
            (compiled (some [some [1, 2]])).outputFiles[k]? = some path →
              some [(1 : UInt8), 2] = some [] → (none : Option (List UInt8)) = some []) := by
  have hk : (compiling (some [some [1, 2]])).snd.isOk := by decide +kernel
  have ⟨rest, hr⟩ := Program.exists_runs_play hk
  have hk' : (receiving (some [some [1, 2]])).snd.isOk := by decide +kernel
  have ⟨files', hr'⟩ := Program.exists_runs_play hk'
  have hy := @Yields.present [[1, 2]] (by decide)
  have hl : ∀ path ∈ ["/tmp/farm/a.o"], Yields ((fun _ => some [1, 2]) path) _ := fun _ _ => hy
  exact ⟨_, _, rest, files', hr, hr', arrived_iff rfl (by decide) start_farm hl hr hr'⟩

-- An output which is there but empty does not come into being on the host of the client.
theorem empty_output_lost :
    ¬∀ (details : TaskDetails) (files files' : List LazyFile) (host : Host) (task : Task)
        (picks : List Stream) (runTime sendTime : Duration) (targetId : String)
        (left : String → Option (List UInt8)) (fs : Files String) (tr : Trace Exec.signature)
        (tr' : Trace Client.signature) (rest : Stream → List UInt8),
      makeOutputFiles details = some files →
      (details.outputArgs.map fun i => details.args[i.toNat]?).Nodup →
      Task.start host details.workingDir details.cmd details.args details.outputArgs details.env =
        some (.ok task) →
      (∀ path ∈ task.outputFiles, Yields (left path) (task.child.reads path)) →
      (runTask picks runTime sendTime task targetId).Runs tr (.ok rest) →
      (writeOutputs files (outputs (sent tr))).Runs tr' (.ok files') →
      ∀ k name, details.outputName k = some name → ∃ path, task.outputFiles[k]? = some path ∧
        fs.after id tr' name = (left path <|> fs name) := by
  intro h
  have hk : (compiling (some [])).snd.isOk := by decide +kernel
  have ⟨rest, hr⟩ := Program.exists_runs_play hk
  have hk' : (receiving (some [])).snd.isOk := by decide +kernel
  have ⟨files', hr'⟩ := Program.exists_runs_play hk'
  have hy : Yields (some []) (some []) := @Yields.present [] nofun
  have ⟨_, _, he⟩ := h compilation _ _ _ _ _ _ _ _ (fun _ => some []) (fun _ => none) _ _ _ rfl
    (by decide) start_farm (fun _ _ => hy) hr hr' 0 "a.o" rfl
  have hn : (receiving (some [])).fst = [] := by decide +kernel
  cases he.symm.trans (congrArg (Files.after id (fun _ => none) · "a.o") hn)

end SprayCC
