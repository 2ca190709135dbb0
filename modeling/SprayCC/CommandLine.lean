import Mathlib.Algebra.Group.Nat.Defs
import Mathlib.Data.List.Basic
import SprayCC.Client
import SprayCC.Exec.Redirection

-- What the client makes of the command line which it is given.

namespace SprayCC

-- What `handle_gnu` has found out about a command line.
structure GnuArgs where
  keepLocal    : Bool
  priorityTask : Bool
  outputIdxs   : List UInt16

def GnuArgs.scan (args : List String) (found : GnuArgs) (idx : Nat) : GnuArgs :=
  match args[idx]? with
  | some arg =>
    if arg = "-c" ∨ arg = "-s" ∨ arg = "-e" ∨ arg = "-MD" then
      { found with keepLocal := false }
    else if idx < args.length - 1 ∧ (arg = "-o" ∨ arg = "-MF") then
      -- The conversion to a `u16` keeps the last 16 bits.
      { found with outputIdxs := found.outputIdxs ++ [.ofNat (idx + 1)] }
    else if arg = "-M" ∨ arg = "-MM" then
      { found with keepLocal := false, priorityTask := true }
    else found
  | none => found

def handleGnu (args : List String) : GnuArgs :=
  (List.range' 1 (args.length - 1)).foldl (GnuArgs.scan args) ⟨true, false, []⟩

-- The host on which the client runs.
structure Shell where
  which      : String → Option String
  currentDir : Option String
  vars       : List (String × String)

def excludedEnvVars : List String :=
  ["PWD", "USERNAME", "USER"]

-- The function panics without a program, or if the path of the program has no name.
def interpretCommandLine (shell : Shell) (args : List String) :
    Option (Except String (Bool × TaskDetails)) := do
  let program ← args[0]?
  match shell.which program with
  | some cmd =>
    let cmdName ← fileName cmd
    let found :=
      if cmdName = "gcc" ∨ cmdName = "g++" ∨ cmdName = "clang" then handleGnu args
      else if cmdName = "echo" ∨ cmdName = "ls" then ⟨false, false, []⟩
      else ⟨false, false, []⟩
    let env := shell.vars.filter (·.fst ∉ excludedEnvVars)
    match shell.currentDir with
    | some cwd =>
      some <| .ok (found.keepLocal, {
        workingDir   := cwd
        cmd
        args
        outputArgs   := found.outputIdxs
        env          := .ofList env
        priorityTask := found.priorityTask })
    | none => some <| .error "Unable to get current working directory"
  | none => some <| .error s!"Command {program} not found"

section Scan

-- The options which `handle_gnu` takes for a compilation of some sort.
def remoteArgs : List String :=
  ["-c", "-s", "-e", "-MD", "-M", "-MM"]

-- The argument after this position is the name of an output file.
def Names (args : List String) (idx : Nat) : Prop :=
  idx < args.length - 1 ∧ (args[idx]? = some "-o" ∨ args[idx]? = some "-MF")

instance {args : List String} : DecidablePred (Names args) :=
  fun _ => inferInstanceAs <| Decidable (_ ∧ _)

variable {args : List String} {found : GnuArgs} {idx : Nat} {is : List Nat}

theorem mem_remoteArgs {arg : String} :
    arg ∈ remoteArgs ↔
      (arg = "-c" ∨ arg = "-s" ∨ arg = "-e" ∨ arg = "-MD") ∨ arg = "-M" ∨ arg = "-MM" := by
  simp [remoteArgs, or_assoc]

theorem keepLocal_scan :
    (found.scan args idx).keepLocal ↔
      found.keepLocal ∧ ∀ arg, args[idx]? = some arg → arg ∉ remoteArgs := by
  unfold GnuArgs.scan
  cases args[idx]?
  case none     => simp
  case some arg =>
    simp only [Option.some.injEq, forall_eq', mem_remoteArgs]
    split
    case isTrue hc  => simp [hc]
    case isFalse hc =>
      split
      case isTrue ho =>
        -- The names of the options are different.
        have hm : ¬(arg = "-M" ∨ arg = "-MM") := by
          rcases ho.right with rfl | rfl <;> decide
        simp [hc, hm]
      case isFalse   =>
        split
        case isTrue hm  => simp [hm]
        case isFalse hm => simp [hc, hm]

theorem outputIdxs_scan :
    (found.scan args idx).outputIdxs =
      found.outputIdxs ++ if Names args idx then [.ofNat (idx + 1)] else [] := by
  by_cases hn : Names args idx
  case pos =>
    rw [if_pos hn]
    have ⟨hl, ho⟩ := hn
    rcases ho with ho | ho <;> simp [GnuArgs.scan, ho, hl]
  case neg =>
    rw [if_neg hn, List.append_nil]
    unfold GnuArgs.scan
    split
    case h_2        => rfl
    case h_1 arg ha =>
      split
      case isTrue  => rfl
      case isFalse =>
        split
        case isTrue ho => exact absurd ⟨ho.left, by simpa [ha] using ho.right⟩ hn
        case isFalse   => split <;> rfl

theorem keepLocal_foldl :
    (is.foldl (GnuArgs.scan args) found).keepLocal ↔
      found.keepLocal ∧ ∀ idx ∈ is, ∀ arg, args[idx]? = some arg → arg ∉ remoteArgs := by
  induction is generalizing found with
  | nil            => simp
  | cons idx is hi => rw [List.foldl_cons, hi, keepLocal_scan, List.forall_mem_cons, and_assoc]

theorem outputIdxs_foldl :
    (is.foldl (GnuArgs.scan args) found).outputIdxs =
      found.outputIdxs ++ (is.filter (Names args ·)).map fun idx => .ofNat (idx + 1) := by
  induction is generalizing found with
  | nil            => simp
  | cons idx is hi =>
    rw [List.foldl_cons, hi, outputIdxs_scan, List.filter_cons, List.append_assoc]
    by_cases hn : Names args idx <;> simp [hn]

end Scan

-- The argument at position `j` is the operand of an `-o` or an `-MF`.
def Operand (args : List String) (j : Nat) : Prop :=
  2 ≤ j ∧ j < args.length ∧ (args[j - 1]? = some "-o" ∨ args[j - 1]? = some "-MF")

-- The positions of the operands, in the order in which they are found.
def operands (args : List String) : List Nat :=
  (List.range' 1 (args.length - 1)).filter (Names args ·) |>.map (· + 1)

variable {args : List String}

theorem mem_operands {j : Nat} : j ∈ operands args ↔ Operand args j := by
  simp only [operands, List.mem_map, List.mem_filter, List.mem_range'_1, decide_eq_true_eq]
  constructor
  case mp  =>
    rintro ⟨idx, ⟨hi, hl, ho⟩, rfl⟩
    exact ⟨by omega, by omega, ho⟩
  case mpr =>
    intro ⟨hj, hl, ho⟩
    exact ⟨j - 1, ⟨by omega, by omega, ho⟩, by omega⟩

theorem pairwise_operands : (operands args).Pairwise (· < ·) := by
  have hp : (List.range' 1 (args.length - 1)).Pairwise (· < ·) := List.pairwise_lt_range'
  exact (hp.filter _).map _ fun _ _ => Nat.succ_lt_succ

theorem outputIdxs_handleGnu : (handleGnu args).outputIdxs = (operands args).map .ofNat := by
  rw [handleGnu, outputIdxs_foldl, List.nil_append, operands, List.map_map]
  rfl

theorem keepLocal_handleGnu :
    (handleGnu args).keepLocal ↔ ∀ j arg, 1 ≤ j → args[j]? = some arg → arg ∉ remoteArgs := by
  rw [handleGnu, keepLocal_foldl, and_iff_right rfl]
  constructor
  case mp  =>
    intro h j arg hj ha
    have ⟨hl, _⟩ := List.getElem?_eq_some_iff.mp ha
    exact h j (List.mem_range'_1.mpr ⟨hj, by omega⟩) arg ha
  case mpr => exact fun h idx hi arg => h idx arg (List.mem_range'_1.mp hi).left

section Uses

variable {details : TaskDetails} {is : List UInt16}

theorem mapM_isSome {α β : Type} {f : α → Option β} {as : List α}
    (h : ∀ a ∈ as, (f a).isSome) : (as.mapM f).isSome := by
  induction as with
  | nil          => rfl
  | cons a as hi =>
    have ⟨ha, has⟩ := List.forall_mem_cons.mp h
    have ⟨b, hb⟩ := Option.isSome_iff_exists.mp ha
    have ⟨bs, hbs⟩ := Option.isSome_iff_exists.mp (hi has)
    simp [List.mapM_cons, hb, hbs]

-- All output indices are in range, so none of their uses panics.
theorem getTargetId_isSome (h : ∀ i ∈ details.outputArgs, i.toNat < details.args.length) :
    details.getTargetId.isSome := by
  unfold TaskDetails.getTargetId
  split
  case h_1       => rfl
  case h_2 i hi  => simpa using h i (by simp [hi])
  case h_3       =>
    rw [Option.isSome_map]
    exact mapM_isSome fun i hi => by simpa using h i hi

theorem makeOutputFiles_isSome (h : ∀ i ∈ details.outputArgs, i.toNat < details.args.length) :
    (Client.makeOutputFiles details).isSome :=
  mapM_isSome fun i hi => by simpa using h i hi

theorem redirectOutputs_isSome {tempdir : Except String String}
    (h : ∀ i ∈ is, i.toNat < args.length) : (redirectOutputs tempdir args is).isSome := by
  unfold redirectOutputs
  split
  case isTrue  => rfl
  case isFalse =>
    split
    case h_1 outputDir =>
      have ⟨_, _, hf, _⟩ := exists_redirects outputDir ∅ h
      simp [hf]
    case h_2           => rfl

end Uses

-- The output indices are those of the operands, and all uses of them are in range.
structure Exact (args : List String) (outputIdxs : List UInt16) : Prop where
  sorted : outputIdxs.Pairwise (· < ·)
  exact  : ∀ j : Nat, (∃ i ∈ outputIdxs, i.toNat = j) ↔ Operand args j
  used   : ∀ details : TaskDetails, details.args = args → details.outputArgs = outputIdxs →
    details.getTargetId.isSome ∧ (Client.makeOutputFiles details).isSome ∧
      ∀ tempdir, (redirectOutputs tempdir details.args details.outputArgs).isSome

-- The positions which fit into a `u16` are found, and no others.
theorem handleGnu_exact_iff :
    Exact args (handleGnu args).outputIdxs ↔ ∀ j, Operand args j → j < 2 ^ 16 := by
  rw [outputIdxs_handleGnu]
  constructor
  case mp  =>
    intro h j hj
    have ⟨i, _, hi⟩ := (h.exact j).mpr hj
    exact hi ▸ i.toNat_lt
  case mpr =>
    intro h
    have hl {j} (hj : j ∈ operands args) : (UInt16.ofNat j).toNat = j :=
      UInt16.toNat_ofNat_of_lt' <| h j <| mem_operands.mp hj
    have he (j) : (∃ i ∈ (operands args).map UInt16.ofNat, i.toNat = j) ↔ Operand args j := by
      simp only [List.mem_map]
      constructor
      case mp  =>
        rintro ⟨_, ⟨j, hj, rfl⟩, rfl⟩
        exact (hl hj).symm ▸ mem_operands.mp hj
      case mpr =>
        intro hj
        exact ⟨_, ⟨j, mem_operands.mpr hj, rfl⟩, hl <| mem_operands.mpr hj⟩
    constructor
    case sorted =>
      refine List.pairwise_map.mpr <| pairwise_operands.imp_of_mem fun hj hj' hlt => ?_
      exact UInt16.lt_iff_toNat_lt.mpr <| (hl hj).symm ▸ (hl hj').symm ▸ hlt
    case exact  => exact he
    case used   =>
      intro details ha ho
      have hr : ∀ i ∈ details.outputArgs, i.toNat < details.args.length := fun i hi =>
        ha ▸ ((he _).mp ⟨i, ho ▸ hi, rfl⟩).right.left
      exact ⟨getTargetId_isSome hr, makeOutputFiles_isSome hr, fun _ => redirectOutputs_isSome hr⟩

-- The command which links many objects.
def linking (objects : Nat) : List String :=
  "gcc" :: (List.replicate objects "a.o" ++ ["-o", "a.out"])

theorem operand_linking {objects : Nat} : Operand (linking objects) (objects + 2) := by
  refine ⟨Nat.le_add_left .., ?_, .inl ?_⟩
  case refine_1 => simp [linking]
  case refine_2 => simp [linking]

-- The position of the output does not fit into a `u16`.
theorem not_exact_linking : ¬∀ args, Exact args (handleGnu args).outputIdxs := by
  intro h
  have ⟨i, _, hi⟩ := ((h <| linking 65534).exact 65536).mpr operand_linking
  exact absurd i.toNat_lt (by omega)

-- The options which stand for a compilation or for the generation of dependencies.
def compileArgs : List String :=
  ["-c", "-s", "-E", "-MD", "-M", "-MM"]

-- An argument after the program, other than an operand, is one of these options.
def HasOption (args : List String) (options : List String) : Prop :=
  ∃ j arg, 1 ≤ j ∧ ¬Operand args j ∧ args[j]? = some arg ∧ arg ∈ options

-- An operand is one of these.
def HasOperand (args : List String) (options : List String) : Prop :=
  ∃ j arg, Operand args j ∧ args[j]? = some arg ∧ arg ∈ options

-- Archives are made on the host of the client, and so is what does not compile.
def KeptLocal (program : String) (args : List String) : Prop :=
  program = "ar" ∨ ¬HasOption args compileArgs

-- The name of the program to which a command line resolves.
def Shell.program (shell : Shell) (args : List String) : Option String :=
  args[0]?.bind shell.which |>.bind fileName

-- The options which the code looks for as well.
def commonArgs : List String :=
  ["-c", "-s", "-MD", "-M", "-MM"]

-- What the program is asked to do is recognized: it is a compiler, and if none of the common
-- options shows that it compiles, then an `-E` does just if something else is mistaken for that.
def Recognized (program : String) (args : List String) : Prop :=
  program ≠ "ar" ∧ (HasOption args commonArgs ∨
    (HasOption args ["-E"] ↔ HasOption args ["-e"] ∨ HasOperand args remoteArgs))

theorem hasOption_or {options options₁ options₂ : List String}
    (h : options.Perm (options₁ ++ options₂)) :
    HasOption args options ↔ HasOption args options₁ ∨ HasOption args options₂ := by
  simp only [HasOption, h.mem_iff, List.mem_append, and_or_left, exists_or]

-- The code does not tell operands apart.
theorem keepLocal_iff :
    (handleGnu args).keepLocal ↔ ¬(HasOption args remoteArgs ∨ HasOperand args remoteArgs) := by
  rw [keepLocal_handleGnu]
  constructor
  case mp  =>
    rintro h (⟨j, arg, hj, _, ha, hm⟩ | ⟨j, arg, hj, ha, hm⟩)
    case inl => exact h j arg hj ha hm
    case inr => exact h j arg (Nat.le_of_lt hj.left) ha hm
  case mpr =>
    intro h j arg hj ha hm
    by_cases ho : Operand args j
    case pos => exact h <| .inr ⟨j, arg, ho, ha, hm⟩
    case neg => exact h <| .inl ⟨j, arg, hj, ho, ha, hm⟩

section Interpret

variable {shell : Shell} {runLocal : Bool} {task : TaskDetails} {program : String}

theorem interpretCommandLine_local
    (h : interpretCommandLine shell args = some (.ok (runLocal, task)))
    (hp : shell.program args = some program) :
    runLocal = if program = "gcc" ∨ program = "g++" ∨ program = "clang" then
      (handleGnu args).keepLocal else false := by
  have ⟨cmd, hc, hf⟩ := Option.bind_eq_some_iff.mp hp
  have ⟨arg, ha, hw⟩ := Option.bind_eq_some_iff.mp hc
  simp only [interpretCommandLine, ha, hw, hf, Option.bind_eq_bind, Option.bind_some] at h
  split at h
  case h_2 => cases h
  case h_1 =>
    cases h
    split
    case isTrue  => rfl
    case isFalse => exact ite_self _ ▸ rfl

-- A task is run locally just if it should be, as far as the command line is recognized.
theorem interpretCommandLine_keptLocal_iff
    (h : interpretCommandLine shell args = some (.ok (runLocal, task)))
    (hp : shell.program args = some program) (hk : program ∈ ["gcc", "g++", "clang", "ar"]) :
    (runLocal = true ↔ KeptLocal program args) ↔ Recognized program args := by
  have hr := interpretCommandLine_local h hp
  by_cases ha : program = "ar"
  case pos =>
    subst ha
    have hr : runLocal = false := hr
    simp [hr, KeptLocal, Recognized]
  case neg =>
    have hg : program = "gcc" ∨ program = "g++" ∨ program = "clang" := by
      simpa [ha] using hk
    have hc : HasOption args compileArgs ↔
        HasOption args commonArgs ∨ HasOption args ["-E"] := hasOption_or (by decide)
    have he : HasOption args remoteArgs ↔
        HasOption args commonArgs ∨ HasOption args ["-e"] := hasOption_or (by decide)
    rw [hr, if_pos hg, keepLocal_iff, KeptLocal, Recognized, or_iff_right ha, and_iff_right ha,
      not_iff_not, hc, he, or_assoc]
    by_cases ho : HasOption args commonArgs
    case pos => simp only [ho, true_or]
    case neg => simp only [ho, false_or, iff_comm]

end Interpret

-- A host on which all programs are found.
def workstation : Shell where
  which name := some ("/usr/bin/" ++ name)
  currentDir := some "/home"
  vars       := []

theorem exists_interpreted {name : String} (args : List String)
    (hn : fileName ("/usr/bin/" ++ name) = some name) :
    workstation.program (name :: args) = some name ∧ ∃ runLocal task,
      interpretCommandLine workstation (name :: args) = some (.ok (runLocal, task)) := by
  refine ⟨hn, ?_⟩
  simp [interpretCommandLine, workstation, hn]

theorem interpretCommandLine_keptLocal_iff_preprocess :
    ∃ runLocal task,
      interpretCommandLine workstation ["gcc", "-E", "a.c"] = some (.ok (runLocal, task)) ∧
        ((runLocal = true ↔ KeptLocal "gcc" ["gcc", "-E", "a.c"]) ↔
          Recognized "gcc" ["gcc", "-E", "a.c"]) :=
  have hn : fileName ("/usr/bin/" ++ "gcc") = some "gcc" := by decide +kernel
  have ⟨hp, runLocal, task, h⟩ := exists_interpreted ["-E", "a.c"] hn
  ⟨runLocal, task, h, interpretCommandLine_keptLocal_iff h hp (by decide)⟩

-- Archives are made by an exec.
theorem archive_remoted :
    ¬∀ shell args runLocal task program,
      interpretCommandLine shell args = some (.ok (runLocal, task)) →
        shell.program args = some program → program ∈ ["gcc", "g++", "clang", "ar"] →
          (runLocal = true ↔ KeptLocal program args) := by
  intro h
  have hn : fileName ("/usr/bin/" ++ "ar") = some "ar" := by decide +kernel
  have ⟨hp, runLocal, task, hi⟩ := exists_interpreted ["rcs", "a.a", "a.o"] hn
  have hl : runLocal = false := interpretCommandLine_local hi hp
  have hk := (h _ _ _ _ _ hi hp (by decide)).mpr (.inl rfl)
  exact Bool.noConfusion <| hl.symm.trans hk

end SprayCC
