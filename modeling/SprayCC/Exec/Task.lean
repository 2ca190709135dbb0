import Mathlib.Data.Finset.Card
import SprayCC.Ipc.Message

-- The tasks of an exec, whose outputs are redirected to a temporary directory.

namespace SprayCC

-- The `file_name` of a path, which is its last component unless that is a `..`.
def fileName (path : String) : Option String :=
  let parts := path.toList.splitOn '/' |>.filter fun part => part ≠ [] ∧ part ≠ ['.']
  match parts.getLast? with
  | some part => if part = ['.', '.'] then none else some (.ofList part)
  | none      => none

-- The names which `generate_unique_file` tries for a base name.
def candidate (baseName : String) : Nat → String
  | 0       => baseName
  | idx + 1 => baseName ++ "." ++ toString (idx + 1)

-- The loop of `generate_unique_file`, from the name with number `idx` on. It turns at most once for
-- each name which is taken.
def uniqueName (baseName : String) (takenNames : Finset String) : Nat → Nat → String
  | 0,        idx => candidate baseName idx
  | fuel + 1, idx =>
    if candidate baseName idx ∈ takenNames then uniqueName baseName takenNames fuel (idx + 1)
    else candidate baseName idx

-- The path, and the names which are taken then.
def generateUniqueFile (outputDir : String) (takenNames : Finset String) (outputName : String) :
    String × Finset String :=
  let baseName := (fileName outputName).getD "unknown"
  let name := uniqueName baseName takenNames takenNames.card 0
  (outputDir ++ "/" ++ name, insert name takenNames)

-- The loop of `redirect_outputs`, which gives the arguments and the paths of the output files. An
-- index which is out of range panics, which is `none` here.
def redirectFrom (outputDir : String) :
    Finset String → List String → List UInt16 → Option (List String × List String)
  | _,          args, []      => some (args, [])
  | takenNames, args, i :: is => do
    let outputName ← args[i.toNat]?
    let (path, takenNames) := generateUniqueFile outputDir takenNames outputName
    let (args, outputFiles) ← redirectFrom outputDir takenNames (args.set i.toNat path) is
    some (args, path :: outputFiles)

def redirectOutputs (tempdir : Except String String) (args : List String)
    (outputArgs : List UInt16) :
    Option (Except String (List String × List String)) :=
  if outputArgs.isEmpty then some (.ok (args, [])) else
    match tempdir with
    | .ok outputDir => (redirectFrom outputDir ∅ args outputArgs).map .ok
    | .error e      =>
        some (.error s!"Fatal error: unable to create temporary working directory: {e}")

inductive Stream
  | stdout
  | stderr
  deriving DecidableEq

def Stream.outputType : Stream → OutputType
  | stdout => .stdout
  | stderr => .stderr

-- What waiting for a process comes to: its exit code, an error, or nothing, as it goes on for ever.
inductive Wait
  | exited (exitCode : Option Int32)
  | error
  | never

-- A process, by what it does until it has exited.
structure Child where
  -- What it writes to its streams.
  output : Stream → List UInt8
  -- What waiting for it comes to if so much of its output is left unread. It may be too much for
  -- the pipes, and then the process waits as well, for someone to read it.
  wait   : (Stream → List UInt8) → Wait
  -- The reads from a file once the process has exited, or `none` if it can not be opened. A read
  -- which is `none` is an error.
  reads  : String → Option (List (Option (List UInt8)))

-- What the tasks of an exec find on its host.
structure Host where
  hostname   : String
  pathExists : String → Bool
  tempdir    : Except String String
  spawn      : (cmd : String) → (args : List String) → (env : StringMap String) →
    (dir : String) → Option Child

structure Task where
  child       : Child
  outputFiles : List String

-- The first argument is the command itself. There is a panic if it is missing.
def startTask (host : Host) (dir cmd : String) (args : List String) (env : StringMap String) :
    Option Child :=
  match args with
  | []        => none
  | _ :: args => host.spawn cmd args env dir

def Task.start (host : Host) (cwd cmd : String) (args : List String) (outputArgs : List UInt16)
    (env : StringMap String) : Option (Except String Task) :=
  let hostname := host.hostname
  if ¬host.pathExists cwd then
    some (.error s!"Execution directory {cwd} does not exist on host {hostname}")
  else if ¬host.pathExists cmd then
    some (.error s!"Command {cmd} does not exist on host {hostname}")
  else
    match redirectOutputs host.tempdir args outputArgs with
    | none                          => none
    | some (.error e)               => some (.error e)
    | some (.ok (args, outputFiles)) =>
      (startTask host cwd cmd args env).map fun child => .ok { child, outputFiles }

theorem Stream.outputType_injective : Function.Injective outputType := by
  intro stream stream' h
  cases stream <;> cases stream' <;> first | rfl | cases h

theorem Stream.outputType_ne_file {stream : Stream} {idx : Nat} :
    stream.outputType ≠ .file idx := by
  cases stream <;> nofun

variable {baseName outputDir outputName : String} {takenNames : Finset String} {fuel idx : Nat}

theorem toString_injective : Function.Injective (toString : Nat → String) := by
  intro m n h
  have h : Nat.toDigits 10 m = Nat.toDigits 10 n := by
    simpa only [Nat.toList_repr] using congrArg String.toList (show m.repr = n.repr from h)
  simpa using congrArg (Nat.ofDigitChars 10 · 0) h

theorem candidate_succ_ne {n : Nat} : candidate baseName (n + 1) ≠ baseName := by
  intro h
  have hl := congrArg String.length h
  simp only [candidate, String.length_append, show ".".length = 1 from rfl] at hl
  omega

theorem candidate_injective : Function.Injective (candidate baseName) := by
  intro m n h
  cases m <;> cases n
  case zero.zero => rfl
  case zero.succ => exact absurd h.symm candidate_succ_ne
  case succ.zero => exact absurd h candidate_succ_ne
  case succ.succ => exact toString_injective <| String.append_right_inj _ |>.mp h

theorem uniqueName_mem (h : uniqueName baseName takenNames fuel idx ∈ takenNames) :
    ∀ k ≤ fuel, candidate baseName (idx + k) ∈ takenNames := by
  induction fuel generalizing idx with
  | zero =>
    intro k hk
    simpa [uniqueName, Nat.le_zero.mp hk] using h
  | succ fuel hi =>
    unfold uniqueName at h
    split at h
    case isFalse hn => exact absurd h hn
    case isTrue hm  =>
      intro k hk
      cases k
      case zero   => exact hm
      case succ k => exact Nat.add_right_comm idx 1 k ▸ hi h k (Nat.le_of_succ_le_succ hk)

-- A unique name is found before the turns are used up, as there are more names than are taken.
theorem uniqueName_not_mem : uniqueName baseName takenNames takenNames.card 0 ∉ takenNames := by
  intro h
  have hm := uniqueName_mem h
  have hs : (Finset.range (takenNames.card + 1)).image (candidate baseName) ⊆ takenNames := by
    intro name hn
    have ⟨k, hk, hn⟩ := Finset.mem_image.mp hn
    have hm := hm k (Nat.le_of_lt_succ <| Finset.mem_range.mp hk)
    rw [Nat.zero_add] at hm
    exact hn ▸ hm
  have hc := Finset.card_le_card hs
  rw [Finset.card_image_of_injective _ candidate_injective, Finset.card_range] at hc
  omega

section

variable {args args' : List String} {is : List UInt16} {paths : List String} {name path : String}

theorem redirectFrom_cons {i : UInt16}
    (h : redirectFrom outputDir takenNames args (i :: is) = some (args', paths)) :
    ∃ name args₁ paths', name ∉ takenNames ∧ paths = (outputDir ++ "/" ++ name) :: paths' ∧
      redirectFrom outputDir (insert name takenNames) args₁ is = some (args', paths') := by
  simp only [redirectFrom, generateUniqueFile, Option.bind_eq_bind, Option.bind_eq_some_iff,
    Option.some.injEq, Prod.mk.injEq] at h
  obtain ⟨outputName, _, ⟨args'', paths'⟩, h, rfl, rfl⟩ := h
  exact ⟨_, _, paths', uniqueName_not_mem, rfl, h⟩

theorem redirectFrom_length (h : redirectFrom outputDir takenNames args is = some (args', paths)) :
    paths.length = is.length := by
  induction is generalizing takenNames args paths with
  | nil => cases h; rfl
  | cons i is hi =>
    have ⟨_, _, _, _, hp, h⟩ := redirectFrom_cons h
    rw [hp, List.length_cons, List.length_cons, hi h]

theorem Task.start_ok {host : Host} {cwd cmd : String} {env : StringMap String} {task : Task}
    (h : Task.start host cwd cmd args is env = some (.ok task)) :
    ∃ args', redirectOutputs host.tempdir args is = some (.ok (args', task.outputFiles)) := by
  simp only [Task.start] at h
  split at h
  case isTrue => cases h
  case isFalse =>
    split at h
    case isTrue => cases h
    case isFalse =>
      split at h
      case h_1 => cases h
      case h_2 => cases h
      case h_3 args' outputFiles he =>
        have ⟨child, _, hc⟩ := Option.map_eq_some_iff.mp h
        cases hc
        exact ⟨args', he⟩

theorem redirectOutputs_length {tempdir : Except String String}
    (h : redirectOutputs tempdir args is = some (.ok (args', paths))) :
    paths.length = is.length := by
  unfold redirectOutputs at h
  split at h
  case isTrue hn =>
    cases h
    exact List.isEmpty_iff.mp hn ▸ rfl
  case isFalse   =>
    split at h
    case h_1 =>
      have ⟨_, h, he⟩ := Option.map_eq_some_iff.mp h
      cases he
      exact redirectFrom_length h
    case h_2 => cases h

end

end SprayCC
