import Mathlib.Data.Finset.Basic

namespace SprayCC

-- Durations and points in time (since the epoch) are counted in nanoseconds.
abbrev Duration := Nat

abbrev SystemTime := Nat

def secs (n : Nat) : Duration :=
  n * 1000000000

def Duration.asSecs (d : Duration) : Nat :=
  d / 1000000000

-- `now.duration_since(t)`, where a `t` in the future counts as now.
def elapsed (now t : SystemTime) : Duration :=
  now - t

-- A `HashMap<String, _>`.
abbrev StringMap (α : Type) := Std.ExtTreeMap String α

structure CallMe where
  addr       : String
  accessCode : UInt64

inductive OutputType
  | stdout
  | stderr
  | file (idx : Nat)
  deriving DecidableEq

structure TaskDetails where
  workingDir   : String
  cmd          : String
  args         : List String
  outputArgs   : List UInt16
  env          : StringMap String
  priorityTask : Bool
  deriving DecidableEq

-- An output index which is out of range panics, which is `none` here.
def TaskDetails.getTargetId (d : TaskDetails) : Option String :=
  match d.outputArgs with
  | []  => some <| d.args.foldl (fun s arg => s ++ ";" ++ arg) d.workingDir
  | [i] => d.args[i.toNat]?
  | is  => is.mapM (fun i => d.args[i.toNat]?) |>.map (";".intercalate ·)

inductive Message
  | yourObedientServant (accessCode userCode : UInt64)
  | task (accessCode userCode : UInt64) (details : TaskDetails)
  | taskOutput (outputType : OutputType) (content : List UInt8)
  | taskFailed (errorMessage : String)
  | taskDone (exitCode : Option Int32) (targetId : String) (runTime sendTime : Duration)
  | cancelTask
  | pissOff
  | dropped
  deriving DecidableEq

namespace Message

-- The messages which end a task.
def Terminal : Message → Prop
  | taskFailed ..  | taskDone .. => True
  | _                            => False

instance : DecidablePred Terminal
  | taskFailed .. | taskDone .. => .isTrue trivial
  | yourObedientServant .. | task .. | taskOutput .. | cancelTask | pissOff | dropped => .isFalse id

-- The messages with which a task's results come back.
def Result : Message → Prop
  | taskOutput .. | taskFailed .. | taskDone .. => True
  | _                                           => False

instance : DecidablePred Result
  | taskOutput .. | taskFailed .. | taskDone .. => .isTrue trivial
  | yourObedientServant .. | task .. | cancelTask | pissOff | dropped => .isFalse id

-- The messages with which a remote opens its session.
def Opens : Message → Prop
  | yourObedientServant .. | task .. => True
  | _                                => False

instance : DecidablePred Opens
  | yourObedientServant .. | task .. => .isTrue trivial
  | taskOutput .. | taskFailed .. | taskDone .. | cancelTask | pissOff | dropped => .isFalse id

theorem Terminal.result {msg : Message} (h : msg.Terminal) : msg.Result := by
  cases msg <;> first | exact trivial | exact h.elim

end Message
end SprayCC
