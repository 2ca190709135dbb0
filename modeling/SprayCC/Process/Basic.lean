import SprayCC.Async.Partial
import SprayCC.Client

open Async

-- The processes which call the server: what they ask of their sockets and of their hosts.

namespace SprayCC.Process

-- What `read_message` comes to. A frame which can not be decoded makes it panic.
inductive Arrival
  | message (msg : Message)
  | closed
  | error
  | undecodable

-- The files of a client are written by the calls it has for them. The last two calls are for a task
-- which is not given to the server.
inductive Call
  | connect (addr : String)
  | random
  | sleep (millis : UInt64)
  | write (msg : Message)
  | read
  | flush
  | shutdown
  | file (c : Client.Call)
  | spawn (cmd : String) (args : List String) (dir : String)
  | wait

@[reducible]
def Call.Answer : Call → Type
  | connect _ => Bool
  | random    => UInt64
  | sleep _   => Unit
  | write _   => Bool
  | read      => Arrival
  | flush     => Bool
  | shutdown  => Unit
  | file _    => Bool
  | spawn ..  => Bool
  | wait      => Option (Option Int32)

@[reducible]
def signature : Signature where
  Call   := Call
  Answer := Call.Answer

-- The last two are those of the parts of a process which are about a single task.
inductive Panic
  | unexpected (msg : Message)
  | cancelTask
  | undecodable
  | exec
  | client (text : String)
  deriving DecidableEq

-- The ways to leave a process other than by returning: an `Err` which is passed up by `?`, or a
-- panic. A process which is not at its end is `waiting`, and an exec is `stuck` if it waits for the
-- process of a task which goes on for ever.
inductive Fault
  | error
  | panic (p : Panic)
  | waiting
  | stuck

abbrev Proc := Program signature Fault

def read : Proc Arrival :=
  @Program.ask signature Fault .read

def connect (addr : String) : Proc Bool :=
  @Program.ask signature Fault (.connect addr)

-- Closing the socket may fail, which is ignored.
def shutdown : Proc Unit :=
  @Program.ask signature Fault .shutdown

def writeOrErr (msg : Message) : Proc Unit := do
  if ← @Program.ask signature Fault (.write msg) then pure () else .fail .error

def flushOrErr : Proc Unit := do
  if ← @Program.ask signature Fault .flush then pure () else .fail .error

-- What a process and the server have to do with each other, from the side of the process.
inductive Event
  | said (msg : Message)
  | heard (msg : Message)
  deriving DecidableEq

def said (d : List Event) : List Message :=
  d.filterMap fun
    | .said msg => some msg
    | .heard _  => none

def heard (d : List Event) : List Message :=
  d.filterMap fun
    | .heard msg => some msg
    | .said _    => none

def dialogue (tr : Trace signature) : List Event :=
  tr.filterMap fun
    | ⟨.write msg, true⟩      => some (.said msg)
    | ⟨.read, .message msg⟩   => some (.heard msg)
    | _                       => none

-- A frame which could not be decoded has been read.
def Garbled (tr : Trace signature) : Prop :=
  ⟨.read, .undecodable⟩ ∈ tr

variable {d d' : List Event} {tr tr' : Trace signature} {msg : Message} {α : Type} {p q : Proc α}

@[simp]
theorem said_nil : said [] = [] :=
  rfl

@[simp]
theorem said_said : said (.said msg :: d) = msg :: said d :=
  rfl

@[simp]
theorem said_heard : said (.heard msg :: d) = said d :=
  rfl

@[simp]
theorem said_append : said (d ++ d') = said d ++ said d' :=
  List.filterMap_append

@[simp]
theorem heard_nil : heard [] = [] :=
  rfl

@[simp]
theorem heard_heard : heard (.heard msg :: d) = msg :: heard d :=
  rfl

@[simp]
theorem heard_said : heard (.said msg :: d) = heard d :=
  rfl

@[simp]
theorem heard_append : heard (d ++ d') = heard d ++ heard d' :=
  List.filterMap_append

@[simp]
theorem said_map {ms : List Message} : said (ms.map .said) = ms := by
  induction ms with
  | nil          => rfl
  | cons _ _ hi  => exact congrArg _ hi

@[simp]
theorem heard_map {ms : List Message} : heard (ms.map .said) = [] := by
  induction ms with
  | nil         => rfl
  | cons _ _ hi => exact hi

@[simp]
theorem said_map_heard {ms : List Message} : said (ms.map .heard) = [] := by
  induction ms with
  | nil         => rfl
  | cons _ _ hi => exact hi

@[simp]
theorem dialogue_read : dialogue (⟨.read, .message msg⟩ :: tr) = .heard msg :: dialogue tr :=
  rfl

@[simp]
theorem dialogue_write : dialogue (⟨.write msg, true⟩ :: tr) = .said msg :: dialogue tr :=
  rfl

@[simp]
theorem dialogue_append : dialogue (tr ++ tr') = dialogue tr ++ dialogue tr' :=
  List.filterMap_append

@[simp]
theorem heard_map_heard {ms : List Message} : heard (ms.map .heard) = ms := by
  induction ms with
  | nil         => rfl
  | cons _ _ hi => exact congrArg _ hi

-- What was said first came after what was heard before.
theorem exists_of_said {ms : List Message} (h : said d = msg :: ms) :
    ∃ (ms' : List Message) (d' : List Event),
      d = ms'.map .heard ++ .said msg :: d' ∧ said d' = ms := by
  induction d with
  | nil          => cases h
  | cons ev d hi =>
    cases ev
    case said  => cases h; exact ⟨[], d, rfl, rfl⟩
    case heard m =>
      have ⟨ms', d', hd, hs⟩ := hi h
      exact ⟨m :: ms', d', congrArg _ hd, hs⟩

theorem eq_map_heard (h : said d = []) : d = (heard d).map .heard := by
  induction d with
  | nil          => rfl
  | cons ev d hi =>
    cases ev
    case said  => cases h
    case heard => exact congrArg _ (hi h)

-- The call does not have to do with messages.
def Call.Quiet : Call → Prop
  | write _ | read => False
  | _              => True

theorem dialogue_eq_nil (h : ∀ x ∈ tr, x.fst.Quiet) : dialogue tr = [] := by
  refine List.filterMap_eq_nil_iff.mpr fun ⟨c, a⟩ hx => ?_
  have hc := h _ hx
  cases c
  case write | read => exact hc.elim
  all_goals rfl

theorem dialogue_of_quiet (hp : p.Within Call.Quiet fun _ => True) (h : p.After tr q) :
    dialogue tr = [] :=
  dialogue_eq_nil (hp.after h).left

-- The rest of a process which writes a message first.
theorem after_writeOrErr (h : (writeOrErr msg >>= fun _ => p).After tr q) :
    tr = [] ∧ q = (writeOrErr msg >>= fun _ => p) ∨
      (∃ tr', tr = ⟨.write msg, true⟩ :: tr' ∧ p.After tr' q) ∨
        tr = [⟨.write msg, false⟩] ∧ q = .fail .error := by
  rcases Program.After.of_call h with hn | ⟨ok, tr', rfl, hp⟩
  case inl => exact .inl hn
  case inr =>
    cases ok
    case true  => exact .inr <| .inl ⟨tr', rfl, hp⟩
    case false =>
      have ⟨ht, hq⟩ := Program.After.fail_iff.mp hp
      exact .inr <| .inr ⟨ht ▸ rfl, hq⟩

end SprayCC.Process
