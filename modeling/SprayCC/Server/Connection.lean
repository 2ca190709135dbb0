import SprayCC.Async.Trace
import SprayCC.Server.Codes

-- The task of a single connection, `handle_connection`.

open Async

namespace SprayCC.Connection

-- What the `select!` of the loop comes to: what `read_message` returns (a frame which can not be
-- decoded makes it panic), or what is received from the outbound channel.
inductive Arm
  | message (msg : Message)
  | closed
  | error
  | undecodable
  | outbound (msg : Message)
  | hungUp

inductive Call
  | select
  | send (connId : Nat) (msg : Message)
  | write (msg : Message)

@[reducible]
def Call.Answer : Call → Type
  | select  => Arm
  | send .. => Bool
  | write _ => Bool

@[reducible]
def signature : Signature where
  Call   := Call
  Answer := Call.Answer

-- The ways to leave the loop other than by returning: an `Err` which is passed up by `?`, or a
-- panic. A task which is not at its end is `waiting`.
inductive Fault
  | error
  | panic (text : String)
  | waiting

abbrev Proc := Program signature Fault

def select : Proc Arm :=
  @Program.ask signature Fault .select

def sendOrErr (connId : Nat) (msg : Message) : Proc Unit := do
  if ← @Program.ask signature Fault (.send connId msg) then pure () else .fail .error

def writeOrErr (msg : Message) : Proc Unit := do
  if ← @Program.ask signature Fault (.write msg) then pure () else .fail .error

-- The loop has `fuel` for its turns. Every call that returns does so for some `fuel`.
def handleConnection (codes : Codes) (connId : Nat) : Nat → Proc Unit
  | 0        => .fail .waiting
  | fuel + 1 => do
    match ← select with
    | .message msg => do
      sendOrErr connId (codes.forwards msg)
      handleConnection codes connId fuel
    | .closed | .error | .hungUp => sendOrErr connId .dropped
    | .undecodable => .fail (.panic "Unable to decode message")
    | .outbound msg => do
      writeOrErr msg
      handleConnection codes connId fuel

-- What a run has put on the inbound channel.
def inbound (tr : Trace signature) : List (Nat × Message) :=
  tr.filterMap fun
    | ⟨.send connId msg, true⟩ => some (connId, msg)
    | _                        => none

-- What a run has read from the socket.
def read (tr : Trace signature) : List Message :=
  tr.filterMap fun
    | ⟨.select, .message msg⟩ => some msg
    | _                       => none

-- The main loop, which receives from the inbound channel, is there all the time.
def Alive (tr : Trace signature) : Prop :=
  ∀ connId msg, ⟨.send connId msg, false⟩ ∉ tr

def Written (tr : Trace signature) : Prop :=
  ∀ msg, ⟨.write msg, false⟩ ∉ tr

def Decoded (tr : Trace signature) : Prop :=
  ⟨.select, .undecodable⟩ ∉ tr

-- The server is told everything that was read, and then that the connection is gone.
def Reported (codes : Codes) (connId : Nat) (tr : Trace signature) : Prop :=
  inbound tr = (read tr).map (fun msg => (connId, codes.forwards msg)) ++ [(connId, .dropped)]

variable {codes : Codes} {connId fuel : Nat} {tr : Trace signature} {r : Except Fault Unit}
variable {msg : Message} {p : Proc Unit}

theorem runs_sendOrErr (h : (sendOrErr connId msg >>= fun _ => p).Runs tr r) :
    (∃ tr', tr = ⟨.send connId msg, true⟩ :: tr' ∧ p.Runs tr' r) ∨
      tr = [⟨.send connId msg, false⟩] := by
  have ⟨ok, tr', ht, hp⟩ := Program.Runs.call_iff.mp h
  cases ok
  case true  => exact .inl ⟨tr', ht, hp⟩
  case false => exact .inr <| by rw [ht, (Program.Runs.fail_iff.mp hp).left]

theorem runs_writeOrErr (h : (writeOrErr msg >>= fun _ => p).Runs tr r) :
    (∃ tr', tr = ⟨.write msg, true⟩ :: tr' ∧ p.Runs tr' r) ∨ tr = [⟨.write msg, false⟩] := by
  have ⟨ok, tr', ht, hp⟩ := Program.Runs.call_iff.mp h
  cases ok
  case true  => exact .inl ⟨tr', ht, hp⟩
  case false => exact .inr <| by rw [ht, (Program.Runs.fail_iff.mp hp).left]

theorem runs_notice (h : (sendOrErr connId msg).Runs tr r) :
    tr = [⟨.send connId msg, true⟩] ∨ tr = [⟨.send connId msg, false⟩] := by
  have ⟨ok, tr', ht, hp⟩ := Program.Runs.call_iff.mp h
  cases ok
  case true  => exact .inl <| by rw [ht, (Program.Runs.done_iff.mp hp).left]
  case false => exact .inr <| by rw [ht, (Program.Runs.fail_iff.mp hp).left]

-- The end of a connection is reported last, unless a socket write has failed or a frame can not be
-- decoded.
theorem reported_iff (hr : (handleConnection codes connId fuel).Runs tr r)
    (hw : r ≠ .error .waiting)
    (ha : Alive tr) : Reported codes connId tr ↔ Written tr ∧ Decoded tr := by
  induction fuel generalizing tr with
  | zero         => exact absurd (Program.Runs.fail_iff.mp hr).right hw
  | succ fuel hi =>
    have ⟨arm, tr₁, ht, h₁⟩ := Program.Runs.call_iff.mp hr
    subst ht
    cases arm
    case message msg =>
      rcases runs_sendOrErr h₁ with ⟨tr₂, rfl, h₂⟩ | rfl
      case inl =>
        have hi := hi h₂ fun i m hm => ha i m <| .tail _ <| .tail _ hm
        simpa [Reported, Written, Decoded, inbound, read] using hi
      case inr => exact absurd (.tail _ <| .head _) <| ha connId (codes.forwards msg)
    case outbound msg =>
      rcases runs_writeOrErr h₁ with ⟨tr₂, rfl, h₂⟩ | rfl
      case inl =>
        have hi := hi h₂ fun i m hm => ha i m <| .tail _ <| .tail _ hm
        simpa [Reported, Written, Decoded, inbound, read] using hi
      case inr => simp [Reported, Written, Decoded, inbound, read]
    case undecodable =>
      have ⟨ht, _⟩ := Program.Runs.fail_iff.mp h₁
      subst ht
      simp [Reported, Written, Decoded, inbound, read]
    case closed | error | hungUp =>
      rcases runs_notice h₁ with rfl | rfl
      case inl => simp [Reported, Written, Decoded, inbound, read]
      case inr => exact absurd (.tail _ <| .head _) <| ha connId .dropped

theorem reported_visit :
    ∃ codes tr, (handleConnection codes 0 2).Runs tr (.ok ()) ∧ (read tr).length = 1 ∧
      (Reported codes 0 tr ↔ Written tr ∧ Decoded tr) := by
  let codes : Codes := ⟨2, 1, by decide⟩
  have hr : (handleConnection codes 0 2).Runs
      [⟨.select, .message (codes.hello false)⟩,
        ⟨.send 0 (codes.forwards (codes.hello false)), true⟩,
        ⟨.select, .closed⟩, ⟨.send 0 .dropped, true⟩] (.ok ()) :=
    .call (.call (.call (.call .done)))
  exact ⟨codes, _, hr, rfl, reported_iff hr nofun (by simp [Alive])⟩

-- An exec says hello, and what it is sent first can not be written to its socket.
theorem write_failed :
    ¬∀ codes connId fuel tr r, (handleConnection codes connId fuel).Runs tr r →
      r ≠ .error .waiting →
      Alive tr → Reported codes connId tr := by
  intro h
  let codes : Codes := ⟨2, 1, by decide⟩
  have hr : (handleConnection codes 0 2).Runs
      [⟨.select, .message (codes.hello false)⟩,
        ⟨.send 0 (codes.forwards (codes.hello false)), true⟩,
        ⟨.select, .outbound .pissOff⟩, ⟨.write .pissOff, false⟩] (.error .error) :=
    .call (.call (.call (.call .fail)))
  have h := h _ _ _ _ _ hr nofun (by simp [Alive])
  simp [Reported, inbound, read] at h

end SprayCC.Connection
