import Mathlib.Data.UInt
import SprayCC.Ipc.Message

namespace SprayCC

-- The secrets which the server shares with its remotes. The last bit of the access code is left for
-- the execs to tell their queue.
structure Codes where
  accessCode : UInt64
  userCode   : UInt64
  even       : accessCode &&& 1 = 0

namespace Codes

variable (codes : Codes)

-- The test which `handle_connection` makes on every message before it forwards it.
def drops : Message → Bool
  | .yourObedientServant accessCode userCode =>
    accessCode &&& ~~~1 != codes.accessCode || userCode != codes.userCode
  | .task accessCode userCode _ => accessCode != codes.accessCode || userCode != codes.userCode
  | _ => false

-- The message which is forwarded to the server for one which was read.
def forwards (msg : Message) : Message :=
  if codes.drops msg then .dropped else msg

-- A message which opens a session with the right codes.
def Admits (msg : Message) : Prop :=
  msg.Opens ∧ ¬codes.drops msg

instance : DecidablePred codes.Admits :=
  fun _ => inferInstanceAs <| Decidable (_ ∧ _)

-- The access code with which the start command of a queue was built.
def queueCode (secondQueue : Bool) : UInt64 :=
  if secondQueue then codes.accessCode + 1 else codes.accessCode

def hello (secondQueue : Bool) : Message :=
  .yourObedientServant (codes.queueCode secondQueue) codes.userCode

def submission (details : TaskDetails) : Message :=
  .task codes.accessCode codes.userCode details

variable {codes}

theorem mask_toNat (code : UInt64) : (code &&& ~~~1).toNat = 2 * (code.toNat / 2) := by
  have hc := code.toNat_lt
  have hd : (code.toNat &&& (2 ^ 64 - 2)) / 2 = code.toNat / 2 := by
    rw [Nat.and_div_two, show (2 ^ 64 - 2) / 2 = 2 ^ 63 - 1 from rfl,
      Nat.and_two_pow_sub_one_eq_mod]
    omega
  have hm : (code.toNat &&& (2 ^ 64 - 2)) % 2 = 0 := by
    have h := Nat.and_mod_two_pow (a := code.toNat) (b := 2 ^ 64 - 2) (n := 1)
    simpa using h
  rw [UInt64.toNat_and, show (~~~(1 : UInt64)).toNat = 2 ^ 64 - 2 from rfl]
  omega

theorem accessCode_mod_two : codes.accessCode.toNat % 2 = 0 := by
  have h := congrArg UInt64.toNat codes.even
  simpa [Nat.and_one_is_mod] using h

theorem queueCode_masked (secondQueue : Bool) :
    codes.queueCode secondQueue &&& ~~~1 = codes.accessCode := by
  have h := codes.accessCode_mod_two
  have hc := codes.accessCode.toNat_lt
  rw [← UInt64.toNat_inj, mask_toNat]
  cases secondQueue
  case false => simp only [queueCode, Bool.false_eq_true, if_false]; omega
  case true  => simp only [queueCode, if_true, UInt64.toNat_add, UInt64.reduceToNat]; omega

theorem forwards_hello (secondQueue : Bool) :
    codes.forwards (codes.hello secondQueue) = codes.hello secondQueue := by
  simp [forwards, drops, hello, queueCode_masked]

theorem forwards_submission (details : TaskDetails) :
    codes.forwards (codes.submission details) = codes.submission details := by
  simp [forwards, drops, submission]

theorem forwards_result {msg : Message} (h : msg.Result) : codes.forwards msg = msg := by
  cases msg <;> first | rfl | exact h.elim

theorem not_opens_forwards {msg : Message} (h : ¬codes.Admits msg) :
    ¬(codes.forwards msg).Opens := by
  unfold forwards
  split
  case isTrue     => exact id
  case isFalse hd => exact fun ho => h ⟨ho, hd⟩

end Codes
end SprayCC
