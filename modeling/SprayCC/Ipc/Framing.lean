import Mathlib.Algebra.Group.Nat.Defs
import SprayCC.Ipc.Message

-- The frames of the messages on a connection, and how `handle_connection` gets the messages back.

namespace SprayCC

-- The serialization of messages, where bytes which can not be decoded are `none`.
structure Codec where
  serialize   : Message → List UInt8
  deserialize : List UInt8 → Option Message

-- A `u32` in big endian. The cast of a larger number to `u32` drops its upper bytes.
def writeU32 (n : Nat) : List UInt8 :=
  [.ofNat (n / 2 ^ 24), .ofNat (n / 2 ^ 16), .ofNat (n / 2 ^ 8), .ofNat n]

-- An `i32` in big endian, cast to `usize`. The cast of a negative number extends its sign.
def getI32 (b₃ b₂ b₁ b₀ : UInt8) : Nat :=
  let n := b₃.toNat * 2 ^ 24 + b₂.toNat * 2 ^ 16 + b₁.toNat * 2 ^ 8 + b₀.toNat
  if n < 2 ^ 31 then n else n + (2 ^ 64 - 2 ^ 32)

theorem getI32_writeU32 {n : Nat} (h : n < 2 ^ 31) :
    getI32 (.ofNat (n / 2 ^ 24)) (.ofNat (n / 2 ^ 16)) (.ofNat (n / 2 ^ 8)) (.ofNat n) = n := by
  have hb : n / 2 ^ 24 % 2 ^ 8 * 2 ^ 24 + n / 2 ^ 16 % 2 ^ 8 * 2 ^ 16 + n / 2 ^ 8 % 2 ^ 8 * 2 ^ 8 +
      n % 2 ^ 8 = n := by omega
  simp only [getI32, UInt8.toNat_ofNat', hb, h, if_true]

namespace Codec

def writeMessage (codec : Codec) (msg : Message) : List UInt8 :=
  writeU32 (codec.serialize msg).length ++ codec.serialize msg

-- The decoder undoes the encoder, and ignores trailing bytes.
def Undoes (codec : Codec) (msgs : List Message) : Prop :=
  ∀ msg ∈ msgs, ∀ bytes, codec.deserialize (codec.serialize msg ++ bytes) = some msg

-- The sizes of the messages are not negative as an `i32`.
def Fits (codec : Codec) (msgs : List Message) : Prop :=
  ∀ msg ∈ msgs, (codec.serialize msg).length < 2 ^ 31

end Codec

-- Where a call of `read_message` waits for more bytes.
inductive ReadMessage
  | header
  | payload (msgSize : Nat)

inductive Poll
  | pending (call : ReadMessage) (buf : List UInt8)
  | ready (msg : Message) (buf : List UInt8)
  | panic

namespace ReadMessage

-- The conditions of the two loops.
def Waits : ReadMessage → List UInt8 → Prop
  | header,          buf => buf.length < 4
  | payload msgSize, buf => buf.length < msgSize

instance : (call : ReadMessage) → DecidablePred call.Waits
  | header | payload _ => fun _ => inferInstanceAs <| Decidable (_ < _)

def pollPayload (codec : Codec) (msgSize : Nat) (buf : List UInt8) : Poll :=
  if buf.length < msgSize then .pending (.payload msgSize) buf else
    match codec.deserialize buf with
    | some msg => .ready msg (buf.drop msgSize)
    | none     => .panic

-- A call goes on with the bytes of the buffer until it returns or needs more of them.
def poll (codec : Codec) : ReadMessage → List UInt8 → Poll
  | header,          b₃ :: b₂ :: b₁ :: b₀ :: buf => pollPayload codec (getI32 b₃ b₂ b₁ b₀) buf
  | header,          buf                         => .pending .header buf
  | payload msgSize, buf                         => pollPayload codec msgSize buf

end ReadMessage

-- The ways in which `handle_connection` leaves its loop: at the end of the stream, or at its end
-- within a frame, by a panic, or by an error of the socket.
inductive End
  | closed
  | reset
  | panicked
  | failed
  deriving DecidableEq

-- The reading side of `handle_connection`: the bytes which are still on their way, the buffer of
-- the connection, the current call of `read_message`, and the messages obtained so far.
structure Reader where
  stream   : List UInt8
  buf      : List UInt8
  call     : ReadMessage
  obtained : List Message
  stopped  : Option End

namespace Reader

-- What happens to the current call: it is polled, it reads some bytes, it finds the end of the
-- stream, the socket fails, or the call is dropped in favour of an outbound message.
inductive Event
  | polls
  | reads (n : Nat)
  | ends
  | fails
  | outbound

def start (codec : Codec) (msgs : List Message) : Reader where
  stream   := msgs.flatMap codec.writeMessage
  buf      := []
  call     := .header
  obtained := []
  stopped  := none

-- The loop calls `read_message` anew once the call has returned a message.
def polled (r : Reader) : Poll → Reader
  | .pending call buf => { r with call, buf }
  | .ready msg buf    => { r with call := .header, buf, obtained := r.obtained ++ [msg] }
  | .panic            => { r with stopped := some .panicked }

def step (codec : Codec) (r : Reader) : Event → Option Reader
  | .polls =>
    if r.stopped = none then some <| r.polled (r.call.poll codec r.buf) else none
  | .reads n =>
    if r.stopped = none ∧ r.call.Waits r.buf ∧ 0 < n ∧ n ≤ r.stream.length then
      some <|
        polled { r with stream := r.stream.drop n } (r.call.poll codec (r.buf ++ r.stream.take n))
    else none
  | .ends =>
    if r.stopped = none ∧ r.call.Waits r.buf ∧ r.stream = [] then
      match r.call, r.buf with
      | .header, [] => some { r with stopped := some .closed }
      | _,       _  => some { r with stopped := some .reset }
    else none
  | .fails =>
    if r.stopped = none then some { r with stopped := some .failed } else none
  | .outbound =>
    if r.stopped = none then some { r with call := .header } else none

-- The messages whose bytes the call and the ones after it have still to read.
def Ahead (codec : Codec) (msgs : List Message) (bytes : List UInt8) : ReadMessage → Prop
  | .header          => bytes = msgs.flatMap codec.writeMessage
  | .payload msgSize => ∃ msg rest, msgs = msg :: rest ∧ msgSize = (codec.serialize msg).length ∧
    bytes = codec.serialize msg ++ rest.flatMap codec.writeMessage

section Poll

variable {codec : Codec} {msgs : List Message} {msg : Message} {buf stream : List UInt8}
variable {call : ReadMessage}

-- What a call may come to if `msgs` are ahead of it.
def Yields (codec : Codec) (msgs : List Message) (stream : List UInt8) : Poll → Prop
  | .pending call buf => call.Waits buf ∧ Ahead codec msgs (buf ++ stream) call
  | .ready msg buf    => ∃ rest, msgs = msg :: rest ∧ Ahead codec rest (buf ++ stream) .header
  | .panic            => False

theorem yields_pollPayload (hu : codec.Undoes (msg :: msgs))
    (hb : buf ++ stream = codec.serialize msg ++ msgs.flatMap codec.writeMessage) :
    Yields codec (msg :: msgs) stream
      (ReadMessage.pollPayload codec (codec.serialize msg).length buf) := by
  unfold ReadMessage.pollPayload
  split
  case isTrue hl  => exact ⟨hl, msg, msgs, rfl, rfl, hb⟩
  case isFalse hl =>
    have ⟨bytes, hs⟩ : codec.serialize msg <+: buf :=
      List.prefix_of_prefix_length_le ⟨_, hb.symm⟩ ⟨stream, rfl⟩ (Nat.le_of_not_lt hl)
    subst hs
    rw [hu msg (.head _)]
    refine ⟨msgs, rfl, ?_⟩
    simpa [Ahead] using hb

theorem yields_poll (hu : codec.Undoes msgs) (hf : codec.Fits msgs)
    (ha : Ahead codec msgs (buf ++ stream) call) :
    Yields codec msgs stream (call.poll codec buf) := by
  unfold ReadMessage.poll
  split
  case h_1 b₃ b₂ b₁ b₀ buf =>
    cases msgs with
    | nil           => simp [Ahead] at ha
    | cons msg msgs =>
      simp only [Ahead, List.flatMap_cons, Codec.writeMessage, writeU32, List.cons_append,
        List.nil_append, List.cons.injEq] at ha
      obtain ⟨rfl, rfl, rfl, rfl, ha⟩ := ha
      rw [getI32_writeU32 <| hf msg (.head _)]
      exact yields_pollPayload hu ha
  case h_2 hn =>
    refine ⟨?_, ha⟩
    rcases buf with _ | ⟨_, _ | ⟨_, _ | ⟨_, _ | ⟨_, _⟩⟩⟩⟩
    case cons.cons.cons.cons => exact absurd rfl <| hn _ _ _ _ _
    all_goals simp [ReadMessage.Waits]
  case h_3 msgSize =>
    obtain ⟨msg, rest, rfl, rfl, hb⟩ := ha
    exact yields_pollPayload hu hb

end Poll

-- An outbound message is not taken while a call waits for a payload.
def Event.Patient (r : Reader) : Event → Prop
  | .outbound => r.call = .header
  | _         => True

-- The readers of runs of `handle_connection` whose steps are all as `P` demands.
inductive Reaches (codec : Codec) (msgs : List Message) (P : Reader → Event → Prop) : Reader → Prop
  | start : Reaches codec msgs P (start codec msgs)
  | step  : Reaches codec msgs P r → P r e → r.step codec e = some r' → Reaches codec msgs P r'

-- The messages are obtained in order, all of them once there is nothing more to read, and the
-- stream does not end within a frame.
structure Exact (msgs : List Message) (r : Reader) : Prop where
  inOrder : r.obtained <+: msgs
  all     : r.stream = [] → r.call.Waits r.buf → r.obtained = msgs
  stopped : r.stopped ≠ some .reset ∧ r.stopped ≠ some .panicked

structure Sound (codec : Codec) (msgs : List Message) (r : Reader) : Prop where
  ahead   : ∃ rest, msgs = r.obtained ++ rest ∧ Ahead codec rest (r.buf ++ r.stream) r.call
  stopped : r.stopped ≠ some .reset ∧ r.stopped ≠ some .panicked

namespace Sound

variable {codec : Codec} {msgs : List Message} {r r' : Reader} {e : Event}

theorem start : Sound codec msgs (start codec msgs) where
  ahead   := ⟨msgs, rfl, rfl⟩
  stopped := by simp [Reader.start]

theorem polled {p : Poll} {rest : List Message} (hm : msgs = r.obtained ++ rest)
    (hy : Yields codec rest r.stream p) (ho : r.stopped = none) :
    Sound codec msgs (r.polled p) := by
  cases p
  case pending => exact ⟨⟨rest, hm, hy.right⟩, by simp [Reader.polled, ho]⟩
  case ready msg buf =>
    obtain ⟨rest, rfl, ha⟩ := hy
    exact ⟨⟨rest, by simp [Reader.polled, hm], ha⟩, by simp [Reader.polled, ho]⟩
  case panic => exact hy.elim

theorem all (h : Sound codec msgs r) (hs : r.stream = []) (hw : r.call.Waits r.buf) :
    r.obtained = msgs ∧ r.call = .header ∧ r.buf = [] := by
  have ⟨⟨rest, hm, ha⟩, _⟩ := h
  rw [hs, List.append_nil] at ha
  cases hc : r.call <;> rw [hc] at ha hw
  case header =>
    cases rest with
    | nil           => exact ⟨by simp [hm], rfl, ha⟩
    | cons msg rest =>
      have hl := congrArg List.length <| ha.trans List.flatMap_cons
      simp only [Codec.writeMessage, writeU32, List.length_append, List.length_cons] at hl
      have hw : r.buf.length < 4 := hw
      omega
  case payload =>
    obtain ⟨msg, rest, rfl, rfl, hb⟩ := ha
    have hl := congrArg List.length hb
    rw [List.length_append] at hl
    have hw : r.buf.length < (codec.serialize msg).length := hw
    omega

theorem step (h : Sound codec msgs r) (hu : codec.Undoes msgs) (hf : codec.Fits msgs)
    (hp : e.Patient r) (hs : r.step codec e = some r') : Sound codec msgs r' := by
  have ⟨⟨rest, hm, ha⟩, ho⟩ := h
  have hu : codec.Undoes rest := fun m hr => hu m <| hm ▸ List.mem_append_right _ hr
  have hf : codec.Fits rest := fun m hr => hf m <| hm ▸ List.mem_append_right _ hr
  cases e <;> simp only [Reader.step, Option.ite_none_right_eq_some, Option.some.injEq] at hs
  case polls =>
    obtain ⟨ho, rfl⟩ := hs
    exact polled hm (yields_poll hu hf ha) ho
  case reads n =>
    obtain ⟨⟨ho, _, _, _⟩, rfl⟩ := hs
    refine polled (r := { r with stream := r.stream.drop n }) hm (yields_poll hu hf ?_) ho
    simpa using ha
  case ends =>
    obtain ⟨⟨_, hw, hs'⟩, hr⟩ := hs
    have ⟨_, hc, hb⟩ := h.all hs' hw
    simp only [hc, hb, Option.some.injEq] at hr
    subst hr
    exact ⟨⟨rest, hm, by simpa [hc, hb] using ha⟩, by simp⟩
  case fails =>
    obtain ⟨_, rfl⟩ := hs
    exact ⟨⟨rest, hm, ha⟩, by simp⟩
  case outbound =>
    obtain ⟨_, rfl⟩ := hs
    exact ⟨⟨rest, hm, hp ▸ ha⟩, ho⟩

end Sound

variable {codec : Codec} {msgs : List Message} {r : Reader}

-- The messages are obtained as they were written, if their sizes can be written down and none of
-- the calls is dropped which has read a header.
theorem Reaches.exact (h : Reaches codec msgs Event.Patient r) (hu : codec.Undoes msgs)
    (hf : codec.Fits msgs) : r.Exact msgs := by
  have h : Sound codec msgs r := by
    induction h with
    | start          => exact .start
    | step _ hp hs hi => exact hi.step hu hf hp hs
  have ⟨⟨rest, hm, _⟩, ho⟩ := h
  exact ⟨⟨rest, hm.symm⟩, fun hs hw => (h.all hs hw).left, ho⟩

end Reader

-- A number of `k` bytes in little endian.
def writeLE : Nat → Nat → List UInt8
  | 0,     _ => []
  | k + 1, n => .ofNat n :: writeLE k (n / 256)

def getLE : Nat → List UInt8 → Option (Nat × List UInt8)
  | 0,     bytes         => some (0, bytes)
  | _ + 1, []            => none
  | k + 1, byte :: bytes => (getLE k bytes).map fun (n, bytes) => (byte.toNat + 256 * n, bytes)

-- What `bincode` does with the messages of fixed sizes.
def Codec.fixed : Codec where
  serialize
    | .yourObedientServant accessCode userCode =>
      writeLE 4 0 ++ writeLE 8 accessCode.toNat ++ writeLE 8 userCode.toNat
    | .cancelTask => writeLE 4 5
    | .pissOff    => writeLE 4 6
    | .dropped    => writeLE 4 7
    | _           => []
  deserialize bytes := do
    match ← getLE 4 bytes with
    | (0, bytes) =>
      let (accessCode, bytes) ← getLE 8 bytes
      let (userCode, _) ← getLE 8 bytes
      some <| .yourObedientServant (.ofNat accessCode) (.ofNat userCode)
    | (5, _) => some .cancelTask
    | (6, _) => some .pissOff
    | (7, _) => some .dropped
    | _      => none

theorem Codec.fixed_undoes : Codec.fixed.Undoes [.yourObedientServant 2 1, .cancelTask] := by
  simp only [Undoes, List.forall_mem_cons]
  exact ⟨fun _ => rfl, fun _ => rfl, nofun⟩

theorem Codec.fixed_fits : Codec.fixed.Fits [.yourObedientServant 2 1, .cancelTask] := by
  unfold Fits
  decide

namespace Reader

theorem exact_between_frames :
    ∃ r, Reaches .fixed [.yourObedientServant 2 1, .cancelTask] Event.Patient r ∧
      r.obtained.length = 2 ∧ r.Exact [.yourObedientServant 2 1, .cancelTask] := by
  have h : Reaches Codec.fixed [.yourObedientServant 2 1, .cancelTask] Event.Patient _ :=
    .step (.step (.step (.step .start (e := .outbound) rfl rfl) (e := .reads 4) trivial rfl)
      (e := .reads 26) trivial rfl) (e := .outbound) rfl rfl
  have h := h.step (e := .polls) trivial rfl |>.step (e := .reads 2) trivial rfl
  exact ⟨_, h, rfl, h.exact Codec.fixed_undoes Codec.fixed_fits⟩

-- An outbound message comes between the header and the payload of the first message.
theorem header_lost :
    ¬∀ codec msgs r, Reaches codec msgs (fun _ _ => True) r → codec.Undoes msgs → codec.Fits msgs →
      r.Exact msgs := by
  intro h
  have hr : Reaches Codec.fixed [.yourObedientServant 2 1, .cancelTask] (fun _ _ => True) _ :=
    .step (.step (.step .start (e := .reads 4) trivial rfl) (e := .outbound) trivial rfl)
      (e := .reads 20) trivial rfl
  exact (h _ _ _ hr Codec.fixed_undoes Codec.fixed_fits).stopped.right rfl

end Reader
end SprayCC
