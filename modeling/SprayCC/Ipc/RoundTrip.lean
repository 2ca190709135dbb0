import SprayCC.Ipc.Framing

-- Calls of `read_message` one after the other, none of which is dropped.

namespace SprayCC

-- What a read returns before the end of the stream.
abbrev Chunk := { bytes : List UInt8 // bytes ≠ [] }

def bytesOf (chunks : List Chunk) : List UInt8 :=
  chunks.flatMap Subtype.val

-- What a call returns: `Ok(Some(_))`, `Ok(None)` or an `Err`, unless it panics.
inductive Outcome
  | message (msg : Message)
  | closed
  | reset
  | panicked
  deriving DecidableEq

namespace ReadMessage

-- What a call returns which waits for more bytes at the end of the stream.
def atEnd : ReadMessage → List UInt8 → Outcome
  | header, [] => .closed
  | _,      _  => .reset

-- A call also leaves its buffer and the chunks which it has not read.
def finish (codec : Codec) (call : ReadMessage) (buf : List UInt8) :
    List Chunk → Outcome × List UInt8 × List Chunk
  | [] =>
    match call.poll codec buf with
    | .pending call buf => (call.atEnd buf, buf, [])
    | .ready msg buf    => (.message msg, buf, [])
    | .panic            => (.panicked, buf, [])
  | chunk :: chunks =>
    match call.poll codec buf with
    | .pending call buf => finish codec call (buf ++ chunk) chunks
    | .ready msg buf    => (.message msg, buf, chunk :: chunks)
    | .panic            => (.panicked, buf, chunk :: chunks)

end ReadMessage

-- The outcomes of at most `n` calls, up to the first one which is no message.
def readMessages (codec : Codec) : Nat → List UInt8 → List Chunk → List Outcome
  | 0,     _,   _      => []
  | n + 1, buf, chunks =>
    match ReadMessage.header.finish codec buf chunks with
    | (.message msg, buf, chunks) => .message msg :: readMessages codec n buf chunks
    | (outcome, _, _)             => [outcome]

-- The messages whose frames are complete after `n` bytes.
def Codec.complete (codec : Codec) : List Message → Nat → List Message
  | [],          _ => []
  | msg :: msgs, n =>
    let size := (codec.writeMessage msg).length
    if size ≤ n then msg :: codec.complete msgs (n - size) else []

namespace ReadMessage

variable {codec : Codec} {msgs : List Message} {msg : Message} {buf bytes : List UInt8}
variable {call call' : ReadMessage} {chunks : List Chunk}

-- A call which waits has at most taken the header out of the buffer.
theorem poll_pending {buf' : List UInt8} (h : call.poll codec buf = .pending call' buf') :
    call' = call ∧ buf' = buf ∨
      call = header ∧ (∃ n, call' = payload n) ∧ buf.length = buf'.length + 4 := by
  unfold poll at h
  split at h
  case h_1 =>
    unfold pollPayload at h
    split at h
    case isTrue  => cases h; exact .inr ⟨rfl, ⟨_, rfl⟩, rfl⟩
    case isFalse => split at h <;> cases h
  case h_2 => cases h; exact .inl ⟨rfl, rfl⟩
  case h_3 =>
    unfold pollPayload at h
    split at h
    case isTrue  => cases h; exact .inl ⟨rfl, rfl⟩
    case isFalse => split at h <;> cases h

-- There are too few bytes for the rest of the frame, but there are some.
def Short (codec : Codec) (msgs : List Message) (bytes : List UInt8) : ReadMessage → Prop
  | header    => bytes ≠ [] ∧ ∀ msg ∈ msgs.head?, bytes.length < (codec.writeMessage msg).length
  | payload n => bytes.length < n

theorem length_writeMessage :
    (codec.writeMessage msg).length = (codec.serialize msg).length + 4 := by
  simp only [Codec.writeMessage, writeU32, List.length_append, List.length_cons, List.length_nil]
  omega

theorem Short.of_pending {buf' bytes : List UInt8} (hp : call.poll codec buf = .pending call' buf')
    {tail : List UInt8} (ha : Reader.Ahead codec msgs (buf' ++ tail) call')
    (h : call'.Short codec msgs (buf' ++ bytes)) : call.Short codec msgs (buf ++ bytes) := by
  rcases poll_pending hp with ⟨rfl, rfl⟩ | ⟨rfl, ⟨n, rfl⟩, hl⟩
  case inl => exact h
  case inr =>
    obtain ⟨msg, rest, rfl, rfl, _⟩ := ha
    have h : (buf' ++ bytes).length < (codec.serialize msg).length := h
    rw [List.length_append] at h
    refine ⟨List.ne_nil_of_length_pos (by rw [List.length_append]; omega), ?_⟩
    rintro _ ⟨⟩
    rw [length_writeMessage, List.length_append]
    omega

-- What a call comes to if it has the `bytes` and is the first to read of `msgs`, where the `tail`
-- of their frames is missing.
def Returns (codec : Codec) (msgs : List Message) (bytes tail : List UInt8) (call : ReadMessage) :
    Outcome × List UInt8 × List Chunk → Prop
  | (.message msg, buf, chunks) =>
    ∃ rest, msgs = msg :: rest ∧ buf ++ bytesOf chunks ++ tail = rest.flatMap codec.writeMessage
  | (.closed, _)   => call = header ∧ bytes = []
  | (.reset, _)    => call.Short codec msgs bytes
  | (.panicked, _) => False

theorem returns_atEnd {tail : List UInt8} (hw : call.Waits buf) :
    call.Returns codec msgs buf tail (call.atEnd buf, buf, []) := by
  cases call
  case payload => exact hw
  case header  =>
    cases buf with
    | nil         => exact ⟨rfl, rfl⟩
    | cons b rest =>
      refine ⟨nofun, fun msg _ => ?_⟩
      have hw : (b :: rest).length < 4 := hw
      rw [length_writeMessage]
      omega

theorem Returns.of_pending {buf' tail : List UInt8} {o : Outcome × List UInt8 × List Chunk}
    (hp : call.poll codec buf = .pending call' buf')
    (ha : Reader.Ahead codec msgs (buf' ++ bytes ++ tail) call')
    (h : call'.Returns codec msgs (buf' ++ bytes) tail o) :
    call.Returns codec msgs (buf ++ bytes) tail o := by
  obtain ⟨_ | _, _, _⟩ := o
  case message  => exact h
  case closed   =>
    obtain ⟨rfl, hb⟩ := h
    rcases poll_pending hp with ⟨rfl, rfl⟩ | ⟨_, ⟨_, hc⟩, _⟩
    case inl => exact ⟨rfl, hb⟩
    case inr => cases hc
  case reset    => exact Short.of_pending hp (List.append_assoc .. ▸ ha) h
  case panicked => exact h

theorem bytesOf_cons {chunk : Chunk} : bytesOf (chunk :: chunks) = chunk ++ bytesOf chunks :=
  List.flatMap_cons

theorem finish_returns {tail : List UInt8} (hu : codec.Undoes msgs) (hf : codec.Fits msgs)
    (ha : Reader.Ahead codec msgs (buf ++ bytesOf chunks ++ tail) call) :
    call.Returns codec msgs (buf ++ bytesOf chunks) tail (call.finish codec buf chunks) := by
  induction chunks generalizing call buf with
  | nil =>
    rw [List.append_assoc] at ha
    have hy := Reader.yields_poll hu hf ha
    unfold finish
    cases hp : call.poll codec buf <;> rw [hp] at hy
    case pending call' buf' =>
      refine Returns.of_pending hp (List.append_assoc .. ▸ hy.right) ?_
      rw [show bytesOf [] = [] from rfl, List.append_nil]
      exact returns_atEnd hy.left
    case ready msg buf' =>
      have ⟨rest, hm, hr⟩ := hy
      exact ⟨rest, hm, (List.append_assoc ..).trans hr⟩
    case panic => exact hy
  | cons chunk chunks hi =>
    rw [List.append_assoc] at ha
    have hy := Reader.yields_poll hu hf ha
    unfold finish
    cases hp : call.poll codec buf <;> rw [hp] at hy
    case pending call' buf' =>
      have ha := hy.right
      rw [← List.append_assoc] at ha
      refine Returns.of_pending hp ha ?_
      rw [bytesOf_cons, ← List.append_assoc] at ha ⊢
      exact hi ha
    case ready msg buf' =>
      have ⟨rest, hm, hr⟩ := hy
      exact ⟨rest, hm, (List.append_assoc ..).trans hr⟩
    case panic => exact hy

end ReadMessage

section RoundTrip

variable {codec : Codec} {msgs : List Message} {buf : List UInt8} {chunks : List Chunk} {n : Nat}

theorem Codec.complete_eq_nil (h : ∀ msg ∈ msgs.head?, n < (codec.writeMessage msg).length) :
    codec.complete msgs n = [] := by
  cases msgs with
  | nil           => rfl
  | cons msg msgs => simpa [complete] using h msg rfl

theorem Codec.complete_all :
    codec.complete msgs (msgs.flatMap codec.writeMessage).length = msgs := by
  induction msgs with
  | nil              => rfl
  | cons msg msgs hi => simpa [complete] using hi

-- The calls return the messages whose frames are complete, and then tell whether there is more.
theorem readMessages_prefix (hu : codec.Undoes msgs) (hf : codec.Fits msgs) (hn : msgs.length < n)
    (hb : buf ++ bytesOf chunks <+: msgs.flatMap codec.writeMessage) :
    let done := codec.complete msgs (buf ++ bytesOf chunks).length
    readMessages codec n buf chunks = done.map .message ++
      [if buf ++ bytesOf chunks = done.flatMap codec.writeMessage then .closed else .reset] := by
  obtain ⟨tail, ht⟩ := hb
  induction n generalizing msgs buf chunks with
  | zero => exact absurd hn <| Nat.not_lt_zero _
  | succ n hi =>
    have hr : ReadMessage.header.Returns codec msgs _ tail _ := ReadMessage.finish_returns hu hf ht
    unfold readMessages
    generalize ReadMessage.header.finish codec buf chunks = o at hr
    obtain ⟨outcome, buf', chunks'⟩ := o
    cases outcome
    case message msg =>
      obtain ⟨rest, rfl, hr⟩ := hr
      have hb : buf ++ bytesOf chunks = codec.writeMessage msg ++ (buf' ++ bytesOf chunks') := by
        have ht : buf ++ bytesOf chunks ++ tail =
            codec.writeMessage msg ++ (buf' ++ bytesOf chunks') ++ tail := by
          rw [ht, List.append_assoc, hr, List.flatMap_cons]
        exact List.append_cancel_right ht
      have hi := hi (fun m hm => hu m <| .tail _ hm) (fun m hm => hf m <| .tail _ hm)
        (Nat.lt_of_succ_lt_succ hn) hr
      rw [hb, List.length_append]
      simp only [Codec.complete, Nat.le_add_right, if_true, Nat.add_sub_cancel_left, List.map_cons,
        List.flatMap_cons, List.append_right_inj, List.cons_append]
      exact congrArg _ hi
    case closed =>
      have hb := hr.right
      rw [hb, Codec.complete_eq_nil fun msg _ => by simp [ReadMessage.length_writeMessage]]
      rfl
    case reset =>
      have ⟨hb, hl⟩ := hr
      rw [Codec.complete_eq_nil hl]
      simp [hb]
    case panicked => exact hr.elim

-- The messages survive the round trip in whatever chunks their frames arrive. If the stream is cut
-- off, so do those whose frames are complete.
theorem readMessages_eq (hu : codec.Undoes msgs) (hf : codec.Fits msgs) (hn : msgs.length < n)
    (hb : bytesOf chunks <+: msgs.flatMap codec.writeMessage) :
    (bytesOf chunks = msgs.flatMap codec.writeMessage →
      readMessages codec n [] chunks = msgs.map .message ++ [.closed]) ∧
    let done := codec.complete msgs (bytesOf chunks).length
    readMessages codec n [] chunks = done.map .message ++
      [if bytesOf chunks = done.flatMap codec.writeMessage then .closed else .reset] := by
  have h := readMessages_prefix hu hf hn (show [] ++ bytesOf chunks <+: _ from hb)
  refine ⟨fun hc => ?_, h⟩
  rw [List.nil_append, hc, Codec.complete_all] at h
  simpa using h

theorem readMessages_cut :
    readMessages .fixed 3 []
      [⟨[0, 0], by decide⟩,
        ⟨[0, 20] ++ writeLE 4 0 ++ writeLE 8 2 ++ writeLE 8 1 ++ [0], by decide⟩] =
        [.message (.yourObedientServant 2 1), .reset] :=
  (readMessages_eq Codec.fixed_undoes Codec.fixed_fits (by decide) (by decide)).right.trans rfl

end RoundTrip
end SprayCC
