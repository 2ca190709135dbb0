import SprayCC.Ipc.RoundTrip

-- What `read_message` makes of streams of any bytes.

namespace SprayCC

-- The size in a header, with the bytes after it.
def splitHeader : List UInt8 → Option (Nat × List UInt8)
  | b₃ :: b₂ :: b₁ :: b₀ :: bytes => some (getI32 b₃ b₂ b₁ b₀, bytes)
  | _                             => none

-- The payloads of the first `n` frames, as far as they are complete.
def payloads : Nat → List UInt8 → List (List UInt8)
  | 0,     _     => []
  | n + 1, bytes =>
    match splitHeader bytes with
    | some (msgSize, rest) =>
      if rest.length < msgSize then [] else rest.take msgSize :: payloads n (rest.drop msgSize)
    | none => []

namespace Codec

-- A value is decoded from the front of the bytes, and what follows is ignored.
def Front (codec : Codec) : Prop :=
  ∀ bytes more msg, codec.deserialize bytes = some msg →
    codec.deserialize (bytes ++ more) = some msg

-- Whatever the chunks, the calls return the same, and each message is decoded from its own payload.
structure Isolates (codec : Codec) (bytes : List UInt8) : Prop where
  chunked : ∀ n chunks chunks', bytesOf chunks = bytes → bytesOf chunks' = bytes →
    readMessages codec n [] chunks = readMessages codec n [] chunks'
  decoded : ∀ n chunks (i : Nat) msg, bytesOf chunks = bytes →
    (readMessages codec n [] chunks)[i]? = some (Outcome.message msg) →
      ∃ payload, (payloads n bytes)[i]? = some payload ∧ codec.deserialize payload = some msg

-- The first of `n` payloads which can not be decoded can not be decoded together with all that
-- follows on it either.
def Contained (codec : Codec) : Nat → List UInt8 → Prop
  | 0,     _     => True
  | n + 1, bytes =>
    match splitHeader bytes with
    | some (msgSize, rest) =>
      msgSize ≤ rest.length →
        match codec.deserialize (rest.take msgSize) with
        | some _ => codec.Contained n (rest.drop msgSize)
        | none   => codec.deserialize rest = none
    | none => True

-- The outcomes if each payload is decoded by itself.
def isolated (codec : Codec) : Nat → List UInt8 → List Outcome
  | 0,     _     => []
  | n + 1, bytes =>
    match splitHeader bytes with
    | some (msgSize, rest) =>
      if rest.length < msgSize then [.reset] else
        match codec.deserialize (rest.take msgSize) with
        | some msg => .message msg :: codec.isolated n (rest.drop msgSize)
        | none     => [.panicked]
    | none => [if bytes = [] then .closed else .reset]

end Codec

namespace ReadMessage

variable {codec : Codec} {buf bytes : List UInt8} {chunks : List Chunk} {msgSize : Nat}

theorem poll_header :
    header.poll codec buf =
      match splitHeader buf with
      | some (msgSize, rest) => pollPayload codec msgSize rest
      | none                 => .pending .header buf := by
  unfold poll splitHeader
  rcases buf with _ | ⟨_, _ | ⟨_, _ | ⟨_, _ | ⟨_, _⟩⟩⟩⟩ <;> rfl

-- What a call returns which waits for a payload, where `bytes` are all that is to come.
def Gives (codec : Codec) (msgSize : Nat) (bytes : List UInt8) :
    Outcome × List UInt8 × List Chunk → Prop
  | (.message msg, buf, chunks) => msgSize ≤ bytes.length ∧
    codec.deserialize (bytes.take msgSize) = some msg ∧
      buf ++ bytesOf chunks = bytes.drop msgSize
  | (.reset, _)                 => bytes.length < msgSize
  | (.panicked, _)              => msgSize ≤ bytes.length ∧
    codec.deserialize (bytes.take msgSize) = none
  | (.closed, _)                => False

theorem finish_ready {call : ReadMessage} {msg : Message}
    (h : call.poll codec buf = .ready msg bytes) :
    call.finish codec buf chunks = (.message msg, bytes, chunks) := by
  cases chunks <;> simp only [finish, h]

theorem finish_panic {call : ReadMessage} (h : call.poll codec buf = .panic) :
    call.finish codec buf chunks = (.panicked, buf, chunks) := by
  cases chunks <;> simp only [finish, h]

-- A call has taken the header out of its buffer or is about to, and there is a complete payload.
theorem finish_complete {call : ReadMessage} (hf : codec.Front)
    (hp : call.poll codec buf = pollPayload codec msgSize bytes) (hl : msgSize ≤ bytes.length)
    (hc : codec.deserialize ((bytes ++ bytesOf chunks).take msgSize) = none →
      codec.deserialize (bytes ++ bytesOf chunks) = none) :
    Gives codec msgSize (bytes ++ bytesOf chunks) (call.finish codec buf chunks) := by
  have hl' : msgSize ≤ (bytes ++ bytesOf chunks).length := by
    rw [List.length_append]
    exact hl.trans <| Nat.le_add_right ..
  have ht : (bytes ++ bytesOf chunks).take msgSize = bytes.take msgSize :=
    List.take_append_of_le_length hl
  have hd : (bytes ++ bytesOf chunks).drop msgSize = bytes.drop msgSize ++ bytesOf chunks :=
    List.drop_append_of_le_length hl
  rw [pollPayload, if_neg <| Nat.not_lt.mpr hl] at hp
  cases hs : codec.deserialize (bytes.take msgSize)
  case some msg =>
    have hb : codec.deserialize bytes = some msg :=
      List.take_append_drop msgSize bytes ▸ hf _ (bytes.drop msgSize) _ hs
    rw [hb] at hp
    rw [finish_ready hp]
    exact ⟨hl', ht ▸ hs, hd.symm⟩
  case none =>
    have hb : codec.deserialize bytes = none := by
      cases hb : codec.deserialize bytes
      case none     => rfl
      case some msg => exact absurd (hc (ht ▸ hs)) <| by simp [hf _ (bytesOf chunks) _ hb]
    rw [hb] at hp
    rw [finish_panic hp]
    exact ⟨hl', ht ▸ hs⟩

theorem finish_gives {call : ReadMessage} (hf : codec.Front)
    (hp : call.poll codec buf = pollPayload codec msgSize bytes)
    (hc : msgSize ≤ (bytes ++ bytesOf chunks).length →
      codec.deserialize ((bytes ++ bytesOf chunks).take msgSize) = none →
        codec.deserialize (bytes ++ bytesOf chunks) = none) :
    Gives codec msgSize (bytes ++ bytesOf chunks) (call.finish codec buf chunks) := by
  induction chunks generalizing call buf bytes with
  | nil =>
    rcases Nat.lt_or_ge bytes.length msgSize with hl | hl
    case inl =>
      have hp : call.poll codec buf = .pending (.payload msgSize) bytes := hp.trans <| if_pos hl
      simp only [finish, hp]
      simpa [Gives, atEnd, bytesOf] using hl
    case inr => exact finish_complete hf hp hl <| hc <| by simpa [bytesOf] using hl
  | cons chunk chunks hi =>
    rcases Nat.lt_or_ge bytes.length msgSize with hl | hl
    case inl =>
      have hp : call.poll codec buf = .pending (.payload msgSize) bytes := hp.trans <| if_pos hl
      simp only [finish, hp]
      rw [bytesOf_cons, ← List.append_assoc] at hc ⊢
      exact hi rfl hc
    case inr =>
      refine finish_complete hf hp hl <| hc ?_
      rw [List.length_append]
      exact hl.trans <| Nat.le_add_right ..

theorem splitHeader_append (h : splitHeader buf = some (msgSize, bytes)) (more : List UInt8) :
    splitHeader (buf ++ more) = some (msgSize, bytes ++ more) := by
  unfold splitHeader at h
  split at h <;> cases h
  rfl

theorem poll_split (h : splitHeader buf = some (msgSize, bytes)) :
    header.poll codec buf = pollPayload codec msgSize bytes := by
  rw [poll_header, h]

theorem poll_unsplit (h : splitHeader buf = none) :
    header.poll codec buf = .pending .header buf := by
  rw [poll_header, h]

-- A call at the beginning of a frame.
theorem finish_header (hf : codec.Front)
    (h : splitHeader (buf ++ bytesOf chunks) = some (msgSize, bytes))
    (hc : msgSize ≤ bytes.length → codec.deserialize (bytes.take msgSize) = none →
      codec.deserialize bytes = none) :
    Gives codec msgSize bytes (header.finish codec buf chunks) := by
  induction chunks generalizing buf with
  | nil =>
    cases (List.append_nil buf ▸ h).symm.trans (List.append_nil buf ▸ h)
    have hb : bytes ++ bytesOf [] = bytes := List.append_nil _
    exact hb ▸ finish_gives hf (poll_split (List.append_nil buf ▸ h)) (hb.symm ▸ hc)
  | cons chunk chunks hi =>
    cases hs : splitHeader buf
    case some s =>
      cases (splitHeader_append hs _).symm.trans h
      exact finish_gives hf (poll_split hs) hc
    case none =>
      simp only [finish, poll_unsplit hs]
      rw [bytesOf_cons, ← List.append_assoc] at h
      exact hi h

theorem finish_unsplit (h : splitHeader (buf ++ bytesOf chunks) = none) :
    (header.finish codec buf chunks).fst =
      if buf ++ bytesOf chunks = [] then .closed else .reset := by
  induction chunks generalizing buf with
  | nil =>
    rw [show bytesOf [] = [] from rfl, List.append_nil] at h ⊢
    simp only [finish, poll_unsplit h]
    cases buf <;> rfl
  | cons chunk chunks hi =>
    cases hs : splitHeader buf
    case some s => cases (splitHeader_append hs _).symm.trans h
    case none   =>
      simp only [finish, poll_unsplit hs]
      rw [bytesOf_cons, ← List.append_assoc] at h ⊢
      exact hi h

end ReadMessage

variable {codec : Codec} {buf bytes : List UInt8} {chunks : List Chunk} {n : Nat}

open ReadMessage

theorem readMessages_isolated (hf : codec.Front) (hc : codec.Contained n (buf ++ bytesOf chunks)) :
    readMessages codec n buf chunks = codec.isolated n (buf ++ bytesOf chunks) := by
  induction n generalizing buf chunks with
  | zero => rfl
  | succ n hi =>
    unfold readMessages Codec.isolated
    unfold Codec.Contained at hc
    cases hs : splitHeader (buf ++ bytesOf chunks)
    case none =>
      have hr : (header.finish codec buf chunks).fst = _ := finish_unsplit hs
      generalize header.finish codec buf chunks = o at hr
      obtain ⟨outcome, _, _⟩ := o
      subst hr
      by_cases hn : buf ++ bytesOf chunks = []
      case pos => simp only [hn, if_true]
      case neg => simp only [hn, if_false]
    case some s =>
      obtain ⟨msgSize, bytes⟩ := s
      simp only [hs] at hc ⊢
      have hg : Gives codec msgSize bytes (header.finish codec buf chunks) :=
        finish_header hf hs fun hl hn => by simpa only [hn] using hc hl
      generalize header.finish codec buf chunks = o at hg
      obtain ⟨outcome, buf', chunks'⟩ := o
      cases outcome
      case message msg =>
        have ⟨hl, hd, hb⟩ := hg
        have hc := hc hl
        simp only [hd] at hc
        simp only [Nat.not_lt.mpr hl, if_false, hd]
        exact congrArg _ <| hb ▸ hi (hb.symm ▸ hc)
      case reset    => exact (if_pos hg).symm
      case panicked =>
        have ⟨hl, hd⟩ := hg
        simp only [Nat.not_lt.mpr hl, if_false, hd]
      case closed   => exact hg.elim

theorem getElem?_singleton {α : Type} {a b : α} {i : Nat} (h : [a][i]? = some b) : a = b := by
  cases i <;> simp_all

theorem isolated_decoded {i : Nat} {msg : Message}
    (h : (codec.isolated n bytes)[i]? = some (.message msg)) :
    ∃ payload, (payloads n bytes)[i]? = some payload ∧ codec.deserialize payload = some msg := by
  induction n generalizing bytes i with
  | zero => cases h
  | succ n hi =>
    unfold Codec.isolated at h
    unfold payloads
    split at h
    case h_2 =>
      have h := getElem?_singleton h
      split at h <;> cases h
    case h_1 msgSize rest hs =>
      split at h
      case isTrue => cases getElem?_singleton h
      case isFalse hl =>
        rw [if_neg hl]
        split at h
        case h_2 => cases getElem?_singleton h
        case h_1 msg' hd =>
          cases i with
          | zero   => cases h; exact ⟨_, rfl, hd⟩
          | succ i => exact hi h

-- The calls when all bytes are in the buffer from the start.
def Decodes (codec : Codec) (bytes : List UInt8) : Prop :=
  ∀ n (i : Nat) msg, (readMessages codec n bytes [])[i]? = some (Outcome.message msg) →
    ∃ payload, (payloads n bytes)[i]? = some payload ∧ codec.deserialize payload = some msg

theorem Codec.Isolates.decodes (h : codec.Isolates bytes) : Decodes codec bytes := by
  intro n i msg hm
  cases bytes with
  | nil           => exact h.decoded n [] i msg rfl hm
  | cons b bytes  =>
    refine h.decoded n [⟨b :: bytes, List.cons_ne_nil _ _⟩] i msg (List.append_nil _) ?_
    cases n with
    | zero   => exact hm
    | succ n => exact hm

theorem readMessages_split {msgSize : Nat} {rest : List UInt8} {msg : Message}
    (hs : splitHeader bytes = some (msgSize, rest)) (hl : msgSize ≤ rest.length)
    (hd : codec.deserialize rest = some msg) :
    readMessages codec (n + 1) bytes [] =
      .message msg :: readMessages codec n (rest.drop msgSize) [] := by
  have hp : header.poll codec bytes = .ready msg (rest.drop msgSize) := by
    rw [poll_split hs, pollPayload, if_neg <| Nat.not_lt.mpr hl, hd]
  simp only [readMessages, finish_ready hp]

theorem payloads_split {msgSize : Nat} {rest : List UInt8}
    (hs : splitHeader bytes = some (msgSize, rest)) (hl : msgSize ≤ rest.length) :
    payloads (n + 1) bytes = rest.take msgSize :: payloads n (rest.drop msgSize) := by
  simp only [payloads, hs, Nat.not_lt.mpr hl, if_false]

theorem Decodes.contained (hf : codec.Front) (h : Decodes codec bytes) :
    codec.Contained n bytes := by
  induction n generalizing bytes with
  | zero => trivial
  | succ n hi =>
    unfold Codec.Contained
    split
    case h_2 => trivial
    case h_1 msgSize rest hs =>
      intro hl
      split
      case h_1 msg hd =>
        have hd : codec.deserialize rest = some msg :=
          List.take_append_drop msgSize rest ▸ hf _ (rest.drop msgSize) _ hd
        refine hi fun m i msg' hm => ?_
        have h := h (m + 1) (i + 1) msg'
        rw [readMessages_split hs hl hd, payloads_split hs hl] at h
        exact h hm
      case h_2 hn =>
        cases hd : codec.deserialize rest
        case none     => rfl
        case some msg =>
          have h := h 1 0 msg
          rw [readMessages_split hs hl hd, payloads_split hs hl] at h
          have ⟨_, hp, hd'⟩ := h rfl
          cases hp
          cases hn.symm.trans hd'

-- Streams are taken apart in the same way in whatever chunks they arrive just if no bytes which
-- follow on a payload make up for what is missing in it.
theorem isolates_iff (hf : codec.Front) : codec.Isolates bytes ↔ ∀ n, codec.Contained n bytes where
  mp h _ := h.decodes.contained hf
  mpr h  := by
    have hr (n) (chunks : List Chunk) (hb : bytesOf chunks = bytes) :
        readMessages codec n [] chunks = codec.isolated n bytes :=
      hb ▸ readMessages_isolated hf (by rw [List.nil_append, hb]; exact h n)
    refine ⟨fun n chunks chunks' hb hb' => (hr n _ hb).trans (hr n _ hb').symm, ?_⟩
    intro n chunks i msg hb hm
    exact isolated_decoded (hr n _ hb ▸ hm)

theorem getLE_append {k m : Nat} {rest : List UInt8} (h : getLE k bytes = some (m, rest))
    (more : List UInt8) : getLE k (bytes ++ more) = some (m, rest ++ more) := by
  induction k generalizing bytes m with
  | zero => cases h; rfl
  | succ k hi =>
    cases bytes with
    | nil        => cases h
    | cons b bytes =>
      obtain ⟨⟨m', rest'⟩, h', he⟩ := Option.map_eq_some_iff.mp h
      cases he
      simp [getLE, hi h']

theorem Codec.fixed_front : Codec.fixed.Front := by
  intro bytes more msg h
  have ⟨⟨tag, rest⟩, ht, h⟩ := Option.bind_eq_some_iff.mp h
  refine Option.bind_eq_some_iff.mpr ⟨_, getLE_append ht more, ?_⟩
  split at h
  case h_1 rest he =>
    cases he
    have ⟨⟨accessCode, rest₁⟩, h₁, h⟩ := Option.bind_eq_some_iff.mp h
    have ⟨⟨userCode, rest₂⟩, h₂, h⟩ := Option.bind_eq_some_iff.mp h
    refine Option.bind_eq_some_iff.mpr ⟨_, getLE_append h₁ more, ?_⟩
    exact Option.bind_eq_some_iff.mpr ⟨_, getLE_append h₂ more, h⟩
  case h_2 he => cases he; exact h
  case h_3 he => cases he; exact h
  case h_4 he => cases he; exact h
  case h_5 => cases h

-- A negative size is one which is never reached.
theorem isolates_negative : Codec.fixed.Isolates [255, 255, 255, 255, 5, 0, 0, 0] := by
  refine (isolates_iff Codec.fixed_front).mpr fun n => ?_
  cases n with
  | zero   => trivial
  | succ n => exact fun hl => absurd hl (by decide)

-- The size of a message is too small by two, and so it depends on the chunks what is made of it.
theorem not_isolates_short :
    ¬∀ (codec : Codec), codec.Front → ∀ bytes, codec.Isolates bytes := by
  intro h
  have h := (h _ Codec.fixed_front [0, 0, 0, 2, 5, 0, 0, 0]).chunked 1
    [⟨[0, 0, 0, 2, 5, 0, 0, 0], by decide⟩] [⟨[0, 0, 0, 2, 5, 0], by decide⟩, ⟨[0, 0], by decide⟩]
    rfl rfl
  exact absurd h (by decide)

end SprayCC
