import SprayCC.Cluster.Invariant
import SprayCC.Cluster.Refinement

-- The records of the server on its execs: the count of those which run, and the queue of those
-- which wait for a task.

namespace SprayCC

-- An exec which waits for a task does not drop its connection.
def Policy.idleNotDropped : Policy :=
  { any with
    recv s _ i msg :=
      match msg with
      | .dropped => ¬(s.kind i = .exec ∧ s.partner i = none)
      | _        => true }

namespace ServerState

variable {s s' : ServerState} {i e k : Nat} {rest : List Nat} {t : ConnectionType}

def Counted (s : ServerState) : Prop :=
  s.runningExecCount = execsIn s.remotes

namespace Counted

theorem setConnType (h : s.Counted) (hi : i < s.remotes.length) (hk : s.kind i ≠ .exec)
    (ht : t ≠ .exec) : (s.setConnType i t).Counted := by
  have hc := execsIn_setConnType (t := t) hi
  simp only [hk, ht, if_false] at hc
  exact h.trans hc.symm

theorem makeReady (h : s.Counted) : (s.makeReady i).Counted :=
  h.trans execsIn_setPairedId.symm

theorem register {secondQueue : Bool} (h : s.Counted) (hi : i < s.remotes.length)
    (hk : s.kind i = .pending) :
    (((s.setConnType i .exec).execStarted secondQueue).makeReady i).Counted := by
  refine makeReady ?_
  have hc := execsIn_setConnType (t := .exec) hi
  simp [Counted, hk] at h hc ⊢
  omega

-- The loss of an exec takes one off the count, which is not at zero.

theorem running_setConnType (h : s.Counted) (hk : s.kind i = .exec) :
    s.runningExecCount = execsIn (s.setConnType i .dead).remotes + 1 := by
  have hc := execsIn_setConnType (t := .dead) (s.lt_length hk nofun)
  simp only [hk, if_true] at hc
  exact h.trans hc.symm

theorem bury (h : s.Counted) (hk : s.kind i = .exec) : (s.bury i).Counted :=
  Nat.sub_eq_of_eq_add <| h.running_setConnType hk

theorem dismiss (h : s.Counted) (hk : s.kind e = .exec) : (s.dismiss e rest).Counted :=
  h.bury hk

theorem running_ne_zero (h : s.Counted) (hk : s.kind i = .exec) : s.runningExecCount ≠ 0 := by
  simp [h.running_setConnType hk]

theorem pair (h : s.Counted) : ((s.pop k rest).pair i e).Counted :=
  h.trans <| .symm <| execsIn_setPairedId.trans execsIn_setPairedId

theorem forwards {P : Policy} {msg : Message} {w w' : Net} (h : s.Counted)
    (hf : Forwards P i msg s w s' w') : s'.Counted := by
  cases hf
  case sent | skipped => exact h
  case lost hk _ _    => exact h.setConnType (s.lt_length hk nofun) (by simp [hk]) (by simp)

end Counted

-- All execs in the queue are still there.
def Filed (s : ServerState) : Prop :=
  ∀ e ∈ s.execQueue, kindOf s.remotes e = .exec

namespace Filed

theorem setConnType (h : s.Filed) (hi : i < s.remotes.length) (hq : i ∉ s.execQueue) :
    (s.setConnType i t).Filed := by
  intro e he
  have hn : e ≠ i := by rintro rfl; exact hq he
  simpa [kindOf_setConnType hi, hn] using h e he

theorem makeReady (h : s.Filed) (hk : s.kind i = .exec) : (s.makeReady i).Filed := by
  intro e he
  refine congrFun kindOf_setPairedId e |>.trans ?_
  rcases List.mem_append.mp he with he | he
  case inl => exact h e he
  case inr => exact List.mem_singleton.mp he ▸ hk

theorem register {secondQueue : Bool} (h : s.Filed) (hi : i < s.remotes.length)
    (hq : i ∉ s.execQueue) :
    (((s.setConnType i .exec).execStarted secondQueue).makeReady i).Filed := by
  have h := h.setConnType (t := .exec) hi hq
  refine makeReady ?_ ?_
  · simpa [Filed] using h
  · simp [kind, kindOf_setConnType hi]

theorem pair (h : s.Filed) (he : s.execQueue = e :: rest) : ((s.pop k rest).pair i e).Filed := by
  intro e' he'
  have hk := kindOf_setPairedId (s := s.pop k rest) (i := i) (p := some (.ofNat e))
  refine congrFun (kindOf_setPairedId.trans hk) e' |>.trans ?_
  exact h e' <| he ▸ .tail _ he'

theorem forwards {P : Policy} {msg : Message} {w w' : Net} (h : s.Filed)
    (hf : Forwards P i msg s w s' w') : s'.Filed := by
  cases hf
  case sent | skipped => exact h
  case lost hk _ _    => exact h.setConnType (s.lt_length hk nofun) fun hq => by simp [h _ hq] at hk

theorem dismiss (h : s.Filed) (he : s.execQueue = e :: rest) (hi : e < s.remotes.length)
    (hn : e ∉ rest) : (s.dismiss e rest).Filed :=
  setConnType (s := { s with execQueue := rest }) (fun e' he' => h e' <| he ▸ .tail _ he') hi hn

end Filed
end ServerState

-- What the records of the queue need, also of the message which the server has received.
structure Config.Filed (c : Config) : Prop where
  queue : c.server.Filed
  hand  : c.hand = some (i, .dropped) → c.server.kind i = .exec → c.server.partner i ≠ none

namespace Config.Sound

variable {S : Setup} {P : Policy} {c c' : Config} {s s' : ServerState} {w w' : Net} {i e : Nat}
variable {hand hand' : Option (Nat × Message)} {view : Nat → Phase} {msg : Message}
  {rest : List Nat}

-- The exec at the head of the queue runs, unless the server has received that it is gone.
theorem kind_of_queued (h : Sound S ⟨s, none, w⟩ view) (he : s.execQueue = e :: rest)
    (hr : ¬w.Reported e) : s.kind e = .exec := by
  have ⟨_, _, hv⟩ := h.queued he
  rcases hv with hv | hv
  case inl => exact (h.ledger.idle hv).right.left
  case inr =>
    have he := h.lt_size <| hv.trans_ne (by decide)
    exact absurd (h.wired.eq_gone_iff he |>.mp hv) hr

theorem not_queued_of_pending (h : Sound S ⟨s, hand, w⟩ view) (hv : view i = .pending) :
    i ∉ s.execQueue := by
  intro hi
  have ⟨_, _, hv'⟩ := h.ledger.queued (i := i) hi
  simp [ServerState.ledger, hv] at hv'

theorem not_queued_of_partner {j : Nat} (h : Sound S ⟨s, hand, w⟩ view)
    (hp : s.partner i = some j) :
    i ∉ s.execQueue := by
  intro hi
  have ⟨_, hn, _⟩ := h.ledger.queued (i := i) hi
  cases hp.symm.trans hn

theorem counted (hP : P.Spares .pissOff) (hs : c.Sound S view) (h : c.server.Counted)
    (m : Move S P c c') : c'.server.Counted := by
  cases m
  case act | recv | record   => exact h
  case accept                => exact h.trans ServerState.execsIn_addRemote.symm
  case spawn                 => simpa [ServerState.Counted] using h
  case register hi           =>
    have ⟨_, _, hm, _⟩ := hs.wired.hear
    exact h.register hi (hs.ledger.pending hm.of_hello.right.left).left
  case submit hi _           =>
    have ⟨_, _, hm, _⟩ := hs.wired.hear
    have hk := (hs.ledger.pending hm.of_task.right.left).left
    exact h.setConnType hi (hk.trans_ne (by simp)) (by simp)
  case output hf             => exact h.forwards hf
  case complete hf           => exact (h.forwards hf).makeReady
  case drop hi hk            => exact h.setConnType hi hk (by simp)
  case dropIdle hk _         => exact h.bury hk
  case dropBusy hk _ _ _     => exact h.bury hk
  case assign                => exact h.pair
  case release he _ ho ha    => exact h.dismiss <| hs.kind_of_queued he <| hP _ _ _ ha ho

theorem nodup_execQueue (hs : c.Sound S view) : c.server.execQueue.Nodup :=
  hs.ledger.once

theorem filed (hs : c.Sound S view) (h : c.Filed)
    (m : Move S (.and .wellBehaved .idleNotDropped) c c') :
    c'.Filed := by
  have hq {i} (hi : i ∈ c.server.execQueue) := hs.ledger.queued (i := i) hi
  cases m
  case act       => exact ⟨h.queue, h.hand⟩
  case accept    => exact ⟨by simpa [ServerState.Filed] using h.queue, nofun⟩
  case recv ha   =>
    refine ⟨h.queue, fun hm => ?_⟩
    cases hm
    simpa [Policy.idleNotDropped, imp_iff_not_or] using Policy.and_recv ha
  case record    => exact ⟨h.queue, h.hand⟩
  case spawn     => exact ⟨by simpa [ServerState.Filed] using h.queue, nofun⟩
  case register hi =>
    have ⟨_, _, hm, _⟩ := hs.wired.hear
    exact ⟨h.queue.register hi <| hs.not_queued_of_pending hm.of_hello.right.left, nofun⟩
  case submit hi _ =>
    have ⟨_, _, hm, _⟩ := hs.wired.hear
    exact ⟨h.queue.setConnType hi <| hs.not_queued_of_pending hm.of_task.right.left, nofun⟩
  case output hf => exact ⟨h.queue.forwards hf, nofun⟩
  case complete ht hf =>
    have ⟨_, _, hm, _⟩ := hs.wired.hear
    have ⟨_, hk, _⟩ := hs.ledger.busy (hm.of_result ht.result).right.left
    exact ⟨(h.queue.forwards hf).makeReady <| hf.kind_of_exec hk, nofun⟩
  case drop hi hk => exact ⟨h.queue.setConnType hi fun hi => hk (h.queue _ hi), nofun⟩
  case dropIdle hk hp => exact absurd hp <| h.hand rfl hk
  case dropBusy hk hp _ _ =>
    have hn := hs.not_queued_of_partner hp
    exact ⟨h.queue.setConnType (ServerState.lt_length hk nofun) hn, nofun⟩
  case assign he _ _ _ _ _ _ _ => exact ⟨h.queue.pair he, nofun⟩
  case release he hi _ _ =>
    have ho := List.nodup_cons.mp <| he ▸ hs.nodup_execQueue
    exact ⟨h.queue.dismiss he hi ho.left, nofun⟩

-- The execs which wait for a task are those in the queue.
theorem mem_execQueue_iff (hs : c.Sound S view) (h : c.Filed) :
    i ∈ c.server.execQueue ↔ c.server.kind i = .exec ∧ c.server.partner i = none where
  mp hi := ⟨h.queue i hi, (hs.ledger.queued (i := i) hi).right.left⟩
  mpr := by
    rintro ⟨hk, hp⟩
    rcases hs.ledger.exec_cases (i := i) hk with ⟨hv, _⟩ | ⟨_, hn⟩
    case inl => exact (hs.ledger.idle hv).right.right.right
    case inr => exact absurd hp hn

end Config.Sound

variable {S : Setup} {P : Policy} {c : Config}

theorem Reach.counted (h : Reach S P c) (ht : P.Tame) (hP : P.Spares .pissOff) :
    c.server.Counted := by
  induction h with
  | start       => rfl
  | move h m hi => exact have ⟨_, hs⟩ := h.sound ht; hs.counted hP hi m

theorem Reach.filed (h : Reach S (.and .wellBehaved .idleNotDropped) c) : c.Filed := by
  induction h with
  | start       => exact ⟨nofun, nofun⟩
  | move h m hi => exact have ⟨_, hs⟩ := h.sound Policy.tame_and; hs.filed hi m

-- The server does not fail because of the count.
theorem Reach.not_underflow (h : Reach S P c) (ht : P.Tame) (hP : P.Spares .pissOff) :
    ¬Fails P c (.panic .runningUnderflow) := by
  have hc := h.counted ht hP
  have ⟨_, hs⟩ := h.sound ht
  intro hf
  cases hf
  case dropUnderflow hk hz          => exact hc.running_ne_zero hk hz
  case releaseUnderflow he ho ha hz =>
    exact hc.running_ne_zero (hs.kind_of_queued he <| hP _ _ _ ha ho) hz

-- The count of the running execs was at zero when it was to be decremented.
def Main.underflows : Main → Bool
  | faulted (.panic .runningUnderflow) => true
  | _                                  => false

theorem Main.faulted_of_underflows {m : Main} (h : m.underflows) :
    m = faulted (.panic .runningUnderflow) := by
  unfold underflows at h
  split at h
  case h_1 => rfl
  case h_2 => cases h

namespace Cluster

variable {σ : Cluster} {s : ServerState}

-- The queue holds the execs which wait for a task, each of them once.
def QueueExact (s : ServerState) : Prop :=
  s.execQueue.Nodup ∧
    ∀ i, i ∈ s.execQueue ↔ ∃ r, s.remotes[i]? = some r ∧ r.connType = .exec ∧ r.pairedId = none

theorem Reaches.queueExact (h : Reaches S (.and .wellBehaved .idleNotDropped) σ)
    (hm : σ.main.resting = some s) : QueueExact s := by
  have hr := h.settled hm
  have ⟨_, hs⟩ := hr.sound Policy.tame_and
  refine ⟨hs.nodup_execQueue, fun i => hs.mem_execQueue_iff hr.filed |>.trans ?_⟩
  cases hi : s.remotes[i]? <;> simp [ServerState.kind, ServerState.partner, kindOf, partnerOf, hi]

theorem queueExact_tour :
    ∃ σ s, Reaches .plain (.and .wellBehaved .idleNotDropped) σ ∧ σ.net.size = 3 ∧
      σ.main.resting = some s ∧ QueueExact s :=
  have ⟨σ, h, hs⟩ := Reaches.of_run (f := fun σ => σ.net.size = 3 ∧ σ.main.resting.isSome) tour
    (by decide +kernel)
  have ⟨hn, hs⟩ := of_decide_eq_true hs
  have ⟨s, hs⟩ := Option.isSome_iff_exists.mp hs
  ⟨σ, s, h, hn, hs, h.queueExact hs⟩

-- An idle exec which has dropped its connection is still queued.
theorem dead_exec_queued :
    ¬∀ S σ s, Reaches S .wellBehaved σ → σ.main.resting = some s → QueueExact s := by
  intro h
  have ⟨σ, hr, hs⟩ := Reaches.of_run (S := .plain) (P := .wellBehaved)
    (f := fun σ => σ.main.resting.any fun s => 0 ∈ s.execQueue ∧ s.kind 0 = .dead)
    [.accept (.exec false .fresh 0), .check 0, .act (.speaks 0 (Setup.plain.codes.hello false)),
      .recv 0, .clock 0, .finish, .check 0, .act (.ends 0), .recv 0, .clock 0, .finish]
        (by decide +kernel)
  have ⟨s, hm, hs⟩ := Option.any_eq_true .. |>.mp hs
  have ⟨hq, hk⟩ := of_decide_eq_true hs
  have ⟨r, hi, hr, _⟩ := (h _ _ _ hr hm).right 0 |>.mp hq
  cases hr.symm.trans <| (kindOf_eq hi).symm.trans hk

-- The count is that of the execs, and it was not at zero where it was to be decremented.
structure CountExact (σ : Cluster) : Prop where
  count    : ∀ {s}, σ.main.resting = some s → s.runningExecCount = execsIn s.remotes
  positive : ∀ {p}, σ.main = .faulted (.panic p) → p ≠ .runningUnderflow

theorem Reaches.countExact (h : Reaches S (.and .wellBehaved (.goneSpared (· = .pissOff))) σ) :
    CountExact σ where
  count hm    := (h.settled hm).counted Policy.tame_and <| .and_right <|
    Policy.goneSpared_spares rfl
  positive hm := by
    rintro rfl
    have ⟨_, hr, hf⟩ := h.explained hm
    exact hr.not_underflow Policy.tame_and (.and_right <| Policy.goneSpared_spares rfl) hf

theorem countExact_tour :
    ∃ σ, Reaches .plain (.and .wellBehaved (.goneSpared (· = .pissOff))) σ ∧ σ.net.size = 3 ∧
      CountExact σ :=
  have ⟨σ, h, hs⟩ := Reaches.of_run (f := fun σ => σ.net.size = 3) tour (by decide +kernel)
  ⟨σ, h, of_decide_eq_true hs, h.countExact⟩

-- An exec waits in the queue while a client, which has already got its results, is the last to have
-- submitted a task. The exec drops its connection, and after the release delay it is sent away.
theorem gone_exec_dismissed :
    ¬∀ S σ, Reaches S .wellBehaved σ → CountExact σ := by
  intro h
  have ⟨σ, hr, hs⟩ := Reaches.of_run (S := .plain) (P := .wellBehaved)
    (f := fun σ => σ.main.underflows)
    (tour.take 34 ++ [.act (.ends 0), .recv 0, .clock 0, .finish, .check 0,
      .tick 0, .clock (secs 1000), .send, .finish]) (by decide +kernel)
  exact (h _ _ hr).positive (Main.faulted_of_underflows hs) rfl

end Cluster
end SprayCC
