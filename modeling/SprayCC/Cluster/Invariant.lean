import SprayCC.Cluster.Session

-- What holds of every configuration which well-behaved remotes can lead to.

namespace SprayCC

-- The remotes are clients and execs, fewer of them than there are IDs of type `u32`.
def Policy.Tame (P : Policy) : Prop :=
  ∀ {w peer}, P.accept w peer → peer.role ≠ .rogue ∧ w.size + 1 < 2 ^ 32

theorem Policy.tame_wellBehaved : wellBehaved.Tame := by
  intro w peer h
  cases peer <;> simp_all [wellBehaved, Peer.role]

theorem Policy.tame_and {P : Policy} : (wellBehaved.and P).Tame :=
  fun h => tame_wellBehaved (Bool.and_eq_true_iff.mp h).left

namespace Role.Says

variable {codes : Codes} {role : Role} {view phase : Phase} {accessCode userCode : UInt64}
variable {details : TaskDetails} {msg : Message}

theorem of_hello (h : role.Says codes view (.yourObedientServant accessCode userCode) phase) :
    role.Exec ∧ view = .pending ∧ phase = .idle := by
  generalize hm : Message.yourObedientServant accessCode userCode = m at h
  cases h
  case hello   => exact ⟨trivial, rfl, rfl⟩
  case task    => cases hm
  case output  => subst hm; contradiction
  case result  => subst hm; contradiction
  case dropped => cases hm

theorem of_task (h : role.Says codes view (.task accessCode userCode details) phase) :
    role = .client details ∧ view = .pending ∧ phase = .submitted := by
  generalize hm : Message.task accessCode userCode details = m at h
  cases h
  case hello   => cases hm
  case task    => cases hm; exact ⟨rfl, rfl, rfl⟩
  case output  => subst hm; contradiction
  case result  => subst hm; contradiction
  case dropped => cases hm

theorem of_result (h : role.Says codes view msg phase) (hm : msg.Result) :
    role.Exec ∧ view = .busy ∧ (msg.Terminal ∧ phase = .idle ∨ ¬msg.Terminal ∧ phase = .busy) := by
  cases h
  case output  => exact ⟨trivial, rfl, .inr ⟨‹_›, rfl⟩⟩
  case result  => exact ⟨trivial, rfl, .inl ⟨‹_›, rfl⟩⟩
  case task | hello | dropped => exact hm.elim

theorem of_dropped (h : role.Says codes view .dropped phase) : view ≠ .gone ∧ phase = .gone := by
  generalize hm : Message.dropped = m at h
  cases h
  case dropped => exact ⟨‹_›, rfl⟩
  case hello   => cases hm
  case task    => cases hm
  case output  => subst hm; contradiction
  case result  => subst hm; contradiction

end Role.Says

def ServerState.ledger (s : ServerState) (w : Net) (view : Nat → Phase) : Ledger where
  size     := w.size
  role i   := (w.conns i).role
  opened i := (w.conns i).task.Open
  sent i   := (w.conns i).sent
  kind     := kindOf s.remotes
  partner  := partnerOf s.remotes
  execs    := s.execQueue
  tasks    := s.taskQueue
  view     := view

structure Config.Sound (S : Setup) (c : Config) (view : Nat → Phase) : Prop where
  length : c.server.remotes.length = c.net.size
  bound  : c.net.size < 2 ^ 32
  wired  : Wired S c.hand c.net view
  ledger : (c.server.ledger c.net view).Sound

namespace Config.Sound

variable {S : Setup} {P : Policy} {c c' : Config} {view : Nat → Phase}
  {s s' : ServerState} {w w' : Net}
variable {hand : Option (Nat × Message)} {i j e : Nat} {msg : Message}

theorem start : (Config.start S).Sound S fun _ => .pending where
  length := rfl
  bound  := Nat.two_pow_pos 32
  wired  := .start
  ledger := by
    constructor <;>
      simp [ServerState.ledger, Config.start, Setup.server, ServerState.start, kindOf,
        partnerOf, Net.empty]

-- The moves of the server, as they show in the ledger.

section Ledger

open ServerState

variable {about k n : Nat} {rest : List Nat} {details : TaskDetails} {prior : Duration}
variable {now : SystemTime} {secondQueue : Bool}

theorem ledger_put : s.ledger (w.put about j msg) view = (s.ledger w view).put about j msg := by
  apply Ledger.ext <;> try rfl
  all_goals simp [ServerState.ledger, Ledger.put, Net.sents_put]

theorem ledger_accept {peer : Peer} :
    s.addRemote.ledger (w.accept peer) view = (s.ledger w view).accept peer.role := by
  apply Ledger.ext <;>
    simp only [ServerState.ledger, Ledger.accept, kindOf_addRemote, partnerOf_addRemote] <;> try rfl
  all_goals
    funext i
    by_cases hi : i = w.size <;> simp [hi, Conn.fresh, ConnTask.Open]

theorem ledger_spawned : (s.execSpawned secondQueue).ledger w view = s.ledger w view := by
  simp [ServerState.ledger]

theorem ledger_register (hi : i < s.remotes.length) :
    (((s.setConnType i .exec).execStarted secondQueue).makeReady i).ledger w
      (Function.update view i .idle) = (s.ledger w view).register i := by
  apply Ledger.ext <;>
    simp [ServerState.ledger, Ledger.register, makeReady, kindOf_setConnType,
      partnerOf_setPairedId, hi]

theorem ledger_submit (hi : i < s.remotes.length) :
    ({ s with submitCount := n }.queueTask i details prior now).ledger w
      (Function.update view i .submitted) = (s.ledger w view).submit i details prior := by
  have hk := kindOf_setConnType (s := s) (t := .client) hi
  apply Ledger.ext <;> try rfl
  case kind    => exact hk
  case partner => exact partnerOf_setConnType

theorem ledger_finish (hi : i < s.remotes.length) :
    (s.countFinished.makeReady i).ledger w (Function.update view i .idle) =
      (s.ledger w view).finish i := by
  have hp := partnerOf_setPairedId (s := s) (p := none) hi
  apply Ledger.ext <;> try rfl
  case kind    => exact kindOf_setPairedId
  case partner => exact hp

theorem ledger_lose (hj : j < s.remotes.length) :
    (s.setConnType j .dead).ledger w view = (s.ledger w view).lose j := by
  apply Ledger.ext <;> simp [ServerState.ledger, Ledger.lose, kindOf_setConnType, hj]

theorem ledger_drop (hi : i < s.remotes.length) :
    (s.setConnType i .dead).ledger w (Function.update view i .gone) = (s.ledger w view).drop i := by
  apply Ledger.ext <;> simp [ServerState.ledger, Ledger.drop, kindOf_setConnType, hi]

theorem ledger_drop_put (hi : i < s.remotes.length) :
    (s.bury i).ledger (w.put about j msg) (Function.update view i .gone) =
      ((s.ledger w view).drop i).put about j msg := by
  rw [ledger_put, ← ledger_drop hi]
  rfl

theorem ledger_assign (hi : i < s.remotes.length) (he : e < s.remotes.length)
    (hb : s.remotes.length < 2 ^ 32) :
    ((s.pop k rest).pair i e).ledger (w.put i e (.task 0 0 details))
      (Function.update view e (if view e = .gone then .gone else .busy)) =
        (s.ledger w view).assign k rest i e details := by
  have hi' : (UInt32.ofNat i).toNat = i := UInt32.toNat_ofNat_of_lt' (hi.trans hb)
  have he' : (UInt32.ofNat e).toNat = e := UInt32.toNat_ofNat_of_lt' (he.trans hb)
  have hp := partnerOf_setPairedId (s := s.pop k rest) (p := some (.ofNat e)) hi
  apply Ledger.ext <;> try rfl
  case partner =>
    simp [ServerState.ledger, Ledger.assign, pair, partnerOf_setPairedId, he, hp, hi', he']
  all_goals simp [ServerState.ledger, Ledger.assign, pair, Net.sents_put]

theorem ledger_release (he : e < s.remotes.length) :
    (s.dismiss e rest).ledger (w.put e e .pissOff)
      (Function.update view e (if view e = .gone then .gone else .released)) =
        (s.ledger w view).release e rest := by
  have hk := kindOf_setConnType (s := s) (t := .dead) he
  have hp := partnerOf_setConnType (s := s) (i := e) (t := .dead)
  apply Ledger.ext <;> try rfl
  case kind    => exact hk
  case partner => exact hp
  all_goals simp [ServerState.ledger, Ledger.release, Net.sents_put]

end Ledger

theorem act {a : Act} (h : Sound S ⟨s, hand, w⟩ view) (hs : w.step S a = some w') :
    Sound S ⟨s, hand, w'⟩ view := by
  have ⟨ms, c, hm⟩ := Net.step_moved hs
  have hr j :=
    hm.forall_conns (P := fun c c' => c'.role = c.role) (fun _ => rfl) Conn.Step.role_eq j
  have hn j :=
    hm.forall_conns (P := fun c c' => c'.sent = c.sent) (fun _ => rfl) Conn.Step.sent_eq j
  have ho j := hm.forall_conns (P := fun c c' => c'.task.Open → c.task.Open) (fun _ => id)
    Conn.Step.open_of j
  refine ⟨h.length.trans hm.size.symm, hm.size ▸ h.bound, h.wired.act hm, ?_⟩
  simpa [ServerState.ledger, hr, hn, hm.size] using h.ledger.closes ho

theorem accept {peer : Peer} (h : Sound S ⟨s, none, w⟩ view) (hf : peer.Fresh)
    (hr : peer.role ≠ .rogue) (hb : w.size + 1 < 2 ^ 32) :
    Sound S ⟨s.addRemote, none, w.accept peer⟩ view where
  length := by simpa [Net.accept] using h.length
  bound  := hb
  wired  := h.wired.accept hf hr <| h.ledger.later le_rfl
  ledger := ledger_accept ▸ h.ledger.accept

-- A change which neither the remotes nor the queues show.
theorem unchanged (h : Sound S ⟨s, hand, w⟩ view) (hr : s'.remotes = s.remotes)
    (he : s'.execQueue = s.execQueue) (ht : s'.taskQueue = s.taskQueue) :
    Sound S ⟨s', hand, w⟩ view where
  length := hr ▸ h.length
  bound  := h.bound
  wired  := h.wired
  ledger := by simpa [ServerState.ledger, hr, he, ht] using h.ledger

theorem register {accessCode userCode : UInt64} {secondQueue : Bool}
    (h : Sound S ⟨s, some (i, .yourObedientServant accessCode userCode), w⟩ view) :
    Sound S ⟨((s.setConnType i .exec).execStarted secondQueue).makeReady i, none, w⟩
      (Function.update view i .idle) := by
  have ⟨hi, phase, hs, hw⟩ := h.wired.hear
  obtain ⟨hr, hv, rfl⟩ := hs.of_hello
  refine ⟨by simpa [ServerState.makeReady] using h.length, h.bound, hw, ?_⟩
  exact ledger_register (h.length ▸ hi) ▸ h.ledger.register hi hv hr

theorem submit {accessCode userCode : UInt64} {details : TaskDetails} {prior : Duration} {n : Nat}
    {now : SystemTime} (h : Sound S ⟨s, some (i, .task accessCode userCode details), w⟩ view) :
    Sound S ⟨{ s with submitCount := n }.queueTask i details prior now, none, w⟩
      (Function.update view i .submitted) := by
  have ⟨hi, phase, hs, hw⟩ := h.wired.hear
  obtain ⟨hr, hv, rfl⟩ := hs.of_task
  refine ⟨by simpa [ServerState.queueTask, ServerState.setConnType] using h.length, h.bound, hw, ?_⟩
  exact ledger_submit (h.length ▸ hi) ▸ h.ledger.submit hi hv hr

theorem drop (h : Sound S ⟨s, some (i, .dropped), w⟩ view) :
    Sound S ⟨s.setConnType i .dead, none, w⟩ (Function.update view i .gone) := by
  have ⟨hi, phase, hs, hw⟩ := h.wired.hear
  obtain ⟨hv, rfl⟩ := hs.of_dropped
  refine ⟨by simpa using h.length, h.bound, hw, ?_⟩
  exact ledger_drop (h.length ▸ hi) ▸ h.ledger.drop hi

-- An exec which the server takes to be running a task serves its partner.
theorem serves (h : Sound S ⟨s, hand, w⟩ view) (hv : view e = .busy) (hp : s.partner e = some j) :
    ∃ details, (s.ledger w view).Serves e j details ∧ (w.conns j).role = .client details ∧
      j < w.size := by
  have ⟨_, _, _, details, hs⟩ := h.ledger.busy hv
  cases hs.exec.symm.trans hp
  exact ⟨details, hs, hs.role, h.ledger.serves_lt_size hs⟩

theorem output (h : Sound S ⟨s, some (i, msg), w⟩ view) (hm : msg.Result) (ht : ¬msg.Terminal)
    (hf : Forwards P i msg s w s' w') : Sound S ⟨s', none, w'⟩ view := by
  have ⟨hi, phase, hs, hw⟩ := h.wired.hear
  have ⟨hr, hv, hp⟩ := hs.of_result hm
  obtain ⟨_, rfl⟩ := hp.resolve_left fun h => ht h.left
  rw [← hv, Function.update_eq_self] at hw
  cases hf
  case sent j hp hk ho ha =>
    have ⟨_, hs, hr, hj⟩ := h.serves hv hp
    have hn : s.partner j ≠ none := by simp [show s.partner j = some i from hs.client]
    refine ⟨h.length, h.bound, hw.put_client hj (by simp [hr]), ?_⟩
    exact ledger_put ▸ h.ledger.put hs.view hs.role hn (absurd · ht)
  case lost j hp hk ho ha =>
    have ⟨_, hs, _, hj⟩ := h.serves hv hp
    refine ⟨by simpa using h.length, h.bound, hw, ?_⟩
    exact ledger_lose (h.length ▸ hj) ▸ h.ledger.lose (h.ledger.client_view hk) ho
  case skipped => exact ⟨h.length, h.bound, hw, h.ledger⟩

theorem complete (h : Sound S ⟨s, some (i, msg), w⟩ view) (ht : msg.Terminal)
    (hf : Forwards P i msg s w s' w') :
    Sound S ⟨s'.countFinished.makeReady i, none, w'⟩ (Function.update view i .idle) := by
  have ⟨hi, phase, hs, hw⟩ := h.wired.hear
  have ⟨hr, hv, hp⟩ := hs.of_result ht.result
  obtain ⟨_, rfl⟩ := hp.resolve_right fun h => h.left ht
  have hl : (s'.countFinished.makeReady i).remotes.length = w.size := by
    simpa [ServerState.makeReady, ServerState.countFinished] using hf.length_eq.trans h.length
  have hi : i < s'.remotes.length := hf.length_eq ▸ hf.lt_length
  cases hf
  case sent j hp hk ho ha =>
    have ⟨_, hs, hr, hj⟩ := h.serves hv hp
    refine ⟨hl, h.bound, hw.put_client hj (by simp [hr]), ?_⟩
    rw [ledger_finish hi, ledger_put]
    exact h.ledger.finish_put hv hs
  case lost j hp hk ho ha =>
    have ⟨_, hs, _, hj⟩ := h.serves hv hp
    refine ⟨hl, h.bound, hw, ?_⟩
    rw [ledger_finish hi, ledger_lose (h.length ▸ hj)]
    exact h.ledger.finish_lose hv hs hk ho
  case skipped => exact ⟨hl, h.bound, hw, ledger_finish hi ▸ h.ledger.finish hv⟩

theorem busy (h : Sound S ⟨s, hand, w⟩ view) (hk : s.kind i = .exec) (hp : s.partner i = some j) :
    view i = .busy := by
  rcases h.ledger.exec_cases hk with ⟨_, hn⟩ | ⟨hv, _⟩
  case inl => cases hp.symm.trans hn
  case inr => exact hv

theorem dropBusy (h : Sound S ⟨s, some (i, .dropped), w⟩ view) (hk : s.kind i = .exec)
    (hp : s.partner i = some j) :
    Sound S ⟨s.bury i, none, w.put i j droppedNotice⟩ (Function.update view i .gone) := by
  have hd := h.drop
  have hv := h.busy hk hp
  have ⟨_, hs, hr, hj⟩ := h.serves hv hp
  have hi : i < s.remotes.length := lt_length_of_partnerOf hp
  refine ⟨hd.length, h.bound, hd.wired.put_client hj (by simp [hr]), ?_⟩
  exact ledger_drop_put hi ▸ h.ledger.drop_put hv hs

theorem lt_size (h : Sound S ⟨s, hand, w⟩ view) (hv : view i ≠ .pending) : i < w.size :=
  h.ledger.lt_size hv

-- The exec at the head of the queue.
theorem queued {rest : List Nat} (h : Sound S ⟨s, hand, w⟩ view) (he : s.execQueue = e :: rest) :
    (w.conns e).role.Exec ∧ s.partner e = none ∧ (view e = .idle ∨ view e = .gone) :=
  h.ledger.queued <| by simp [ServerState.ledger, he]

theorem assign {k : Nat} {rest : List Nat} {details : TaskDetails} {prior : Duration}
    (h : Sound S ⟨s, none, w⟩ view) (hk : s.taskQueue[k]? = some ((i, details), prior))
    (he : s.execQueue = e :: rest) (hi : i < s.remotes.length) (hj : e < s.remotes.length) :
    Sound S ⟨(s.pop k rest).pair i e, none, w.put i e (.task 0 0 details)⟩
      (Function.update view e (if view e = .gone then .gone else .busy)) := by
  have hq := h.queued he
  refine ⟨by simpa [ServerState.pair, ServerState.pop] using h.length, h.bound, ?_, ?_⟩
  · exact h.wired.put_exec (h.length ▸ hj) hq.right.right <| .inl ⟨_, rfl, rfl⟩
  · exact ledger_assign hi hj (h.length ▸ h.bound) ▸ h.ledger.assign hk he

theorem release {rest : List Nat} (h : Sound S ⟨s, none, w⟩ view) (he : s.execQueue = e :: rest)
    (hj : e < s.remotes.length) :
    Sound S ⟨s.dismiss e rest, none, w.put e e .pissOff⟩
      (Function.update view e (if view e = .gone then .gone else .released)) := by
  have hq := h.queued he
  refine ⟨by simpa [ServerState.dismiss, ServerState.setConnType] using h.length, h.bound, ?_, ?_⟩
  · exact h.wired.put_exec (h.length ▸ hj) hq.right.right <| .inr ⟨rfl, rfl⟩
  · exact ledger_release hj ▸ h.ledger.release he

theorem move (hP : P.Tame) (h : c.Sound S view) (m : Move S P c c') :
    ∃ view', c'.Sound S view' := by
  cases m
  case act hs                  => exact ⟨_, h.act hs⟩
  case accept hf ha            => exact ⟨_, h.accept hf (hP ha).left (hP ha).right⟩
  case recv hi _               => exact ⟨_, h.length, h.bound, h.wired.recv hi, h.ledger⟩
  case record                  => exact ⟨_, h.unchanged rfl rfl rfl⟩
  case spawn                   => exact ⟨_, h.unchanged (by simp) (by simp) (by simp)⟩
  case register                => exact ⟨_, h.register⟩
  case submit                  => exact ⟨_, h.submit⟩
  case output hm ht hf         => exact ⟨_, h.output hm ht hf⟩
  case complete ht hf          => exact ⟨_, h.complete ht hf⟩
  case drop                    => exact ⟨_, h.drop⟩
  case dropIdle                => exact ⟨_, h.drop.unchanged rfl rfl rfl⟩
  case dropBusy hk hp _ _      => exact ⟨_, h.dropBusy hk hp⟩
  case assign hk he _ hi hj _ _ _ _ => exact ⟨_, h.assign hk he hi hj⟩
  case release he hj _ _       => exact ⟨_, h.release he hj⟩

end Config.Sound

theorem Reach.sound {S : Setup} {P : Policy} {c : Config} (hP : P.Tame) (h : Reach S P c) :
    ∃ view, c.Sound S view := by
  induction h with
  | start       => exact ⟨_, .start⟩
  | move _ m hi => exact have ⟨_, h⟩ := hi; h.move hP m

end SprayCC
