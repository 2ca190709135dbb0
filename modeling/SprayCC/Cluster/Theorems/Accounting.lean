import SprayCC.Cluster.Theorems.Placement

open Async Program

-- The counts of tasks which the server reports.

namespace SprayCC

-- An exec which runs a task does not drop its connection.
def Policy.busyNotDropped : Policy :=
  { any with
    recv s _ i msg :=
      match msg with
      | .dropped => ¬(s.kind i = .exec ∧ s.partner i ≠ none)
      | _        => true }

-- The execs which have a task assigned.
def busyIn (remotes : List Remote) : Nat :=
  remotes.countP fun r => r.connType = .exec ∧ r.pairedId.isSome

namespace ServerState

variable {s s' : ServerState} {i e k : Nat} {rest : List Nat} {t : ConnectionType}
  {p : Option UInt32}

theorem busyIn_setConnType (h : i < s.remotes.length) :
    busyIn (s.setConnType i t).remotes + (if s.kind i = .exec ∧ s.partner i ≠ none then 1 else 0) =
      busyIn s.remotes + (if t = .exec ∧ s.partner i ≠ none then 1 else 0) := by
  have hc := countP_modify (fun r : Remote => decide (r.connType = .exec ∧ r.pairedId.isSome))
    (fun r => { r with connType := t }) h
  simpa [busyIn, setConnType, kindOf, partnerOf, h, Option.isSome_iff_ne_none] using hc

theorem busyIn_setPairedId (h : i < s.remotes.length) :
    busyIn (s.setPairedId i p).remotes + (if s.kind i = .exec ∧ s.partner i ≠ none then 1 else 0) =
      busyIn s.remotes + (if s.kind i = .exec ∧ p ≠ none then 1 else 0) := by
  have hc := countP_modify (fun r : Remote => decide (r.connType = .exec ∧ r.pairedId.isSome))
    (fun r => { r with pairedId := p }) h
  simpa [busyIn, setPairedId, kindOf, partnerOf, h, Option.isSome_iff_ne_none] using hc

-- Every task which was submitted is finished, or it is queued, or an exec runs it.
def Accounted (s : ServerState) : Prop :=
  s.submitCount = s.finishCount + s.taskQueue.length + busyIn s.remotes

namespace Accounted

theorem of_busy (h : s.Accounted) (hs : s'.submitCount = s.submitCount)
    (hf : s'.finishCount = s.finishCount)
    (ht : s'.taskQueue.length = s.taskQueue.length) (hb : busyIn s'.remotes = busyIn s.remotes) :
    s'.Accounted := by
  simpa [Accounted, hs, hf, ht, hb] using h

theorem addRemote (h : s.Accounted) : s.addRemote.Accounted :=
  h.of_busy rfl rfl rfl (by simp [busyIn, ServerState.addRemote])

theorem execSpawned {altQueue : Bool} (h : s.Accounted) : (s.execSpawned altQueue).Accounted := by
  rw [ServerState.execSpawned_eq]
  exact h

theorem execStarted {secondQueue : Bool} (h : s.Accounted) :
    (s.execStarted secondQueue).Accounted := by
  rw [ServerState.execStarted_eq]
  exact h

-- The type of a remote only matters if it has a partner.
theorem setConnType (h : s.Accounted) (hi : i < s.remotes.length)
    (hn : s.partner i = none ∨ s.kind i ≠ .exec ∧ t ≠ .exec) : (s.setConnType i t).Accounted := by
  have hb := busyIn_setConnType (t := t) hi
  refine h.of_busy rfl rfl rfl ?_
  rcases hn with hn | ⟨hk, ht⟩
  case inl => simpa [hn] using hb
  case inr => simpa [hk, ht] using hb

theorem setPairedId (h : s.Accounted) (hi : i < s.remotes.length)
    (hn : s.kind i ≠ .exec ∨ s.partner i = none ∧ p = none) : (s.setPairedId i p).Accounted := by
  have hb := busyIn_setPairedId (p := p) hi
  refine h.of_busy rfl rfl rfl ?_
  rcases hn with hk | ⟨hn, hp⟩
  case inl => simpa [hk] using hb
  case inr => simpa [hn, hp] using hb

theorem register {secondQueue : Bool} (h : s.Accounted) (hi : i < s.remotes.length)
    (hn : s.partner i = none) :
    (((s.setConnType i .exec).execStarted secondQueue).makeReady i).Accounted := by
  have h : ((s.setConnType i .exec).execStarted secondQueue).Accounted :=
    (h.setConnType hi (.inl hn)).execStarted
  refine (h.setPairedId (p := none) ?_ ?_).of_busy rfl rfl rfl rfl
  · simpa using hi
  · exact .inr ⟨by simpa [partner] using hn, rfl⟩

theorem submit {details : TaskDetails} {prior : Duration} {now : SystemTime} (h : s.Accounted)
    (hi : i < s.remotes.length) (hk : s.kind i ≠ .exec) (hn : ∀ e ∈ s.taskQueue, e.fst.fst ≠ i) :
    ({ s with submitCount := s.submitCount + 1 }.queueTask i details prior now).Accounted := by
  have hc : (s.setConnType i .client).Accounted := h.setConnType hi <| .inr ⟨hk, nofun⟩
  have hq : (pushEntry s.taskQueue (i, details) prior).length = s.taskQueue.length + 1 := by
    simp [Ledger.pushEntry_of_new hn]
  show s.submitCount + 1 = s.finishCount + (pushEntry s.taskQueue (i, details) prior).length + _
  rw [hq, show s.submitCount = _ from hc]
  simp only [ServerState.setConnType, ServerState.queueTask]
  omega

-- The end of a task is counted, and its exec is given up.
theorem finish (h : s.Accounted) (hk : s.kind i = .exec) (hn : s.partner i ≠ none) :
    (s.countFinished.makeReady i).Accounted := by
  have hb := busyIn_setPairedId (p := none) (s.lt_length hk nofun)
  simp only [hk, hn, ne_eq, not_false_eq_true, and_self, if_true, not_true_eq_false, and_false,
    if_false] at hb
  show s.submitCount =
    s.finishCount + 1 + s.taskQueue.length + busyIn (s.setPairedId i none).remotes
  rw [show s.submitCount = _ from h]
  omega

theorem bury (h : s.Accounted) (hi : i < s.remotes.length) (hn : s.partner i = none) :
    (s.bury i).Accounted :=
  (h.setConnType (t := .dead) hi <| .inl hn).of_busy rfl rfl rfl rfl

theorem dismiss (h : s.Accounted) (hi : e < s.remotes.length) (hn : s.partner e = none) :
    (s.dismiss e rest).Accounted :=
  (h.setConnType (t := .dead) hi <| .inl hn).of_busy rfl rfl rfl rfl

theorem pair {entry : Entry} (h : s.Accounted) (hq : s.taskQueue[k]? = some entry) (hie : i ≠ e)
    (hi : i < s.remotes.length) (hki : s.kind i ≠ .exec) (hke : s.kind e = .exec)
    (hn : s.partner e = none) : ((s.pop k rest).pair i e).Accounted := by
  have hl := List.length_eraseIdx_add_one (List.getElem?_eq_some_iff.mp hq).choose
  have hb := busyIn_setPairedId (s := s.pop k rest) (p := some (.ofNat e)) hi
  have hk' : ((s.pop k rest).setPairedId i (some (.ofNat e))).kind e = .exec := by
    simpa [kind] using hke
  have hn' : ((s.pop k rest).setPairedId i (some (.ofNat e))).partner e = none := by
    simpa [partner, partnerOf_setPairedId (s := s.pop k rest) hi, hie.symm] using hn
  have hb' := busyIn_setPairedId (p := some (.ofNat i)) (lt_length hk' nofun)
  simp only [hk', hn'] at hb'
  have hki' : (s.pop k rest).kind i ≠ .exec := hki
  simp only [hki'] at hb
  simp at hb hb'
  show s.submitCount =
    s.finishCount + (s.taskQueue.eraseIdx k).length + busyIn ((s.pop k rest).pair i e).remotes
  rw [show s.submitCount = _ from h]
  simp only [ServerState.pair, hb', hb]
  omega

theorem forwards {P : Policy} {msg : Message} {w w' : Net} (h : s.Accounted)
    (hf : Forwards P i msg s w s' w') : s'.Accounted := by
  cases hf
  case sent | skipped => exact h
  case lost hk _ _    => exact h.setConnType (s.lt_length hk nofun) <| .inr ⟨by simp [hk], nofun⟩

end Accounted

-- What is printed of an accounted server.
theorem Accounted.reportStatus {n : Nat} (h : s.Accounted) :
    ∃ status, s.reportStatus n = .done status ∧
      ∀ line ∈ status, line.running = busyIn s.remotes := by
  have hf : s.finishCount ≤ s.submitCount := by rw [show s.submitCount = _ from h]; omega
  have hq : s.taskQueue.length ≤ s.submitCount - s.finishCount := by
    rw [show s.submitCount = _ from h]; omega
  have hr : s.submitCount - s.finishCount - s.taskQueue.length = busyIn s.remotes := by
    rw [show s.submitCount = _ from h]; omega
  simp only [ServerState.reportStatus, checkedSub, hf, hq, if_true, pure_eq, done_bind, hr]
  split
  case isTrue  => exact ⟨_, rfl, fun _ hl => by cases hl; rfl⟩
  case isFalse => exact ⟨_, rfl, nofun⟩

end ServerState

-- The server is accounted, and the exec which it has heard to be gone was not running a task.
structure Config.Accounted (c : Config) : Prop where
  server : c.server.Accounted
  hand   : c.hand = some (i, .dropped) → c.server.kind i = .exec → c.server.partner i = none

namespace Config.Sound

variable {S : Setup} {c c' : Config} {s : ServerState} {w : Net} {i : Nat} {view : Nat → Phase}
variable {hand : Option (Nat × Message)} {details : TaskDetails} {prior : Duration}

theorem kind_of_tasked (h : Sound S ⟨s, hand, w⟩ view) (hm : ((i, details), prior) ∈ s.taskQueue) :
    s.kind i ≠ .exec := by
  have ⟨_, _, _, hv⟩ := h.ledger.tasked hm
  rcases hv with hv | hv
  case inl =>
    rcases (h.ledger.submitted hv).right with hk | ⟨hk, _⟩
    case inl => exact hk.trans_ne (by decide)
    case inr => exact hk.trans_ne (by decide)
  case inr => exact (h.ledger.gone hv).trans_ne (by decide)

theorem not_tasked_of_pending (h : Sound S ⟨s, hand, w⟩ view) (hv : view i = .pending) :
    ∀ e ∈ s.taskQueue, e.fst.fst ≠ i := by
  rintro ⟨⟨_, _⟩, _⟩ hm rfl
  have ⟨_, _, _, hv'⟩ := h.ledger.tasked hm
  simp [ServerState.ledger, hv] at hv'

theorem accounted (hs : c.Sound S view) (h : c.Accounted)
    (m : Move S (.and .wellBehaved (.and (.goneSpared Message.Assigns) .busyNotDropped)) c c') :
    c'.Accounted := by
  cases m
  case act        => exact ⟨h.server, h.hand⟩
  case accept     => exact ⟨h.server.addRemote, nofun⟩
  case recv ha    =>
    refine ⟨h.server, fun hm hk => ?_⟩
    cases hm
    simpa [Policy.busyNotDropped, hk] using Policy.and_recv <| Policy.and_recv ha
  case record     => exact ⟨h.server, h.hand⟩
  case spawn      => exact ⟨h.server.execSpawned, nofun⟩
  case register hi =>
    have ⟨_, _, hm, _⟩ := hs.wired.hear
    have ⟨_, hn, _⟩ := hs.ledger.pending hm.of_hello.right.left
    exact ⟨h.server.register hi hn, nofun⟩
  case submit hi _ =>
    have ⟨_, _, hm, _⟩ := hs.wired.hear
    have hv := hm.of_task.right.left
    have hk := (hs.ledger.pending hv).left
    exact ⟨h.server.submit hi (hk.trans_ne (by decide)) (hs.not_tasked_of_pending hv), nofun⟩
  case output hf  => exact ⟨h.server.forwards hf, nofun⟩
  case complete ht hf =>
    have ⟨_, _, hm, _⟩ := hs.wired.hear
    have ⟨_, hk, _, _, hsv⟩ := hs.ledger.busy (hm.of_result ht.result).right.left
    exact ⟨(h.server.forwards hf).finish (hf.kind_of_exec hk)
      (hf.partner_eq.trans_ne hf.partner_ne_none), nofun⟩
  case drop hi hk => exact ⟨h.server.setConnType hi <| .inr ⟨hk, nofun⟩, nofun⟩
  case dropIdle hk hn => exact ⟨h.server.bury (ServerState.lt_length hk nofun) hn, nofun⟩
  case dropBusy hk hp _ _ => cases hp.symm.trans <| h.hand rfl hk
  case assign hq he hie hi _ _ hn ho ha =>
    have hki := hs.kind_of_tasked <| List.mem_of_getElem? hq
    have hke := hs.kind_of_queued he <|
      (Policy.goneSpared_spares trivial).and_left.and_right _ _ _ ha ho
    exact ⟨h.server.pair hq hie hi hki hke hn, nofun⟩
  case release he hi _ _ =>
    have ⟨_, hn, _⟩ := hs.queued he
    exact ⟨h.server.dismiss hi hn, nofun⟩

end Config.Sound

theorem Reach.accounted {S : Setup} {c : Config}
    (h : Reach S (.and .wellBehaved (.and (.goneSpared Message.Assigns) .busyNotDropped)) c) :
    c.Accounted := by
  induction h with
  | start       => exact ⟨rfl, nofun⟩
  | move h m hi => exact have ⟨_, hs⟩ := h.sound Policy.tame_and; hs.accounted hi m

namespace Cluster

variable {S : Setup} {σ : Cluster}

-- The count of the tasks which run is that of the execs which have one, and this is the one to be
-- printed.
structure Accounts (σ : Cluster) : Prop where
  exact    : σ.main.resting = some s →
    s.submitCount = s.finishCount + s.taskQueue.length + busyIn s.remotes
  printed  : σ.main.resting = some s → ∃ status, s.reportStatus n = .done status ∧
    ∀ line ∈ status, line.running = busyIn s.remotes
  positive : σ.main ≠ .faulted (.panic .statusUnderflow)

theorem Reaches.accounts
    (h : Reaches S (.and .wellBehaved (.and (.goneSpared Message.Assigns) .busyNotDropped)) σ) :
    Accounts σ where
  exact hm     := (h.settled hm).accounted.server
  printed hm   := (h.settled hm).accounted.server.reportStatus
  positive hm  := by
    have ⟨_, hr, hf⟩ := h.explained hm
    have ha := hr.accounted.server
    cases hf
    case status hl =>
      have ha : _ = _ := ha
      dsimp only at ha
      omega

-- The first task of the tour, and one which is submitted while it runs.
theorem accounts_tour :
    ∃ σ, Reaches .plain (.and .wellBehaved (.and (.goneSpared Message.Assigns) .busyNotDropped)) σ ∧
      (σ.main.resting.any fun s => s.submitCount = 2 ∧ s.finishCount = 1 ∧ busyIn s.remotes = 1) ∧
        Accounts σ :=
  have ⟨σ, h, hs⟩ := Reaches.of_run
    (f := fun σ => σ.main.resting.any fun s => s.submitCount = 2 ∧ s.finishCount = 1 ∧
      busyIn s.remotes = 1)
    (tour.take 52) (by decide +kernel)
  ⟨σ, h, hs, h.accounts⟩

-- An exec drops its connection while it runs a task, which never counts as finished.
theorem lost_task_running :
    ¬∀ S σ, Reaches S .wellBehaved σ → Accounts σ := by
  intro h
  have ⟨σ, hr, hs⟩ := Reaches.of_run (S := .plain) (P := .wellBehaved)
    (f := fun σ => σ.main.resting.any fun s =>
      s.submitCount = 2 ∧ s.finishCount = 1 ∧ s.taskQueue.length = 0 ∧ busyIn s.remotes = 0) tour
    (by decide +kernel)
  have ⟨s, hm, hs⟩ := Option.any_eq_true .. |>.mp hs
  have ⟨hc, hf, ht, hb⟩ := of_decide_eq_true hs
  have he := (h _ _ hr).exact hm
  omega

end Cluster
end SprayCC
