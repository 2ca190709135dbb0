import SprayCC.Cluster.Refinement
import SprayCC.Cluster.Strangers

open Async Program

-- What a remote can do to the server without the right codes.

namespace SprayCC

-- What the server does about messages which are decoded one after the other on connection `k`.
def handleAll (codes : Codes) (fuel k : Nat) : List Message → ServerState → Proc ServerState
  | [],          s => pure s
  | msg :: msgs, s => do
    let s ← onEvent fuel s (.inbound k (codes.forwards msg))
    handleAll codes fuel k msgs s

-- Nothing but the remote itself and the time of the last activity has changed.
def ServerState.Unchanged (s s' : ServerState) (k : Nat) : Prop :=
  ∃ r now, s' = { s with remotes := s.remotes.set k r, lastActivityTime := now }

-- The messages whose codes the connection task checks, and the one which it may send in their
-- stead.
def Message.Checked : Message → Prop
  | yourObedientServant .. | task .. | dropped => True
  | _                                          => False

instance : DecidablePred Message.Checked
  | .yourObedientServant .. | .task .. | .dropped => .isTrue trivial
  | .taskOutput .. | .taskFailed .. | .taskDone .. | .cancelTask | .pissOff => .isFalse id

theorem Codes.forwards_checked {codes : Codes} {msg : Message} (ha : ¬codes.Admits msg)
    (hc : msg.Checked) : codes.forwards msg = .dropped := by
  cases msg
  case yourObedientServant | task => exact if_pos <| not_not.mp fun hd => ha ⟨trivial, hd⟩
  case dropped                    => rfl
  all_goals exact hc.elim

theorem Codes.forwards_unchecked {codes : Codes} {msg : Message} (h : ¬msg.Checked) :
    codes.forwards msg = msg := by
  cases msg <;> first | rfl | exact absurd trivial h

namespace ServerState

variable {codes : Codes} {s s' s'' : ServerState} {k fuel : Nat} {now : SystemTime}
variable {msg : Message} {ms : List Message} {Q : ServerState → Prop}

theorem Unchanged.refl (hk : k < s.remotes.length) : s.Unchanged s k :=
  ⟨s.remotes[k], s.lastActivityTime, by simp⟩

theorem Unchanged.trans (h : s.Unchanged s' k) (h' : s'.Unchanged s'' k) : s.Unchanged s'' k := by
  obtain ⟨_, _, rfl⟩ := h
  obtain ⟨r, now, rfl⟩ := h'
  exact ⟨r, now, by simp⟩

theorem unchanged_setConnType {t : ConnectionType} (hk : k < s.remotes.length) :
    s.Unchanged ((s.setConnType k t).activityOccurred now) k :=
  ⟨{ s.remotes[k] with connType := t }, now, by
    simp [setConnType, activityOccurred, List.modify_eq_set_getElem?, hk]⟩

namespace Unopened

theorem onEvent_dropped (h : s.Unopened k) (hk : k < s.remotes.length) :
    onEvent fuel s (.inbound k .dropped) =
      .call .now fun now => .done ((s.setConnType k .dead).activityOccurred now) := by
  have hr := List.getElem?_eq_getElem hk
  have hn : ¬s.remotes[k].connType = .exec := fun he => h.exec <| (kindOf_eq hr).trans he
  simp [onEvent, handleMsg, handleDropped, remote, hr, hn, SprayCC.now]
  rfl

theorem dropped (h : s.Unopened k) (hk : k < s.remotes.length) :
    ((s.setConnType k .dead).activityOccurred now).Unopened k :=
  h.refile hk (.inr rfl) |>.unchanged rfl rfl rfl

theorem sendToPairedRemote_eq (h : s.Unopened k) (hk : k < s.remotes.length) :
    s.sendToPairedRemote k msg = .fail (.panic .notPaired) := by
  have hr := List.getElem?_eq_getElem hk
  have hn : s.remotes[k].pairedId = none := by
    simpa [ServerState.partner, partnerOf_eq hr] using h.partner
  simp [ServerState.sendToPairedRemote, remote, hr, hn]

-- A message whose codes are not checked makes the server panic.
theorem handleMsg_fails (h : s.Unopened k) (hk : k < s.remotes.length) (hm : ¬msg.Checked) :
    ¬(handleMsg fuel s k msg).Always Q fun _ => False := by
  intro ha
  cases msg
  case yourObedientServant | task | dropped => exact hm trivial
  case taskOutput content =>
    have h : (s.countBytes content.length).Unopened k := h.unchanged rfl rfl rfl
    rwa [handleMsg, h.sendToPairedRemote_eq hk] at ha
  case taskFailed =>
    rwa [handleMsg, h.sendToPairedRemote_eq hk] at ha
  case taskDone code target run send =>
    rw [handleMsg_taskDone] at ha
    split at ha
    case isTrue  =>
      have h : (s.recordElapsed target run 0).Unopened k := h.unchanged rfl rfl rfl
      have ha : (taskIsDone fuel (s.recordElapsed target run 0) k _ run send).Always Q _ := ha 0
      rwa [taskIsDone, h.sendToPairedRemote_eq hk] at ha
    case isFalse => rwa [taskIsDone, h.sendToPairedRemote_eq hk] at ha
  case cancelTask | pissOff => exact ha

theorem checked_of_handleAll (h : s.Unopened k) (hk : k < s.remotes.length)
    (hms : ∀ m ∈ ms, ¬codes.Admits m)
    (ha : (handleAll codes fuel k ms s).Always Q fun _ => False) : ∀ m ∈ ms, m.Checked := by
  induction ms generalizing s with
  | nil => exact fun _ hm => nomatch hm
  | cons m ms hi =>
    have ⟨hm, hms⟩ := List.forall_mem_cons.mp hms
    rw [handleAll, always_bind] at ha
    by_cases hc : m.Checked
    case pos =>
      rw [Codes.forwards_checked hm hc, h.onEvent_dropped hk] at ha
      exact List.forall_mem_cons.mpr
        ⟨hc, hi (h.dropped hk) (by simpa [activityOccurred]) hms <| ha 0⟩
    case neg =>
      rw [Codes.forwards_unchecked hc, onEvent, always_bind] at ha
      exact absurd ha <| h.handleMsg_fails hk hc

theorem handleAll_of_checked (h : s.Unopened k) (hk : k < s.remotes.length)
    (hms : ∀ m ∈ ms, ¬codes.Admits m) (hc : ∀ m ∈ ms, m.Checked) :
    (handleAll codes fuel k ms s).Always (s.Unchanged · k) fun _ => False := by
  induction ms generalizing s with
  | nil => exact .refl hk
  | cons m ms hi =>
    have ⟨hm, hms⟩ := List.forall_mem_cons.mp hms
    have ⟨hc, hcs⟩ := List.forall_mem_cons.mp hc
    rw [handleAll, Codes.forwards_checked hm hc, h.onEvent_dropped hk]
    intro now
    let s' := (s.setConnType k .dead).activityOccurred now
    have ht := hi (s := s') (h.dropped hk) (by simpa [s', activityOccurred]) hms hcs
    exact ht.mono (fun _ => (unchanged_setConnType hk).trans) fun _ => id

end Unopened
end ServerState

namespace Cluster

variable {S : Setup} {σ : Cluster} {s : ServerState} {fuel k : Nat} {ms : List Message}

theorem Reaches.unopened (h : Reaches S .any σ) (hm : σ.main.resting = some s) (hk : k < σ.net.size)
    (hs : (σ.net.conns k).peer.Stranger S.codes) : s.Unopened k ∧ k < s.remotes.length :=
  have hr := h.settled hm
  ⟨(hr.deaf fun _ => hs).server, hr.length ▸ hk⟩

-- An outsider does not get through to the server if and only if its messages are of the kinds which
-- are checked.
theorem Reaches.outsider_iff (h : Reaches S .any σ) (hm : σ.main.resting = some s)
    (hk : k < σ.net.size)
    (hs : (σ.net.conns k).peer.Stranger S.codes) (hms : ∀ m ∈ ms, ¬S.codes.Admits m) :
    (handleAll S.codes fuel k ms s).Always (s.Unchanged · k) (fun _ => False) ↔
      ∀ m ∈ ms, m.Checked := by
  have ⟨hd, hl⟩ := h.unopened hm hk hs
  exact ⟨hd.checked_of_handleAll hl hms, hd.handleAll_of_checked hl hms⟩

-- A client waits for its task to be assigned when an outsider connects, which has not said anything
-- yet.
def visit : List Label :=
  [.accept (.client .plain false), .check 0, .act (.speaks 0 (Setup.plain.codes.submission .plain)),
    .recv 1, .clock 0, .spawned true, .clock 0, .clock 0, .finish, .check 0,
    .accept (.rogue []), .check 0]

theorem exists_visited :
    ∃ σ s, Reaches .plain .any σ ∧ σ.main.resting = some s ∧ σ.net.size = 2 ∧
      s.taskQueue.map (·.fst.fst) = [0] ∧ (σ.net.conns 1).peer = .rogue [] := by
  have ⟨σ, h, hs⟩ := Reaches.of_run (S := .plain) (P := .any)
    (f := fun σ => σ.net.size = 2 ∧ (σ.net.conns 1).peer = .rogue [] ∧
      σ.main.resting.any fun s => s.taskQueue.map (·.fst.fst) = [0]) visit (by decide +kernel)
  have ⟨hn, hp, hs⟩ := of_decide_eq_true hs
  have ⟨s, hm, hq⟩ := Option.any_eq_true .. |>.mp hs
  exact ⟨σ, s, h, hm, hn, of_decide_eq_true hq, hp⟩

theorem outsider_visits :
    ∃ σ s, Reaches .plain .any σ ∧ σ.main.resting = some s ∧ s.taskQueue.map (·.fst.fst) = [0] ∧
      let ms := [.yourObedientServant 0 0, .task 0 0 .plain, .dropped]
      ((handleAll Setup.plain.codes 0 1 ms s).Always (s.Unchanged · 1) (fun _ => False) ↔
        ∀ m ∈ ms, m.Checked) :=
  have ⟨σ, s, h, hm, hn, hq, hp⟩ := exists_visited
  ⟨σ, s, h, hm, hq, h.outsider_iff hm (by omega) (hp ▸ List.forall_mem_nil _) (by decide)⟩

-- The results of a task are forwarded to the server without a look at any codes, and the server
-- takes it for granted that the remote has been sent a task.
theorem outsider_panics :
    ¬∀ S σ s fuel k ms, Reaches S .any σ → σ.main.resting = some s → k < σ.net.size →
      (σ.net.conns k).peer.Stranger S.codes → (∀ m ∈ ms, ¬S.codes.Admits m) →
      (handleAll S.codes fuel k ms s).Always (s.Unchanged · k) fun _ => False := by
  intro hf
  have ⟨σ, s, h, hm, hn, _, hp⟩ := exists_visited
  have hs : (σ.net.conns 1).peer.Stranger Setup.plain.codes := hp ▸ List.forall_mem_nil _
  have ⟨hd, hl⟩ := h.unopened hm (by omega) hs
  have ha := hf _ _ _ 0 1 [.taskOutput .stdout []] h hm (by omega) hs (by decide)
  exact hd.checked_of_handleAll hl (by decide) ha _ (List.mem_singleton.mpr rfl)

end Cluster
end SprayCC
