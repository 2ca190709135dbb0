import SprayCC.Cluster.Moves
import SprayCC.Cluster.Turns

open Async Program

-- The runs of the main loop refine the moves: whatever the loop is waiting for, the net around it
-- is one that the moves lead to.

namespace SprayCC

-- The net as the surroundings of an arm of the main loop which was entered for `ev`.
def world (S : Setup) (P : Policy) (ev : Event) : World signature Net where
  moves w w' := ∃ a, P.act w a ∧ w.step S a = some w'
  answers w
    | .send about dest msg, ok, w' => P.send ev w dest msg ∧ w.send S about dest msg = some (ok, w')
    | .pick queue,          k,  w' => Picks queue k ∧ w' = w
    | .now,                 _,  w' => w' = w
    | .spawn _,             _,  w' => w' = w

def Reached (S : Setup) (P : Policy) (w : Net) : Prop :=
  ∃ s h, Reach S P ⟨s, h, w⟩

-- A fault is explained by a configuration in which the server was about to fail.
def Explained (S : Setup) (P : Policy) (f : Fault) (w : Net) : Prop :=
  Reached S P w ∧ ∃ c, Reach S P c ∧ Fails P c f

def Settled (S : Setup) (P : Policy) (s : ServerState) (w : Net) : Prop :=
  Reach S P ⟨s, none, w⟩

variable {S : Setup} {P : Policy} {ev : Event} {s s' : ServerState} {h : Option (Nat × Message)}
variable {w w' : Net} {α : Type} {Q : α → Net → Prop}

abbrev Keeps (S : Setup) (P : Policy) (ev : Event) (Q : α → Net → Prop) (p : Proc α) (w : Net) :
  Prop :=
  Safe (world S P ev) (Reached S P) Q (Explained S P) p w

theorem Reach.reached (hr : Reach S P ⟨s, h, w⟩) : Reached S P w :=
  ⟨s, h, hr⟩

theorem Reach.explained {c : Config} {f : Fault} (hr : Reach S P c) (hf : Fails P c f) :
    Explained S P f c.net :=
  ⟨hr.reached, c, hr, hf⟩

theorem Reach.stable : (world S P ev).Stable fun w => Reach S P ⟨s, h, w⟩ :=
  fun hr ⟨_, ha, hs⟩ => hr.move <| .act ha hs

theorem Reached.stable : (world S P ev).Stable (Reached S P) :=
  fun ⟨s, h, hr⟩ m => ⟨s, h, Reach.stable hr m⟩

theorem Explained.stable {f : Fault} : (world S P ev).Stable (Explained S P f) :=
  fun ⟨hr, hf⟩ m => ⟨hr.stable m, hf⟩

section Calls

variable {about dest : Nat} {msg : Message} {cmd : String} {queue : List Entry}

theorem keeps_send {k : Bool → Proc α} (hr : Reach S P ⟨s, h, w⟩)
    (ho : ∀ {w}, Reach S P ⟨s, h, w⟩ → P.send ev w dest msg → (w.conns dest).task.Open →
      Keeps S P ev Q (k true) (w.put about dest msg))
    (hc : ∀ {w}, Reach S P ⟨s, h, w⟩ → P.send ev w dest msg → ¬(w.conns dest).task.Open →
      Keeps S P ev Q (k false) w) :
    Keeps S P ev Q (send about dest msg >>= k) w :=
  .of_call Reach.stable hr (fun _ hr => hr.reached) fun {w₁ a w₂} hr ⟨hp, ha⟩ => by
    unfold Net.send at ha
    split at ha <;> [cases ha; skip]
    split at ha <;> cases ha
    case isFalse.isTrue.refl h _  => exact ho hr hp h
    case isFalse.isFalse.refl h _ => exact hc hr hp h

theorem keeps_sendOrErr {Q : Unit → Net → Prop} (hr : Reach S P ⟨s, h, w⟩)
    (ho : ∀ {w}, Reach S P ⟨s, h, w⟩ → P.send ev w dest msg → (w.conns dest).task.Open →
      Q () (w.put about dest msg))
    (hc : ∀ {w}, Reach S P ⟨s, h, w⟩ → P.send ev w dest msg → ¬(w.conns dest).task.Open →
      Explained S P (.error "channel closed") w) :
    Keeps S P ev Q (sendOrErr about dest msg) w :=
  keeps_send hr ho hc

theorem keeps_now {k : SystemTime → Proc α} (hr : Reach S P ⟨s, h, w⟩)
    (hk : ∀ {t w}, Reach S P ⟨s, h, w⟩ → Keeps S P ev Q (k t) w) : Keeps S P ev Q (now >>= k) w :=
  .of_call Reach.stable hr (fun _ hr => hr.reached) fun hr ha => ha ▸ hk hr

theorem keeps_spawn {k : Bool → Proc α} (hr : Reach S P ⟨s, h, w⟩)
    (hk : ∀ {ok w}, Reach S P ⟨s, h, w⟩ → Keeps S P ev Q (k ok) w) :
    Keeps S P ev Q (spawn cmd >>= k) w :=
  .of_call Reach.stable hr (fun _ hr => hr.reached) fun hr ha => ha ▸ hk hr

theorem keeps_pick {k : Nat → Proc α} (hr : Reach S P ⟨s, h, w⟩)
    (hk : ∀ {j w}, Reach S P ⟨s, h, w⟩ → Picks queue j → Keeps S P ev Q (k j) w) :
    Keeps S P ev Q (pick queue >>= k) w :=
  .of_call Reach.stable hr (fun _ hr => hr.reached) fun hr ha => ha.right ▸ hk hr ha.left

end Calls

theorem keeps_checkedSub {m n : Nat} {p : Panic} {k : Nat → Proc α}
    (hf : m < n → Explained S P (.panic p) w) (hk : n ≤ m → Keeps S P ev Q (k (m - n)) w) :
    Keeps S P ev Q (checkedSub m n p >>= k) w := by
  unfold checkedSub; split
  case isTrue h  => exact hk h
  case isFalse h => exact hf <| Nat.not_le.mp h

namespace ServerState

theorem remote_keeps {i : Nat} {k : Remote → Proc α}
    (hf : s.remotes.length ≤ i → Explained S P (.panic .index) w)
    (hk : ∀ r, s.remotes[i]? = some r → Keeps S P ev Q (k r) w) :
    Keeps S P ev Q (s.remote i >>= k) w :=
  .of_get (fun h => hf <| List.getElem?_eq_none_iff.mp h) hk

theorem sendToPairedRemote_keeps {i : Nat} {msg : Message} {Q : ServerState → Net → Prop}
    (hm : msg.Result) (hr : Reach S P ⟨s, some (i, msg), w⟩)
    (hQ : ∀ {w s' w'}, Reach S P ⟨s, some (i, msg), w⟩ → Forwards P i msg s w s' w' → Q s' w') :
    Keeps S P (.inbound i msg) Q (s.sendToPairedRemote i msg) w := by
  refine remote_keeps (hr.explained <| .absent ·) fun r hi => ?_
  refine .of_get (fun hn => hr.explained <| .notPaired hm ?_) fun j hj => ?_
  · simp [partnerOf_eq hi, hn]
  have hp : s.partner i = some j.toNat := by simp [partnerOf_eq hi, hj]
  refine remote_keeps (hr.explained <| .absentPartner hp ·) fun o ho => ?_
  have hk := kindOf_eq ho
  split
  case isTrue hc =>
    refine keeps_send hr (fun hr ha ho => ?_) (fun hr ha ho => ?_)
    · exact hQ hr <| .sent hp (hk.trans hc) ho ha
    · exact hQ hr <| .lost hp (hk.trans hc) ho ha
  case isFalse hc =>
    exact hQ hr <| .skipped hp (hk.trans_ne hc)

theorem handleDropped_keeps {i : Nat} (hr : Reach S P ⟨s, some (i, .dropped), w⟩) :
    Keeps S P (.inbound i .dropped) (Settled S P) (s.handleDropped i) w := by
  refine remote_keeps (hr.explained <| .absent ·) fun r hi => ?_
  have hk := kindOf_eq hi
  split
  case isTrue hc =>
    have hf {w} (h : s.runningExecCount < 1) (hr : Reach S P ⟨s, some (i, .dropped), w⟩) :=
      hr.explained <| .dropUnderflow (hk.trans hc) (Nat.lt_one_iff.mp h)
    refine .bind ?_
    cases hp : r.pairedId
    case none =>
      have hn : s.partner i = none := by simp [partnerOf_eq hi, hp]
      exact keeps_checkedSub (hf · hr) fun _ => hr.move <| .dropIdle (hk.trans hc) hn
    case some j =>
      have hj : s.partner i = some j.toNat := by simp [partnerOf_eq hi, hp]
      refine remote_keeps (hr.explained <| .absentPartner hj ·) fun _ _ => ?_
      refine keeps_sendOrErr hr (fun hr ha ho => ?_) (fun hr ha ho => ?_)
      · have hm := hr.move <| .dropBusy (hk.trans hc) hj ho ha
        exact keeps_checkedSub (fun h => ⟨hm.reached, (hf h hr).right⟩) fun _ => hm
      · exact hr.explained <| .notice (hk.trans hc) hj ho ha
  case isFalse hc =>
    have hi := List.getElem?_eq_some_iff.mp hi |>.choose
    exact hr.move <| .drop hi (hk.trans_ne hc)

theorem assignTask_keeps {i e k : Nat} {details : TaskDetails} {prior : Duration} {rest : List Nat}
    (hr : Reach S P ⟨s, none, w⟩) (hp : Picks s.taskQueue k)
    (ht : s.taskQueue[k]? = some ((i, details), prior)) (he : s.execQueue = e :: rest) :
    Keeps S P ev (fun s' w => s' = (s.pop k rest).pair i e ∧ Settled S P s' w)
      ((s.pop k rest).assignTask i e details) w := by
  have hm := List.mem_of_getElem? ht
  unfold assignTask
  split
  case isTrue h => exact hr.explained <| .sameId hm (h ▸ he)
  case isFalse hn =>
    refine remote_keeps (hr.explained <| .absentClient hm ·) fun r hi => ?_
    split
    case isTrue h => exact hr.explained <| .clientPaired hm (isSome_pairedId_iff hi |>.mp h)
    case isFalse hri =>
      refine remote_keeps (fun h => hr.explained <| .absentExec he (by simpa using h)) fun r' hj =>
        ?_
      rw [getElem?_setPairedId hn] at hj
      split
      case isTrue h => exact hr.explained <| .execPaired he (isSome_pairedId_iff hj |>.mp h)
      case isFalse hrj =>
        refine .bind <| keeps_sendOrErr hr (fun hr ha ho => ?_) (fun hr ha ho => ?_)
        · exact ⟨rfl, hr.move <| .assign hp ht he hn
            (List.getElem?_eq_some_iff.mp hi).choose (List.getElem?_eq_some_iff.mp hj).choose
            (not_not.mp <| mt (isSome_pairedId_iff hi).mpr hri)
            (not_not.mp <| mt (isSome_pairedId_iff hj).mpr hrj) ho ha⟩
        · exact hr.explained <| .assign hm he ho ha

theorem assignTasks_keeps {queue : List Nat} (he : s.execQueue = queue)
    (hr : Reach S P ⟨s, none, w⟩) :
    Keeps S P ev (fun s w => Settled S P s w ∧ (s.taskQueue = [] ∨ s.execQueue = []))
      (assignTasks queue s) w := by
  induction queue generalizing s w with
  | nil => exact ⟨hr, .inr he⟩
  | cons e rest hi =>
    rw [assignTasks_cons]
    split
    case isTrue h => exact ⟨hr, .inl <| List.isEmpty_iff.mp h⟩
    case isFalse =>
      refine keeps_pick hr fun {k _} hr hp => ?_
      refine .of_get (fun h => ?_) fun ⟨⟨i, details⟩, prior⟩ ht => ?_
      · simp [Picks, h] at hp
      refine .bind <| assignTask_keeps hr hp ht he |>.mono fun s' _ ⟨hs, hr⟩ => ?_
      exact hi (by simp [hs, pair, pop]) hr

theorem releaseExecs_keeps {queue : List Nat} (he : s.execQueue = queue)
    (ht : s.taskQueue = [] ∨ queue = []) (hr : Reach S P ⟨s, none, w⟩) :
    Keeps S P ev (Settled S P) (releaseExecs queue s) w := by
  induction queue generalizing s w with
  | nil => exact hr
  | cons e rest hi =>
    have ht := ht.resolve_right (List.cons_ne_nil _ _)
    refine remote_keeps (hr.explained <| .absentExec he ·) fun r hj => ?_
    refine .bind <| keeps_sendOrErr hr (fun hr ha ho => ?_) (fun hr ha ho => ?_)
    case refine_2 => exact hr.explained <| .release ht he ho ha
    case refine_1 =>
      have hm := hr.move <| .release ht he (List.getElem?_eq_some_iff.mp hj).choose ho ha
      refine keeps_checkedSub (fun h => ⟨hm.reached, _, hr, ?_⟩) fun _ => hi rfl (.inl ht) hm
      exact .releaseUnderflow ht he ho ha (Nat.lt_one_iff.mp h)

theorem checkQueues_keeps (hr : Reach S P ⟨s, none, w⟩) :
    Keeps S P ev (Settled S P) s.checkQueues w := by
  refine .bind <| assignTasks_keeps rfl hr |>.mono fun s w ⟨hr, ht⟩ => ?_
  unfold okToRelease
  cases s.lastSubmitTime
  case none => exact hr
  case some =>
    refine keeps_now hr fun {t w} hr => ?_
    simp only [pure_eq]
    split
    case isTrue  => exact releaseExecs_keeps rfl ht hr
    case isFalse => exact hr

theorem spawnExecs_keeps {altQueue : Bool} {cmd : String} {keepPending fuel : Nat}
    {second : Option String} (hs : s.secondStartCmd = second) (hr : Reach S P ⟨s, none, w⟩) :
    Keeps S P ev (fun s w => Settled S P s w ∧ s.secondStartCmd = second)
      (spawnExecs altQueue cmd keepPending fuel s) w := by
  induction fuel generalizing s w <;> unfold spawnExecs <;> split
  case zero.isTrue       => exact hr.explained .spinning
  case zero.isFalse      => exact ⟨hr, hs⟩
  case succ.isFalse      => exact ⟨hr, hs⟩
  case succ.isTrue hi hn =>
    refine keeps_spawn hr fun {ok w} hr => ?_
    cases ok
    case false => exact hi hs hr
    case true  =>
      refine hi ?_ <| hr.move <| .spawn hn
      rw [execSpawned_eq]
      exact hs

theorem startExecs_keeps {fuel : Nat} (hr : Reach S P ⟨s, none, w⟩) :
    Keeps S P ev (Settled S P) (startExecs fuel s) w := by
  unfold startExecs
  split
  case isTrue => exact hr
  dsimp only
  split
  case isFalse.isFalse =>
    exact spawnExecs_keeps rfl hr |>.mono fun _ _ h => h.left
  case isFalse.isTrue hs =>
    refine .bind <| spawnExecs_keeps rfl hr |>.mono fun s' w ⟨hr, hs'⟩ => ?_
    refine .of_get (fun hn => ?_) fun _ _ => spawnExecs_keeps rfl hr |>.mono fun _ _ h => h.left
    simp [hs' ▸ hn] at hs

theorem update_keeps {fuel : Nat} (hr : Reach S P ⟨s, none, w⟩) :
    Keeps S P ev (Settled S P) (update fuel s) w :=
  .bind <| startExecs_keeps hr |>.mono fun _ _ => checkQueues_keeps

theorem remoteIsExec_keeps {i fuel : Nat} {accessCode userCode : UInt64}
    (hr : Reach S P ⟨s, some (i, .yourObedientServant accessCode userCode), w⟩) :
    Keeps S P ev (Settled S P) (remoteIsExec fuel s i (accessCode &&& 1 ≠ 0)) w := by
  refine remote_keeps (hr.explained <| .absent ·) fun r hi => ?_
  have hi := List.getElem?_eq_some_iff.mp hi |>.choose
  refine remote_keeps (fun h => ?_) fun _ _ => update_keeps <| hr.move <| .register hi
  simp at h; omega

theorem remoteIsClient_keeps {i fuel : Nat} {accessCode userCode : UInt64} {details : TaskDetails}
    (hr : Reach S P ⟨s, some (i, .task accessCode userCode details), w⟩) :
    Keeps S P ev (Settled S P)
      (remoteIsClient fuel { s with submitCount := s.submitCount + 1 } i details) w := by
  refine .of_get (hr.explained <| .badTarget ·) fun id hid => ?_
  refine remote_keeps (hr.explained <| .absent ·) fun r hi => ?_
  have hi := List.getElem?_eq_some_iff.mp hi |>.choose
  exact keeps_now hr fun hr => update_keeps <| hr.move <| .submit _ hi hid

theorem execIsReady_keeps {i fuel : Nat} {msg : Message} (hm : msg.Terminal)
    (hr : Reach S P ⟨s, some (i, msg), w⟩) (hf : Forwards P i msg s w s' w') :
    Keeps S P ev (Settled S P) (execIsReady fuel s'.countFinished i) w' := by
  have hm := hr.move <| .complete hm hf
  refine remote_keeps (fun h => ?_) fun _ _ => update_keeps hm
  exact absurd (hf.length_eq ▸ hf.lt_length) <| not_lt.mpr h

theorem reportStatus_keeps {n : Nat} (hr : Reach S P ⟨s, none, w⟩) :
    Keeps S P ev (fun _ => Settled S P s) (reportStatus s n) w := by
  refine keeps_checkedSub (fun h => hr.explained <| .status <| by omega) fun h => ?_
  refine keeps_checkedSub (fun h => hr.explained <| .status <| by omega) fun _ => ?_
  split <;> exact hr

end ServerState

open ServerState

-- The move which only changes what is written down.
theorem Reach.record (hr : Reach S P ⟨s, h, w⟩) (now : SystemTime) (inTheMaking : History)
    (total period : Nat) (run send peak : Duration) :
    Reach S P ⟨{ s with
      lastActivityTime := now
      inTheMaking
      totalBytes       := total
      bytesThisPeriod  := period
      totalRunTime     := run
      totalSendTime    := send
      peakSendTime     := peak }, h, w⟩ :=
  hr.move <| .record ..

theorem taskIsDone_keeps {i fuel : Nat} {msg : Message} {runTime sendTime : Duration}
    (hm : msg.Terminal) (hr : Reach S P ⟨s, some (i, msg), w⟩) :
    Keeps S P (.inbound i msg) (Settled S P) (taskIsDone fuel s i msg runTime sendTime) w := by
  apply Safe.bind
  apply sendToPairedRemote_keeps hm.result hr
  intro _ _ _ hr hf
  exact .bind <| execIsReady_keeps hm hr hf |>.mono fun s _ hr => hr.record ..

theorem handleMsg_keeps {i fuel : Nat} {msg : Message} (hr : Reach S P ⟨s, some (i, msg), w⟩) :
    Keeps S P (.inbound i msg) (Settled S P) (handleMsg fuel s i msg) w := by
  cases msg
  case yourObedientServant => exact remoteIsExec_keeps hr
  case task => exact remoteIsClient_keeps hr
  case taskOutput outputType content =>
    have hr := hr.record s.lastActivityTime s.inTheMaking (s.totalBytes + content.length)
      (s.bytesThisPeriod + content.length) s.totalRunTime s.totalSendTime s.peakSendTime
    exact sendToPairedRemote_keeps trivial hr fun hr hf => hr.move <| .output trivial id hf
  case taskFailed errorMessage =>
    have ht : (Message.taskFailed errorMessage).Terminal := trivial
    exact .bind <| sendToPairedRemote_keeps ht.result hr fun hr hf => execIsReady_keeps ht hr hf
  case taskDone   =>
    rw [handleMsg_taskDone]
    split
    case isTrue  => exact keeps_now hr fun hr => taskIsDone_keeps trivial <| hr.record ..
    case isFalse => exact taskIsDone_keeps trivial hr
  case cancelTask => exact hr.explained .cancelTask
  case pissOff    => exact hr.explained .pissOff
  case dropped    => exact handleDropped_keeps hr

def Event.hand : Event → Option (Nat × Message)
  | .inbound connId msg => some (connId, msg)
  | .watchdog           => none

theorem onEvent_keeps {fuel : Nat} (hr : Reach S P ⟨s, ev.hand, w⟩) :
    Keeps S P ev (Settled S P) (onEvent fuel s ev) w := by
  cases ev
  case inbound =>
    refine .bind <| handleMsg_keeps hr |>.mono fun s w hr => ?_
    exact keeps_now hr fun hr => hr.record ..
  case watchdog =>
    refine .bind <| update_keeps hr |>.mono fun s w hr => ?_
    exact .bind <| reportStatus_keeps hr |>.mono fun _ _ hr => hr.record ..

-- What is known of a cluster between two steps.
def Cluster.Sound (S : Setup) (P : Policy) (σ : Cluster) : Prop :=
  match σ.main with
  | .select s | .checking s | .shutdown s => Settled S P s σ.net
  | .running ev _ _ p                     => Keeps S P ev (Settled S P) p σ.net
  | .faulted f                            => Explained S P f σ.net

theorem Cluster.Sound.step {σ σ' : Cluster} {l : Label} (h : σ.Sound S P) (ha : P.allows σ l)
    (hs : σ.step S l = some σ') : σ'.Sound S P := by
  cases turn_of_step hs
  case accept hf => exact h.move <| .accept hf ha
  case recv hi   =>
    simp only [Policy.allows, hi] at ha
    exact onEvent_keeps <| h.move <| .recv hi ha
  case tick      => exact onEvent_keeps h
  case wait      => exact h
  case done      => exact h
  case fail      => exact h
  case answer c _ _ hw =>
    cases c
    case send => exact h.answered ⟨ha, hw⟩
    all_goals exact h.answered hw
  case check     => split <;> exact h
  case act w' m w a hw =>
    have hm : (world S P .watchdog).moves w w' := ⟨a, ha, hw⟩
    cases m
    case running => exact h.moved (fun _ => Reach.stable) (fun _ => Explained.stable) hm
    case faulted => exact Explained.stable h hm
    all_goals exact Reach.stable h hm

theorem Cluster.Reaches.sound {σ : Cluster} (h : Reaches S P σ) : σ.Sound S P := by
  induction h with
  | start           => exact Reach.start
  | step _ ha hs hi => exact hi.step ha hs

namespace Cluster.Reaches

variable {σ : Cluster}

theorem settled (h : Reaches S P σ) (hm : σ.main.resting = some s) :
    Reach S P ⟨s, none, σ.net⟩ := by
  have hs := h.sound
  unfold Sound at hs
  split at hs <;> simp_all [Main.resting, Settled]

theorem explained {f : Fault} (h : Reaches S P σ) (hm : σ.main = .faulted f) :
    ∃ c, Reach S P c ∧ Fails P c f := by
  have hs := h.sound
  simp only [Sound, hm] at hs
  exact hs.right

-- The net is one that the moves lead to at all times.
theorem reached (h : Reaches S P σ) : Reached S P σ.net := by
  have hs := h.sound
  unfold Sound at hs
  split at hs
  case h_4 p _ =>
    cases p with
    | done s => exact hs.reached
    | fail   => exact hs.left
    | call   => exact hs.waiting
  case h_5 => exact hs.left
  all_goals exact hs.reached

end Cluster.Reaches
end SprayCC
