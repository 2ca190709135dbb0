import SprayCC.Async.Runs
import SprayCC.Cluster.Jams
import SprayCC.Cluster.Turns
import SprayCC.Server.Remotes

open Async

-- The channels between the main loop and the connection tasks are bounded, and each side may wait
-- for the other one.

namespace SprayCC

namespace Main

-- The main loop has a message for remote `r`.
def Sends (r : Nat) : Main → Prop
  | running _ _ _ (.call (.send _ dest _) _) => dest = r
  | _                                        => False

-- The main loop waits for room on the channel of remote `r`.
def WaitsFor (r : Nat) : Main → Prop
  | running _ _ true (.call (.send _ dest _) _) => dest = r
  | _                                           => False

instance {r : Nat} : DecidablePred (WaitsFor r) := fun m => by
  unfold WaitsFor; split <;> infer_instance

theorem WaitsFor.exists_call {m : Main} {r : Nat} (h : m.WaitsFor r) :
    ∃ ev s about msg k, m = .running ev s true (.call (.send about r msg) k) := by
  unfold WaitsFor at h
  split at h
  case h_1 => exact h ▸ ⟨_, _, _, _, _, rfl⟩
  case h_2 => exact h.elim

end Main

namespace Cluster

variable {S : Setup} {σ σ' : Cluster} {l : Label} {ls : List Label} {r : Nat}

-- The main loop waits for a remote whose connection task waits for the main loop, and both do so
-- for ever.
structure Deadlocked (S : Setup) (σ : Cluster) (r : Nat) : Prop where
  lt_size : r < σ.net.size
  main    : σ.main.WaitsFor r
  task    : (σ.net.conns r).task.Waits
  forever : ∀ ls σ', σ.run S .any ls = some σ' →
    σ'.main = σ.main ∧ (σ'.net.conns r).task = (σ.net.conns r).task

-- The steps which lead to a deadlock.
def Fatal (S : Setup) (σ : Cluster) : Label → Prop
  | .wait  => ∃ r < σ.net.size, σ.main.Sends r ∧ (σ.net.conns r).task.Waits ∧ ¬σ.net.Room S
  | .act a => ∃ r < σ.net.size, σ.main.WaitsFor r ∧ σ.net.Full S r ∧ σ.net.Traps S r a
  | _      => False

-- The main loop and remote `r` wait for room on the channels between them, which are full.
def Stuck (S : Setup) (σ : Cluster) (r : Nat) : Prop :=
  r < σ.net.size ∧ σ.main.WaitsFor r ∧ σ.net.Jam S r

namespace Stuck

theorem step (h : Stuck S σ r) (hs : σ.step S l = some σ') :
    Stuck S σ' r ∧ σ'.main = σ.main ∧ (σ'.net.conns r).task = (σ.net.conns r).task := by
  have ⟨hr, hw, hj⟩ := h
  have ⟨_, _, _, _, _, hm⟩ := hw.exists_call
  cases turn_of_step hs
  case act ha    =>
    have ⟨_, _, hn⟩ := Net.step_moved ha
    have ⟨hj', ht⟩ := hj.step ha
    exact ⟨⟨hn.size ▸ hr, hw, hj'⟩, rfl, ht⟩
  case answer ha =>
    -- There is no room for the message.
    cases hm
    exact absurd hj.full <| Option.ite_none_left_eq_some.mp ha |>.left
  all_goals cases hm

theorem run (h : Stuck S σ r) (hr : σ.run S .any ls = some σ') :
    σ'.main = σ.main ∧ (σ'.net.conns r).task = (σ.net.conns r).task := by
  induction ls generalizing σ with
  | nil => cases hr; exact ⟨rfl, rfl⟩
  | cons l ls hi =>
    simp only [Cluster.run, Option.bind_eq_bind] at hr
    split at hr
    case isTrue ha  =>
      obtain ⟨σ₁, hs, hr⟩ := Option.bind_eq_some_iff.mp hr
      obtain ⟨h₁, hm, ht⟩ := h.step hs
      obtain ⟨hm', ht'⟩ := hi h₁ hr
      exact ⟨hm'.trans hm, ht'.trans ht⟩
    case isFalse => cases hr

end Stuck

theorem run_single (h : σ.step S l = some σ') : σ.run S .any [l] = some σ' := by
  simp [Cluster.run, allows_any, h]

-- Nothing but room could end the waiting.
theorem deadlocked_iff : Deadlocked S σ r ↔ Stuck S σ r := by
  constructor
  case mp  =>
    intro ⟨hr, hw, ht, hf⟩
    have ⟨ev, s, about, msg, k, hm⟩ := hw.exists_call
    refine ⟨hr, hw, ht, ?_, ?_⟩
    case refine_1 =>
      by_contra hn
      have ⟨⟨ok, w⟩, hs⟩ := Option.isSome_iff_exists.mp <| Net.send_isSome hn about msg
      have hs : σ.step S .send = some ⟨.running ev s false (k ok), w⟩ := by
        simp [Cluster.step, hm, hs]
      have h := (hf _ _ <| run_single hs).left
      simp [hm] at h
    case refine_2 =>
      intro hn
      obtain ⟨w, hs⟩ := Option.isSome_iff_exists.mp <| Net.pushes_isSome hr ht hn
      have hs' : σ.step S (.act (.pushes r)) = some ⟨σ.main, w⟩ := by
        simp [Cluster.step, hs]
      have h := (hf _ _ <| run_single hs').right
      simpa [Act.Hears, Act.Offers] using (Net.waits_iff hs).mp (h ▸ ht)
  case mpr => exact fun h => ⟨h.left, h.right.left, h.right.right.waits, fun _ _ => h.run⟩

theorem waitsFor_of_step (hs : σ.step S l = some σ') (h : σ'.main.WaitsFor r) :
    l = .wait ∧ σ.main.Sends r ∧ σ.net.Full S r ∧ σ'.net = σ.net ∨
      ∃ a w, l = .act a ∧ σ.net.step S a = some w ∧ σ' = ⟨σ.main, w⟩ := by
  cases turn_of_step hs
  case act ha => exact .inr ⟨_, _, rfl, ha, rfl⟩
  case wait   =>
    simp only [Cluster.step] at hs
    split at hs <;> [skip; cases hs]
    case h_1 hm =>
      cases hm
      have hf := (Option.ite_none_right_eq_some.mp hs).left
      obtain rfl : _ = r := h
      exact .inl ⟨rfl, rfl, hf, rfl⟩
  case check  => split at h <;> exact h.elim
  all_goals exact h.elim

theorem stuck_step_iff (hn : ∀ r, ¬Stuck S σ r) (hs : σ.step S l = some σ') :
    (∀ r, ¬Stuck S σ' r) ↔ ¬Fatal S σ l := by
  rw [← not_exists, not_iff_not]
  constructor
  case mp =>
    intro ⟨r, hr, hw, hj⟩
    rcases waitsFor_of_step hs hw with ⟨rfl, hm, _, hn⟩ | ⟨a, w, rfl, ha, rfl⟩
    case inl => exact ⟨r, hn ▸ hr, hm, hn ▸ hj.waits, hn ▸ hj.noRoom⟩
    case inr =>
      have ⟨_, _, hm⟩ := Net.step_moved ha
      have hr : r < σ.net.size := hm.size ▸ hr
      have ⟨hf, ht⟩ := (Net.jam_iff ha fun h => hn r ⟨hr, hw, h⟩).mp hj
      exact ⟨r, hr, hw, hf, ht⟩
  case mpr =>
    intro hf
    cases l <;> try exact hf.elim
    case wait =>
      obtain ⟨r, hr, hm, ht, hn⟩ := hf
      simp only [Cluster.step] at hs
      split at hs <;> [skip; cases hs]
      case h_1 hm' =>
        obtain ⟨hf, hs⟩ := Option.ite_none_right_eq_some.mp hs
        obtain rfl := Option.some.inj hs
        obtain rfl : _ = r := by simpa [Main.Sends, hm'] using hm
        exact ⟨_, hr, rfl, ht, hf, hn⟩
    case act a =>
      obtain ⟨r, hr, hw, hf, ht⟩ := hf
      obtain ⟨w, ha, rfl⟩ := Option.map_eq_some_iff.mp hs
      obtain ⟨_, _, hm⟩ := Net.step_moved ha
      exact ⟨r, hm.size ▸ hr, hw, (Net.jam_iff ha fun h => hn r ⟨hr, hw, h⟩).mpr ⟨hf, ht⟩⟩

theorem deadlockFree_iff :
    Throughout (Cluster.step S) (fun σ => ∀ r, ¬Deadlocked S σ r) ls (start S) ↔
      Along (Cluster.step S) (fun σ l => ¬Fatal S σ l) ls (start S) := by
  simp only [deadlocked_iff]
  exact throughout_iff_along stuck_step_iff fun _ h => h.right.left

end Cluster

-- Channels of any capacities.
def Setup.sized (n m : Nat) : Setup :=
  { plain with
    inboundCap   := n + 1
    outboundCap  := m + 1
    inbound_pos  := n.succ_pos
    outbound_pos := m.succ_pos }

-- An empty output of a task.
def Message.line : Message :=
  taskOutput .stdout []

theorem Message.line_result : line.Result :=
  trivial

-- Exec 0 runs the task of client 1, which has read none of the `k` lines on its channel.
structure Net.Streams (w : Net) (k : Nat) : Prop where
  size   : w.size = 2
  exec   : (w.conns 0).task = .select
  busy   : ∃ second job n, (w.conns 0).peer = .exec second (.busy job) n
  client : (w.conns 1).task = .select
  taken  : (w.conns 1).taken = 0
  sent   : (w.conns 1).sent.length = k

structure ServerState.Paired (s : ServerState) : Prop where
  exec   : s.remotes[0]? = some ⟨.exec, some 1⟩
  client : s.remotes[1]? = some ⟨.client, some 0⟩

namespace Net.Streams

variable {S : Setup} {w : Net} {k : Nat}

theorem speaks (h : w.Streams k) (hr : w.Room S) :
    ∃ w', w.step S (.speaks 0 .line) = some w' ∧ w'.Streams k ∧
      w'.inbound = w.inbound ++ [(0, .line)] := by
  have ⟨hs, he, ⟨second, job, n, hb⟩, hc, ht, hl⟩ := h
  have hc' : (w.conns 0).speaks S.codes .line =
      some { w.conns 0 with produced := (w.conns 0).produced ++ [(job, Message.line)] } := by
    simp [Conn.speaks, Peer.speaks, hb, Message.line, Message.Result, Message.Terminal]
  let c :=
    { w.conns 0 with task := .select, produced := (w.conns 0).produced ++ [(job, Message.line)] }
  refine ⟨{ w.set 0 c with inbound := w.inbound ++ [(0, .line)] }, ?_, ?_, rfl⟩
  case refine_1 =>
    simp [step, hs, he, hc', offer, hr, Codes.forwards_result Message.line_result, c]
  case refine_2 => constructor <;> simp_all [set, c]

theorem put (h : w.Streams k) : (w.put 0 1 .line).Streams (k + 1) := by
  have ⟨hs, he, hb, hc, ht, hl⟩ := h
  constructor <;> simp_all [Net.put, Net.set]

end Net.Streams

namespace Cluster

variable {n m : Nat} {s : ServerState}

theorem onEvent_line (h : s.Paired) :
    onEvent 0 s (.inbound 0 .line) =
      .call (.send 0 1 .line) fun ok => .call .now fun now =>
        .done <|
          (if ok then s.countBytes 0
            else (s.countBytes 0).setConnType 1 .dead).activityOccurred now := by
  simp [onEvent, handleMsg, Message.line, ServerState.sendToPairedRemote, ServerState.remote,
    ServerState.countBytes, h.exec, h.client, SprayCC.send]
  refine congrArg (Program.call _) <| funext fun ok => ?_
  cases ok <;> rfl

-- The server receives a line for the client.
theorem Reaches.line {w : Net} {k : Nat} (h : Reaches (.sized n m) .wellBehaved ⟨.select s, w⟩)
    (hs : s.Paired) (hw : w.Streams k) (hi : w.inbound = []) :
    ∃ w', Reaches (.sized n m) .wellBehaved
        ⟨.running (.inbound 0 .line) s false <| .call (.send 0 1 .line) fun ok =>
          .call .now fun now =>
            .done <|
              (if ok then s.countBytes 0
                else (s.countBytes 0).setConnType 1 .dead).activityOccurred now, w'⟩ ∧
      w'.Streams k ∧ w'.inbound = [] := by
  have ⟨w₁, h₁, hw₁, hi₁⟩ := hw.speaks (S := .sized n m) (by simp [Net.Room, hi, Setup.sized])
  rw [hi, List.nil_append] at hi₁
  have h := h.step (l := .act (.speaks 0 .line)) rfl (by simp only [Cluster.step, h₁]; rfl)
  have h := h.step (l := .recv 0) (by simp only [Policy.allows, hi₁]; rfl)
    (by simp only [Cluster.step, hi₁]; rfl)
  rw [onEvent_line hs] at h
  exact ⟨_, h, ⟨hw₁.size, hw₁.exec, hw₁.busy, hw₁.client, hw₁.taken, hw₁.sent⟩, rfl⟩

-- One more line for the client.
theorem Reaches.more {w : Net} {k : Nat} (h : Reaches (.sized n m) .wellBehaved ⟨.select s, w⟩)
    (hs : s.Paired) (hw : w.Streams k) (hi : w.inbound = []) (hk : k ≤ m) :
    ∃ s' w', Reaches (.sized n m) .wellBehaved ⟨.select s', w'⟩ ∧ s'.Paired ∧ w'.Streams (k + 1) ∧
      w'.inbound = [] := by
  have ⟨w₁, h, hw₁, hi₁⟩ := h.line hs hw hi
  have hf : ¬w₁.Full (.sized n m) 1 := by
    simpa [Net.Full, hw₁.client, hw₁.taken, hw₁.sent, Setup.sized, ConnTask.Open] using
      Nat.lt_succ_of_le hk
  have ho : (w₁.conns 1).task.Open := hw₁.client ▸ trivial
  have hp : w₁.send (.sized n m) 0 1 .line = some (true, w₁.put 0 1 .line) := by
    simp [Net.send, hf, ho]
  let s' := (s.countBytes 0).activityOccurred 0
  have hc : Cluster.step (.sized n m) ⟨.checking s', w₁.put 0 1 .line⟩ (.check 0) =
      some ⟨.select s', w₁.put 0 1 .line⟩ := by
    simp [Cluster.step, ServerState.okToShutdown, elapsed, Duration.asSecs, s',
      ServerState.activityOccurred]
  have h := h.step (l := .send) rfl (congrArg (Option.map _) hp)
  have h := h.step (l := .clock 0) rfl rfl |>.step (l := .finish) rfl rfl |>.step rfl hc
  exact ⟨s', w₁.put 0 1 .line, h, ⟨hs.exec, hs.client⟩, hw₁.put, hi₁⟩

theorem exists_paired :
    ∃ s w, Reaches (.sized n m) .wellBehaved ⟨.select s, w⟩ ∧ s.Paired ∧ w.Streams 0 ∧
      w.inbound = [] := by
  have h : ((start (.sized n m)).run (.sized n m) .wellBehaved (tour.take 20)).isSome := by
    with_unfolding_all rfl
  have hm : ∃ s, (Option.get _ h).main = .select s ∧ s.Paired :=
    ⟨_, by with_unfolding_all rfl, by with_unfolding_all rfl, by with_unfolding_all rfl⟩
  have hw : (Option.get _ h).net.Streams 0 := by
    constructor
    case busy => exact ⟨_, _, _, by with_unfolding_all rfl⟩
    all_goals with_unfolding_all rfl
  have hi : (Option.get _ h).net.inbound = [] := by with_unfolding_all rfl
  have hr := Reaches.start.run (Option.some_get h).symm
  have ⟨s, hm, hs⟩ := hm
  exact ⟨s, _, hm ▸ hr, hs, hw, hi⟩

theorem exists_streams {k : Nat} (hk : k ≤ m + 1) :
    ∃ s w, Reaches (.sized n m) .wellBehaved ⟨.select s, w⟩ ∧ s.Paired ∧ w.Streams k ∧
      w.inbound = [] := by
  induction k with
  | zero      => exact exists_paired
  | succ k hi =>
    have ⟨_, _, h, hs, hw, hi⟩ := hi <| Nat.le_of_succ_le hk
    exact h.more hs hw hi <| Nat.le_of_succ_le_succ hk

-- The exec fills the inbound channel while the main loop waits.
theorem Reaches.fill {main : Main} {w : Net} {k j : Nat}
    (h : Reaches (.sized n m) .wellBehaved ⟨main, w⟩) (hw : w.Streams k) (hi : w.inbound = [])
    (hj : j ≤ n + 1) :
    ∃ w', Reaches (.sized n m) .wellBehaved ⟨main, w'⟩ ∧ w'.Streams k ∧ w'.inbound.length = j := by
  induction j with
  | zero      => exact ⟨w, h, hw, by simp [hi]⟩
  | succ j ih =>
    have ⟨w₁, h, hw, hl⟩ := ih <| Nat.le_of_succ_le hj
    have ⟨w₂, hs, hw, hi⟩ :=
      hw.speaks (S := .sized n m) (by simp [Net.Room, hl, Setup.sized]; omega)
    exact ⟨w₂, h.step (l := .act (.speaks 0 .line)) rfl (by simp only [Cluster.step, hs]; rfl),
      hw, by simp [hi, hl]⟩

-- A client whose channel is full disconnects while the main loop waits for room on this very
-- channel.
theorem exists_stuck : ∃ σ, Reaches (.sized n m) .wellBehaved σ ∧ Stuck (.sized n m) σ 1 := by
  have ⟨s, w, h, hs, hw, hi⟩ := exists_streams (n := n) (m := m) le_rfl
  have ⟨w₁, h, hw₁, hi₁⟩ := h.line hs hw hi
  have hf : w₁.Full (.sized n m) 1 := by
    simp [Net.Full, hw₁.client, hw₁.taken, hw₁.sent, Setup.sized, ConnTask.Open]
  have h := h.step (l := .wait) rfl (if_pos hf)
  obtain ⟨w₂, h, hw₂, hl⟩ := h.fill hw₁ hi₁ le_rfl
  have hr : ¬w₂.Room (.sized n m) := by simp [Net.Room, hl, Setup.sized]
  let w₃ := w₂.set 1 { w₂.conns 1 with task := .ending }
  have he : w₂.step (.sized n m) (.ends 1) = some w₃ := by
    simp [Net.step, hw₂.size, hw₂.client, Net.offer, hr, w₃]
  have h := h.step (l := .act (.ends 1)) rfl (congrArg (Option.map _) he)
  refine ⟨_, h, ?_, rfl, ?_, ?_, hr⟩
  case refine_1 => exact hw₂.size ▸ Nat.one_lt_two
  case refine_2 => simp [w₃, Net.set, ConnTask.Waits]
  case refine_3 => simp [w₃, Net.Full, Net.set, ConnTask.Open, hw₂.taken, hw₂.sent, Setup.sized]

theorem client_jammed :
    ¬∀ S σ r, Reaches S .wellBehaved σ → ¬Deadlocked S σ r := by
  intro h
  have ⟨_, hr, hs⟩ := exists_stuck (n := 255) (m := 255)
  exact h _ _ _ hr <| deadlocked_iff.mpr hs

end Cluster
end SprayCC
