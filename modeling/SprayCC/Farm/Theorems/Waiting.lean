import SprayCC.Cluster.Theorems.Scheduling
import SprayCC.Cluster.Waiting
import SprayCC.Farm.Replies
import SprayCC.Process.Rest

open Async Program

-- What the clients wait for in a farm in which nothing moves any more.

namespace SprayCC

def Main.waiting : Main → Option ServerState
  | select s => some s
  | _        => none

theorem Main.waiting_iff {m : Main} {s : ServerState} : m.waiting = some s ↔ m = .select s := by
  cases m <;> simp [waiting]

-- The step is an error of the socket, which can come at any time.
def LinkAct.Breaks : LinkAct → Bool
  | hangs error | loses error => error
  | _                         => false

namespace Peer

variable {codes : Codes} {peer : Peer} {ms : List Message} {d : List Process.Event}
variable {details : TaskDetails} {second submitted : Bool} {n : Nat}

-- An exec which waits for a task has not heard of one since it has said something.
theorem eq_of_idle
    (h : (ms.map .heard).foldlM (Peer.converses codes) peer = some (.exec second .idle n)) :
    peer = .exec second .idle n := by
  induction ms generalizing peer with
  | nil            => exact Option.some.inj h
  | cons msg ms hi =>
    have ⟨_, hp, h⟩ := Option.bind_eq_some_iff.mp h
    obtain rfl := hi h
    cases hears_of_some hp

-- An exec which is at work has heard of its task, and of nothing since.
theorem eq_of_busy
    (h : (ms.map .heard).foldlM (Peer.converses codes) peer =
      some (.exec second (.busy n) (n + 1))) :
    peer = .exec second (.busy n) (n + 1) ∨ peer = .exec second .idle n := by
  induction ms generalizing peer with
  | nil            => exact .inl <| Option.some.inj h
  | cons msg ms hi =>
    have ⟨_, hp, h⟩ := Option.bind_eq_some_iff.mp h
    rcases hi h with rfl | rfl <;> cases hears_of_some hp
    exact .inr rfl

-- A client which has said something has submitted its task.
theorem eq_of_client
    (h : d.foldlM (Peer.converses codes) (.client details submitted) = some peer) :
    peer = .client details (submitted || !(Process.said d).isEmpty) := by
  induction d generalizing submitted with
  | nil          => rw [← Option.some.inj h]; simp
  | cons ev d hi =>
    have ⟨_, hp, h⟩ := Option.bind_eq_some_iff.mp h
    cases ev
    case heard msg =>
      cases show Hears msg (.client details submitted) _ from hears_of_some hp
      exact hi h
    case said msg  =>
      cases show Speaks codes msg (.client details submitted) _ from speaks_of_some hp
      exact hi h

end Peer

theorem Client.Continues.of_terminal {msg : Message} (h : Client.Continues msg)
    (ht : msg.Terminal) :
    ∃ targetId runTime sendTime, msg = .taskDone none targetId runTime sendTime := by
  cases msg
  case taskDone code _ _ _ =>
    cases code
    case none => exact ⟨_, _, _, rfl⟩
    case some => exact h.elim
  case taskFailed => exact h.elim
  all_goals exact ht.elim

theorem Client.not_stuck {codes : Codes} {caller : Caller} {details : TaskDetails} {fuel : Nat}
    {tr : Trace Process.signature} {p : Process.Proc Int32}
    (h : (caller.process codes).After tr p) (hc : caller = .client details fuel) :
    p ≠ .fail .stuck := by
  rintro rfl
  subst hc
  exact (session_online.after h).right rfl

namespace Link

-- A program of the link has come to the end of its turns.
def Spent (l : Link) : Bool :=
  (match l.task with
    | .fail .waiting => true
    | _              => false) ||
  (match l.process with
    | .fail .waiting => true
    | _              => false)

-- The process and the connection task wait for each other, or for the server, or they have ended.
structure AtRest (l : Link) : Prop where
  still : ∀ a : LinkAct, a.Breaks = false → l.step a = none
  fresh : l.Spent = false

instance : DecidablePred AtRest := fun _ =>
  decidable_of_iff (_ ∧ _) ⟨fun h => ⟨h.left, h.right⟩, fun h => ⟨h.still, h.fresh⟩⟩

variable {codes : Codes} {i : Nat} {l : Link} {c : Conn} {held : List Message}
variable {flying : List (Nat × Message)} {past coming : List Process.Event}

theorem AtRest.connected (hr : l.AtRest) (h : Matches codes i l c held flying past coming)
    (ho : l.opened = true) :
    c.task = .select ∧ held = [] ∧ flying = [] ∧ l.up = [] ∧ l.channel = [] ∧ l.Closed = false := by
  have hs := h.stands
  rw [ho] at hs
  generalize ht : l.task = p, hc : c.task = t at hs
  cases hs
  case select fuel =>
    cases fuel
    case zero =>
      have hn := hr.fresh
      simp [Spent, ht, Connection.handleConnection] at hn
    case succ fuel =>
      rw [Connection.handleConnection_succ] at ht
      have hu : l.up = [] := by
        have hn := hr.still .arrives rfl
        cases hu : l.up <;> simp_all [Link.step]
      have hd : l.channel = [] := by
        have hn := hr.still .departs rfl
        cases hd : l.channel <;> simp_all [Link.step]
      have hn := hr.still (.hangs false) rfl
      simp [Link.step, ht, hu] at hn
      exact ⟨rfl, rfl, rfl, hu, hd, hn⟩
  case forwards | ending =>
    have hn := hr.still .pushes rfl
    rw [Link.step, ht] at hn
    cases hn
  case writes            =>
    have hn := hr.still (.writes true) rfl
    rw [Link.step, ht] at hn
    cases hn
  case broken | noticed  =>
    have hn := hr.still .returns rfl
    rw [Link.step, ht] at hn
    simp [ho] at hn

-- A process which is not at its end waits for a message, or for the process of a task.
theorem AtRest.reads (hr : l.AtRest) (hp : (l.caller.process codes).After l.trace l.process)
    (hc : l.Closed = false) (hn : l.process ≠ .fail .stuck) :
    (∃ k, l.process = .call .read k) ∧ l.down = [] ∧ l.opened = true := by
  have ho := (Caller.process_online.after hp).right
  cases hq : l.process
  case done   => simp [Closed, hq] at hc
  case fail e =>
    have hf := hr.fresh
    cases e <;> simp_all [Closed, Spent]
  case call c k =>
    rw [hq] at ho
    cases c
    case write =>
      have hn := hr.still (.tells true) rfl
      simp [Link.step, hq] at hn
    case read =>
      have hd : l.down = [] := by
        have hn := hr.still .hears rfl
        cases hd : l.down <;> simp_all [Link.step]
      have hn := hr.still (.loses false) rfl
      simp [Link.step, hq, hd] at hn
      exact ⟨⟨k, rfl⟩, hd, hn⟩
    case flush | shutdown | file =>
      have hn := hr.still (.does true) rfl
      simp [Link.step, hq] at hn
    all_goals exact ho.left.elim

-- Everything that was put on the channel has been heard, and everything that was said is known.
theorem AtRest.settled (hr : l.AtRest) (h : Matches codes i l c held flying past coming)
    (ho : l.opened = true) (hn : l.process ≠ .fail .stuck) :
    ∃ k, ∃ ms : List Message, l.process = .call .read k ∧
      Process.dialogue l.trace = past ++ ms.map .heard ∧
        Process.heard (Process.dialogue l.trace) = c.sent.map Prod.snd ∧ c.task = .select := by
  obtain ⟨ht, rfl, rfl, hu, hd, hc⟩ := hr.connected h ho
  have ⟨⟨k, hp⟩, hn, _⟩ := hr.reads h.runs hc hn
  have hs := h.said
  rw [hu] at hs
  refine ⟨k, Process.heard coming, hp, ?_, ?_, ht⟩
  case refine_1 => rw [← Process.eq_map_heard hs, h.dialogue]
  case refine_2 =>
    have hl : c.sent.length ≤ c.taken := by
      have hl := h.channel
      rw [hd] at hl
      exact List.drop_eq_nil_iff.mp hl
    have hw := h.written
    rw [hn, List.append_nil, Conn.written, if_neg (by simp [ht])] at hw
    rw [hw, List.take_of_length_le hl]

-- An exec waits for a task, and the server knows.
theorem AtRest.ahead (hr : l.AtRest) (h : Matches codes i l c held flying past coming)
    (ho : l.opened = true) (hn : l.process ≠ .fail .stuck) {second : Bool} {turns : List Exec.Turn}
    (hc : l.caller = .exec second turns) : c.ahead = .idle := by
  have ⟨k, ms, hp, hd, hs, ht⟩ := hr.settled h ho hn
  have ha := h.runs
  rw [hc, hp] at ha
  rcases ha.call_of_bind with ⟨_, hx⟩ | ⟨_, _, _, _, _, h₂⟩
  case inr => cases (After.done_iff.mp h₂).right
  have ⟨n, hf⟩ := Exec.session_idle hx
  have hx : (Process.dialogue l.trace).foldlM (Peer.converses codes) l.caller.peer =
      some (.exec second .idle n) := hc ▸ hf
  have hn : (Process.heard (Process.dialogue l.trace)).length = n :=
    (Nat.zero_add _).symm.trans (Peer.At.fold Caller.fresh_at hx).left.symm
  rw [hd, List.foldlM_append, h.peer] at hx
  have hx : c.peer = .exec second .idle n := Peer.eq_of_idle hx
  have hl : c.sent.length = n := by rw [← hn, hs, List.length_map]
  simp [Conn.ahead, ht, ConnTask.HungUp, hx, ← hl]

-- An exec which is stuck is in the turn on the last message which it was sent.
theorem AtRest.hangs (hr : l.AtRest) (h : Matches codes i l c held flying past coming)
    (ho : l.opened = true) (hn : l.process = .fail .stuck) (hord : c.Orderly) {second : Bool}
    {turns : List Exec.Turn} (hc : l.caller = .exec second turns) :
    ∃ (n : Nat) (turn : Exec.Turn) (accessCode userCode : UInt64) (details : TaskDetails),
      turns[n]? = some turn ∧ turn.Hangs details ∧
        (Process.heard (Process.dialogue l.trace))[n]? =
          some (.task accessCode userCode details) ∧ c.sent.length = n + 1 := by
  obtain ⟨ht, rfl, rfl, hu, _, _⟩ := hr.connected h ho
  have hrun := h.runs
  rw [hc, hn] at hrun
  rcases Runs.bind_iff.mp (After.runs_error_iff.mpr hrun) with ⟨e, hs, he⟩ | ⟨_, _, _, _, _, hd⟩
  case inr => cases (Runs.done_iff.mp hd).right
  cases he
  have ⟨n, turn, a, u, details, htu, hh, hm, hf⟩ := Exec.session_stuck hs
  refine ⟨n, turn, a, u, details, htu, hh, hm, ?_⟩
  have hp : c.peer = .exec second (.busy n) (n + 1) ∨ c.peer = .exec second .idle n := by
    have hs := h.said
    rw [hu] at hs
    have hx : (Process.dialogue l.trace).foldlM (Peer.converses codes) l.caller.peer =
        some (.exec second (.busy n) (n + 1)) := hc ▸ hf
    rw [h.dialogue, List.foldlM_append, h.peer, Process.eq_map_heard hs] at hx
    exact Peer.eq_of_busy hx
  have ⟨_, hsent⟩ := Matched.sent_of_heard ⟨_, _, _, _, h⟩ hm
  have hl := (List.getElem?_eq_some_iff.mp hsent).choose
  have hord := hord (by simp [ht, ConnTask.HungUp])
  rcases hp with hp | hp <;> rw [hp] at hord
  case inl => exact hord.right.symm
  case inr => exact hord.elim (fun he => absurd he hl.ne) Eq.symm

-- A client was told nothing that ends it.
theorem AtRest.continues (hr : l.AtRest) (h : Matches codes i l c held flying past coming)
    (ho : l.opened = true) {details : TaskDetails} {fuel : Nat}
    (hc : l.caller = .client details fuel) :
    c.peer = .client details true ∧ ∀ m ∈ c.sent, Client.Continues m.snd := by
  have ⟨k, ms, hp, hd, hs, ht⟩ := hr.settled h ho <| Client.not_stuck h.runs hc
  have ha := h.runs
  rw [hc, hp] at ha
  have ⟨ms', hd', hm⟩ := Client.session_idle ha
  refine ⟨?_, fun m hms => hm m.snd ?_⟩
  case refine_1 =>
    have hn : Process.said past = [codes.submission details] := by
      have hn := congrArg Process.said <| hd.symm.trans hd'
      simpa [Codes.submission] using hn
    have hx := h.peer
    rw [hc] at hx
    rw [Peer.eq_of_client hx, hn]
    rfl
  case refine_2 =>
    have hh : Process.heard (Process.dialogue l.trace) = ms' := by
      rw [hd', Process.heard_said, Process.heard_map_heard]
    rw [← hh, hs]
    exact List.mem_map_of_mem hms

end Link

namespace Farm

-- There is nothing to do but for the timer of the main loop.
structure AtRest (F : Farm) : Prop where
  inbound : F.inbound = []
  links   : ∀ i < F.size, (F.links i).AtRest

instance : DecidablePred AtRest := fun _ =>
  decidable_of_iff (_ ∧ _) ⟨fun h => ⟨h.left, h.right⟩, fun h => ⟨h.inbound, h.links⟩⟩

-- Exec `e` waits for the process of a task, which goes on for ever.
structure Stuck (F : Farm) (e n : Nat) (details : TaskDetails) (turn : Exec.Turn) : Prop where
  takes : F.Takes e n details turn
  hangs : turn.Hangs details
  stuck : (F.links e).process = .fail .stuck

-- The task is the one of client `i`.
def Hangs (F : Farm) (e i : Nat) (details : TaskDetails) : Prop :=
  ∃ n turn, F.Job e n i details ∧ F.Stuck e n details turn

-- What a client of a farm at rest waits for: an exec, if none is free, or the end of its task. This
-- does not come, or the client is not told: a signal has ended it, or its exec is gone.
inductive Waits (F : Farm) (s : ServerState) (i : Nat) (details : TaskDetails) : Prop
  | queued :
    s.Queued i details →
    (∀ e < F.size, (F.links e).caller.peer.role.Exec → (F.links e).opened = true →
      ∃ j details', F.Hangs e j details') →
    Waits F s i details
  | hung {e : Nat} : F.Hangs e i details → s.partner i = some e → Waits F s i details
  | signalled {targetId : String} {runTime sendTime : Duration} :
    .taskDone none targetId runTime sendTime ∈ Process.heard (Process.dialogue (F.links i).trace) →
    Waits F s i details
  | bereft {e : Nat} :
    e < F.size → (F.links e).caller.peer.role.Exec → s.partner i = some e →
    (F.links e).opened = false → Waits F s i details

variable {S : Setup} {F : Farm} {w : Net} {s : ServerState} {view : Nat → Phase} {i e : Nat}
variable {details : TaskDetails} {fuel : Nat}

namespace AtRest

theorem flight (hr : F.AtRest) (hw : F.Shows S w) (ht : (w.conns i).task = .select) :
    w.flight i = [] := by
  simp [Net.flight, hw.inbound, hr.inbound, ht, ConnTask.held]

-- The server knows that an exec waits for a task.
theorem idle (hr : F.AtRest) (hw : F.Shows S w) (hs : Config.Sound S.roomier ⟨s, none, w⟩ view)
    (he : e < F.size) (hx : (F.links e).caller.peer.role.Exec) (ho : (F.links e).opened = true)
    (hn : (F.links e).process ≠ .fail .stuck) : view e = .idle := by
  have ⟨_, _, _, _, hl⟩ := hw.links he
  have ⟨ht, _⟩ := (hr.links e he).connected hl ho
  have hv := hs.view_eq_ahead (hw.size ▸ he) (hr.flight hw ht)
  cases hc : (F.links e).caller
  case client => rw [hc] at hx; exact hx.elim
  case exec   => exact hv.trans <| (hr.links e he).ahead hl ho hn hc

theorem hangs (hr : F.AtRest) (hw : F.Shows S w) (hs : Config.Sound S.roomier ⟨s, none, w⟩ view)
    (hm : w.Mannered) (he : e < F.size) (hx : (F.links e).caller.peer.role.Exec)
    (ho : (F.links e).opened = true) (hn : (F.links e).process = .fail .stuck) :
    ∃ i details, F.Hangs e i details ∧
      (w.conns e).sent.getLast? = some (i, .task 0 0 details) := by
  have hl := hw.links he
  obtain ⟨_, _, _, _, hmat⟩ := id hl
  obtain ⟨second, turns, hc⟩ := Caller.exists_exec hx
  have ⟨n, turn, a, u, details, ht, hh, hd, hlen⟩ :=
    (hr.links e he).hangs hmat ho hn (hs.wired.line (hw.size ▸ he)).orderly hc
  have ⟨i, hi⟩ := hl.sent_of_heard hd
  obtain ⟨rfl, rfl⟩ := hl.orders (hm e) hx (List.mem_of_getElem? hd)
  refine ⟨i, details, ⟨n, turn, ⟨he, hx, hmat.sent ▸ hi⟩, ?_, hh, hn⟩, ?_⟩
  case refine_1 => exact ⟨⟨he, hx, 0, 0, hd⟩, second, turns, hc, ht⟩
  case refine_2 => rwa [List.getLast?_eq_getElem?, hlen]

-- An exec which serves a client does not come to the end of its task, which it was sent last.
theorem hangs_of_serves (hr : F.AtRest) (hw : F.Shows S w)
    (hs : Config.Sound S.roomier ⟨s, none, w⟩ view) (hm : w.Mannered) (he : e < F.size)
    (hx : (F.links e).caller.peer.role.Exec) (ho : (F.links e).opened = true)
    (hv : view e = .busy) (hp : s.partner e = some i)
    (hc : (w.conns i).peer = .client details true) : F.Hangs e i details := by
  have hn : (F.links e).process = .fail .stuck := by
    by_contra hn
    cases hv.symm.trans (hr.idle hw hs he hx ho hn)
  have ⟨j, details', hh, hlast⟩ := hr.hangs hw hs hm he hx ho hn
  have ⟨_, hserves, hrole, _⟩ := hs.serves hv hp
  cases hserves.last.symm.trans hlast
  have hri : (w.conns i).role = .client details := by simp [Conn.role, hc, Peer.role]
  cases hri.symm.trans hrole
  exact hh

-- A client which is not at its end is connected, and was told nothing that ends it.
theorem submitted (hr : F.AtRest) (hw : F.Shows S w) (hi : i < F.size)
    (hc : (F.links i).caller = .client details fuel) (hn : (F.links i).Closed = false) :
    (w.conns i).task = .select ∧ (w.conns i).peer = .client details true ∧
      (∀ m ∈ (w.conns i).sent, Client.Continues m.snd) ∧
        Process.heard (Process.dialogue (F.links i).trace) = (w.conns i).sent.map Prod.snd := by
  have ⟨_, _, _, _, hl⟩ := hw.links hi
  have hp := Client.not_stuck hl.runs hc
  have ⟨_, _, ho⟩ := (hr.links i hi).reads hl.runs hn hp
  have ⟨_, _, _, _, hh, ht⟩ := (hr.links i hi).settled hl ho hp
  have ⟨hp, hm⟩ := (hr.links i hi).continues hl ho hc
  exact ⟨ht, hp, hm, hh⟩

end AtRest

-- In a farm at rest, the execs which are connected have all been queued unless the process of a
-- task goes on for ever, and the clients which are not at their ends wait for what they will not
-- get.
theorem Reaches.waits (h : F.Reaches S) (hm : F.main = .select s) (hr : F.AtRest) :
    (∀ e < F.size, (F.links e).caller.peer.role.Exec → (F.links e).opened = true →
      e ∈ s.execQueue ∨ ∃ i details, F.Hangs e i details) ∧
    ∀ i < F.size, ∀ details fuel, (F.links i).caller = .client details fuel →
      (F.links i).Closed = false → F.Waits s i details := by
  obtain ⟨σ, hc, hσ, hw⟩ := h.simulated
  have hreach := hc.settled (s := s) (by rw [hσ, hm]; rfl)
  have hman := hreach.mannered Policy.tame_wellBehaved
  obtain ⟨view, hs⟩ := hreach.sound Policy.tame_wellBehaved
  have hq {e : Nat} (he : e < F.size) (hx : (F.links e).caller.peer.role.Exec)
      (ho : (F.links e).opened = true) : e ∈ s.execQueue ∨ ∃ i details, F.Hangs e i details := by
    by_cases hn : (F.links e).process = .fail .stuck
    case pos =>
      obtain ⟨i, details, hh, _⟩ := hr.hangs hw hs hman he hx ho hn
      exact .inr ⟨i, details, hh⟩
    case neg => exact .inl (hs.ledger.idle <| hr.idle hw hs he hx ho hn).right.right.right
  refine ⟨fun _ => hq, fun i hi details fuel hcl hn => ?_⟩
  obtain ⟨ht, hp, hk, hh⟩ := hr.submitted hw hi hcl hn
  have hcon : (σ.net.conns i).task.Connected := ht ▸ trivial
  rcases hs.minds (hreach.mindful Policy.tame_wellBehaved) (hw.size ▸ hi) hp hcon
    (hr.flight hw ht) with ⟨prior, ht⟩ | ⟨m, hm, ht⟩ | ⟨e, he, hx, hpi, hpe, hv⟩
  case inl =>
    refine .queued ⟨prior, ht⟩ fun e he hx ho => (hq he hx ho).resolve_left fun he => ?_
    have hb := hc.balanced
    simp only [Cluster.Balanced, hσ, hm] at hb
    rcases hb with hb | hb
    case inl => simp [hb] at ht
    case inr => simp [hb] at he
  case inr.inl =>
    obtain ⟨_, _, _, he⟩ := (hk m hm).of_terminal ht
    exact .signalled (he ▸ hh ▸ List.mem_map_of_mem hm)
  case inr.inr =>
    have he : e < F.size := hw.size ▸ he
    obtain ⟨_, _, _, _, hl⟩ := hw.links he
    have hx : (F.links e).caller.peer.role.Exec := hl.role_eq ▸ hx
    cases ho : (F.links e).opened
    case false => exact .bereft he hx hpi ho
    case true  =>
      rcases hv with hv | hu
      case inl => exact .hung (hr.hangs_of_serves hw hs hman he hx ho hv hpe hp) hpi
      case inr =>
        rw [((hr.links e he).connected hl ho).left] at hu
        exact hu.elim

-- The process of the task writes a line which can not be decoded, and does not exit before the rest
-- is read.
def hungTurn : Exec.Turn where
  host     := { tourTurn.host with
    spawn _ _ _ _ := some {
      output  := fun
        | .stdout => [255, Exec.newline, 104, 105, Exec.newline]
        | .stderr => []
      wait    := fun unread => if unread .stdout = [] then .exited (some 0) else .never
      reads _ := none } }
  picks    := [.stdout, .stderr]
  runTime  := 7
  sendTime := 8

theorem waits_hung :
    ∃ F s, Reaches .plain F ∧ F.main = .select s ∧ F.AtRest ∧ 0 ∉ s.execQueue ∧
      (∃ i details, F.Hangs 0 i details) ∧ F.Waits s 1 tourTask := by
  have ⟨F, h, hs⟩ := Reaches.of_run (S := .plain)
    (f := fun F => F.main.waiting.any (0 ∉ ·.execQueue) ∧ F.AtRest ∧
      (0 < F.size ∧ (F.links 0).caller.peer.role = .exec false ∧ (F.links 0).opened) ∧
        1 < F.size ∧ (F.links 1).caller.peer.role = .client tourTask ∧ (F.links 1).Closed = false)
    (opening hungTurn) (by decide +kernel)
  have ⟨hm, hr, ⟨he, hx, ho⟩, hi, hcl, hn⟩ := of_decide_eq_true hs
  have ⟨s, hm, hq⟩ := Option.any_eq_true .. |>.mp hm
  have hq := of_decide_eq_true hq
  have hm := Main.waiting_iff.mp hm
  have ⟨fuel, hcl⟩ := Caller.exists_client hcl
  have ⟨hw, hc⟩ := h.waits hm hr
  exact ⟨F, s, h, hm, hr, hq, (hw 0 he (hx ▸ trivial) ho).resolve_left hq,
    hc 1 hi tourTask fuel hcl hn⟩

end Farm
end SprayCC
