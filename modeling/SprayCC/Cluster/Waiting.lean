import SprayCC.Cluster.Listening
import SprayCC.Cluster.Theorems.Placement

open Async

-- What becomes of the tasks if execs may be gone at any time: a client whose task is neither queued
-- nor answered is paired with an exec, which may have hung up.

namespace SprayCC
namespace Ledger

-- The client keeps the server busy, or it is paired with an exec which does or has hung up.
def Minds (l : Ledger) (hungUp : Nat → Prop) (i : Nat) : Prop :=
  (∃ details prior, ((i, details), prior) ∈ l.tasks) ∨
    (∃ e, (l.kind e = .exec ∨ (l.role e).Exec ∧ hungUp e) ∧
      l.partner i = some e ∧ l.partner e = some i) ∨
      ∃ m ∈ l.sent i, m.snd.Terminal

def Mindful (l : Ledger) (hungUp : Nat → Prop) : Prop :=
  ∀ i, l.kind i = .client → l.Minds hungUp i

variable {l l' : Ledger} {hungUp hungUp' : Nat → Prop} {i j e k : Nat} {details : TaskDetails}
variable {prior : Duration} {msg : Message} {rest : List Nat}

theorem Minds.frame (h : l.Minds hungUp i) (ht : ∀ t ∈ l.tasks, t.fst.fst = i → t ∈ l'.tasks)
    (hp : ∀ e, (l.kind e = .exec ∨ (l.role e).Exec ∧ hungUp e) → l.partner i = some e →
      l.partner e = some i → (l'.kind e = .exec ∨ (l'.role e).Exec ∧ hungUp' e) ∧
        l'.partner i = some e ∧ l'.partner e = some i ∨ ∃ m ∈ l'.sent i, m.snd.Terminal)
    (hs : l.sent i ⊆ l'.sent i) : l'.Minds hungUp' i := by
  rcases h with ⟨details, prior, hi⟩ | ⟨e, hk, hi, he⟩ | ⟨m, hm, ht⟩
  case inl     => exact .inl ⟨details, prior, ht _ hi rfl⟩
  case inr.inl => exact .inr <| (hp e hk hi he).imp_left fun h => ⟨e, h⟩
  case inr.inr => exact .inr <| .inr ⟨m, hs hm, ht⟩

namespace Mindful

theorem mono (h : l.Mindful hungUp) (hm : ∀ e, hungUp e → hungUp' e) : l.Mindful hungUp' :=
  fun i hi => (h i hi).frame (fun _ ht _ => ht)
    (fun e hk hi he => .inl ⟨hk.imp_right fun hk => ⟨hk.left, hm e hk.right⟩, hi, he⟩) fun _ => id

theorem accept {role : Role} (h : l.Mindful hungUp) (hs : l.Sound)
    (hm : ∀ e, e ≠ l.size → hungUp e → hungUp' e) : (l.accept role).Mindful hungUp' := by
  have hv := hs.pending (hs.later le_rfl)
  intro j hj
  have hn : j ≠ l.size := by
    rintro rfl
    simp [Ledger.accept, hv.left] at hj
  refine (h j hj).frame (fun _ ht _ => ht) (fun e hk hi he => .inl ⟨?_, hi, he⟩) fun _ => ?_
  case refine_1 =>
    have he : e ≠ l.size := by
      rintro rfl
      cases hv.right.left.symm.trans he
    exact hk.imp_right fun hk => ⟨by simpa [Ledger.accept, he] using hk.left, hm e he hk.right⟩
  case refine_2 => simp [Ledger.accept, hn]

theorem register (h : l.Mindful hungUp) (hs : l.Sound) (hv : l.view i = .pending) :
    (l.register i).Mindful hungUp := by
  have ⟨hk, hp, _⟩ := hs.pending hv
  intro j hj
  simp only [Ledger.register, Function.update_apply] at hj
  refine (h j (by grind)).frame (fun _ ht _ => ht) (fun e hk hj he => .inl ?_) fun _ => id
  simp only [Ledger.register, Function.update_apply]
  grind

theorem submit (h : l.Mindful hungUp) (hs : l.Sound) (hv : l.view i = .pending) :
    (l.submit i details prior).Mindful hungUp := by
  have ⟨hk, hp, _⟩ := hs.pending hv
  have hn : ∀ t ∈ l.tasks, t.fst.fst ≠ i := by
    rintro ⟨⟨_, _⟩, _⟩ hm rfl
    simpa [hv] using (hs.tasked hm).right.right.right
  have ht : (l.submit i details prior).tasks = l.tasks ++ [((i, details), prior)] :=
    pushEntry_of_new hn
  intro j hj
  by_cases hji : j = i
  case pos => subst hji; exact .inl ⟨details, prior, by simp [ht]⟩
  case neg =>
    refine (h j (by simpa [Ledger.submit, hji] using hj)).frame
      (fun _ he _ => ht ▸ List.mem_append_left _ he) (fun e hk hj he => .inl ⟨?_, hj, he⟩)
      fun _ => id
    simp only [Ledger.submit, Function.update_apply]
    grind

theorem put (h : l.Mindful hungUp) : (l.put i j msg).Mindful hungUp := by
  intro k hk
  refine (h k hk).frame (fun _ ht _ => ht) (fun e hk hi he => .inl ⟨hk, hi, he⟩) fun _ hm => ?_
  simp only [Ledger.put, Function.update_apply]
  split <;> simp_all

theorem lose (h : l.Mindful hungUp) (hk : l.kind j = .client) : (l.lose j).Mindful hungUp := by
  intro k hk'
  simp only [Ledger.lose, Function.update_apply] at hk'
  refine (h k (by grind)).frame (fun _ ht _ => ht) (fun e hk hi he => .inl ⟨?_, hi, he⟩) fun _ => id
  simp only [Ledger.lose, Function.update_apply]
  grind

-- A remote which is dropped has hung up.
theorem drop (h : l.Mindful hungUp) (hi : (l.role i).Exec → hungUp i)
    (hr : l.kind i = .exec → (l.role i).Exec) : (l.drop i).Mindful hungUp := by
  intro k hk'
  simp only [Ledger.drop, Function.update_apply] at hk'
  refine (h k (by grind)).frame (fun _ ht _ => ht) (fun e hk hi he => .inl ⟨?_, hi, he⟩) fun _ => id
  simp only [Ledger.drop, Function.update_apply]
  grind

-- The client of a task which has come to an end is told so, if it is still there.

theorem finish (h : l.Mindful hungUp) (hx : l.kind i = .exec) (hp : l.partner i = some j)
    (hk : l.kind j ≠ .client) : (l.finish i).Mindful hungUp := by
  intro k hk'
  refine (h k hk').frame (fun _ ht _ => ht) (fun e he hk hp => .inl ⟨he, ?_⟩) fun _ => id
  simp only [Ledger.finish, Function.update_apply] at hk' ⊢
  grind

theorem finish_put (h : l.Mindful hungUp) (hx : l.kind i = .exec) (hp : l.partner i = some j)
    (ht : msg.Terminal) : ((l.finish i).put i j msg).Mindful hungUp := by
  intro k (hk : l.kind k = .client)
  by_cases hj : k = j
  case pos => exact .inr <| .inr ⟨(i, msg), by simp [Ledger.put, hj], ht⟩
  case neg =>
    refine (h k hk).frame (fun _ ht _ => ht) (fun e he hke hp => .inl ⟨he, ?_⟩) fun _ hm => ?_
    case refine_1 =>
      simp only [Ledger.finish, Ledger.put, Function.update_apply]
      grind
    case refine_2 => simpa [Ledger.put, Ledger.finish, hj] using hm

theorem finish_lose (h : l.Mindful hungUp) (hx : l.kind i = .exec) (hp : l.partner i = some j)
    (hk : l.kind j = .client) : ((l.finish i).lose j).Mindful hungUp := by
  intro k hk'
  simp only [Ledger.finish, Ledger.lose, Function.update_apply] at hk'
  refine (h k (by grind)).frame (fun _ ht _ => ht) (fun e he hke hp => .inl ?_) fun _ => id
  simp only [Ledger.finish, Ledger.lose, Function.update_apply]
  grind

-- The exec which is sent a task is there, or it has hung up.
theorem assign (h : l.Mindful hungUp) (hs : l.Sound)
    (hk : l.tasks[k]? = some ((i, details), prior)) (he : l.execs = e :: rest)
    (hx : l.kind e = .exec ∨ (l.role e).Exec ∧ hungUp e) :
    (l.assign k rest i e details).Mindful hungUp := by
  have ⟨_, hpe, _⟩ := hs.queued (i := e) (he ▸ List.mem_cons_self)
  have ⟨_, hpi, _⟩ := hs.tasked <| List.mem_of_getElem? hk
  intro j hj
  by_cases hji : j = i
  case pos =>
    subst hji
    refine .inr <| .inl ⟨e, hx, ?_⟩
    simp only [Ledger.assign, Function.update_apply] at hj ⊢
    grind
  case neg =>
    refine (h j hj).frame (fun t ht htj => ?_) (fun e' he' hj' hp' => .inl ⟨he', ?_⟩) fun _ hm => ?_
    case refine_1 =>
      obtain ⟨n, hn⟩ := List.mem_iff_getElem?.mp ht
      refine List.mem_eraseIdx_iff_getElem?.mpr ⟨n, ?_, hn⟩
      rintro rfl
      cases hn.symm.trans hk
      exact hji htj.symm
    case refine_2 =>
      simp only [Ledger.assign, Function.update_apply]
      grind
    case refine_3 =>
      simp only [Ledger.assign, Function.update_apply]
      split <;> simp_all

theorem release (h : l.Mindful hungUp) (hs : l.Sound) (he : l.execs = e :: rest) :
    (l.release e rest).Mindful hungUp := by
  have ⟨_, hp, _⟩ := hs.queued (i := e) (he ▸ List.mem_cons_self)
  intro k hk
  simp only [Ledger.release, Function.update_apply] at hk
  refine (h k (by grind)).frame (fun _ ht _ => ht) (fun e' he' hk hp => .inl ⟨?_, hk, hp⟩)
    fun _ hm => ?_
  case refine_1 =>
    simp only [Ledger.release, Function.update_apply]
    grind
  case refine_2 =>
    simp only [Ledger.release, Function.update_apply]
    split <;> simp_all

end Mindful
end Ledger

-- The tasks of the server's clients, on any view of their sessions.
def ServerState.Mindful (s : ServerState) (w : Net) : Prop :=
  (s.ledger w fun _ => .pending).Mindful fun e => (w.conns e).task.HungUp

theorem Conn.Step.hungUp {codes : Codes} {c c' : Conn} {a : Act} {ms : List Message}
    (h : c.Step codes a ms c') (hu : c.task.HungUp) : c'.task.HungUp := by
  cases h
  case takes | starts | leaves => exact hu
  all_goals simp_all [ConnTask.HungUp]

namespace ServerState.Mindful

variable {s s' : ServerState} {w w' : Net}

theorem of_ledger {l : Ledger} {view : Nat → Phase}
    (h : l.Mindful fun e => (w.conns e).task.HungUp) (hl : s.ledger w' view = l)
    (ht : ∀ e, (w'.conns e).task = (w.conns e).task) : s.Mindful w' := by
  have h : (s.ledger w' view).Mindful fun e => (w'.conns e).task.HungUp := by
    simpa only [hl, ht] using h
  exact h

theorem act {S : Setup} {a : Act} (h : s.Mindful w) (hs : w.step S a = some w') :
    s.Mindful w' := by
  have ⟨_, _, hm⟩ := Net.step_moved hs
  have hn j :=
    hm.forall_conns (P := fun c c' => c'.sent = c.sent) (fun _ => rfl) Conn.Step.sent_eq j
  have hr j :=
    hm.forall_conns (P := fun c c' => c'.role = c.role) (fun _ => rfl) Conn.Step.role_eq j
  have hu j := hm.forall_conns (P := fun c c' => c.task.HungUp → c'.task.HungUp) (fun _ => id)
    Conn.Step.hungUp j
  have h : s.Mindful w := h
  simpa [ServerState.Mindful, Ledger.Mindful, Ledger.Minds, ServerState.ledger, hn, hr] using
    Ledger.Mindful.mono h hu

end ServerState.Mindful

namespace Config.Sound

variable {S : Setup} {P : Policy} {c c' : Config} {s : ServerState} {w : Net} {view : Nat → Phase}

-- The remote whose `Dropped` the server has in its hand has hung up.
theorem hungUp {i : Nat} (h : Sound S ⟨s, some (i, .dropped), w⟩ view) :
    (w.conns i).task.HungUp := by
  have ⟨hi, phase, hs, hw⟩ := h.wired.hear
  obtain ⟨_, rfl⟩ := hs.of_dropped
  exact (hw.eq_gone_iff hi |>.mp <| Function.update_self ..).left

theorem mindful (hs : c.Sound S view) (h : c.server.Mindful c.net) (m : Move S P c c') :
    c'.server.Mindful c'.net := by
  have ht : (c.server.ledger c.net view).Mindful fun e => (c.net.conns e).task.HungUp := h
  cases m
  case act ha        => exact h.act ha
  case accept w peer s _ _ =>
    have hl : s.addRemote.ledger (w.accept peer) view = (s.ledger w view).accept peer.role :=
      ledger_accept
    refine .of_ledger (w := w.accept peer) ?_ hl fun _ => rfl
    exact ht.accept hs.ledger fun e he hu => (Net.conns_accept_ne he).symm ▸ hu
  case recv | record => exact h
  case spawn         => exact .of_ledger ht ledger_spawned fun _ => rfl
  case register hi   =>
    have ⟨_, _, hm, _⟩ := hs.wired.hear
    have hv := hm.of_hello.right.left
    exact .of_ledger (ht.register hs.ledger hv) (ledger_register hi) fun _ => rfl
  case submit hi _   =>
    have ⟨_, _, hm, _⟩ := hs.wired.hear
    exact .of_ledger (ht.submit hs.ledger hm.of_task.right.left) (ledger_submit hi) fun _ => rfl
  case output hf     =>
    cases hf
    case sent          => exact .of_ledger ht.put ledger_put fun _ => Net.task_put
    case lost hk _ _   =>
      exact .of_ledger (ht.lose hk) (ledger_lose <| ServerState.lt_length hk nofun) fun _ => rfl
    case skipped       => exact h
  case complete i msg s w s' w' hm hf =>
    have ⟨_, _, hs', _⟩ := hs.wired.hear
    have ⟨_, hk, _⟩ := hs.ledger.busy (hs'.of_result hm.result).right.left
    have hi := hf.length_eq ▸ hf.lt_length
    have hf' e : (w'.conns e).task = (w.conns e).task := by
      cases hf
      case sent           => exact Net.task_put
      case lost | skipped => rfl
    refine .of_ledger (w := w) ?_ (@ledger_finish view _ _ _ hi) hf'
    cases hf
    case sent hp _ _ _  => exact ledger_put ▸ ht.finish_put hk hp hm
    case lost hp hj _ _ =>
      exact ledger_lose (ServerState.lt_length hj nofun) ▸ ht.finish_lose hk hp hj
    case skipped hp hj  => exact ht.finish hk hp hj
  case drop hi hk    =>
    refine .of_ledger (ht.drop (fun _ => hs.hungUp) ?_) (ledger_drop hi) fun _ => rfl
    exact fun hx => absurd hx hk
  case dropIdle hk _ =>
    have hd := ht.drop (fun _ => hs.hungUp) hs.ledger.role_of_exec
    exact .of_ledger hd (ledger_drop <| ServerState.lt_length hk nofun) fun _ => rfl
  case dropBusy hk _ _ _ =>
    have hd := ht.drop (fun _ => hs.hungUp) hs.ledger.role_of_exec
    have hl := ServerState.lt_length hk nofun
    exact .of_ledger hd.put (ledger_drop_put hl) fun _ => Net.task_put
  case assign hk he _ hi hj _ _ _ _ =>
    refine .of_ledger (ht.assign hs.ledger hk he ?_) (ledger_assign hi hj (hs.length ▸ hs.bound))
      fun _ => Net.task_put
    have ⟨hr, _, hv⟩ := hs.queued he
    rcases hv with hv | hv
    case inl => exact .inl (hs.ledger.idle hv).right.left
    case inr =>
      have hl := hs.lt_size <| hv.trans_ne (by decide)
      exact .inr ⟨hr, (hs.wired.eq_gone_iff hl |>.mp hv).left⟩
  case release he hi _ _ =>
    exact .of_ledger (ht.release hs.ledger he) (ledger_release hi) fun _ => Net.task_put

end Config.Sound

theorem Reach.mindful {S : Setup} {P : Policy} {c : Config} (h : Reach S P c) (hP : P.Tame) :
    c.server.Mindful c.net := by
  induction h with
  | start       =>
    intro i hi
    simp [ServerState.ledger, Config.start, Setup.server, ServerState.start, kindOf] at hi
  | move h m hi =>
    obtain ⟨_, hs⟩ := h.sound hP
    exact hs.mindful hi m

namespace Config.Sound

variable {S : Setup} {s : ServerState} {w : Net} {view : Nat → Phase} {i e : Nat}
variable {details : TaskDetails}

-- The server's view of a session from which nothing is on its way is where the session is.
theorem view_eq_ahead (h : Sound S ⟨s, none, w⟩ view) (he : e < w.size) (hf : w.flight e = []) :
    view e = (w.conns e).ahead := by
  have hl := (h.wired.line he).flow
  have hu : w.unheard none e = [] := by simp [Net.unheard, hf]
  rw [hu] at hl
  exact Follows.nil_iff.mp hl

-- The task of a client which is connected is queued or answered, or the client is paired with an
-- exec which is busy or has hung up.
theorem minds (h : Sound S ⟨s, none, w⟩ view) (hm : s.Mindful w) (hi : i < w.size)
    (hp : (w.conns i).peer = .client details true) (hc : (w.conns i).task.Connected)
    (hf : w.flight i = []) :
    s.Queued i details ∨ w.Answered i ∨ ∃ e < w.size, (w.conns e).role.Exec ∧
      s.partner i = some e ∧ s.partner e = some i ∧
        (view e = .busy ∨ (w.conns e).task.HungUp) := by
  have hv := h.view_of_received hi hp hc hf
  have hk := h.kind_of_submitted hi hp hc (hv.trans_ne (by decide))
  rcases hm i hk with ⟨d, prior, hq⟩ | ⟨e, he, hie, hei⟩ | ha
  case inl =>
    have hr := h.role_of_queued ⟨prior, hq⟩
    simp only [Conn.role, hp, Peer.role, Role.client.injEq] at hr
    exact .inl ⟨prior, hr ▸ hq⟩
  case inr.inr => exact .inr <| .inl ha
  case inr.inl =>
    have hl : e < w.size := h.length ▸ lt_length_of_partnerOf hei
    refine .inr <| .inr ⟨e, hl, ?_, hie, hei, ?_⟩
    case refine_1 => exact he.elim h.ledger.role_of_exec And.left
    case refine_2 => exact he.imp (h.busy · hei) And.right

end Config.Sound
end SprayCC
