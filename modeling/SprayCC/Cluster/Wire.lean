import SprayCC.Async.Relay
import SprayCC.Cluster.Net

open Async

-- What the steps of the connections do to the sessions of the remotes.

namespace SprayCC

def Act.conn : Act → Nat
  | speaks i _ | pushes i | ends i | closes i | takes i | breaks i | reads i => i

-- The part of a peer which stays as it is.
inductive Role
  | client (details : TaskDetails)
  | exec (secondQueue : Bool)
  | rogue
  deriving DecidableEq

def Peer.role : Peer → Role
  | client details _ => .client details
  | exec second _ _  => .exec second
  | rogue _          => .rogue

-- How far a session is. An exec is `busy` from the moment on which it is sent a task, and it is
-- `released` from the moment on which it is sent away.
inductive Phase
  | pending
  | submitted
  | idle
  | busy
  | released
  | gone
  deriving DecidableEq

inductive Role.Says (codes : Codes) : Role → Phase → Message → Phase → Prop
  | task    : Says codes (.client details) .pending (codes.submission details) .submitted
  | hello   : Says codes (.exec second) .pending (codes.hello second) .idle
  | output  : msg.Result → ¬msg.Terminal → Says codes (.exec second) .busy msg .busy
  | result  : msg.Terminal → Says codes (.exec second) .busy msg .idle
  | dropped : view ≠ .gone → Says codes role view .dropped .gone

namespace Conn

abbrev role (c : Conn) : Role :=
  c.peer.role

-- Where the session is for the connection task, or for the peer if the task still listens to it.
def ahead (c : Conn) : Phase :=
  if c.task.HungUp then .gone else
    match c.peer with
    | .client _ false | .exec _ .fresh _ | .rogue _ => .pending
    | .client _ true                                => .submitted
    | .exec _ .idle read                            =>
      match c.sent[read]? with
      | some (_, .task ..) => .busy
      | some _             => .released
      | none               => .idle
    | .exec _ (.busy _) _                           => .busy
    | .exec _ .done _                               => .released

-- At most one message waits for an exec, and none while it runs a task.
def Orderly (c : Conn) : Prop :=
  ¬c.task.HungUp →
    match c.peer with
    | .exec _ .fresh read      => read = 0 ∧ c.sent = []
    | .exec _ .idle read       => read = c.sent.length ∨ read + 1 = c.sent.length
    | .exec _ (.busy job) read => job + 1 = read ∧ read = c.sent.length
    | .exec _ .done read       => read = c.sent.length
    | _                        => True

-- What a peer can say, and where it is then.
inductive Spoke (codes : Codes) (c : Conn) : Message → Conn → Prop
  | task :
    c.peer = .client details false →
    Spoke codes c (codes.submission details) { c with peer := .client details true }
  | hello :
    c.peer = .exec second .fresh n →
    Spoke codes c (codes.hello second) { c with peer := .exec second .idle n }
  | output :
    c.peer = .exec second (.busy job) n → msg.Result → ¬msg.Terminal →
    Spoke codes c msg { c with produced := c.produced ++ [(job, msg)] }
  | result :
    c.peer = .exec second (.busy job) n → msg.Terminal →
    Spoke codes c msg
      { c with peer := .exec second .idle n, produced := c.produced ++ [(job, msg)] }
  | rogue :
    c.peer = .rogue said → Spoke codes c msg { c with peer := .rogue (said ++ [msg]) }

-- The steps of a single connection with the messages which they add to its flight.
inductive Step (codes : Codes) (c : Conn) : Act → List Message → Conn → Prop
  | speaks :
    c.task = .select → c.Spoke codes msg c' → t = .select ∨ t = .forwarding (codes.forwards msg) →
    Step codes c (.speaks i msg) [codes.forwards msg] { c' with task := t }
  | pushes :
    c.task = .forwarding msg → Step codes c (.pushes i) [] { c with task := .select }
  | notices :
    c.task = .ending → Step codes c (.pushes i) [] { c with task := .noticed }
  | ends :
    c.task = .select → t = .noticed ∨ t = .ending →
    Step codes c (.ends i) [.dropped] { c with task := t }
  | closes :
    c.task = .noticed → Step codes c (.closes i) [] { c with task := .closed }
  | takes :
    c.task = .select → c.taken < c.sent.length →
    Step codes c (.takes i) [] { c with taken := c.taken + 1 }
  | breaks :
    c.task = .select → c.taken < c.sent.length →
    Step codes c (.breaks i) [] { c with taken := c.taken + 1, task := .failed }
  | starts :
    c.task.Connected → c.peer = .exec second .idle n →
    c.sent[n]? = some (about, .task accessCode userCode details) →
    Step codes c (.reads i) [] { c with peer := .exec second (.busy n) (n + 1) }
  | leaves :
    c.task.Connected → c.peer = .exec second .idle n → c.sent[n]? = some (about, .pissOff) →
    Step codes c (.reads i) [] { c with peer := .exec second .done (n + 1) }

variable {codes : Codes} {c c' : Conn} {a : Act} {msg : Message} {ms : List Message}

theorem spoke_of_speaks (h : c.speaks codes msg = some c') : c.Spoke codes msg c' := by
  have ⟨p, hp, h⟩ := Option.map_eq_some_iff.mp h
  unfold Peer.speaks at hp
  split at hp
  case h_1 hc _ =>
    simp only [Option.ite_none_right_eq_some, Option.some.injEq] at hp
    obtain ⟨rfl, rfl⟩ := hp
    simp only [hc] at h
    exact h ▸ .task hc
  case h_2 hc _ =>
    simp only [Option.ite_none_right_eq_some, Option.some.injEq] at hp
    obtain ⟨rfl, rfl⟩ := hp
    simp only [hc] at h
    exact h ▸ .hello hc
  case h_3 hc _ =>
    simp only [Option.ite_none_right_eq_some, Option.some.injEq] at hp
    obtain ⟨hm, rfl⟩ := hp
    simp only [hc] at h
    split at h
    case isTrue ht  => exact h ▸ .result hc ht
    case isFalse ht => exact h ▸ hc ▸ .output hc hm ht
  case h_4 hc _ =>
    cases hp
    simp only [hc] at h
    exact h ▸ .rogue hc
  case h_5 => cases hp

theorem step_of_reads (ht : c.task.Connected) (h : c.reads = some c') :
    c.Step codes (.reads i) [] c' := by
  unfold reads at h
  split at h <;> [skip; cases h]
  split at h <;> [skip; cases h]
  split at h
  case h_1 hc _ _ _ _ _ _ hs => exact Option.some.inj h ▸ .starts ht hc hs
  case h_2 hc _ _ _ hs       => exact Option.some.inj h ▸ .leaves ht hc hs
  case h_3                   => cases h

theorem task_of_reads (h : c.reads = some c') : c'.task = c.task := by
  unfold reads at h
  split at h <;> [skip; cases h]
  split at h <;> [skip; cases h]
  split at h <;> cases h <;> rfl

theorem Spoke.role_eq (h : c.Spoke codes msg c') : c'.role = c.role := by
  cases h <;> simp_all [role, Peer.role]

theorem Spoke.follows {t : ConnTask} (h : c.Spoke codes msg c') (ho : c.Orderly)
    (hr : c.role ≠ .rogue) (hc : ¬c.task.HungUp) (ht : ¬t.HungUp) :
    c.role.Says codes c.ahead (codes.forwards msg) (ahead { c' with task := t }) ∧
      Orderly { c' with task := t } := by
  have ho := ho hc
  cases h
  case task hp =>
    simp only [role, Peer.role, hp, ahead, hc, ht, if_false, Codes.forwards_submission]
    exact ⟨.task, fun _ => trivial⟩
  case hello hp =>
    simp only [hp] at ho
    simp only [role, Peer.role, hp, ho, ahead, hc, ht, if_false, Codes.forwards_hello,
      List.getElem?_nil]
    exact ⟨.hello, fun _ => .inl rfl⟩
  case output hp hm hn =>
    simp only [hp] at ho
    simp only [role, Peer.role, hp, ahead, hc, ht, if_false, Codes.forwards_result hm]
    exact ⟨.output hm hn, fun _ => ho⟩
  case result n hp hm =>
    simp only [hp] at ho
    have hs : c.sent[n]? = none := List.getElem?_eq_none ho.right.ge
    simp only [role, Peer.role, hp, ahead, hc, ht, if_false, hs, Codes.forwards_result hm.result]
    exact ⟨.result hm, fun _ => .inl ho.right⟩
  case rogue hp => exact absurd (congrArg Peer.role hp) hr

theorem ahead_ne_gone (h : ¬c.task.HungUp) : c.ahead ≠ .gone := by
  simp only [ahead, h, if_false]
  split
  case h_5 => split <;> simp
  all_goals simp

-- A step which only concerns the connection task does not change where the session is.
theorem follows_of_task {t : ConnTask} {n : Nat} (ho : c.Orderly) (h : t.HungUp ↔ c.task.HungUp) :
    Follows (c.role.Says codes) c.ahead [] (ahead { c with taken := n, task := t }) ∧
      Orderly { c with taken := n, task := t } ∧ role { c with taken := n, task := t } = c.role :=
  ⟨by simp [ahead, h], fun ht => ho <| ht ∘ h.mpr, rfl⟩

theorem Step.follows (h : c.Step codes a ms c') (ho : c.Orderly) (hr : c.role ≠ .rogue) :
    Follows (c.role.Says codes) c.ahead ms c'.ahead ∧ c'.Orderly ∧ c'.role = c.role := by
  cases h
  case speaks t _ hc hs ht =>
    have ht : ¬t.HungUp := by rcases ht with rfl | rfl <;> exact id
    have ⟨hf, ho⟩ := hs.follows ho hr (by simp [hc, ConnTask.HungUp]) ht
    exact ⟨.single hf, ho, hs.role_eq⟩
  case ends t _ hc ht =>
    have ht : t.HungUp := by rcases ht with rfl | rfl <;> trivial
    have hn := c.ahead_ne_gone (by simp [hc, ConnTask.HungUp])
    have hg : ahead { c with task := t } = .gone := by simp [ahead, ht]
    exact ⟨.single <| hg ▸ .dropped hn, fun h => absurd ht h, rfl⟩
  case starts hc hp hs =>
    have hc := hc.not_hungUp
    have ho := ho hc
    have hl := List.getElem?_eq_some_iff.mp hs |>.choose
    simp only [hp] at ho
    exact ⟨by simp [ahead, hc, hp, hs], fun _ => ⟨rfl, by dsimp only; omega⟩,
      by simp [role, Peer.role, hp]⟩
  case leaves hc hp hs =>
    have hc := hc.not_hungUp
    have ho := ho hc
    have hl := List.getElem?_eq_some_iff.mp hs |>.choose
    simp only [hp] at ho
    exact ⟨by simp [ahead, hc, hp, hs],
      fun _ => by dsimp only; omega, by simp [role, Peer.role, hp]⟩
  case pushes hc | notices hc | closes hc | takes hc _ | breaks hc _ =>
    exact follows_of_task ho (by simp [hc, ConnTask.HungUp])

theorem Step.role_eq (h : c.Step codes a ms c') : c'.role = c.role := by
  cases h
  case speaks hs _ => exact hs.role_eq
  case starts hp _ | leaves hp _ => simp [role, Peer.role, hp]
  all_goals rfl

theorem Step.sent_eq (h : c.Step codes a ms c') : c'.sent = c.sent := by
  cases h
  case speaks hs _ => cases hs <;> rfl
  all_goals rfl

theorem Step.open_of (h : c.Step codes a ms c') (ho : c'.task.Open) : c.task.Open := by
  cases h
  case starts hc _ _ | leaves hc _ _ => exact ho
  all_goals simp_all [ConnTask.Open]

end Conn

namespace Net

-- What a step of a connection does to the net.
structure Moved (codes : Codes) (w : Net) (a : Act) (w' : Net) (ms : List Message) (c : Conn) :
    Prop where
  present : a.conn < w.size
  conn    : (w.conns a.conn).Step codes a ms c
  size    : w'.size = w.size
  conns   : w'.conns = Function.update w.conns a.conn c
  flight  : ∀ j, w'.flight j = w.flight j ++ if j = a.conn then ms else []
  known   : ∀ e ∈ w'.inbound, e ∈ w.inbound ∨ e.fst = a.conn

variable {S : Setup} {w w' : Net} {a : Act} {i : Nat} {c : Conn}

theorem flight_set (h : c.task.held = (w.conns i).task.held) (j : Nat) :
    (w.set i c).flight j = w.flight j := by
  by_cases hj : j = i
  case pos => subst hj; simp [flight, set, h]
  case neg => simp [flight, set, hj]

section Accept

variable {peer : Peer}

@[simp]
theorem conns_accept_size : (w.accept peer).conns w.size = .fresh peer :=
  Function.update_self ..

@[simp]
theorem conns_accept_ne (h : i ≠ w.size) : (w.accept peer).conns i = w.conns i :=
  Function.update_of_ne h ..

end Accept

section Put

variable {about dest : Nat} {msg : Message}

@[simp]
theorem size_put : (w.put about dest msg).size = w.size :=
  rfl

theorem conns_put :
    (w.put about dest msg).conns i =
      if i = dest then { w.conns i with sent := (w.conns i).sent ++ [(about, msg)] } else
        w.conns i := by
  by_cases h : i = dest
  case pos => subst h; simp [put, set]
  case neg => simp [put, set, h]

@[simp]
theorem peer_put : ((w.put about dest msg).conns i).peer = (w.conns i).peer := by
  rw [conns_put]; split <;> rfl

@[simp]
theorem role_put : ((w.put about dest msg).conns i).role = (w.conns i).role := by
  simp [Conn.role]

@[simp]
theorem task_put : ((w.put about dest msg).conns i).task = (w.conns i).task := by
  rw [conns_put]; split <;> rfl

theorem sent_put :
    ((w.put about dest msg).conns i).sent =
      if i = dest then (w.conns dest).sent ++ [(about, msg)] else (w.conns i).sent := by
  rw [conns_put]; split <;> simp_all

theorem sents_put :
    (fun i => ((w.put about dest msg).conns i).sent) =
      Function.update (fun i => (w.conns i).sent) dest ((w.conns dest).sent ++ [(about, msg)]) := by
  funext i
  simp [sent_put, Function.update_apply]

@[simp]
theorem produced_put : ((w.put about dest msg).conns i).produced = (w.conns i).produced := by
  rw [conns_put]; split <;> rfl

@[simp]
theorem flight_put : (w.put about dest msg).flight i = w.flight i := by
  simp only [flight, task_put]
  rfl

end Put

theorem set_moved (hi : a.conn < w.size)
    (hc : (w.conns a.conn).Step S.codes a [] c)
    (hh : c.task.held = (w.conns a.conn).task.held) : w.Moved S.codes a (w.set a.conn c) [] c where
  present  := hi
  conn     := hc
  size     := rfl
  conns    := rfl
  flight j := by simp [flight_set hh]
  known _  := .inl

theorem offer_moved {msg : Message} {ms : List Message} {next wait : ConnTask}
    (hi : a.conn < w.size)
    (hn : next.held = []) (hw : wait.held = [msg]) (hm : (w.conns a.conn).task.held ++ ms = [msg])
    (hc : ∀ t, t = next ∨ ¬w.Room S ∧ t = wait →
      (w.conns a.conn).Step S.codes a ms { c with task := t }) :
    ∃ c', w.Moved S.codes a (w.offer S a.conn c msg next wait) ms c' := by
  by_cases hr : w.Room S
  case pos =>
    refine ⟨_, hi, hc next (.inl rfl), ?_, ?_, fun j => ?_, ?_⟩ <;> simp only [offer, hr, if_true]
    case refine_1 => rfl
    case refine_2 => rfl
    case refine_3 =>
      by_cases hj : j = a.conn
      case pos => subst hj; simp [flight, set, hn, hm]
      case neg => simp [flight, set, hj, Ne.symm hj]
    case refine_4 => exact fun e he => (List.mem_append.mp he).imp_right fun h => by simp_all
  case neg =>
    refine ⟨_, hi, hc wait (.inr ⟨hr, rfl⟩), ?_, ?_, fun j => ?_, ?_⟩ <;>
      simp only [offer, hr, if_false]
    case refine_1 => rfl
    case refine_2 => rfl
    case refine_3 =>
      by_cases hj : j = a.conn
      case pos => subst hj; simp [flight, set, hw, hm]
      case neg => simp [flight, set, hj]
    case refine_4 => exact fun _ => .inl

theorem step_moved (h : w.step S a = some w') : ∃ ms c, w.Moved S.codes a w' ms c := by
  cases a
  case speaks i msg =>
    simp only [step, Option.ite_none_right_eq_some, Option.map_eq_some_iff] at h
    obtain ⟨⟨hi, ht⟩, c, hc, hw⟩ := h
    exact hw ▸ ⟨_, offer_moved hi rfl rfl (by simp [Act.conn, ht, ConnTask.held]) fun t h =>
      .speaks ht (Conn.spoke_of_speaks hc) (h.imp_right And.right)⟩
  case pushes i =>
    simp only [step, Option.ite_none_right_eq_some] at h
    obtain ⟨⟨hi, hr⟩, h⟩ := h
    split at h
    case h_1 ht =>
      exact Option.some.inj h ▸ ⟨[], offer_moved hi rfl rfl (by simp [Act.conn, ht, ConnTask.held])
        fun t h => by obtain rfl | ⟨h, _⟩ := h; exacts [.pushes ht, absurd hr h]⟩
    case h_2 ht =>
      exact Option.some.inj h ▸ ⟨[], offer_moved hi rfl rfl (by simp [Act.conn, ht, ConnTask.held])
        fun t h => by obtain rfl | ⟨h, _⟩ := h; exacts [.notices ht, absurd hr h]⟩
    case h_3 => cases h
  case ends i =>
    simp only [step, Option.ite_none_right_eq_some] at h
    obtain ⟨⟨hi, ht⟩, h⟩ := h
    exact Option.some.inj h ▸ ⟨_, offer_moved hi rfl rfl (by simp [Act.conn, ht, ConnTask.held])
      fun t h => .ends ht (h.imp_right And.right)⟩
  case closes i =>
    simp only [step, Option.ite_none_right_eq_some] at h
    obtain ⟨⟨hi, ht⟩, h⟩ := h
    exact Option.some.inj h ▸
      ⟨_, _, set_moved hi (.closes ht) (by simp [Act.conn, ht, ConnTask.held])⟩
  case takes i =>
    simp only [step, Option.ite_none_right_eq_some] at h
    obtain ⟨⟨hi, ht, hl⟩, h⟩ := h
    exact Option.some.inj h ▸ ⟨_, _, set_moved hi (.takes ht hl) rfl⟩
  case breaks i =>
    simp only [step, Option.ite_none_right_eq_some] at h
    obtain ⟨⟨hi, ht, hl⟩, h⟩ := h
    exact Option.some.inj h ▸
      ⟨_, _, set_moved hi (.breaks ht hl) (by simp [Act.conn, ht, ConnTask.held])⟩
  case reads i =>
    simp only [step, Option.ite_none_right_eq_some, Option.map_eq_some_iff] at h
    obtain ⟨⟨hi, ht⟩, c, hc, hw⟩ := h
    exact hw ▸ ⟨_, _, set_moved hi (Conn.step_of_reads ht hc) (by rw [Conn.task_of_reads hc]; rfl)⟩

-- What holds between the connection and itself, and across its steps, holds across the steps of
-- all.
theorem Moved.forall_conns {ms : List Message} {P : Conn → Conn → Prop}
    (h : w.Moved S.codes a w' ms c)
    (refl : ∀ c, P c c) (step : ∀ {c c'}, c.Step S.codes a ms c' → P c c') (j : Nat) :
    P (w.conns j) (w'.conns j) := by
  rw [h.conns]
  by_cases hj : j = a.conn
  case pos => subst hj; simpa using step h.conn
  case neg => simpa [hj] using refl _

end Net
end SprayCC
