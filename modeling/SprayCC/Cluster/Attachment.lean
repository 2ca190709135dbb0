import SprayCC.Cluster.Invariant
import SprayCC.Cluster.Refinement

-- What ties the server to the execs which it takes to be there, for as long as no remote is lost at
-- a moment at which a send to it is still passed up.

namespace SprayCC

namespace Conn

-- Where the session is for the peer, whether or not the connection task still listens to it.
def reached (c : Conn) : Phase :=
  ahead { c with task := .select }

-- The client whose task an exec has been sent and has not brought to an end.
def client (c : Conn) : Option Nat :=
  if c.reached = .busy then c.sent.getLast?.map Prod.fst else none

end Conn

-- No exec drops its connection while it waits for a task, and an exec and the client which it works
-- for do not both drop theirs before the client is told of it.
def Policy.lossSpared : Policy :=
  { any with
    act w
      | .ends i   =>
        (w.conns i).reached ≠ .idle ∧ ∀ j ∈ (w.conns i).client, (w.conns j).task.Open
      | .closes i =>
        ∀ e < w.size, (w.conns e).task.HungUp → (w.conns e).client = some i → w.Answered i
      | .breaks i =>
        (w.conns i).reached ≠ .idle ∧
          ∀ e < w.size, (w.conns e).task.HungUp → (w.conns e).client = some i → w.Answered i
      | _         => true }

-- With these messages an exec becomes ready for a task.
def Message.Readies : Message → Prop
  | yourObedientServant .. | taskDone .. | taskFailed _ => True
  | _                                                  => False

theorem Message.Terminal.readies {msg : Message} (h : msg.Terminal) : msg.Readies := by
  cases msg <;> first | exact trivial | exact h.elim

namespace Role.Says

variable {codes : Codes} {role : Role} {view phase : Phase} {msg : Message}

theorem idle_of_readies (h : role.Says codes view msg phase) (hm : msg.Readies) :
    phase = .idle := by
  cases h
  case hello | result  => rfl
  case task | dropped  => exact hm.elim
  case output hr ht    =>
    cases msg <;> first | exact hm.elim | exact hr.elim | exact absurd trivial ht

theorem of_busy (h : role.Says codes .busy msg phase) (hp : phase ≠ .gone) :
    phase = .busy ∨ msg.Terminal := by
  cases h
  case output  => exact .inl rfl
  case result  => exact .inr ‹_›
  case dropped => exact absurd rfl hp

end Role.Says

namespace Conn

variable {codes : Codes} {c c' : Conn} {a : Act} {ms : List Message} {about : Nat} {msg : Message}

theorem ahead_eq_reached (h : ¬c.task.HungUp) : c.ahead = c.reached := by
  unfold reached ahead
  rw [if_neg h]
  rfl

theorem reached_ne_gone : c.reached ≠ .gone :=
  ahead_ne_gone id

theorem client_eq (hr : c'.reached = c.reached) (hs : c'.sent = c.sent) : c'.client = c.client := by
  rw [client, client, hr, hs]

theorem client_eq_none (hr : ¬c.role.Exec) : c.client = none := by
  refine if_neg fun hb => ?_
  cases hp : c.peer
  case client _ submitted => cases submitted <;> simp [reached, ahead, hp, ConnTask.HungUp] at hb
  case exec               => simp [role, Peer.role, Role.Exec, hp] at hr
  case rogue              => simp [reached, ahead, hp, ConnTask.HungUp] at hb

theorem reached_put_client (hr : ¬c.role.Exec) :
    reached { c with sent := c.sent ++ [(about, msg)] } = c.reached := by
  cases hp : c.peer
  case client _ submitted => cases submitted <;> simp [reached, ahead, hp]
  case exec               => simp [role, Peer.role, Role.Exec, hp] at hr
  case rogue              => simp [reached, ahead, hp]

-- A step moves the session only where the peer says something.
theorem Step.says (h : c.Step codes a ms c') (ho : c.Orderly) (hr : c.role ≠ .rogue) :
    (∃ msg, ms = [msg] ∧ c.role.Says codes c.reached msg c'.reached ∧ ¬c.task.HungUp ∧
      c'.task.Connected) ∨ c'.reached = c.reached ∧ ∀ m ∈ ms, m = .dropped := by
  cases h
  case speaks t _ hc hs ht =>
    have hn : ¬c.task.HungUp := by simp [hc, ConnTask.HungUp]
    have ht : t.Connected := by rcases ht with rfl | rfl <;> trivial
    obtain ⟨hf, _⟩ := hs.follows ho hr hn ht.not_hungUp
    rw [ahead_eq_reached hn, ahead_eq_reached ht.not_hungUp] at hf
    exact .inl ⟨_, rfl, hf, hn, ht⟩
  case ends => exact .inr ⟨rfl, fun _ hm => List.mem_singleton.mp hm⟩
  case starts hp hs | leaves hp hs =>
    exact .inr ⟨by simp [reached, ahead, ConnTask.HungUp, hp, hs], List.forall_mem_nil _⟩
  all_goals exact .inr ⟨rfl, List.forall_mem_nil _⟩

-- An idle exec waits for as long as it is there, and a busy one is busy until it has finished.
theorem Step.reached_idle (h : c.Step codes a ms c') (ho : c.Orderly) (hr : c.role ≠ .rogue)
    (hi : c.reached = .idle) : c'.reached = .idle := by
  rcases h.says ho hr with ⟨_, _, hs, _⟩ | ⟨he, _⟩
  case inl => exact absurd (hi ▸ hs).of_idle.right reached_ne_gone
  case inr => exact he.trans hi

theorem Step.reached_of_readies (h : c.Step codes a ms c') (ho : c.Orderly) (hr : c.role ≠ .rogue)
    (hm : msg ∈ ms) (ht : msg.Readies) : c'.reached = .idle := by
  rcases h.says ho hr with ⟨_, rfl, hs, _⟩ | ⟨_, hd⟩
  case inl => exact hs.idle_of_readies (List.mem_singleton.mp hm ▸ ht)
  case inr => exact (hd msg hm ▸ ht : Message.dropped.Readies).elim

theorem Step.reached_busy (h : c.Step codes a ms c') (ho : c.Orderly) (hr : c.role ≠ .rogue)
    (hb : c.reached = .busy) : c'.reached = .busy ∨ ∃ msg ∈ ms, msg.Terminal := by
  rcases h.says ho hr with ⟨msg, rfl, hs, _⟩ | ⟨he, _⟩
  case inl =>
    exact (hb ▸ hs).of_busy reached_ne_gone |>.imp_right fun ht => ⟨msg, .head _, ht⟩
  case inr => exact .inl (he.trans hb)

theorem Step.client_of_hungUp (h : c.Step codes a ms c') (ho : c.Orderly) (hr : c.role ≠ .rogue)
    (hg : c'.task.HungUp) : c'.client = c.client := by
  rcases h.says ho hr with ⟨_, _, _, _, ht⟩ | ⟨he, _⟩
  case inl => exact absurd hg ht.not_hungUp
  case inr => exact client_eq he h.sent_eq

theorem Step.connected (h : c.Step codes a ms c') (hc : c.task.Connected) :
    c'.task.Connected ∨ a = .ends a.conn ∨ a = .breaks a.conn := by
  cases h
  case ends                => exact .inr <| .inl rfl
  case breaks              => exact .inr <| .inr rfl
  case starts | leaves     => exact .inl hc
  case speaks t _ _ _ ht   => exact .inl <| by rcases ht with rfl | rfl <;> trivial
  case takes               => exact .inl hc
  all_goals simp_all [ConnTask.Connected]

theorem Step.connected_of_idle (h : c.Step codes a ms c') (ho : c.Orderly) (hr : c.role ≠ .rogue)
    (hc : c.reached = .idle → c.task.Connected) (hi : c'.reached = .idle) :
    c'.task.Connected ∨ c.reached = .idle ∧ (a = .ends a.conn ∨ a = .breaks a.conn) := by
  rcases h.says ho hr with ⟨_, _, _, _, ht⟩ | ⟨he, _⟩
  case inl => exact .inl ht
  case inr =>
    have hi := he.symm.trans hi
    exact (h.connected (hc hi)).imp_right (⟨hi, ·⟩)

theorem Step.hungUp_or_ends (h : c.Step codes a ms c') (hc : c'.task.HungUp) :
    c.task.HungUp ∨ a = .ends a.conn := by
  cases h
  case ends                => exact .inr rfl
  case starts | leaves     => exact .inl hc
  case speaks t _ _ _ ht   => rcases ht with rfl | rfl <;> exact hc.elim
  all_goals simp_all [ConnTask.HungUp]

theorem Step.opened (h : c.Step codes a ms c') (hc : c.task.Open) :
    c'.task.Open ∨ a = .closes a.conn ∨ a = .breaks a.conn := by
  cases h
  case closes              => exact .inr <| .inl rfl
  case breaks              => exact .inr <| .inr rfl
  case starts | leaves     => exact .inl hc
  case takes               => exact .inl hc
  case speaks t _ _ _ ht   => exact .inl <| by rcases ht with rfl | rfl <;> trivial
  case ends t _ _ ht       => exact .inl <| by rcases ht with rfl | rfl <;> trivial
  all_goals exact .inl trivial

end Conn

-- One connection makes the step, and the others stay as they are.
theorem Net.Moved.conns_at {codes : Codes} {w w' : Net} {a : Act} {ms : List Message} {c : Conn}
    (h : w.Moved codes a w' ms c) (e : Nat) :
    e = a.conn ∧ (w.conns e).Step codes a ms (w'.conns e) ∨
      e ≠ a.conn ∧ w'.conns e = w.conns e := by
  rw [h.conns]
  by_cases he : e = a.conn
  case pos => subst he; exact .inl ⟨rfl, by simpa using h.conn⟩
  case neg => exact .inr ⟨he, Function.update_of_ne he ..⟩

-- What holds for as long as the losses are spared.
structure Config.Attached (c : Config) : Prop where
  idle  : e ∈ c.server.execQueue → (c.net.conns e).reached = .idle
  ready : msg ∈ c.net.unheard c.hand e → msg.Readies → (c.net.conns e).reached = .idle
  busy  : c.server.kind e = .exec → e ∉ c.server.execQueue →
    (c.net.conns e).reached = .busy ∨ ∃ msg ∈ c.net.unheard c.hand e, msg.Terminal
  there : (c.net.conns e).reached = .idle → (c.net.conns e).task.Connected
  apart : e < c.net.size → (c.net.conns e).task.HungUp → (c.net.conns e).client = some j →
    ¬c.net.Answered j → (c.net.conns j).task.Open

namespace Config.Attached

variable {S : Setup} {P : Policy} {c c' : Config} {s s' : ServerState} {w w' : Net}
variable {i j e about : Nat} {msg : Message} {hand : Option (Nat × Message)} {view : Nat → Phase}

theorem start : (Config.start S).Attached where
  idle h      := absurd h List.not_mem_nil
  ready h     := absurd h List.not_mem_nil
  busy h      := nomatch h
  there h     := nomatch h
  apart h     := absurd h <| Nat.not_lt_zero _

theorem frame (h : Attached ⟨s, hand, w⟩) (hq : s'.execQueue = s.execQueue)
    (hk : ∀ e, s'.kind e = .exec → s.kind e = .exec) : Attached ⟨s', hand, w⟩ where
  idle he     := h.idle (hq ▸ he)
  ready       := h.ready
  busy hx he  := h.busy (hk _ hx) (hq ▸ he)
  there       := h.there
  apart       := h.apart

-- The server handles the message in its hand.
theorem hear (h : Attached ⟨s, some (i, msg), w⟩)
    (hq : ∀ e ∈ s'.execQueue, e ∈ s.execQueue ∨ e = i ∧ msg.Readies)
    (hk : ∀ e, s'.kind e = .exec → e ∉ s'.execQueue →
      s.kind e = .exec ∧ e ∉ s.execQueue ∧ (e = i → ¬msg.Terminal)) :
    Attached ⟨s', none, w⟩ where
  idle {e} he := by
    rcases hq e he with he | ⟨rfl, hm⟩
    case inl => exact h.idle he
    case inr => exact h.ready (Net.unheard_hand ▸ .head _) hm
  ready {e _} hm := by
    refine h.ready (e := e) ?_
    by_cases he : e = i
    case pos => subst he; exact Net.unheard_hand ▸ .tail _ hm
    case neg => exact Net.unheard_ne he ▸ hm
  busy {e} hx he := by
    have ⟨hx, he, hm⟩ := hk e hx he
    refine (h.busy hx he).imp_right fun ⟨m, hm', ht⟩ => ⟨m, ?_, ht⟩
    by_cases hi : e = i
    case neg => exact Net.unheard_ne hi ▸ hm'
    case pos =>
      subst hi
      have hm' : m ∈ msg :: w.unheard none e := Net.unheard_hand ▸ hm'
      refine (List.mem_cons.mp hm').resolve_left fun he => ?_
      exact hm rfl (he ▸ ht)
  there := h.there
  apart := h.apart

theorem recv {rest : List (Nat × Message)} (h : Attached ⟨s, none, w⟩)
    (hi : w.inbound = (i, msg) :: rest) :
    Attached ⟨s, some (i, msg), { w with inbound := rest }⟩ where
  idle        := h.idle
  ready hm    := h.ready (Net.unheard_recv hi ▸ hm)
  busy hx he  := (h.busy hx he).imp_right fun ⟨m, hm, ht⟩ => ⟨m, Net.unheard_recv hi ▸ hm, ht⟩
  there       := h.there
  apart       := h.apart

theorem accept {peer : Peer} (h : Attached ⟨s, none, w⟩) (hs : Sound S ⟨s, none, w⟩ view)
    (hf : peer.Fresh) : Attached ⟨s.addRemote, none, w.accept peer⟩ := by
  have hu {e} : (w.accept peer).unheard none e = w.unheard none e :=
    Net.unheard_accept <| hs.wired.absent le_rfl
  have hr : (Conn.fresh peer).reached = .pending := by
    cases peer
    case client => cases hf; rfl
    case exec   => obtain ⟨rfl, rfl⟩ := hf; rfl
    case rogue  => rfl
  have hn {e} (he : e ≠ w.size) : (w.accept peer).conns e = w.conns e := Net.conns_accept_ne he
  have hk {e} : s.addRemote.kind e = s.kind e := congrFun ServerState.kindOf_addRemote e
  constructor
  case idle =>
    intro e he
    have hv := (hs.ledger.queued (i := e) he).right.right
    have hl := hs.ledger.lt_size (i := e) (by rcases hv with hv | hv <;> simp [hv])
    exact hn hl.ne ▸ h.idle he
  case ready =>
    intro e m hm ht
    have hm : m ∈ w.unheard none e := hu ▸ hm
    have he : e ≠ w.size := by
      rintro rfl
      simp [hs.wired.absent le_rfl] at hm
    exact hn he ▸ h.ready hm ht
  case busy =>
    intro e hx he
    have hx : s.kind e = .exec := hk ▸ hx
    have hl : e < w.size := hs.length ▸ s.lt_length hx nofun
    rw [hu]
    exact hn hl.ne ▸ h.busy hx he
  case there =>
    intro e he
    by_cases hl : e = w.size
    case pos => subst hl; exact Net.conns_accept_size ▸ trivial
    case neg => exact hn hl ▸ h.there (hn hl ▸ he)
  case apart =>
    intro e j hl hg hc ha
    have hl : e ≠ w.size := by
      rintro rfl
      rw [Net.conns_accept_size] at hg
      exact hg.elim
    by_cases hj : j = w.size
    case pos => subst hj; exact Net.conns_accept_size ▸ trivial
    case neg =>
      have hl' : e < w.size := by
        have : e < w.size + 1 := ‹_›
        omega
      exact hn hj ▸ h.apart hl' (hn hl ▸ hg) (hn hl ▸ hc) (by simpa [Net.Answered, hn hj] using ha)

-- An exec and the client which it works for are not both lost before the client has been told.
theorem opened_act {a : Act} {ms : List Message} {c : Conn} (h : Attached ⟨s, hand, w⟩)
    (hm : w.Moved S.codes a w' ms c) (ho : (w.conns a.conn).Orderly)
    (hr : (w.conns a.conn).role ≠ .rogue) (ha : Policy.lossSpared.act w a) (hl : e < w'.size)
    (hg : (w'.conns e).task.HungUp) (hc : (w'.conns e).client = some j) (hn : ¬w'.Answered j) :
    (w'.conns j).task.Open := by
  have hs i : (w'.conns i).sent = (w.conns i).sent :=
    hm.forall_conns (P := fun c c' => c'.sent = c.sent) (fun _ => rfl) Conn.Step.sent_eq i
  have hn : ¬w.Answered j := by rwa [Net.Answered, hs] at hn
  have hl : e < w.size := hm.size ▸ hl
  -- The exec was gone before, or it goes now and its client is still there.
  have hw : (w.conns e).task.HungUp ∧ (w.conns e).client = some j ∨
      a = .ends a.conn ∧ (w.conns j).task.Open := by
    rcases hm.conns_at e with ⟨rfl, ht⟩ | ⟨_, he⟩
    case inr => exact .inl ⟨he ▸ hg, he ▸ hc⟩
    case inl =>
      have hc := (ht.client_of_hungUp ho hr hg).symm.trans hc
      refine (ht.hungUp_or_ends hg).imp (⟨·, hc⟩) fun he => ⟨he, ?_⟩
      rw [he] at ha
      exact (of_decide_eq_true ha).right j hc
  have ho : (w.conns j).task.Open := by
    rcases hw with ⟨hg, hc⟩ | ⟨_, ho⟩
    case inl => exact h.apart hl hg hc hn
    case inr => exact ho
  rcases hm.conns_at j with ⟨rfl, ht⟩ | ⟨_, hj⟩
  case inr => exact hj ▸ ho
  case inl =>
    refine (ht.opened ho).resolve_right ?_
    rintro (hb | hb) <;> rw [hb] at ha hw
    case inl =>
      obtain ⟨hg, hc⟩ := hw.resolve_right (by simp)
      exact hn <| of_decide_eq_true ha e hl hg hc
    case inr =>
      obtain ⟨hg, hc⟩ := hw.resolve_right (by simp)
      exact hn <| (of_decide_eq_true ha).right e hl hg hc

theorem act {a : Act} (h : Attached ⟨s, hand, w⟩) (hs : Sound S ⟨s, hand, w⟩ view)
    (ha : Policy.lossSpared.act w a) (hw : w.step S a = some w') : Attached ⟨s, hand, w'⟩ := by
  have ⟨ms, c, hm⟩ := Net.step_moved hw
  have hl := hs.wired.line hm.present
  have ho := hl.orderly
  have hr := hl.behaved
  have hu {e} : w'.unheard hand e = w.unheard hand e ++ if e = a.conn then ms else [] := hm.unheard
  constructor
  case idle =>
    intro e he
    rcases hm.conns_at e with ⟨rfl, hc⟩ | ⟨_, hn⟩
    case inl => exact hc.reached_idle ho hr (h.idle he)
    case inr => exact hn ▸ h.idle he
  case ready =>
    intro e m hm' ht
    rw [hu] at hm'
    rcases hm.conns_at e with ⟨rfl, hc⟩ | ⟨he, hn⟩
    case inr => exact hn ▸ h.ready (by simpa [he] using hm') ht
    case inl =>
      rw [if_pos rfl] at hm'
      rcases List.mem_append.mp hm' with hm' | hm'
      case inl => exact hc.reached_idle ho hr (h.ready hm' ht)
      case inr => exact hc.reached_of_readies ho hr hm' ht
  case busy =>
    intro e hx he
    rw [hu]
    rcases hm.conns_at e with ⟨rfl, hc⟩ | ⟨hi, hn⟩
    case inr => simpa [hi, hn] using h.busy hx he
    case inl =>
      rw [if_pos rfl]
      rcases h.busy hx he with hb | ⟨m, hm', ht⟩
      case inr => exact .inr ⟨m, List.mem_append_left _ hm', ht⟩
      case inl =>
        rcases hc.reached_busy ho hr hb with hb | ⟨m, hm', ht⟩
        case inl => exact .inl hb
        case inr => exact .inr ⟨m, List.mem_append_right _ hm', ht⟩
  case there =>
    intro e he
    rcases hm.conns_at e with ⟨rfl, hc⟩ | ⟨_, hn⟩
    case inr => exact hn ▸ h.there (hn ▸ he)
    case inl =>
      refine (hc.connected_of_idle ho hr h.there he).resolve_right ?_
      rintro ⟨hi, hb | hb⟩ <;> rw [hb] at ha
      case inl => exact (of_decide_eq_true ha).left hi
      case inr => exact (of_decide_eq_true ha).left hi
  case apart => exact h.opened_act hm ho hr ha

-- What the server tells a client only makes it less important that the client is there.
theorem put_client (h : Attached ⟨s, hand, w⟩) (hr : ¬(w.conns j).role.Exec) :
    Attached ⟨s, hand, w.put about j msg⟩ := by
  have hp e : ((w.put about j msg).conns e).reached = (w.conns e).reached := by
    rw [Net.conns_put]
    split
    case isTrue he => exact he ▸ Conn.reached_put_client (he ▸ hr)
    case isFalse   => rfl
  constructor
  case idle  => exact fun he => (hp _).trans (h.idle he)
  case ready => exact fun hm ht => (hp _).trans (h.ready (Net.unheard_put ▸ hm) ht)
  case busy  =>
    intro e hx he
    rw [hp, Net.unheard_put]
    exact h.busy hx he
  case there =>
    intro e he
    rw [Net.task_put]
    exact h.there ((hp e).symm.trans he)
  case apart =>
    intro e k hl hg hc ha
    rw [Net.task_put] at hg ⊢
    refine h.apart hl hg ?_ fun ⟨m, hm, ht⟩ => ha ⟨m, ?_, ht⟩
    case refine_1 =>
      have he : e ≠ j := by
        rintro rfl
        exact nomatch hc.symm.trans <| Conn.client_eq_none (by simpa using hr)
      simpa [Net.conns_put, he] using hc
    case refine_2 =>
      rw [Net.sent_put]
      split
      case isTrue hk => exact List.mem_append_left _ (hk ▸ hm)
      case isFalse   => exact hm

theorem put_exec {rest : List Nat} {phase : Phase} (h : Attached ⟨s, none, w⟩)
    (hs : Sound S ⟨s, none, w⟩ view) (hq : s.execQueue = e :: rest) (hq' : s'.execQueue = rest)
    (hk : ∀ i, s'.kind i = .exec → s.kind i = .exec ∧ (i = e → phase = .busy))
    (hm : (∃ details, msg = .task 0 0 details ∧ phase = .busy) ∨ msg = .pissOff ∧
      phase = .released) :
    Attached ⟨s', none, w.put about e msg⟩ := by
  have hi : (w.conns e).reached = .idle := h.idle (hq ▸ .head _)
  have ht : (w.conns e).task.Connected := h.there hi
  have hv := (hs.queued hq).right.right
  have hl : e < w.size := hs.lt_size (by rcases hv with hv | hv <;> simp [hv])
  have hn : e ∉ rest := (List.nodup_cons.mp <| hq ▸ hs.ledger.once).left
  have hu : w.unheard none e = [] := by
    rcases hv with hv | hv
    case inl =>
      refine (hv ▸ hs.wired.line hl).of_idle.elim And.left fun hg => ?_
      exact absurd (Conn.ahead_eq_gone_iff.mp hg.right) ht.not_hungUp
    case inr => exact (hs.wired.eq_gone_iff hl |>.mp hv).right
  have hp : Conn.reached { w.conns e with sent := (w.conns e).sent ++ [(about, msg)] } = phase := by
    have ha := (Conn.ahead_eq_reached ht.not_hungUp).trans hi
    have hp : Conn.ahead { w.conns e with sent := (w.conns e).sent ++ [(about, msg)] } = phase :=
      (Conn.ahead_send (hs.wired.line hl).orderly ha hm).left
    rwa [Conn.ahead_eq_reached (by exact ht.not_hungUp)] at hp
  have hc : (w.put about e msg).conns e =
      { w.conns e with sent := (w.conns e).sent ++ [(about, msg)] } := by simp [Net.conns_put]
  have hne {i} (hi : i ≠ e) : (w.put about e msg).conns i = w.conns i := by simp [Net.conns_put, hi]
  constructor
  case idle =>
    intro i he
    have he : i ∈ rest := hq' ▸ he
    have hie : i ≠ e := fun h => hn (h ▸ he)
    exact hne hie ▸ h.idle (hq ▸ .tail _ he)
  case ready =>
    intro i m hm ht
    rw [Net.unheard_put] at hm
    have hie : i ≠ e := by
      rintro rfl
      exact List.ne_nil_of_mem hm hu
    exact hne hie ▸ h.ready hm ht
  case busy =>
    intro i hx he
    rw [Net.unheard_put]
    by_cases hie : i = e
    case pos =>
      subst hie
      exact .inl <| hc ▸ hp.trans ((hk i hx).right rfl)
    case neg =>
      refine hne hie ▸ h.busy (hk i hx).left fun hq'' => he ?_
      exact hq' ▸ (List.mem_cons.mp (hq ▸ hq'')).resolve_left hie
  case there =>
    intro i hi
    rw [Net.task_put]
    by_cases hie : i = e
    case pos => exact hie ▸ ht
    case neg => exact h.there (hne hie ▸ hi)
  case apart =>
    intro i k hl hg hcl ha
    rw [Net.task_put] at hg ⊢
    have hie : i ≠ e := by
      rintro rfl
      exact absurd hg ht.not_hungUp
    refine h.apart hl hg (hne hie ▸ hcl) fun ⟨m, hm, ht⟩ => ha ⟨m, ?_, ht⟩
    rw [Net.sent_put]
    split
    case isTrue hk => exact List.mem_append_left _ (hk ▸ hm)
    case isFalse   => exact hm

theorem forwards (h : Attached ⟨s, hand, w⟩) (hs : Sound S ⟨s, hand, w⟩ view) (hv : view i = .busy)
    (hf : Forwards P i msg s w s' w') : Attached ⟨s', hand, w'⟩ := by
  cases hf
  case sent hp _ _ _   =>
    have ⟨_, _, hr, _⟩ := hs.serves hv hp
    exact h.put_client (by simp [hr])
  case lost hp hk _ _  =>
    exact h.frame rfl fun _ hx =>
      ServerState.kind_of_setConnType (ServerState.lt_length hk nofun) hx nofun
  case skipped         => exact h

theorem move (h : c.Attached) (hs : c.Sound S view)
    (m : Move S (.and .wellBehaved .lossSpared) c c') : c'.Attached := by
  cases m
  case act ha hw                  => exact h.act hs (Policy.and_act ha) hw
  case accept hf _                => exact h.accept hs hf
  case recv hi _                  => exact h.recv hi
  case record                     => exact h.frame rfl fun _ => id
  case spawn                      => exact h.frame (by simp) fun _ => by simp [ServerState.kind]
  case register i s _ _ _ hi      =>
    refine h.hear (fun e he => ?_) fun e hx he => ?_
    case refine_1 =>
      have he : e ∈ s.execQueue ∨ e = i := by simpa [ServerState.makeReady] using he
      exact he.imp_right (⟨·, trivial⟩)
    case refine_2 =>
      have he : e ∉ s.execQueue ∧ e ≠ i := by simpa [ServerState.makeReady] using he
      refine ⟨?_, he.left, fun hi => absurd hi he.right⟩
      simpa [ServerState.kind, ServerState.makeReady, ServerState.kindOf_setConnType hi, he.right]
        using hx
  case submit hi _                =>
    refine h.hear (fun _ => .inl) fun e hx he => ⟨?_, he, fun _ => id⟩
    exact ServerState.kind_of_setConnType hi hx (by decide)
  case output hm ht hf            =>
    obtain ⟨_, _, hr, _⟩ := hs.wired.hear
    refine (h.forwards hs (hr.of_result hm).right.left hf).hear (fun _ => .inl) ?_
    exact fun e hx he => ⟨hx, he, fun _ => ht⟩
  case complete i _ _ _ s' _ ht hf =>
    obtain ⟨_, _, hr, _⟩ := hs.wired.hear
    refine (h.forwards hs (hr.of_result ht.result).right.left hf).hear (fun e he => ?_) ?_
    case refine_1 =>
      have he : e ∈ s'.execQueue ∨ e = i := by
        simpa [ServerState.makeReady, ServerState.countFinished] using he
      exact he.imp_right (⟨·, ht.readies⟩)
    case refine_2 =>
      intro e hx he
      have he : e ∉ s'.execQueue ∧ e ≠ i := by
        simpa [ServerState.makeReady, ServerState.countFinished] using he
      refine ⟨?_, he.left, fun hi => absurd hi he.right⟩
      simpa [ServerState.kind, ServerState.makeReady, ServerState.countFinished] using hx
  case drop hi _                  =>
    refine h.hear (fun _ => .inl) fun e hx he => ⟨?_, he, fun _ => id⟩
    exact ServerState.kind_of_setConnType hi hx (by decide)
  case dropIdle hk _              =>
    refine h.hear (fun _ => .inl) fun e hx he => ⟨?_, he, fun _ => id⟩
    exact ServerState.kind_of_setConnType (ServerState.lt_length hk (by decide)) hx (by decide)
  case dropBusy hk hp _ _         =>
    obtain ⟨_, _, hr, _⟩ := hs.serves (hs.busy hk hp) hp
    refine (h.put_client (by simp [hr])).hear (fun _ => .inl) fun e hx he => ⟨?_, he, fun _ => id⟩
    exact ServerState.kind_of_setConnType (ServerState.lt_length hk (by decide)) hx (by decide)
  case assign he _ _ _ _ _ _ _    =>
    refine h.put_exec hs he rfl (fun i hi => ⟨?_, fun _ => rfl⟩) (.inl ⟨_, rfl, rfl⟩)
    simpa [ServerState.kind, ServerState.pair] using hi
  case release hq he _ _ =>
    refine h.put_exec hs hq rfl (fun i hi => ⟨?_, ?_⟩) (.inr ⟨rfl, rfl⟩)
    case refine_1 => exact ServerState.kind_of_setConnType he hi (by decide)
    case refine_2 =>
      rintro rfl
      have hd := congrFun (ServerState.kindOf_setConnType (t := .dead) he) i
      rw [Function.update_self] at hd
      cases hd.symm.trans hi

end Config.Attached

theorem Reach.attached {S : Setup} {c : Config} (h : Reach S (.and .wellBehaved .lossSpared) c) :
    c.Attached := by
  induction h with
  | start       => exact .start
  | move h m hi => exact have ⟨_, hs⟩ := h.sound Policy.tame_and; hi.move hs m

end SprayCC
