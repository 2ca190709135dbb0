import SprayCC.Cluster.Delivery
import SprayCC.Cluster.Manners

-- What comes to the clients, some of which have dropped their connections: nothing more is written
-- to the socket of such a client, whatever the server still puts on its channel.

namespace SprayCC

namespace Ledger

-- The ledger without what the remotes which are `deaf` do not get any more. They have got the first
-- `got` messages of theirs.
def heard (l : Ledger) (deaf : Nat → Bool) (got : Nat → Nat) : Ledger :=
  { l with
    opened i := l.opened i ∧ ¬deaf i
    sent i   := if deaf i then (l.sent i).take (got i) else l.sent i
    kind i   := if deaf i ∧ l.kind i = .client then .dead else l.kind i }

variable {l : Ledger} {deaf : Nat → Bool} {got : Nat → Nat} {i j e n : Nat} {details : TaskDetails}
variable {msg : Message}

theorem sent_heard_of_exec (hd : ∀ i, deaf i → ¬(l.role i).Exec) (hr : (l.role e).Exec) :
    (l.heard deaf got).sent e = l.sent e :=
  if_neg fun h => hd e h hr

theorem sent_heard_prefix : ((l.heard deaf got).sent i) <+: l.sent i := by
  show (if _ then _ else _) <+: _
  split
  case isTrue  => exact List.take_prefix ..
  case isFalse => exact List.prefix_rfl

theorem Job.of_prefix {l' : Ledger} (h : l'.Job e n i details) (hp : l'.sent e <+: l.sent e) :
    l.Job e n i details := by
  have ⟨rest, hr⟩ := hp
  have ⟨hn, _⟩ := List.getElem?_eq_some_iff.mp h
  rw [Job, ← hr, List.getElem?_append_left hn]
  exact h

@[simp]
theorem kind_heard_exec : (l.heard deaf got).kind i = .exec ↔ l.kind i = .exec := by
  simp only [heard]
  grind

@[simp]
theorem kind_heard_client : (l.heard deaf got).kind i = .client ↔ l.kind i = .client ∧ ¬deaf i := by
  simp only [heard]
  grind

theorem Serves.heard (h : l.Serves e i details) (hd : ∀ i, deaf i → ¬(l.role i).Exec)
    (hr : (l.role e).Exec) : (l.heard deaf got).Serves e i details :=
  h.frame rfl rfl rfl (.inl rfl) (sent_heard_of_exec hd hr) fun _ hm =>
    .inl <| sent_heard_prefix.subset hm

theorem Sound.role_of_exec (h : l.Sound) (hk : l.kind e = .exec) : (l.role e).Exec := by
  rcases h.exec_cases hk with ⟨hv, _⟩ | ⟨hv, _⟩
  case inl => exact (h.idle hv).left
  case inr => exact (h.busy hv).left

theorem Sound.heard (h : l.Sound) (hd : ∀ i, deaf i → ¬(l.role i).Exec) :
    (l.heard deaf got).Sound where
  later       := h.later
  pending hv  := by
    have ⟨hk, hp, hs⟩ := h.pending hv
    refine ⟨by simp [Ledger.heard, hk], hp, fun hi => ?_⟩
    exact List.prefix_nil.mp <| hs hi ▸ sent_heard_prefix
  submitted hv := by
    have ⟨hr, hk⟩ := h.submitted hv
    refine ⟨hr, ?_⟩
    simp only [Ledger.heard]
    grind
  idle hv     := by
    have ⟨hr, hk, hp⟩ := h.idle hv
    exact ⟨hr, by simp [Ledger.heard, hk], hp⟩
  busy hv     := by
    have ⟨hr, hk, j, d, hs⟩ := h.busy hv
    exact ⟨hr, by simp [Ledger.heard, hk], j, d, hs.heard hd hr⟩
  released hv := by
    have ⟨hr, hk⟩ := h.released hv
    exact ⟨hr, by simp [Ledger.heard, hk]⟩
  gone hv     := by simp [Ledger.heard, h.gone hv]
  once        := h.once
  queued      := h.queued
  single      := h.single
  tasked hm   := by
    have ⟨hr, hp, hs, hv⟩ := h.tasked hm
    exact ⟨hr, hp, List.prefix_nil.mp <| hs ▸ sent_heard_prefix, hv⟩

-- What the server puts on the channel of a remote which is deaf does not count.

theorem heard_put_of_deaf (hd : deaf j) (hg : got j ≤ (l.sent j).length) :
    (l.put i j msg).heard deaf got = l.heard deaf got := by
  refine Ledger.ext rfl rfl rfl (funext fun k => ?_) rfl rfl rfl rfl rfl
  by_cases hk : k = j
  case pos => subst hk; simp [Ledger.heard, Ledger.put, hd, List.take_append_of_le_length hg]
  case neg => simp [Ledger.heard, Ledger.put, hk]

theorem heard_put (hd : ¬deaf j) :
    (l.put i j msg).heard deaf got = (l.heard deaf got).put i j msg := by
  refine Ledger.ext rfl rfl rfl (funext fun k => ?_) rfl rfl rfl rfl rfl
  by_cases hk : k = j
  case pos => subst hk; simp [Ledger.heard, Ledger.put, hd]
  case neg => simp [Ledger.heard, Ledger.put, hk]

theorem heard_assign {k : Nat} {rest : List Nat} (hd : ¬deaf e) :
    (l.assign k rest i e details).heard deaf got =
      (l.heard deaf got).assign k rest i e details := by
  refine Ledger.ext rfl rfl rfl (funext fun j => ?_) rfl rfl rfl rfl rfl
  by_cases hj : j = e
  case pos => subst hj; simp [Ledger.heard, Ledger.assign, hd]
  case neg => simp [Ledger.heard, Ledger.assign, hj]

theorem heard_release {rest : List Nat} (hd : ¬deaf e) :
    (l.release e rest).heard deaf got = (l.heard deaf got).release e rest := by
  refine Ledger.ext rfl rfl rfl (funext fun j => ?_) (funext fun j => ?_) rfl rfl rfl rfl
  case refine_1 =>
    by_cases hj : j = e
    case pos => subst hj; simp [Ledger.heard, Ledger.release, hd]
    case neg => simp [Ledger.heard, Ledger.release, hj]
  case refine_2 =>
    by_cases hj : j = e
    case pos => subst hj; simp [Ledger.heard, Ledger.release]
    case neg => simp [Ledger.heard, Ledger.release, hj]

end Ledger

namespace Traffic.Sound

variable {t : Traffic} {l : Ledger} {deaf deaf' : Nat → Bool} {got got' : Nat → Nat} {i e : Nat}
variable {details : TaskDetails} {prior : Duration} {role : Role}

-- More remotes become deaf.
theorem mute (h : t.Sound (l.heard deaf got)) (hs : l.Sound)
    (hd : ∀ i, deaf i → deaf' i ∧ got' i = got i) (hr : ∀ i, deaf' i → ¬(l.role i).Exec)
    (hj : ∀ {e n i details}, l.Job e n i details → (l.role e).Exec) :
    t.Sound (l.heard deaf' got') := by
  have hp i : ((l.heard deaf' got').sent i) <+: ((l.heard deaf got).sent i) := by
    by_cases hi : deaf i
    case pos => simp [Ledger.heard, hi, (hd i hi).left, (hd i hi).right]
    case neg =>
      rw [show (l.heard deaf got).sent i = l.sent i from if_neg hi]
      exact Ledger.sent_heard_prefix
  have hr' i (hi : deaf i) : ¬(l.role i).Exec := hr i (hd i hi).left
  have hjob {e n i details} : (l.heard deaf' got').Job e n i details →
      (l.heard deaf got).Job e n i details :=
    fun hn => hn.of_prefix (hp e)
  have hjob' {e n i details} (hn : (l.heard deaf got).Job e n i details) :
      (l.heard deaf' got').Job e n i details := by
    have hn : l.Job e n i details := hn.of_prefix Ledger.sent_heard_prefix
    exact (congrArg (·[n]?) <| Ledger.sent_heard_of_exec hr (hj hn)).trans hn
  constructor
  case absent  => exact fun he => List.prefix_nil.mp <| h.absent he ▸ hp _
  case owned   => exact fun hn => h.owned (hjob hn)
  case once    => exact fun hn hn' => h.once (hjob hn) (hjob hn')
  case known   => exact fun hi hm => (h.known hi ((hp _).subset hm)).imp fun _ => hjob'
  case current =>
    intro e i hk hpi hi
    have hk := Ledger.kind_heard_exec.mp hk
    have ⟨hi, hdi⟩ := Ledger.kind_heard_client.mp hi
    have hdi' : ¬deaf i := fun hi => hdi (hd i hi).left
    have hc := h.current (Ledger.kind_heard_exec.mpr hk) hpi
      (Ledger.kind_heard_client.mpr ⟨hi, hdi'⟩)
    have hre := hs.role_of_exec hk
    rw [Ledger.sent_heard_of_exec hr' hre] at hc
    rw [Ledger.sent_heard_of_exec hr hre, ← hc]
    simp [Ledger.heard, hdi, hdi']
  case told    => exact fun hn => (List.IsPrefix.map _ (hp _)).trans <| h.told (hjob hn)

-- The other remotes go on as they would.

theorem heard_register (h : t.Sound (l.heard deaf got)) (hr : (l.role i).Exec) :
    t.Sound ((l.register i).heard deaf got) :=
  (h.register hr).frame rfl rfl rfl (fun _ _ _ => id) fun e j he hp hj => by
    simp only [Ledger.heard, Ledger.register, Function.update_apply] at he hp hj ⊢
    grind

theorem heard_submit (h : t.Sound (l.heard deaf got)) (hs : (l.heard deaf got).Sound)
    (hv : l.view i = .pending) : t.Sound ((l.submit i details prior).heard deaf got) :=
  have h : t.Sound ((l.heard deaf got).submit i details prior) := h.submit hs hv
  h.frame rfl rfl rfl (fun _ _ _ => id) fun e j he hp hj => by
    simp only [Ledger.heard, Ledger.submit, Function.update_apply] at he hp hj ⊢
    grind

theorem heard_finish (h : t.Sound (l.heard deaf got)) (hr : (l.role e).Exec) :
    t.Sound ((l.finish e).heard deaf got) :=
  (h.finish hr).frame rfl rfl rfl (fun _ _ _ => id) fun _ _ he hp hj => ⟨he, hp, hj⟩

theorem heard_lose (h : t.Sound (l.heard deaf got)) : t.Sound ((l.lose i).heard deaf got) :=
  (h.lose (i := i)).frame rfl rfl rfl (fun _ _ _ => id) fun e j he hp hj => by
    simp only [Ledger.heard, Ledger.lose, Function.update_apply] at he hp hj ⊢
    grind

theorem heard_drop (h : t.Sound (l.heard deaf got)) : t.Sound ((l.drop i).heard deaf got) :=
  h.heard_lose.frame rfl rfl rfl (fun _ _ _ => id) fun _ _ he hp hj => ⟨he, hp, hj⟩

end Traffic.Sound

-- The remotes which are no execs and have dropped their connections.
def Net.deaf (w : Net) (i : Nat) : Bool :=
  match (w.conns i).role with
  | .exec _ => false
  | _       => (w.conns i).task.HungUp

def Net.got (w : Net) (i : Nat) : Nat :=
  (w.conns i).taken

-- What a task has taken from its channel is there, and the tasks which have not been started yet
-- are at their beginning.
structure Net.Bounded (w : Net) : Prop where
  taken  : ∀ i, (w.conns i).taken ≤ (w.conns i).sent.length
  absent : w.size ≤ i → (w.conns i).task = .select

namespace Net

variable {w w' : Net} {i about dest : Nat} {msg : Message} {S : Setup} {a : Act}

theorem deaf_iff : w.deaf i ↔ (w.conns i).task.HungUp ∧ ¬(w.conns i).role.Exec := by
  unfold deaf
  cases (w.conns i).role <;> simp [Role.Exec]

@[simp]
theorem deaf_put : (w.put about dest msg).deaf = w.deaf := by
  funext i
  simp [deaf]

@[simp]
theorem got_put : (w.put about dest msg).got = w.got := by
  funext i
  rw [got, conns_put]
  split <;> rfl

theorem Bounded.put (h : w.Bounded) : (w.put about dest msg).Bounded where
  taken i   := by
    rw [conns_put]
    split
    case isTrue  => exact (h.taken i).trans (by simp)
    case isFalse => exact h.taken i
  absent hi := task_put.trans <| h.absent hi

theorem Bounded.accept {peer : Peer} (h : w.Bounded) : (w.accept peer).Bounded where
  taken i       := by
    by_cases hi : i = w.size
    case pos => exact hi ▸ conns_accept_size ▸ le_rfl
    case neg => exact conns_accept_ne hi ▸ h.taken i
  absent {i} hi := by
    have hi : w.size < i := hi
    exact conns_accept_ne hi.ne' ▸ h.absent hi.le

theorem Bounded.act (h : w.Bounded) (hs : w.step S a = some w') : w'.Bounded := by
  have ⟨_, _, hm⟩ := step_moved hs
  constructor
  case taken =>
    refine fun i => hm.forall_conns (P := fun c c' => c.taken ≤ c.sent.length →
      c'.taken ≤ c'.sent.length) (fun _ => id) (fun hc hl => ?_) i (h.taken i)
    cases hc
    case takes | breaks => assumption
    case speaks hc _    => cases hc <;> exact hl
    all_goals exact hl
  case absent =>
    intro i hi
    have hi : w.size ≤ i := hm.size ▸ hi
    have hn : i ≠ a.conn := by rintro rfl; exact not_lt.mpr hi hm.present
    rw [hm.conns, Function.update_of_ne hn]
    exact h.absent hi

end Net

theorem Conn.Step.taken_of {codes : Codes} {c c' : Conn} {a : Act} {ms : List Message}
    (h : c.Step codes a ms c') (hc : c.task.HungUp) : c'.taken = c.taken := by
  cases h
  case takes ht _ | breaks ht _ => exact absurd hc <| by simp [ht, ConnTask.HungUp]
  case speaks hs _              => cases hs <;> rfl
  all_goals rfl

theorem Reach.bounded {S : Setup} {P : Policy} {c : Config} (h : Reach S P c) : c.net.Bounded := by
  induction h with
  | start       => exact ⟨fun _ => le_rfl, fun _ => rfl⟩
  | move hr m hi =>
    cases m
    case act hs    => exact hi.act hs
    case accept    => exact hi.accept
    case recv      => exact ⟨hi.taken, hi.absent⟩
    case output hf | complete hf =>
      cases hf
      case sent           => exact hi.put
      case lost | skipped => exact hi
    case dropBusy | assign | release => exact hi.put
    all_goals exact hi

-- The traffic for those clients of the server which still listen, and what the others have got.
def Config.Tells (c : Config) : Prop :=
  (c.net.traffic c.hand).Sound
    ((c.server.ledger c.net fun _ => .pending).heard c.net.deaf c.net.got)

namespace Config.Tells

open Config.Sound

variable {S : Setup} {P : Policy} {c c' : Config} {s s' : ServerState} {w w' : Net} {i j e : Nat}
variable {hand : Option (Nat × Message)} {view : Nat → Phase} {msg : Message} {t : Traffic}
variable {l : Ledger}

theorem of_ledger (h : t.Sound (l.heard w.deaf w.got)) (hl : s.ledger w view = l)
    (ht : w.traffic hand = t) : Tells ⟨s, hand, w⟩ := by
  subst hl ht
  exact h.frame rfl rfl rfl (fun _ _ _ => id) fun _ _ he hp hk => ⟨he, hp, hk⟩

theorem sound (h : Tells ⟨s, hand, w⟩) (view : Nat → Phase) :
    (w.traffic hand).Sound ((s.ledger w view).heard w.deaf w.got) :=
  Traffic.Sound.frame h rfl rfl rfl (fun _ _ _ => id) fun _ _ he hp hk => ⟨he, hp, hk⟩

theorem not_exec {i : Nat} (hi : w.deaf i) : ¬((s.ledger w view).role i).Exec :=
  (Net.deaf_iff.mp hi).right

theorem heard (hs : Sound S ⟨s, hand, w⟩ view) :
    ((s.ledger w view).heard w.deaf w.got).Sound :=
  hs.ledger.heard fun _ => not_exec

-- What the step of a connection does to the traffic, in terms of any ledger which tells what the
-- execs have been sent.
theorem traffic_act {a : Act} (hs : Sound S ⟨s, hand, w⟩ view) (h : (w.traffic hand).Sound l)
    (hl : ∀ e, (w.conns e).role.Exec → l.sent e = (w.conns e).sent) (ha : w.step S a = some w') :
    (w'.traffic hand).Sound l := by
  have ⟨ms, c, hm⟩ := Net.step_moved ha
  have hw := hs.wired.line hm.present
  rcases hm.conn.produces hw.behaved with ⟨hp, hf⟩ | ⟨_, job, _, msg, hp, hh, hh', rfl, hr, hp'⟩
  case inl =>
    refine h.ends ?_ ?_ fun e _ he => ?_
    case refine_1 =>
      funext e n
      by_cases hj : e = a.conn
      case pos => subst hj; simp [Net.traffic, hm.conns, Conn.results, hp]
      case neg => simp [Net.traffic, hm.conns, hj]
    case refine_2 =>
      funext e
      by_cases hj : e = a.conn <;> simp [Net.traffic, hm.unheard, hj, hf]
    case refine_3 =>
      simp only [Net.traffic, decide_eq_true_eq] at he ⊢
      exact hm.forall_conns (P := fun c c' => c.task.HungUp → c'.task.HungUp) (fun _ => id)
        Conn.Step.hungUp_of e he
  case inr =>
    have ho := hw.orderly hh
    simp only [hp] at ho
    have hj : job + 1 = (l.sent a.conn).length := by
      rw [hl a.conn (by simp [Conn.role, hp, Peer.role, Role.Exec])]
      omega
    have ht : w'.traffic hand = (w.traffic hand).produce a.conn job msg := by
      simp only [Net.traffic, Traffic.produce, Traffic.mk.injEq]
      refine ⟨?_, ?_, ?_⟩ <;> funext e
      case refine_1 =>
        funext n
        by_cases hj : e = a.conn
        case pos =>
          subst hj
          by_cases hn : job = n
          case pos => simp [hm.conns, Conn.results, hp', hn]
          case neg => simp [hm.conns, Conn.results, hp', hn, Ne.symm hn]
        case neg => simp [hm.conns, hj]
      case refine_2 => by_cases hj : e = a.conn <;> simp [hm.unheard, hj, hr]
      case refine_3 =>
        by_cases hj : e = a.conn
        case pos => subst hj; simp [hm.conns, hh, hh']
        case neg => simp [hm.conns, hj]
    exact ht ▸ h.produce (by simpa [Net.traffic] using hh) hj

theorem act {a : Act} (hs : Sound S ⟨s, hand, w⟩ view) (hm : w.Mannered)
    (h : Tells ⟨s, hand, w⟩) (ha : w.step S a = some w') : Tells ⟨s, hand, w'⟩ := by
  have ⟨ms, c, hv⟩ := Net.step_moved ha
  have hr j :=
    hv.forall_conns (P := fun c c' => c'.role = c.role) (fun _ => rfl) Conn.Step.role_eq j
  have hn j :=
    hv.forall_conns (P := fun c c' => c'.sent = c.sent) (fun _ => rfl) Conn.Step.sent_eq j
  have hd i (hi : w.deaf i) : w'.deaf i ∧ w'.got i = w.got i := by
    have ⟨hh, hi⟩ := Net.deaf_iff.mp hi
    have ⟨hh', ht⟩ := hv.forall_conns
      (P := fun c c' => c.task.HungUp → c'.task.HungUp ∧ c'.taken = c.taken)
      (fun _ h => ⟨h, rfl⟩) (fun hs h => ⟨hs.hungUp_of h, hs.taken_of h⟩) i hh
    exact ⟨Net.deaf_iff.mpr ⟨hh', hr i ▸ hi⟩, ht⟩
  have hj {e n i details} (hj : (s.ledger w view).Job e n i details) : (w.conns e).role.Exec := by
    by_contra hr
    exact (hm e).result hr _ (List.mem_of_getElem? hj)
  have hx i (hi : w'.deaf i) : ¬(w.conns i).role.Exec := hr i ▸ (Net.deaf_iff.mp hi).right
  have hl := (h.sound view).mute hs.ledger hd hx hj
  have hl := traffic_act hs hl (fun e he => Ledger.sent_heard_of_exec hx he) ha
  refine Traffic.Sound.frame hl hv.size ?_ (funext hr) (fun _ _ _ => id) fun _ _ he hp hk =>
    ⟨he, hp, hk⟩
  funext i
  show (if _ then ((w'.conns i).sent.take _) else (w'.conns i).sent) = _
  rw [hn i]
  rfl

theorem accept {peer : Peer} (hs : Sound S ⟨s, none, w⟩ view) (hw : w.Works) (hb : w.Bounded)
    (h : Tells ⟨s, none, w⟩) : Tells ⟨s.addRemote, none, w.accept peer⟩ := by
  have hl := h.sound view
  have hd : ¬w.deaf w.size := by
    simp [Net.deaf_iff, hb.absent le_rfl, ConnTask.HungUp]
  have ha : (w.conns w.size).sent = [] := (if_neg hd).symm.trans <| hl.absent le_rfl
  have hr n : (w.conns w.size).results n = [] :=
    (hw w.size).results_eq_nil <| (hw w.size).count.trans <| by simp [ha]
  have hn i (hi : i ≠ w.size) :
      (w.accept peer).deaf i = w.deaf i ∧ (w.accept peer).got i = w.got i := by
    simp [Net.deaf, Net.got, hi]
  have hs' : ¬(w.accept peer).deaf w.size := by simp [Net.deaf_iff, Conn.fresh, ConnTask.HungUp]
  have hl : (w.traffic none).Sound (((s.ledger w view).accept peer.role).heard (w.accept peer).deaf
      (w.accept peer).got) := by
    have ha : (w.traffic none).Sound
        (((s.ledger w view).heard w.deaf w.got).accept peer.role) := hl.accept (heard hs)
    refine ha.frame rfl ?_ rfl (fun _ _ _ => id) fun e i he hp hi => ⟨?_, hp, ?_⟩
    · funext i
      by_cases hi : i = w.size
      case pos => subst hi; simp [Ledger.heard, Ledger.accept, hs', ServerState.ledger]
      case neg =>
        obtain ⟨hd, hg⟩ := hn i hi
        simp [Ledger.heard, Ledger.accept, hd, hg, ServerState.ledger, hi]
    · show ((s.ledger w view).heard w.deaf w.got).kind e = .exec
      rw [Ledger.kind_heard_exec] at he ⊢
      exact he
    · show ((s.ledger w view).heard w.deaf w.got).kind i = .client
      rw [Ledger.kind_heard_client] at hi ⊢
      refine ⟨hi.left, ?_⟩
      by_cases hz : i = w.size
      case pos => exact hz ▸ hd
      case neg => exact (hn i hz).left ▸ hi.right
  refine of_ledger (hl.ends ?_ ?_ fun e he hh => ?_) ledger_accept rfl
  case refine_1 =>
    funext e n
    by_cases he : e = w.size
    case pos =>
      subst he
      refine .trans ?_ (hr n).symm
      simp [Net.traffic, Conn.fresh, Conn.results]
    case neg => simp [Net.traffic, he]
  case refine_2 =>
    funext e
    simp [Net.traffic, Net.unheard_accept <| hs.wired.absent le_rfl]
  case refine_3 =>
    have hn : e ≠ w.size := by
      rintro rfl
      simp [Ledger.heard, Ledger.accept, hs', ServerState.ledger] at he
    simpa [Net.traffic, hn] using hh

-- A result for the partner of a busy exec, which may be deaf.
theorem put_partner (hs : Sound S ⟨s, some (i, msg), w⟩ view) (hb : w.Bounded)
    (h : Tells ⟨s, some (i, msg), w⟩) (hm : msg.Result) (hv : view i = .busy)
    (hp : s.partner i = some j) (hk : s.kind j = .client) : Tells ⟨s, none, w.put i j msg⟩ := by
  have ⟨details, hsv, _, _⟩ := hs.serves hv hp
  have h := h.sound view
  have ht := Net.traffic_hear (w := w) i msg
  by_cases hd : w.deaf j
  case pos =>
    have hj : ((s.ledger w view).heard w.deaf w.got).kind j ≠ .client :=
      fun hk => (Ledger.kind_heard_client.mp hk).right hd
    have h : (w.traffic none).Sound ((s.ledger w view).heard w.deaf w.got) :=
      ht ▸ h.hear_of_partner hp hj
    have he : ((s.ledger w view).put i j msg).heard w.deaf w.got = _ :=
      Ledger.heard_put_of_deaf hd (hb.taken j)
    rw [← he] at h
    exact of_ledger (by rwa [Net.deaf_put, Net.got_put]) ledger_put Net.traffic_put
  case neg =>
    have hsv : ((s.ledger w view).heard w.deaf w.got).Serves i j details :=
      hsv.heard (fun _ => not_exec) (hs.ledger.busy hv).left
    have hc : ((s.ledger w view).heard w.deaf w.got).kind j = .client :=
      Ledger.kind_heard_client.mpr ⟨hk, hd⟩
    have h := h.put (heard hs) hv hsv hc (Net.coming_hand hm) hm
    rw [← Ledger.heard_put hd, ← ht] at h
    exact of_ledger (by rwa [Net.deaf_put, Net.got_put]) ledger_put Net.traffic_put

theorem output (hs : Sound S ⟨s, some (i, msg), w⟩ view) (hb : w.Bounded)
    (h : Tells ⟨s, some (i, msg), w⟩) (hm : msg.Result) (hf : Forwards P i msg s w s' w') :
    Tells ⟨s', none, w'⟩ := by
  obtain ⟨_, _, hr, _⟩ := hs.wired.hear
  have hv := (hr.of_result hm).right.left
  have hl := h.sound view
  have ht := Net.traffic_hear (w := w) i msg
  cases hf
  case sent j hp hk _ _ => exact h.put_partner hs hb hm hv hp hk
  case lost j hp hk _ _ =>
    have hj' : j < s.remotes.length := s.lt_length hk nofun
    have hj : (((s.ledger w view).lose j).heard w.deaf w.got).kind j ≠ .client := by
      simp [Ledger.heard, Ledger.lose]
    have hl : (w.traffic none).Sound _ := ht ▸ hl.heard_lose.hear_of_partner hp hj
    exact of_ledger hl (ledger_lose hj') rfl
  case skipped j hp hk   =>
    have hj : ((s.ledger w view).heard w.deaf w.got).kind j ≠ .client :=
      fun hj => hk (Ledger.kind_heard_client.mp hj).left
    have hl : (w.traffic none).Sound _ := ht ▸ hl.hear_of_partner hp hj
    exact of_ledger hl rfl rfl

-- A client which listens is still there for the server when it is to be notified.
theorem notify (hs : Sound S ⟨s, some (i, .dropped), w⟩ view) (hb : w.Bounded)
    (h : Tells ⟨s, some (i, .dropped), w⟩) (hk : s.kind i = .exec) (hp : s.partner i = some j)
    (ho : (w.conns j).task.Open) : Tells ⟨s.bury i, none, w.put i j droppedNotice⟩ := by
  have hv := hs.busy hk hp
  have ⟨details, hsv, hr, hj⟩ := hs.serves hv hp
  have ⟨hi, _, hm, hw⟩ := hs.wired.hear
  obtain ⟨_, rfl⟩ := hm.of_dropped
  have hl := h.sound view
  suffices hl : (w.traffic (some (i, .dropped))).Sound
    ((((s.ledger w view).drop i).put i j droppedNotice).heard w.deaf w.got) from
      of_ledger (by rwa [Net.deaf_put, Net.got_put]) (ledger_drop_put <| s.lt_length hk nofun)
        (Net.traffic_put.trans <| Net.traffic_hear_other id)
  by_cases hd : w.deaf j
  case pos =>
    have hg : w.got j ≤ (((s.ledger w view).drop i).sent j).length := hb.taken j
    rw [Ledger.heard_put_of_deaf hd hg]
    exact hl.heard_drop
  case neg =>
    have hc : s.kind j = .client := by
      rcases hsv.view with hv' | hv'
      case inl => exact (hs.ledger.submitted hv').right.resolve_right fun h => h.right ho
      case inr =>
        have ⟨hh, _⟩ := hs.wired.eq_gone_iff hj |>.mp hv'
        exact absurd (Net.deaf_iff.mpr ⟨hh, by simp [hr]⟩) hd
    have hc : ((s.ledger w view).heard w.deaf w.got).kind j = .client :=
      Ledger.kind_heard_client.mpr ⟨hc, hd⟩
    have hsv : ((s.ledger w view).heard w.deaf w.got).Serves i j details :=
      hsv.heard (fun _ => not_exec) (hs.ledger.busy hv).left
    have ⟨hh, hu⟩ := hw.eq_gone_iff hi |>.mp (by simp)
    have hn : (w.traffic (some (i, .dropped))).coming i = [] := by
      simp only [Net.traffic, Net.unheard_hand, hu]
      rfl
    have hl := hl.notify (heard hs) hv hsv hc hn (by simpa [Net.traffic] using hh)
    rw [Ledger.heard_put hd]
    refine hl.frame rfl rfl rfl (fun _ _ _ => id) fun e i' he hp hi => ?_
    simp only [Ledger.heard, Ledger.put, Ledger.drop, Function.update_apply] at he hp hi ⊢
    grind

theorem assign {k : Nat} {rest : List Nat} {details : TaskDetails} {prior : Duration}
    (hs : Sound S ⟨s, none, w⟩ view) (hw : w.Works) (h : Tells ⟨s, none, w⟩)
    (hk : s.taskQueue[k]? = some ((i, details), prior)) (he : s.execQueue = e :: rest)
    (hi : i < s.remotes.length) (hj : e < s.remotes.length) :
    Tells ⟨(s.pop k rest).pair i e, none, w.put i e (.task 0 0 details)⟩ := by
  have ⟨hr, _⟩ := hs.queued he
  have hd : ¬w.deaf e := fun hd => (Net.deaf_iff.mp hd).right hr
  have hn : ((s.ledger w view).heard w.deaf w.got).sent e = (w.conns e).sent :=
    Ledger.sent_heard_of_exec (fun _ => not_exec) hr
  have hl := (h.sound view).assign (heard hs) hk he (Config.Delivers.coming_of_queued hs he) <| by
    rw [hn]
    exact (hw e).results_eq_nil (hw e).count
  have hl : (w.traffic none).Sound (((s.ledger w view).assign k rest i e details).heard
      (w.put i e (.task 0 0 details)).deaf (w.put i e (.task 0 0 details)).got) := by
    rwa [Net.deaf_put, Net.got_put, Ledger.heard_assign hd]
  exact of_ledger hl (ledger_assign hi hj <| hs.length ▸ hs.bound) Net.traffic_put

theorem release {rest : List Nat} (hs : Sound S ⟨s, none, w⟩ view) (h : Tells ⟨s, none, w⟩)
    (he : s.execQueue = e :: rest) (hi : e < s.remotes.length) :
    Tells ⟨s.dismiss e rest, none, w.put e e .pissOff⟩ := by
  have hd : ¬w.deaf e := fun hd => (Net.deaf_iff.mp hd).right (hs.queued he).left
  have hl := (h.sound view).release (heard hs) he
  have hl : (w.traffic none).Sound (((s.ledger w view).release e rest).heard
      (w.put e e .pissOff).deaf (w.put e e .pissOff).got) := by
    rwa [Net.deaf_put, Net.got_put, Ledger.heard_release hd]
  exact of_ledger hl (ledger_release hi) Net.traffic_put

theorem move (hs : c.Sound S view) (hw : c.net.Works) (hb : c.net.Bounded) (hm : c.net.Mannered)
    (h : c.Tells) (m : Move S P c c') : c'.Tells := by
  have hl := h.sound view
  cases m
  case act ha             => exact h.act hs hm ha
  case accept             => exact h.accept hs hw hb
  case recv hi _          => exact of_ledger hl rfl (Net.traffic_recv hi)
  case record             => exact h
  case spawn              => exact of_ledger hl ledger_spawned rfl
  case register hi        =>
    have ⟨_, _, hr, _⟩ := hs.wired.hear
    exact of_ledger (hl.heard_register hr.of_hello.left) (ledger_register hi)
      (Net.traffic_hear_other id)
  case submit hi _        =>
    have ⟨_, _, hr, _⟩ := hs.wired.hear
    exact of_ledger (hl.heard_submit (heard hs) hr.of_task.right.left) (ledger_submit hi)
      (Net.traffic_hear_other id)
  case output hm' _ hf    => exact h.output hs hb hm' hf
  case complete hm' hf    =>
    have ⟨_, _, hr, _⟩ := hs.wired.hear
    have hr := (hr.of_result hm'.result).left
    have hl := (h.output hs hb hm'.result hf).sound view |>.heard_finish (hf.role_eq.symm ▸ hr)
    exact of_ledger hl (ledger_finish <| hf.length_eq ▸ hf.lt_length) rfl
  case drop hi _          =>
    exact of_ledger hl.heard_drop (ledger_drop hi) (Net.traffic_hear_other id)
  case dropIdle hk _      =>
    exact of_ledger hl.heard_drop (ledger_drop <| ServerState.lt_length hk nofun)
      (Net.traffic_hear_other id)
  case dropBusy hk hp ho ha => exact h.notify hs hb hk hp ho
  case assign hk he _ hi hj _ _ _ _ => exact h.assign hs hw hk he hi hj
  case release he hi _ _  => exact h.release hs he hi

end Config.Tells

theorem Reach.tells {S : Setup} {P : Policy} {c : Config} (h : Reach S P c) (ht : P.Tame) :
    c.Tells := by
  induction h with
  | start       =>
    have hk i : ((Config.start S).server.ledger .empty fun _ => .pending).kind i = .pending := rfl
    exact .of_nothing (fun _ => rfl) fun i he => by
      rw [Ledger.kind_heard_exec] at he
      exact nomatch (hk i).symm.trans he
  | move h m hi =>
    have ⟨_, hs⟩ := h.sound ht
    exact hi.move hs h.works h.bounded (h.mannered ht) m

end SprayCC
