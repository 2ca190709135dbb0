import SprayCC.Farm.Matching

open Async Relation

-- The farm of processes does nothing which the cluster of their peers can not do.

namespace SprayCC

namespace Conn

-- What has been written to the socket. A message which could not be written has been taken.
def written (c : Conn) : List Message :=
  (c.sent.take (if c.task = .failed then c.taken - 1 else c.taken)).map Prod.snd

end Conn

-- What a step does to a link: it is one of the connection task, or it answers a call of the
-- process.
inductive Link.Stepped (l : Link) : Link → List (Nat × Message) → Prop
  | arrives :
    l.task = .call .select k → l.up = msg :: rest →
    Stepped l { l with task := k (.message msg), up := rest } []
  | hangs :
    l.task = .call .select k → arm = .closed ∨ arm = .error →
    Stepped l { l with task := k arm } []
  | departs :
    l.task = .call .select k → l.channel = (about, msg) :: rest →
    Stepped l { l with task := k (.outbound msg), channel := rest } []
  | writes :
    l.task = .call (.write msg) k →
    Stepped l { l with task := k true, down := l.down ++ [msg] } []
  | breaks :
    l.task = .call (.write msg) k → Stepped l { l with task := k false } []
  | pushes :
    l.task = .call (.send connId msg) k → Stepped l { l with task := k true } [(connId, msg)]
  | returns :
    l.task = .done () ∨ l.task = .fail .error → l.opened = true →
    Stepped l { l with opened := false } []
  | answers {call : Process.Call} {k : call.Answer → Process.Proc Int32} {a : call.Answer}
    {up down : List Message} :
    l.process = .call call k → ¬Process.Garbled [⟨call, a⟩] →
    l.up ++ Process.said (Process.dialogue [⟨call, a⟩]) = up →
    Process.heard (Process.dialogue [⟨call, a⟩]) ++ down = l.down →
    Stepped l { l.answer call a (k a) with up, down } []

theorem Link.stepped_of_step {l l' : Link} {a : LinkAct} {msgs : List (Nat × Message)}
    (h : l.step a = some (l', msgs)) : l.Stepped l' msgs := by
  have quiet {call : Process.Call} {k : call.Answer → Process.Proc Int32} {a : call.Answer}
      (hp : l.process = .call call k) (hg : ¬Process.Garbled [⟨call, a⟩])
      (hd : Process.dialogue [⟨call, a⟩] = []) : l.Stepped (l.answer call a (k a)) [] :=
    .answers hp hg (by rw [hd]; exact List.append_nil _) (by rw [hd]; rfl)
  cases a
  case arrives =>
    simp only [step] at h
    split at h <;> cases h
    case h_1 ht hu => exact .arrives ht hu
  case hangs =>
    simp only [step] at h
    split at h
    case h_1 ht =>
      split at h <;> [skip; split at h] <;> cases h
      case isTrue         => exact .hangs ht (.inr rfl)
      case isFalse.isTrue => exact .hangs ht (.inl rfl)
    case h_2 => cases h
  case departs =>
    simp only [step] at h
    split at h <;> cases h
    case h_1 ht hc => exact .departs ht hc
  case writes =>
    simp only [step] at h
    split at h
    case h_1 ht =>
      split at h <;> cases h
      case isTrue  => exact .writes ht
      case isFalse => exact .breaks ht
    case h_2 => cases h
  case pushes =>
    simp only [step] at h
    split at h <;> cases h
    case h_1 ht => exact .pushes ht
  case returns =>
    simp only [step] at h
    split at h
    case h_1 ht =>
      split at h <;> cases h
      case isTrue ho => exact .returns (.inl ht) ho
    case h_2 ht =>
      split at h <;> cases h
      case isTrue ho => exact .returns (.inr ht) ho
    case h_3 => cases h
  case tells =>
    simp only [step] at h
    split at h
    case h_1 hp =>
      split at h <;> cases h
      case isTrue  => exact .answers hp nofun rfl rfl
      case isFalse => exact quiet hp nofun rfl
    case h_2 => cases h
  case hears =>
    simp only [step] at h
    split at h <;> cases h
    case h_1 hp hd => exact .answers hp nofun (List.append_nil _) hd.symm
  case loses =>
    simp only [step] at h
    split at h
    case h_1 hp =>
      split at h <;> [skip; split at h] <;> cases h
      all_goals exact quiet hp nofun rfl
    case h_2 => cases h
  case does =>
    simp only [step] at h
    split at h <;> cases h
    all_goals exact quiet ‹_› nofun rfl

-- What the link is to the connection: the connection task has `held` a message which is `flying` in
-- the other direction, and of the dialogue of the process, what is `past` is known to the
-- connection while the rest is `coming`.
structure Matches (codes : Codes) (i : Nat) (l : Link) (c : Conn) (held : List Message)
    (flying : List (Nat × Message)) (past coming : List Process.Event) : Prop where
  stands   : Stands codes i l.task l.opened c.task held flying
  runs     : (l.caller.process codes).After l.trace l.process
  dialogue : Process.dialogue l.trace = past ++ coming
  peer     : past.foldlM (Peer.converses codes) l.caller.peer = some c.peer
  produced : c.role.Exec → c.produced = answers 0 past
  said     : Process.said coming = held ++ l.up
  taken    : c.taken ≤ c.sent.length
  channel  : c.sent.drop c.taken = flying ++ l.channel
  sent     : c.sent = l.sent
  written  : Process.heard (Process.dialogue l.trace) ++ l.down = c.written

def Matched (codes : Codes) (i : Nat) (l : Link) (c : Conn) : Prop :=
  ∃ held flying past coming, Matches codes i l c held flying past coming

namespace Net

-- The steps of the connections which lead from one net to another.
def Leads (S : Setup) : Net → Net → Prop :=
  ReflTransGen fun w w' => ∃ a, w.step S a = some w'

variable {S : Setup} {w w' : Net} {i n : Nat} {c c' : Conn} {ms : List Message} {peer : Peer}

@[simp]
theorem set_self : w.set i (w.conns i) = w := by
  simp [set]

@[simp]
theorem set_set : (w.set i c).set i c' = w.set i c' := by
  simp [set]

@[simp]
theorem conns_set_self : (w.set i c).conns i = c := by
  simp [set]

@[simp]
theorem conns_set_ne {j : Nat} (h : j ≠ i) : (w.set i c).conns j = w.conns j := by
  simp [set, h]

theorem offer_of_room {msg : Message} {next wait : ConnTask} (hr : w.Room S) :
    w.offer S i c msg next wait =
      { w.set i { c with task := next } with inbound := w.inbound ++ [(i, msg)] } :=
  if_pos hr

theorem step_speaks {msg : Message} (hi : i < w.size) (hc : w.conns i = c) (ht : c.task = .select)
    (hr : w.Room S) (hs : c.speaks S.codes msg = some c') (ht' : c'.task = .select) :
    w.step S (.speaks i msg) =
      some { w.set i c' with inbound := w.inbound ++ [(i, S.codes.forwards msg)] } := by
  simp [step, hi, hc, ht, hs, offer_of_room hr, ← ht']

theorem Leads.single {a : Act} (h : w.step S a = some w') : w.Leads S w' :=
  ReflTransGen.single ⟨a, h⟩

end Net

namespace Conn

variable {c : Conn} {codes : Codes} {n : Nat} {ms : List Message} {msg : Message} {peer : Peer}

-- An exec whose peer can hear the message can read it.
theorem reads_of_hears (hr : c.role.Exec) (ha : c.peer.At n) (hp : c.peer.hears msg = some peer)
    (hn : ((c.sent.take c.taken).map Prod.snd)[n]? = some msg) :
    c.reads = some { c with peer } := by
  obtain ⟨⟨about, msg⟩, hs, rfl⟩ := Option.map_eq_some_iff.mp <| List.getElem?_map ▸ hn
  obtain ⟨hl, hs⟩ := Option.ite_none_right_eq_some.mp <| List.getElem?_take ▸ hs
  have hs' := Peer.hears_of_some hp
  generalize hc : c.peer = p at hs' ha
  cases hs'
  case client    => simp [role, hc, Peer.role] at hr
  case starts he =>
    cases ha
    obtain rfl : msg = _ := he
    simp [reads, hc, hl, hs]
  case leaves he =>
    cases ha
    obtain rfl : msg = _ := he
    simp [reads, hc, hl, hs]

-- What a peer says after it has heard `n` messages is a result for the last one of these.
theorem speaks_of_speaks (hp : c.peer.speaks codes msg = some peer) (ha : c.peer.At n) :
    ∃ produced, c.speaks codes msg = some { c with peer, produced } ∧
      (c.role.Exec → produced = c.produced ++ answers n [.said msg]) := by
  have hs := Peer.speaks_of_some hp
  generalize hc : c.peer = p at hs ha
  rw [hc] at hp
  cases hs
  case client => exact ⟨c.produced, by simp [speaks, hc, hp], by simp [role, hc, Peer.role]⟩
  case rogue  =>
    exact ⟨c.produced, by simp [speaks, hc, hp], by simp [role, hc, Peer.role, Role.Exec]⟩
  case fresh  =>
    obtain ⟨rfl, rfl⟩ := ha
    exact ⟨c.produced, by simp [speaks, hc, hp], by simp [answers]⟩
  case busy   =>
    obtain ⟨rfl, rfl⟩ := ha
    exact ⟨_, by simp [speaks, hc, hp, answers], fun _ => rfl⟩

end Conn

namespace Net

variable {S : Setup} {w w' : Net} {i n : Nat} {c c' : Conn} {ms : List Message} {peer : Peer}
variable {codes : Codes} {msg : Message}

-- A peer reads what its process hears.
theorem leads_hear (hi : i < w.size) (ht : (w.conns i).task.Connected)
    (hp : (w.conns i).peer.hears msg = some peer) (ha : (w.conns i).peer.At n)
    (hn : (((w.conns i).sent.take (w.conns i).taken).map Prod.snd)[n]? = some msg) :
    w.Leads S (w.set i { w.conns i with peer }) := by
  by_cases hr : (w.conns i).role.Exec
  case pos =>
    refine .single (a := .reads i) ?_
    simp [step, hi, ht, Conn.reads_of_hears hr ha hp hn]
  case neg =>
    have hs : peer = (w.conns i).peer := by
      have hs := Peer.hears_of_some hp
      generalize hc : (w.conns i).peer = p at hs
      cases hs
      case client          => rfl
      case starts | leaves => simp [Conn.role, hc, Peer.role, Role.Exec] at hr
    exact hs ▸ set_self.symm ▸ .refl

theorem leads_hears (hi : i < w.size) (ht : (w.conns i).task.Connected)
    (hp : (ms.map .heard).foldlM (Peer.converses codes) (w.conns i).peer = some peer)
    (ha : (w.conns i).peer.At n)
    (hh : ms <+: (((w.conns i).sent.take (w.conns i).taken).map Prod.snd).drop n) :
    w.Leads S (w.set i { w.conns i with peer }) := by
  induction ms generalizing w n with
  | nil            =>
    cases hp
    exact set_self.symm ▸ .refl
  | cons msg ms hj =>
    have ⟨peer', hm, hp⟩ := Option.bind_eq_some_iff.mp hp
    have ⟨rest, hd⟩ := hh
    have hn : (((w.conns i).sent.take (w.conns i).taken).map Prod.snd)[n]? = some msg := by
      rw [← Nat.add_zero n, ← List.getElem?_drop, ← hd]
      rfl
    have hl := leads_hear (S := S) hi ht hm ha hn
    refine hl.trans ?_
    have hj := hj (w := w.set i { w.conns i with peer := peer' }) (n := n + 1) hi
    simp only [conns_set_self, set_set] at hj
    have ha : peer'.At (n + (Process.heard [.heard msg]).length) := ha.converses hm
    refine hj ht hp ha ⟨rest, ?_⟩
    rw [← List.tail_drop, ← hd]
    rfl

-- A peer says what its process has said after it has heard some more.
theorem leads_speaks (hi : i < w.size) (ht : (w.conns i).task = .select) (hr : w.Room S)
    (hp : (ms.map Process.Event.heard ++ [Process.Event.said msg]).foldlM
      (Peer.converses S.codes) (w.conns i).peer = some peer)
    (ha : (w.conns i).peer.At n)
    (hh : ms <+: (((w.conns i).sent.take (w.conns i).taken).map Prod.snd).drop n) :
    ∃ produced, w.Leads S { w.set i { w.conns i with peer, produced } with
        inbound := w.inbound ++ [(i, S.codes.forwards msg)] } ∧
      ((w.conns i).role.Exec → produced = (w.conns i).produced ++
        answers n (ms.map .heard ++ [.said msg])) := by
  rw [List.foldlM_append] at hp
  have ⟨peer', hp₁, hp₂⟩ := Option.bind_eq_some_iff.mp hp
  have ⟨_, hp₂, he⟩ := Option.bind_eq_some_iff.mp hp₂
  cases he
  have ⟨ha', hr'⟩ := ha.fold hp₁
  rw [Process.heard_map_heard] at ha'
  have ⟨produced, hs, hq⟩ := Conn.speaks_of_speaks (c := { w.conns i with peer := peer' }) hp₂ ha'
  have hl := leads_hears (S := S) hi (ht ▸ trivial) hp₁ ha hh
  refine ⟨produced, hl.trans <| Leads.single (a := .speaks i msg) ?_, fun he => ?_⟩
  case refine_1 =>
    have hr : (w.set i { w.conns i with peer := peer' }).Room S := hr
    have hs := step_speaks (S := S) (w := w.set i { w.conns i with peer := peer' }) hi
      conns_set_self ht hr hs ht
    rwa [set_set] at hs
  case refine_2 =>
    rw [answers_append, answers_heard, Process.heard_map_heard]
    exact hq <| by rwa [Conn.role, hr']

end Net

namespace Matches

variable {S : Setup} {codes : Codes} {w : Net} {i fuel : Nat} {l l' : Link} {c : Conn}
variable {held : List Message} {flying : List (Nat × Message)} {past coming : List Process.Event}
variable {caller : Caller}

theorem fresh :
    Matches codes i (.fresh codes i caller fuel) (.fresh caller.peer) [] [] [] [] where
  stands     := .select fuel
  runs       := .refl
  dialogue   := rfl
  peer       := rfl
  produced _ := rfl
  said       := rfl
  taken      := le_rfl
  channel    := rfl
  sent       := rfl
  written    := rfl

-- A call of the process is answered.
theorem answer {call : Process.Call} {k : call.Answer → Process.Proc Int32} {up down : List Message}
    (h : Matches codes i l c held flying past coming) (hp : l.process = .call call k)
    (a : call.Answer) (hu : l.up ++ Process.said (Process.dialogue [⟨call, a⟩]) = up)
    (hd : Process.heard (Process.dialogue [⟨call, a⟩]) ++ down = l.down) :
    Matches codes i { l.answer call a (k a) with up, down } c held flying past
      (coming ++ Process.dialogue [⟨call, a⟩]) where
  stands   := h.stands
  runs     := (show (l.caller.process codes).After l.trace (.call call k) from hp ▸ h.runs).answer a
  dialogue := by
    show Process.dialogue (l.trace ++ [⟨call, a⟩]) = _
    rw [Process.dialogue_append, h.dialogue, List.append_assoc]
  peer     := h.peer
  produced := h.produced
  said     := by
    show _ = held ++ up
    rw [Process.said_append, h.said, List.append_assoc, hu]
  taken    := h.taken
  channel  := h.channel
  sent     := h.sent
  written  := by
    show Process.heard (Process.dialogue (l.trace ++ [⟨call, a⟩])) ++ down = _
    rw [Process.dialogue_append, Process.heard_append, List.append_assoc, hd, h.written]

theorem role_eq (h : Matches codes i l c held flying past coming) :
    c.role = l.caller.peer.role :=
  (Peer.At.fold Caller.fresh_at h.peer).right

theorem mem_sent {msg : Message} (h : Matches codes i l c held flying past coming)
    (hm : msg ∈ Process.heard (Process.dialogue l.trace)) : ∃ m ∈ c.sent, m.snd = msg := by
  have hm : msg ∈ c.written := h.written ▸ List.mem_append_left _ hm
  have ⟨m, hm, he⟩ := List.mem_map.mp hm
  exact ⟨m, List.mem_of_mem_take hm, he⟩

-- The whole dialogue is one of the peer.
theorem converses (h : Matches codes i l c held flying past coming) (hm : c.Mannered) :
    ∃ peer, (past ++ coming).foldlM (Peer.converses codes) l.caller.peer = some peer := by
  rw [← h.dialogue]
  refine l.caller.converses h.runs fun hr msg hd => ?_
  obtain ⟨m, hs, rfl⟩ := h.mem_sent hd
  exact hm.order (h.role_eq ▸ hr) m hs

-- The connection task forwards the message it has read.
theorem pushes {msg : Message} {p : Connection.Proc Unit}
    (h : Matches S.codes i l (w.conns i) [msg] [] past coming) (hi : i < w.size)
    (ht : (w.conns i).task = .select) (hr : w.Room S) (hm : (w.conns i).Mannered)
    (hp : Stands S.codes i p l.opened .select [] []) :
    ∃ c, Matched S.codes i { l with task := p } c ∧
      w.Leads S { w.set i c with inbound := w.inbound ++ [(i, S.codes.forwards msg)] } := by
  obtain ⟨ms, rest, rfl, hs⟩ := Process.exists_of_said h.said
  have ha := (Peer.At.fold Caller.fresh_at h.peer).left
  rw [Nat.zero_add] at ha
  have ⟨_, hc⟩ := h.converses hm
  rw [List.append_cons, List.foldlM_append, h.peer] at hc
  have ⟨_, hc, _⟩ := Option.bind_eq_some_iff.mp <| (List.foldlM_append ..).symm.trans hc
  have hw := h.written
  rw [Conn.written, if_neg (by simp [ht]), h.dialogue] at hw
  have hh : ms <+: (((w.conns i).sent.take (w.conns i).taken).map Prod.snd).drop
      (Process.heard past).length := by
    rw [← hw]
    simp
  have ⟨produced, hl, hq⟩ := Net.leads_speaks hi ht hr hc ha hh
  refine ⟨_, ⟨[], [], past ++ (ms.map .heard ++ [.said msg]), rest, ?_⟩, hl⟩
  exact {
    stands   := ht ▸ hp
    runs     := h.runs
    dialogue := by rw [h.dialogue]; simp
    peer     := by rw [List.foldlM_append, h.peer]; exact hc
    produced := fun he => by
      replace he : (w.conns i).peer.role.Exec := (ha.fold hc).right.symm ▸ he
      rw [answers_append, Nat.zero_add, ← h.produced he]
      exact hq he
    said     := hs
    taken    := h.taken
    channel  := h.channel
    sent     := h.sent
    written  := h.written
  }

-- The connection task writes the message it has taken.
theorem writes {about : Nat} {msg : Message} {p : Connection.Proc Unit}
    (h : Matches S.codes i l (w.conns i) [] [(about, msg)] past coming) (hi : i < w.size)
    (ht : (w.conns i).task = .select) (hp : Stands S.codes i p l.opened .select [] []) :
    ∃ c, Matched S.codes i { l with task := p, down := l.down ++ [msg] } c ∧
      w.Leads S (w.set i c) := by
  have hs : (w.conns i).sent[(w.conns i).taken]? = some (about, msg) := by
    rw [← Nat.add_zero (w.conns i).taken, ← List.getElem?_drop, h.channel]
    rfl
  have hl : (w.conns i).taken < (w.conns i).sent.length :=
    (List.getElem?_eq_some_iff.mp hs).choose
  refine ⟨{ w.conns i with taken := (w.conns i).taken + 1 }, ⟨[], [], past, coming, ?_⟩,
    Net.Leads.single (a := .takes i) (by simp [Net.step, hi, ht, hl])⟩
  have hw := h.written
  rw [Conn.written, if_neg (by simp [ht])] at hw
  exact { h with
    stands  := ht ▸ hp
    taken   := hl
    channel := by
      show (w.conns i).sent.drop _ = _
      rw [← List.drop_drop, h.channel]
      rfl
    written := by
      show Process.heard _ ++ (l.down ++ [msg]) = Conn.written _
      rw [← List.append_assoc, hw, Conn.written, if_neg (by simp [ht]), List.take_add_one, hs]
      simp
  }

-- The connection task returns, and with it goes the message which it could not write.
theorem returns (h : Matches S.codes i l (w.conns i) held flying past coming) (hi : i < w.size)
    (ho : l.opened = true) (hp : l.task = .done () ∨ l.task = .fail .error) :
    ∃ c, Matched S.codes i { l with opened := false } c ∧ w.Leads S (w.set i c) := by
  have hst := h.stands
  rw [ho] at hst
  rcases hp with hp | hp <;> rw [hp] at hst
  case inl =>
    obtain ⟨ht, rfl, rfl⟩ := hst.of_done
    refine ⟨{ w.conns i with task := .closed }, ⟨[], [], past, coming, ?_⟩,
      Net.Leads.single (a := .closes i) (by simp [Net.step, hi, ht])⟩
    have hw := h.written
    rw [Conn.written, if_neg (by simp [ht])] at hw
    exact { h with
      stands  := hp ▸ .closed
      written := hw }
  case inr =>
    obtain ⟨ht, rfl, m, rfl⟩ := hst.of_fail
    have hl : (w.conns i).taken < (w.conns i).sent.length := by
      by_contra hl
      have hc := h.channel
      rw [List.drop_eq_nil_of_le (not_lt.mp hl)] at hc
      cases hc
    refine ⟨{ w.conns i with taken := (w.conns i).taken + 1, task := .failed },
      ⟨[], [], past, coming, ?_⟩,
      Net.Leads.single (a := .breaks i) (by simp [Net.step, hi, ht, hl])⟩
    have hw := h.written
    rw [Conn.written, if_neg (by simp [ht])] at hw
    exact { h with
      stands  := hp ▸ .failed
      taken   := hl
      channel := by
        show (w.conns i).sent.drop _ = _
        rw [← List.drop_drop, h.channel]
        rfl
      written := hw
    }

end Matches
-- A step of a link is none of its connection, or it is one after the peer has read and said what
-- its process has.
theorem Matched.step {S : Setup} {w : Net} {i : Nat} {l l' : Link}
    {msgs : List (Nat × Message)} (h : Matched S.codes i l (w.conns i)) (hi : i < w.size)
    (hm : (w.conns i).Mannered) (hr : msgs = [] ∨ w.Room S) (hs : l.Stepped l' msgs) :
    ∃ c, Matched S.codes i l' c ∧
      w.Leads S { w.set i c with inbound := w.inbound ++ msgs } := by
  obtain ⟨held, flying, past, coming, h⟩ := h
  have stay {l' : Link} (h : Matched S.codes i l' (w.conns i)) :
      ∃ c, Matched S.codes i l' c ∧ w.Leads S { w.set i c with inbound := w.inbound ++ [] } :=
    ⟨_, h, by rw [Net.set_self, List.append_nil]; exact .refl⟩
  have move {l' : Link} (h : ∃ c, Matched S.codes i l' c ∧ w.Leads S (w.set i c)) :
      ∃ c, Matched S.codes i l' c ∧ w.Leads S { w.set i c with inbound := w.inbound ++ [] } := by
    rwa [List.append_nil]
  have hst := h.stands
  cases hs
  case arrives msg rest ht hu =>
    rw [ht] at hst
    obtain ⟨fuel, rfl, ho, hc, rfl, rfl⟩ := hst.of_select
    exact stay ⟨[msg], [], past, coming, { h with
      stands := ho ▸ hc ▸ .forwards fuel msg
      said   := h.said.trans hu }⟩
  case hangs arm ht ha =>
    rw [ht] at hst
    obtain ⟨fuel, rfl, ho, hc, rfl, rfl⟩ := hst.of_select
    have he : Connection.handleArm S.codes i fuel arm = Connection.sendOrErr i .dropped := by
      rcases ha with rfl | rfl <;> rfl
    exact stay ⟨[], [], past, coming, { h with stands := ho ▸ hc ▸ he ▸ .ending }⟩
  case departs about msg rest ht hu =>
    rw [ht] at hst
    obtain ⟨fuel, rfl, ho, hc, rfl, rfl⟩ := hst.of_select
    exact stay ⟨[], [(about, msg)], past, coming, { h with
      stands  := ho ▸ hc ▸ .writes fuel about msg
      channel := h.channel.trans hu }⟩
  case writes msg k ht =>
    rw [ht] at hst
    obtain ⟨fuel, about, hk, _, ho, hc, rfl, rfl⟩ := hst.of_write
    exact move <| h.writes hi hc <| by rw [hk, ho]; exact .select fuel
  case breaks msg k ht =>
    rw [ht] at hst
    obtain ⟨_, about, _, hk, ho, hc, rfl, rfl⟩ := hst.of_write
    exact stay ⟨[], [(about, msg)], past, coming, { h with
      stands := ho ▸ hc ▸ hk ▸ .broken (about, msg) }⟩
  case pushes j msg k ht =>
    rw [ht] at hst
    have hw := hr.resolve_left nofun
    obtain ⟨rfl, ho, hc, rfl, ⟨m, fuel, rfl, rfl, hk⟩ | ⟨rfl, rfl, hk⟩⟩ := hst.of_send
    case inl => exact h.pushes hi hc hw hm <| by rw [hk, ho]; exact .select fuel
    case inr =>
      refine ⟨{ w.conns j with task := .noticed }, ⟨[], [], past, coming, ?_⟩,
        Net.Leads.single (a := .ends j) ?_⟩
      case refine_1 =>
        have hd := h.written
        rw [Conn.written, if_neg (by simp [hc])] at hd
        exact { h with
          stands  := by dsimp only; rw [hk, ho]; exact .noticed
          written := hd }
      case refine_2 => simp [Net.step, hi, hc, Net.offer_of_room hw]
  case returns hp ho => exact move <| h.returns hi ho hp
  case answers hp _ hu hd => exact stay ⟨held, flying, past, _, h.answer hp _ hu hd⟩

end SprayCC
