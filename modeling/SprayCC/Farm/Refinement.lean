import SprayCC.Farm.Simulation

open Async Relation

-- Every state of the farm is one of a cluster.

namespace SprayCC

theorem Stands.length_flying {codes : Codes} {i : Nat} {p : Connection.Proc Unit} {opened : Bool}
    {task : ConnTask} {held : List Message} {flying : List (Nat × Message)}
    (h : Stands codes i p opened task held flying) : flying.length ≤ 1 := by
  cases h <;> simp

-- The sender of the outbound channel finds the same in both.
structure Link.Ports (l : Link) (c : Conn) : Prop where
  opened : c.task.Open ↔ l.opened = true
  length : c.sent.length - c.taken ≤ l.channel.length + 1

-- There is no connection yet.
structure Link.Vacant (l : Link) (c : Conn) : Prop where
  opened : l.opened = true
  task   : c.task = .select
  taken  : c.taken = 0
  sent   : c.sent = l.channel

def Conn.put (c : Conn) (about : Nat) (msg : Message) : Conn :=
  { c with sent := c.sent ++ [(about, msg)] }

section Ports

variable {codes : Codes} {i about : Nat} {l : Link} {c : Conn} {msg : Message}

theorem Matched.ports (h : Matched codes i l c) : l.Ports c := by
  obtain ⟨held, flying, _, _, h⟩ := h
  refine ⟨h.stands.open_iff, ?_⟩
  have hf := h.stands.length_flying
  rw [← List.length_drop, h.channel, List.length_append]
  omega

theorem Conn.written_put (h : c.taken ≤ c.sent.length) :
    (c.put about msg).written = c.written := by
  show ((c.sent ++ [(about, msg)]).take
    (if c.task = .failed then c.taken - 1 else c.taken)).map _ = _
  rw [List.take_append_of_le_length (by split <;> omega)]
  rfl

theorem Matched.put (h : Matched codes i l c) :
    Matched codes i (l.put about msg) (c.put about msg) := by
  obtain ⟨held, flying, past, coming, h⟩ := h
  refine ⟨held, flying, past, coming, { h with
    taken   := ?_
    channel := ?_
    sent    := congrArg (· ++ _) h.sent
    written := ?_ }⟩
  case refine_1 =>
    have ht := h.taken
    simp only [Conn.put, List.length_append]
    omega
  case refine_2 =>
    show (c.sent ++ [(about, msg)]).drop c.taken = flying ++ (l.channel ++ [(about, msg)])
    rw [List.drop_append_of_le_length h.taken, h.channel, List.append_assoc]
  case refine_3 => exact h.written.trans <| (Conn.written_put h.taken).symm

theorem Link.Vacant.ports (h : l.Vacant c) : l.Ports c :=
  ⟨by simp [h.opened, h.task, ConnTask.Open], by simp [h.taken, h.sent]⟩

theorem Link.Vacant.put (h : l.Vacant c) : (l.put about msg).Vacant (c.put about msg) :=
  ⟨h.opened, h.task, h.taken, by simp [Link.put, Conn.put, h.sent]⟩

end Ports

namespace Farm

-- The farm is what the net is.
structure Shows (S : Setup) (F : Farm) (w : Net) : Prop where
  inbound : w.inbound = F.inbound
  size    : w.size = F.size
  links   : i < F.size → Matched S.codes i (F.links i) (w.conns i)
  vacant  : F.size ≤ i → (F.links i).Vacant (w.conns i)

namespace Shows

variable {S : Setup} {F F' : Farm} {w : Net} {i about dest : Nat} {msg : Message} {ok : Bool}

theorem start : (start S).Shows S .empty where
  inbound  := rfl
  size     := rfl
  links h  := absurd h <| Nat.not_lt_zero _
  vacant _ := ⟨rfl, rfl, rfl, rfl⟩

theorem ports (h : F.Shows S w) (i : Nat) : (F.links i).Ports (w.conns i) :=
  (lt_or_ge i F.size).elim (fun hi => (h.links hi).ports) fun hi => (h.vacant hi).ports

theorem set {l : Link} {c : Conn} (h : F.Shows S w) (hl : i < F.size → Matched S.codes i l c)
    (hv : F.size ≤ i → l.Vacant c) : (F.set i l).Shows S (w.set i c) where
  inbound := h.inbound
  size    := h.size
  links {j} hj := by
    by_cases hn : j = i
    case pos => subst hn; simpa [Farm.set, Net.set] using hl hj
    case neg => simpa [Farm.set, Net.set, hn] using h.links hj
  vacant {j} hj := by
    by_cases hn : j = i
    case pos => subst hn; simpa [Farm.set, Net.set] using hv hj
    case neg => simpa [Farm.set, Net.set, hn] using h.vacant hj

-- The channels of the cluster have more room, since a message which is about to be written is still
-- on one.
theorem put (h : F.Shows S w) (hp : F.put S about dest msg = some (ok, F')) :
    F'.main = F.main ∧ ∃ w', w.send S.roomier about dest msg = some (ok, w') ∧ F'.Shows S w' := by
  have hq := h.ports dest
  simp only [Farm.put] at hp
  split at hp
  case isTrue ho =>
    obtain ⟨hl, hp⟩ := Option.ite_none_right_eq_some.mp hp
    cases hp
    have hf : ¬w.Full S.roomier dest := by
      have hn := hq.length
      simp only [Net.Full, Setup.roomier]
      omega
    refine ⟨rfl, w.put about dest msg, ?_, ?_⟩
    case refine_1 => simp [Net.send, hf, hq.opened, ho]
    case refine_2 => exact h.set (fun hd => (h.links hd).put) fun hd => (h.vacant hd).put
  case isFalse ho =>
    cases hp
    have ho : ¬(w.conns dest).task.Open := ho ∘ hq.opened.mp
    exact ⟨rfl, w, by simp [Net.send, Net.Full, ho], h⟩

theorem accept {caller : Caller} {fuel : Nat} {main : Main} (h : F.Shows S w) :
    Shows S { F.set F.size (.fresh S.codes F.size caller fuel) with
      main := main
      size := F.size + 1 } (w.accept caller.peer) where
  inbound := h.inbound
  size    := congrArg (· + 1) h.size
  links {j} hj := by
    by_cases hn : j = F.size
    case pos =>
      subst hn
      rw [← h.size, Net.conns_accept_size, h.size]
      exact ⟨[], [], [], [], by simpa [Farm.set] using .fresh⟩
    case neg =>
      have hj : j < F.size := lt_of_le_of_ne (Nat.lt_succ_iff.mp hj) hn
      rw [Net.conns_accept_ne (h.size ▸ hn)]
      simpa [Farm.set, hn] using h.links hj
  vacant {j} hj := by
    have hj : F.size < j := hj
    rw [Net.conns_accept_ne (h.size ▸ hj.ne')]
    simpa [Farm.set, hj.ne'] using h.vacant hj.le

-- A step of a link is made up for by steps of its connection.
theorem link {l : Link} {msgs : List (Nat × Message)} (h : F.Shows S w) (hi : i < F.size)
    (hm : w.Mannered) (hr : msgs = [] ∨ F.inbound.length < S.inboundCap)
    (hs : (F.links i).Stepped l msgs) :
    ∃ w', w.Leads S.roomier w' ∧ Shows S { F.set i l with inbound := F.inbound ++ msgs } w' := by
  have hr : msgs = [] ∨ w.Room S.roomier := hr.imp_right fun hr => by rwa [← h.inbound] at hr
  have ⟨c, hc, hl⟩ := (h.links hi).step (S := S.roomier) (h.size ▸ hi) (hm i) hr hs
  have hv := h.set (fun _ => hc) fun hn => absurd hi <| not_lt.mpr hn
  exact ⟨_, hl, { hv with inbound := congrArg (· ++ msgs) h.inbound }⟩

end Shows

-- The farm is what a cluster is.
def Simulated (S : Setup) (F : Farm) (σ : Cluster) : Prop :=
  σ.main = F.main ∧ F.Shows S σ.net

end Farm

theorem Cluster.Reaches.leads {S : Setup} {m : Main} {w w' : Net}
    (h : Reaches S .wellBehaved ⟨m, w⟩) (hl : w.Leads S w') : Reaches S .wellBehaved ⟨m, w'⟩ := by
  induction hl with
  | refl          => exact h
  | tail _ hs hi =>
    obtain ⟨a, ha⟩ := hs
    exact hi.step (l := .act a) rfl (by simp [Cluster.step, ha])

namespace Farm

variable {S : Setup} {F F' : Farm} {σ : Cluster} {l : Label}

theorem Shows.main {w : Net} {m : Main} (h : F.Shows S w) : Shows S { F with main := m } w :=
  ⟨h.inbound, h.size, h.links, h.vacant⟩

theorem Simulated.step (h : F.Simulated S σ) (hr : Cluster.Reaches S.roomier .wellBehaved σ)
    (hs : F.step S l = some F') :
    ∃ σ', Cluster.Reaches S.roomier .wellBehaved σ' ∧ F'.Simulated S σ' := by
  obtain ⟨main, w⟩ := σ
  obtain ⟨rfl, hw⟩ := h
  have hw : F.Shows S w := hw
  cases l
  case accept caller fuel =>
    simp only [step] at hs
    split at hs <;> [skip; cases hs]
    case h_1 s hm =>
      obtain ⟨hn, hs⟩ := Option.ite_none_right_eq_some.mp hs
      cases hs
      refine ⟨⟨.checking s.addRemote, w.accept caller.peer⟩,
        hr.step (l := .accept caller.peer) ?_ ?_, rfl, hw.accept⟩
      case refine_1 => cases caller <;> exact decide_eq_true (hw.size ▸ hn)
      case refine_2 => simp [Cluster.step, hm, Caller.fresh_peer]
  case recv fuel =>
    simp only [step] at hs
    split at hs <;> cases hs
    case h_1 s i msg rest hm hi =>
      refine ⟨⟨_, { w with inbound := rest }⟩, hr.step (l := .recv fuel) ?_ ?_, rfl, rfl, hw.size,
        hw.links, hw.vacant⟩
      case refine_1 => simp [Policy.allows, Policy.wellBehaved, hm, hw.inbound, hi]
      case refine_2 => simp [Cluster.step, hm, hw.inbound, hi]
  case tick fuel =>
    simp only [step] at hs
    split at hs <;> cases hs
    case h_1 hm =>
      exact ⟨⟨_, w⟩, hr.step (l := .tick fuel) rfl (by simp [Cluster.step, hm]), rfl, hw.main⟩
  case send =>
    simp only [step] at hs
    split at hs <;> [skip; cases hs]
    case h_1 ev s waits about dest msg k hm =>
      obtain ⟨⟨ok, F⟩, hp, he⟩ := Option.map_eq_some_iff.mp hs
      cases he
      obtain ⟨_, w', hs, hw⟩ := hw.put hp
      refine ⟨⟨.running ev s false (k ok), w'⟩, hr.step (l := .send) ?_ ?_, rfl, hw.main⟩
      case refine_1 => simp [Policy.allows, Policy.wellBehaved, hm]
      case refine_2 => simp [Cluster.step, hm, hs]
  case clock now =>
    simp only [step] at hs
    split at hs <;> cases hs
    case h_1 hm =>
      exact ⟨⟨_, w⟩, hr.step (l := .clock now) rfl (by simp [Cluster.step, hm]), rfl, hw.main⟩
  case spawned ok =>
    simp only [step] at hs
    split at hs <;> cases hs
    case h_1 hm =>
      exact ⟨⟨_, w⟩, hr.step (l := .spawned ok) rfl (by simp [Cluster.step, hm]), rfl, hw.main⟩
  case picked k =>
    simp only [step] at hs
    split at hs <;> [skip; cases hs]
    case h_1 hm =>
      obtain ⟨hp, hs⟩ := Option.ite_none_right_eq_some.mp hs
      cases hs
      exact ⟨⟨_, w⟩, hr.step (l := .picked k) rfl (by simp [Cluster.step, hm, hp]), rfl, hw.main⟩
  case finish =>
    simp only [step] at hs
    split at hs <;> cases hs
    all_goals exact ⟨⟨_, w⟩, hr.step (l := .finish) rfl (by simp [Cluster.step, *]), rfl, hw.main⟩
  case check now =>
    simp only [step] at hs
    split at hs <;> cases hs
    case h_1 hm =>
      refine ⟨⟨_, w⟩, hr.step (l := .check now) ?_ (by simp [Cluster.step, hm]), rfl, hw.main⟩
      simp [Policy.allows, Policy.wellBehaved, hm]
  case link i a =>
    simp only [step] at hs
    obtain ⟨hi, hs⟩ := Option.ite_none_right_eq_some.mp hs
    obtain ⟨⟨l, msgs⟩, hl, hs⟩ := Option.bind_eq_some_iff.mp hs
    obtain ⟨hc, hs⟩ := Option.ite_none_right_eq_some.mp hs
    cases hs
    obtain ⟨_, _, hm⟩ := hr.reached
    obtain ⟨w', hl, hw⟩ := hw.link hi (hm.mannered Policy.tame_wellBehaved) hc <|
      Link.stepped_of_step hl
    exact ⟨⟨F.main, w'⟩, hr.leads hl, rfl, hw⟩

-- What holds of a link at its beginning, and is kept by its steps, holds of all links.
theorem Reaches.forall_links {P : Link → Prop} (h : F.Reaches S)
    (hf : ∀ {i caller fuel}, P (.fresh S.codes i caller fuel))
    (hp : ∀ {l about msg}, P l → P (l.put about msg))
    (hs : ∀ {l l' msgs}, l.Stepped l' msgs → P l → P l') : ∀ i, P (F.links i) := by
  have hset {F : Farm} {j : Nat} {l : Link} (h : ∀ i, P (F.links i)) (hl : P l) :
      ∀ i, P ((F.set j l).links i) := by
    intro i
    by_cases hi : i = j
    case pos => subst hi; simpa [Farm.set] using hl
    case neg => simpa [Farm.set, hi] using h i
  induction h with
  | start              => exact fun _ => hf
  | @step F l F' _ h hi =>
    cases l
    case send =>
      simp only [Farm.step] at h
      split at h <;> [skip; cases h]
      case h_1 =>
        obtain ⟨⟨ok, F₁⟩, hput, he⟩ := Option.map_eq_some_iff.mp h
        cases he
        simp only [Farm.put] at hput
        split at hput
        case isFalse => cases hput; exact hi
        case isTrue  =>
          obtain ⟨_, hput⟩ := Option.ite_none_right_eq_some.mp hput
          cases hput
          exact hset hi (hp (hi _))
    case accept =>
      simp only [Farm.step] at h
      split at h <;> [skip; cases h]
      case h_1 =>
        obtain ⟨_, h⟩ := Option.ite_none_right_eq_some.mp h
        cases h
        exact hset hi hf
    case link =>
      simp only [Farm.step] at h
      obtain ⟨_, h⟩ := Option.ite_none_right_eq_some.mp h
      obtain ⟨⟨l, msgs⟩, hl, h⟩ := Option.bind_eq_some_iff.mp h
      obtain ⟨_, h⟩ := Option.ite_none_right_eq_some.mp h
      cases h
      exact hset hi (hs (Link.stepped_of_step hl) (hi _))
    case picked =>
      simp only [Farm.step] at h
      split at h <;> [skip; cases h]
      case h_1 =>
        obtain ⟨_, h⟩ := Option.ite_none_right_eq_some.mp h
        cases h
        exact hi
    all_goals
      simp only [Farm.step] at h
      split at h <;> cases h
      all_goals exact hi

-- Whatever the processes and the connection tasks do, and in which order, the main loop is in a
-- state which it can also come to in a cluster.
theorem Reaches.simulated (h : F.Reaches S) :
    ∃ σ, Cluster.Reaches S.roomier .wellBehaved σ ∧ F.Simulated S σ := by
  induction h with
  | start        => exact ⟨_, .start, rfl, .start⟩
  | step _ hs hi =>
    have ⟨_, hr, hσ⟩ := hi
    exact hσ.step hr hs

end Farm

-- The link looks to the server as the connection does.
structure Link.Mirrors (l : Link) (c : Conn) : Prop where
  role     : c.role = l.caller.peer.role
  opened   : c.task.Open ↔ l.opened = true
  -- There may be a message which is about to be written.
  channel  : ∃ flying, flying.length ≤ 1 ∧ c.sent.drop c.taken = flying ++ l.channel
  heard    : Process.heard (Process.dialogue l.trace) ++ l.down = c.written
  produced : c.role.Exec → ∃ past coming, Process.dialogue l.trace = past ++ coming ∧
    c.produced = answers 0 past

theorem Matched.mirrors {codes : Codes} {i : Nat} {l : Link} {c : Conn}
    (h : Matched codes i l c) : l.Mirrors c := by
  obtain ⟨held, flying, past, coming, h⟩ := h
  exact ⟨h.role_eq, h.stands.open_iff, ⟨flying, h.stands.length_flying, h.channel⟩, h.written,
    fun hr => ⟨past, coming, h.dialogue, h.produced hr⟩⟩

namespace Farm

variable {S : Setup} {F : Farm}

-- The programs of the server, the execs and the clients, with their connections, are a refinement
-- of the cluster in which remotes which follow the protocol say what they like.
theorem Reaches.refines (h : F.Reaches S) :
    ∃ σ, Cluster.Reaches S.roomier .wellBehaved σ ∧ σ.main = F.main ∧
      σ.net.inbound = F.inbound ∧ σ.net.size = F.size ∧
        ∀ i < F.size, (F.links i).Mirrors (σ.net.conns i) := by
  have ⟨σ, hr, hm, hw⟩ := h.simulated
  exact ⟨σ, hr, hm, hw.inbound, hw.size, fun i hi => (hw.links hi).mirrors⟩

theorem refines_tour :
    ∃ F, Reaches .plain F ∧ (F.links 1).ended tourTask 3 ∧ ∃ σ,
      Cluster.Reaches (Setup.roomier .plain) .wellBehaved σ ∧ σ.main = F.main ∧
        σ.net.inbound = F.inbound ∧ σ.net.size = F.size ∧
          ∀ i < F.size, (F.links i).Mirrors (σ.net.conns i) := by
  have ⟨F, h, hs⟩ := Reaches.of_run (S := .plain) (f := fun F => (F.links 1).ended tourTask 3) tour
    (by decide +kernel)
  exact ⟨F, h, hs, h.refines⟩

end Farm
end SprayCC
