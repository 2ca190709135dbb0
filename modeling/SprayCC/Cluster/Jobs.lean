import SprayCC.Cluster.Delivery

-- The jobs of an exec come one after the other: all that was sent to it before the last message are
-- tasks, and the server has heard the end of each of them.

namespace SprayCC

def Conn.Tasked (c : Conn) (n : Nat) : Prop :=
  ∃ i details, c.sent[n]? = some (i, .task 0 0 details)

-- The server has heard the results `heard` of an exec, and the results `fresh` are still to come.
-- If the exec waits for a task, then the last message does not make a difference.
structure Conn.Heard (c : Conn) (heard fresh : List (Nat × Message)) (waits : Prop) : Prop where
  produced : c.produced = heard ++ fresh
  current  : ∀ m ∈ fresh, m.fst + 1 = c.sent.length
  tasked   : n < c.sent.length → waits ∨ n + 1 < c.sent.length → c.Tasked n
  ended    : n < c.sent.length → waits ∨ n + 1 < c.sent.length →
    ∃ msg : Message, msg.Terminal ∧ (n, msg) ∈ heard

namespace Conn.Heard

variable {codes : Codes} {c c' : Conn} {heard fresh : List (Nat × Message)} {waits waits' : Prop}
variable {a : Act} {ms : List Message} {m : Nat × Message}

theorem nothing (hs : c.sent = []) (h : c.Heard heard fresh waits) :
    c.Heard heard fresh waits' where
  produced  := h.produced
  current   := h.current
  tasked hn := by simp [hs] at hn
  ended hn  := by simp [hs] at hn

theorem start {peer : Peer} : Heard (.fresh peer) [] [] waits where
  produced  := rfl
  current   := nofun
  tasked hn := absurd hn <| Nat.not_lt_zero _
  ended hn  := absurd hn <| Nat.not_lt_zero _

theorem weaken (h : c.Heard heard fresh waits) (hw : waits' → waits) :
    c.Heard heard fresh waits' where
  produced     := h.produced
  current      := h.current
  tasked hn hl := h.tasked hn <| hl.imp_left hw
  ended hn hl  := h.ended hn <| hl.imp_left hw

-- What an exec has to say is about its last job.
theorem step (h : c.Heard heard fresh waits) (hs : c.Step codes a ms c') (ho : c.Orderly)
    (hr : c.role ≠ .rogue) :
    ∃ fresh', fresh'.map Prod.snd = fresh.map Prod.snd ++ ms.filter (·.Result) ∧
      c'.Heard heard fresh' waits := by
  have hn := hs.sent_eq
  have ht {n} : c'.Tasked n ↔ c.Tasked n := by simp only [Tasked, hn]
  rcases hs.produces hr with ⟨hp, hf⟩ | ⟨_, job, k, msg, hp, hh, _, rfl, hm, hp'⟩
  case inl =>
    refine ⟨fresh, by simp [hf], hp ▸ h.produced, hn ▸ h.current, ?_, hn ▸ h.ended⟩
    exact fun hl hw => ht.mpr <| h.tasked (hn ▸ hl) (hn ▸ hw)
  case inr =>
    have ho := ho hh
    simp only [hp] at ho
    refine ⟨fresh ++ [(job, msg)], by simp [hm], ?_, ?_, ?_, hn ▸ h.ended⟩
    case refine_1 => rw [hp', h.produced, List.append_assoc]
    case refine_2 =>
      intro m hm
      rcases List.mem_append.mp hm with hm | hm
      case inl => exact hn ▸ h.current m hm
      case inr =>
        cases List.mem_singleton.mp hm
        rw [hn]
        omega
    case refine_3 => exact fun hl hw => ht.mpr <| h.tasked (hn ▸ hl) (hn ▸ hw)

theorem hear (h : c.Heard heard (m :: fresh) waits) : c.Heard (heard ++ [m]) fresh waits where
  produced    := by simp [h.produced]
  current _ hm := h.current _ <| .tail _ hm
  tasked      := h.tasked
  ended hn hl := have ⟨msg, ht, hm⟩ := h.ended hn hl; ⟨msg, ht, List.mem_append_left _ hm⟩

-- With the end of its last job an exec has no job.
theorem finish (h : c.Heard heard (m :: fresh) waits) (ht : m.snd.Terminal)
    (hl : c.Tasked (c.sent.length - 1)) : c.Heard (heard ++ [m]) fresh True := by
  have hj := h.current m <| .head _
  have hn {n} (hn : n < c.sent.length) : n = c.sent.length - 1 ∨ n + 1 < c.sent.length := by omega
  constructor
  case produced => exact h.hear.produced
  case current  => exact h.hear.current
  case tasked   =>
    intro n hc _
    rcases hn hc with rfl | hc'
    case inl => exact hl
    case inr => exact h.tasked hc <| .inr hc'
  case ended    =>
    intro n hc _
    rcases hn hc with rfl | hc'
    case inl => exact ⟨m.snd, ht, by simp [← hj]⟩
    case inr => exact h.hear.ended hc <| .inr hc'

theorem put (h : c.Heard heard [] True) :
    Heard { c with sent := c.sent ++ [m] } heard [] False := by
  have hl {n} (hl : n + 1 < (c.sent ++ [m]).length) : n < c.sent.length := by simpa using hl
  constructor
  case produced => exact h.produced
  case current  => exact nofun
  case tasked   =>
    intro n _ hw
    have hn := hl <| hw.resolve_left id
    simpa [Tasked, List.getElem?_append_left hn] using h.tasked hn (.inl trivial)
  case ended    => exact fun _ hw => h.ended (hl <| hw.resolve_left id) (.inl trivial)

end Conn.Heard

def Config.Heard (c : Config) : Prop :=
  ∀ e, (c.net.conns e).role.Exec → ∃ heard fresh,
    fresh.map Prod.snd = (c.net.traffic c.hand).coming e ∧
      (c.net.conns e).Heard heard fresh (e ∈ c.server.execQueue)

namespace Config.Heard

open Config.Sound

variable {S : Setup} {P : Policy} {c c' : Config} {s s' : ServerState} {w w' : Net}
  {i j e about : Nat}
variable {hand hand' : Option (Nat × Message)} {view : Nat → Phase} {msg : Message}

-- What does not touch the execs, as far as their jobs are concerned.
theorem frame (h : Config.Heard ⟨s, hand, w⟩) (hc : ∀ e, (w'.conns e).role.Exec →
    w'.conns e = w.conns e)
    (ht : ∀ e, (w'.traffic hand').coming e = (w.traffic hand).coming e)
    (hq : ∀ e, e ∈ s'.execQueue → e ∈ s.execQueue) : Config.Heard ⟨s', hand', w'⟩ := by
  intro e he
  have hn := hc e he
  have ⟨heard, fresh, hf, h⟩ := h e <| hn ▸ he
  exact ⟨heard, fresh, hf.trans (ht e).symm, hn ▸ h.weaken (hq e)⟩

theorem conns_put_client (hr : ¬(w.conns j).role.Exec) (e : Nat)
    (he : ((w.put about j msg).conns e).role.Exec) : (w.put about j msg).conns e = w.conns e := by
  have hn : e ≠ j := by
    rintro rfl
    exact hr <| by simpa using he
  simp [Net.conns_put, hn]

theorem act {a : Act} (hs : Sound S ⟨s, hand, w⟩ view) (h : Config.Heard ⟨s, hand, w⟩)
    (ha : w.step S a = some w') : Config.Heard ⟨s, hand, w'⟩ := by
  have ⟨ms, c, hm⟩ := Net.step_moved ha
  have hl := hs.wired.line hm.present
  intro e he
  by_cases hj : e = a.conn
  case pos =>
    subst hj
    have hc : w'.conns a.conn = c := by simp [hm.conns]
    have ⟨heard, fresh, hf, h⟩ := h a.conn <| hm.conn.role_eq ▸ hc ▸ he
    have ⟨fresh', hf', h⟩ := h.step hm.conn hl.orderly hl.behaved
    refine ⟨heard, fresh', ?_, hc ▸ h⟩
    simp [hf', hf, Net.coming_traffic, hm.unheard]
  case neg =>
    have hc : w'.conns e = w.conns e := by simp [hm.conns, hj]
    have ⟨heard, fresh, hf, h⟩ := h e <| hc ▸ he
    exact ⟨heard, fresh, by simp [hf, Net.coming_traffic, hm.unheard, hj], hc ▸ h⟩

theorem accept {peer : Peer} (hs : Sound S ⟨s, none, w⟩ view) (h : Config.Heard ⟨s, none, w⟩) :
    Config.Heard ⟨s.addRemote, none, w.accept peer⟩ := by
  have ha := hs.wired.absent le_rfl
  intro e he
  by_cases hj : e = w.size
  case pos =>
    subst hj
    refine ⟨[], [], ?_, ?_⟩
    · simp [Net.coming_traffic, Net.unheard_accept ha, ha]
    · exact Net.conns_accept_size ▸ .start
  case neg =>
    have hc : (w.accept peer).conns e = w.conns e := Net.conns_accept_ne hj
    have ⟨heard, fresh, hf, h⟩ := h e <| hc ▸ he
    exact ⟨heard, fresh, by simpa [Net.coming_traffic, Net.unheard_accept ha] using hf, hc ▸ h⟩

-- A message which is no result is handled without anything being sent.
theorem other (h : Config.Heard ⟨s, some (i, msg), w⟩) (hm : ¬msg.Result)
    (hq : ∀ e, e ∈ s'.execQueue → e ∈ s.execQueue) : Config.Heard ⟨s', none, w⟩ :=
  h.frame (fun _ _ => rfl) (fun e => by rw [Net.traffic_hear_other hm]) hq

theorem register {secondQueue : Bool} (hs : Sound S ⟨s, some (i, msg), w⟩ view)
    (h : Config.Heard ⟨s, some (i, msg), w⟩) (hm : ¬msg.Result) (hi : i < w.size)
    (hv : view i = .pending) :
    Config.Heard ⟨((s.setConnType i .exec).execStarted secondQueue).makeReady i, none, w⟩ := by
  have hn : (w.conns i).sent = [] := (hs.ledger.pending hv).right.right hi
  intro e he
  have ⟨heard, fresh, hf, h⟩ := h e he
  refine ⟨heard, fresh, by rw [Net.traffic_hear_other hm]; exact hf, ?_⟩
  by_cases hj : e = i
  case pos => subst hj; exact h.nothing hn
  case neg => exact h.weaken fun hq => by simpa [ServerState.makeReady, hj] using hq

-- The clients do not matter for what a result does.
theorem conns_forwards (hs : Sound S ⟨s, some (i, msg), w⟩ view) (hv : view i = .busy)
    (hf : Forwards P i msg s w s' w') (e : Nat) (he : (w'.conns e).role.Exec) :
    w'.conns e = w.conns e := by
  cases hf
  case sent j hp _ _ _ =>
    have ⟨_, _, hr, _⟩ := hs.serves hv hp
    exact conns_put_client (by simp [hr]) e he
  case lost | skipped => rfl

theorem coming_forwards (hf : Forwards P i msg s w s' w') : w'.traffic hand = w.traffic hand := by
  cases hf
  case sent           => exact Net.traffic_put
  case lost | skipped => rfl

theorem execQueue_forwards (hf : Forwards P i msg s w s' w') : s'.execQueue = s.execQueue := by
  cases hf <;> rfl

-- The exec whose result is handled, and the others.
theorem result (hs : Sound S ⟨s, some (i, msg), w⟩ view) (h : Config.Heard ⟨s, some (i, msg), w⟩)
    (hm : msg.Result) (hf : Forwards P i msg s w s' w') (he : (w'.conns e).role.Exec) :
    ∃ heard fresh, fresh.map Prod.snd = (w'.traffic none).coming e ∧
      (e ≠ i ∧ (w'.conns e).Heard heard fresh (e ∈ s.execQueue) ∨
        e = i ∧ ∃ m, m.snd = msg ∧ ∃ heard', heard = heard' ++ [m] ∧
          (w'.conns e).Heard heard' (m :: fresh) (e ∈ s.execQueue)) := by
  have ⟨_, _, hr, _⟩ := hs.wired.hear
  have hc := conns_forwards hs (hr.of_result hm).right.left hf e he
  have ⟨heard, fresh, hc', h⟩ := h e <| hc ▸ he
  rw [coming_forwards hf, Net.traffic_hear i msg, hc]
  by_cases hj : e = i
  case pos =>
    subst hj
    simp only [Net.coming_hand hm] at hc'
    have ⟨m, fresh, hm', h'⟩ : ∃ m fresh', fresh = m :: fresh' ∧ m.snd = msg ∧
        fresh'.map Prod.snd = (w.unheard none e).filter (·.Result) := by
      simpa [List.map_eq_cons_iff] using hc'
    subst hm'
    exact ⟨heard ++ [m], fresh, by simpa [Traffic.hear] using h'.right,
      .inr ⟨rfl, m, h'.left, heard, rfl, h⟩⟩
  case neg => exact ⟨heard, fresh, by simpa [Traffic.hear, hj] using hc', .inl ⟨hj, h⟩⟩

theorem output (hs : Sound S ⟨s, some (i, msg), w⟩ view) (h : Config.Heard ⟨s, some (i, msg), w⟩)
    (hm : msg.Result) (hf : Forwards P i msg s w s' w') : Config.Heard ⟨s', none, w'⟩ := by
  intro e he
  have hq := execQueue_forwards hf
  rcases h.result hs hm hf he with ⟨heard, fresh, hc, ⟨_, h⟩ | ⟨_, m, _, heard', rfl, h⟩⟩
  case inl => exact ⟨heard, fresh, hc, hq ▸ h⟩
  case inr => exact ⟨_, fresh, hc, hq ▸ h.hear⟩

theorem complete (hs : Sound S ⟨s, some (i, msg), w⟩ view) (h : Config.Heard ⟨s, some (i, msg), w⟩)
    (ht : msg.Terminal) (hf : Forwards P i msg s w s' w') :
    Config.Heard ⟨s'.countFinished.makeReady i, none, w'⟩ := by
  have ⟨_, _, hr, _⟩ := hs.wired.hear
  have hv := (hr.of_result ht.result).right.left
  have ⟨_, _, j, details, hsv⟩ := hs.ledger.busy hv
  have hq := execQueue_forwards hf
  intro e he
  rcases h.result hs ht.result hf he with
    ⟨heard, fresh, hc, ⟨hj, h⟩ | ⟨rfl, m, rfl, heard', rfl, h⟩⟩
  case inl =>
    refine ⟨heard, fresh, hc, h.weaken fun hi => ?_⟩
    simpa [ServerState.makeReady, ServerState.countFinished, hq, hj] using hi
  case inr =>
    refine ⟨_, fresh, hc, (h.finish ht ?_).weaken fun _ => trivial⟩
    rw [conns_forwards hs hv hf e he]
    exact ⟨j, details, hsv.job⟩

-- What an exec in the queue is sent.
theorem put {rest : List Nat} (hs : Sound S ⟨s, none, w⟩ view) (h : Config.Heard ⟨s, none, w⟩)
    (hq : s.execQueue = j :: rest) (hq' : s'.execQueue = rest) :
    Config.Heard ⟨s', none, w.put about j msg⟩ := by
  have hc := Config.Delivers.coming_of_queued hs hq
  have hn : j ∉ rest := (List.nodup_cons.mp <| hq ▸ hs.ledger.once).left
  intro e he
  rw [Net.traffic_put]
  have ⟨heard, fresh, hf, h⟩ := h e <| by simpa using he
  by_cases hj : e = j
  case pos =>
    subst hj
    obtain rfl : fresh = [] := by simpa [hc] using hf
    refine ⟨heard, [], hf, ?_⟩
    have h : (w.conns e).Heard heard [] True := h.weaken fun _ => by simp [hq]
    simpa [Net.conns_put] using (h.put (m := (about, msg))).weaken fun hi => hn (hq' ▸ hi)
  case neg =>
    refine ⟨heard, fresh, hf, ?_⟩
    have h : (w.conns e).Heard heard fresh (e ∈ s'.execQueue) :=
      h.weaken fun hi => hq ▸ List.mem_cons_of_mem _ (hq' ▸ hi)
    simpa [Net.conns_put, hj] using h

theorem move (hs : c.Sound S view) (h : c.Heard) (m : Move S P c c') : c'.Heard := by
  cases m
  case act ha                     => exact h.act hs ha
  case accept                     => exact h.accept hs
  case recv hi _                  =>
    exact h.frame (fun _ _ => rfl) (fun e => by rw [Net.traffic_recv hi]) fun _ => id
  case record                     => exact h
  case spawn                      => exact h.frame (fun _ _ => rfl) (fun _ => rfl) fun _ => by simp
  case register hi                =>
    have ⟨_, _, hm, _⟩ := hs.wired.hear
    exact h.register hs id (hs.length ▸ hi) hm.of_hello.right.left
  case submit                     => exact h.other id fun _ => id
  case output hm _ hf             => exact h.output hs hm hf
  case complete ht hf             => exact h.complete hs ht hf
  case drop                       => exact h.other id fun _ => id
  case dropIdle                   => exact h.other id fun _ => id
  case dropBusy hk hp _ _         =>
    have ⟨_, _, hr, _⟩ := hs.serves (hs.busy hk hp) hp
    refine (h.other id fun _ => id).frame (conns_put_client (by simp [hr]))
      (fun e => ?_) fun _ => id
    rw [Net.traffic_put]
  case assign he _ _ _ _ _ _ _ => exact h.put hs he rfl
  case release he _ _ _           => exact h.put hs he rfl

end Config.Heard

theorem Reach.heard {S : Setup} {P : Policy} {c : Config} (h : Reach S P c) (ht : P.Tame) :
    c.Heard := by
  induction h with
  | start       => exact fun _ => nofun
  | move h m hi => exact have ⟨_, hs⟩ := h.sound ht; hi.move hs m

end SprayCC
