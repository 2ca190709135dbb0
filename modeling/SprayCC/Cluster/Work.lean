import SprayCC.Cluster.Moves

-- The work of the execs: what an exec produces for one of its jobs.

namespace SprayCC

-- The outputs of a task, and its end once there is one.
def Transcript (ms : List Message) : Prop :=
  ∃ outs ends, ms = outs ++ ends ∧ (∀ m ∈ outs, m.Result ∧ ¬m.Terminal) ∧
    (ends = [] ∨ ∃ m : Message, m.Terminal ∧ ends = [m])

namespace Transcript

variable {ms : List Message} {msg : Message}

theorem nil : Transcript [] :=
  ⟨[], [], rfl, nofun, .inl rfl⟩

theorem result (h : Transcript ms) : ∀ m ∈ ms, m.Result := by
  obtain ⟨_, _, rfl, ho, rfl | ⟨m, hm, rfl⟩⟩ := h <;> intro m' hm'
  case inl => exact (ho m' <| by simpa using hm').left
  case inr =>
    rcases List.mem_append.mp hm' with hm' | hm'
    case inl => exact (ho m' hm').left
    case inr => exact List.mem_singleton.mp hm' ▸ hm.result

-- More is only added before the end.
theorem snoc (h : Transcript ms) (hn : ∀ m ∈ ms, ¬m.Terminal) (hm : msg.Result) :
    Transcript (ms ++ [msg]) := by
  have ho m (hm : m ∈ ms) := And.intro (h.result m hm) (hn m hm)
  by_cases ht : msg.Terminal
  case pos => exact ⟨ms, [msg], rfl, ho, .inr ⟨msg, ht, rfl⟩⟩
  case neg =>
    refine ⟨ms ++ [msg], [], by simp, ?_, .inl rfl⟩
    simpa [or_imp, forall_and, hm, ht] using ho

end Transcript

-- The number of messages which an exec has read.
def Peer.count : Peer → Nat
  | exec _ _ n => n
  | _          => 0

namespace Conn

def results (c : Conn) (job : Nat) : List Message :=
  (c.produced.filter (·.fst = job)).map Prod.snd

-- An exec works on the messages of its channel one after the other.
structure Works (c : Conn) : Prop where
  count      : c.peer.count ≤ c.sent.length
  produced   : (n, m) ∈ c.produced → n < c.peer.count
  busy       : c.peer = .exec second (.busy n) k → n + 1 = k ∧ ∀ m ∈ c.results n, ¬m.Terminal
  transcript : ∀ n, Transcript (c.results n)

variable {codes : Codes} {c c' : Conn} {a : Act} {ms : List Message} {msg : Message} {n about : Nat}
variable {second : Bool} {job k : Nat}

namespace Works

theorem fresh {peer : Peer} (h : peer.Fresh) : Works (.fresh peer) := by
  refine ⟨?_, nofun, ?_, fun _ => .nil⟩
  case refine_1 => cases peer <;> simp_all [Conn.fresh, Peer.count, Peer.Fresh]
  case refine_2 =>
    rintro _ _ _ rfl
    cases h.left

theorem results_eq_nil (h : c.Works) (hn : c.peer.count ≤ n) : c.results n = [] := by
  simp only [results, List.map_eq_nil_iff, List.filter_eq_nil_iff]
  rintro ⟨_, _⟩ hm hn'
  have := h.produced hm
  simp at hn'
  omega

-- An exec which works on a job has something to say about it.
theorem snoc (h : c.Works) (hp : c.peer = .exec second (.busy job) k) (hm : msg.Result)
    {stage : Stage}
    (hs : stage = .idle ∨ stage = .busy job ∧ ¬msg.Terminal) :
    Works { c with peer := .exec second stage k, produced := c.produced ++ [(job, msg)] } := by
  have ⟨hj, hn⟩ := h.busy hp
  have hr n :
    results { c with peer := .exec second stage k, produced := c.produced ++ [(job, msg)] } n =
      if n = job then c.results n ++ [msg] else c.results n := by
    by_cases hn : n = job
    case pos => simp [results, hn]
    case neg => simp [results, hn, Ne.symm hn]
  have hc : c.peer.count = k := by simp [hp, Peer.count]
  refine ⟨hc ▸ h.count, ?_, ?_, fun n => ?_⟩
  case refine_1 =>
    intro _ _ hm
    rcases List.mem_append.mp hm with hm | hm
    case inl => exact hc ▸ h.produced hm
    case inr => cases List.mem_singleton.mp hm; exact hj ▸ Nat.lt_succ_self _
  case refine_2 =>
    intro _ n _ hp
    cases hp
    obtain ⟨⟨⟩⟩ | ⟨⟨⟩, ht⟩ := hs
    refine ⟨hj, fun m hm => ?_⟩
    simp only [hr, if_true, List.mem_append, List.mem_singleton] at hm
    rcases hm with hm | rfl
    exacts [hn m hm, ht]
  case refine_3 =>
    rw [hr]
    split
    case isTrue hn' => subst hn'; exact (h.transcript n).snoc hn hm
    case isFalse    => exact h.transcript n

theorem step (h : c.Works) (hs : c.Step codes a ms c') : c'.Works := by
  cases hs
  case speaks hs _ht =>
    cases hs
    case task hp         =>
      refine ⟨Nat.zero_le _, fun hm => ?_, nofun, h.transcript⟩
      simpa [hp, Peer.count] using h.produced hm
    case hello hp        =>
      have hc := hp ▸ h.count
      refine ⟨hc, fun hm => ?_, nofun, h.transcript⟩
      simpa [hp, Peer.count] using h.produced hm
    case output hp hm ht =>
      have h := h.snoc hp hm <| .inr ⟨rfl, ht⟩
      exact ⟨hp ▸ h.count, hp ▸ h.produced, hp ▸ h.busy, h.transcript⟩
    case result hp hm    =>
      have h := h.snoc hp hm.result <| .inl rfl
      exact ⟨h.count, h.produced, h.busy, h.transcript⟩
    case rogue hp        =>
      refine ⟨Nat.zero_le _, fun hm => ?_, nofun, h.transcript⟩
      simpa [hp, Peer.count] using h.produced hm
  case starts hp hs      =>
    have hl := List.getElem?_eq_some_iff.mp hs |>.choose
    refine ⟨hl, fun hm => ?_, ?_, h.transcript⟩
    · exact Nat.lt_succ_of_lt <| by simpa [hp, Peer.count] using h.produced hm
    · rintro _ _ _ ⟨⟩
      have hn {n} (hn : n = c.peer.count) : c.results n = [] := h.results_eq_nil hn.ge
      exact ⟨rfl, fun _ hm => absurd (hn <| by simp [hp, Peer.count]) (List.ne_nil_of_mem hm)⟩
  case leaves hp hs      =>
    have hl := List.getElem?_eq_some_iff.mp hs |>.choose
    refine ⟨hl, fun hm => ?_, nofun, h.transcript⟩
    exact Nat.lt_succ_of_lt <| by simpa [hp, Peer.count] using h.produced hm
  all_goals exact ⟨h.count, h.produced, h.busy, h.transcript⟩

theorem put (h : c.Works) : Works { c with sent := c.sent ++ [(about, msg)] } :=
  ⟨h.count.trans (by simp), h.produced, h.busy, h.transcript⟩

end Works
end Conn

-- Every exec works on its messages.
def Net.Works (w : Net) : Prop :=
  ∀ i, (w.conns i).Works

namespace Net.Works

variable {w : Net} {about dest : Nat} {msg : Message}

theorem put (h : w.Works) : (w.put about dest msg).Works := by
  intro i
  rw [Net.conns_put]
  split
  case isTrue  => exact (h i).put
  case isFalse => exact h i

theorem accept {peer : Peer} (h : w.Works) (hp : peer.Fresh) : (w.accept peer).Works := by
  intro i
  by_cases hi : i = w.size
  case pos => exact hi ▸ Net.conns_accept_size ▸ .fresh hp
  case neg => exact Net.conns_accept_ne hi ▸ h i

theorem forwards {P : Policy} {s s' : ServerState} {w' : Net} {i : Nat} (h : w.Works)
    (hf : Forwards P i msg s w s' w') : w'.Works := by
  cases hf
  case sent           => exact h.put
  case lost | skipped => exact h

end Net.Works

theorem Reach.works {S : Setup} {P : Policy} {c : Config} (h : Reach S P c) : c.net.Works := by
  induction h with
  | start         => exact fun _ => Conn.Works.fresh rfl
  | move hr m hi  =>
    cases m
    case act hs       =>
      have ⟨_, _, hm⟩ := Net.step_moved hs
      exact fun i => hm.forall_conns (P := fun c c' => c.Works → c'.Works) (fun _ => id)
        (fun hs h => h.step hs) i (hi i)
    case accept hf _  => exact hi.accept hf
    case output hf    => exact hi.forwards hf
    case complete hf  => exact hi.forwards hf
    case dropBusy | assign | release => exact hi.put
    all_goals exact hi

end SprayCC
