import Mathlib.Algebra.BigOperators.Group.Finset.Basic
import Mathlib.Algebra.Order.BigOperators.Group.Finset
import SprayCC.Farm.Finish
import SprayCC.Farm.Theorems.Waiting

open Async Program

-- What becomes of the processes once the server has left its loop.

namespace SprayCC

-- An upper bound on the calls which a process makes after the server is gone, if it can still read
-- the messages.
def Process.stamina {α : Type} : Process.Proc α → List Message → Nat
  | .call .read k, msg :: down =>
    max (stamina (k (.message msg)) down)
      (max (stamina (k .closed) (msg :: down)) (stamina (k .error) (msg :: down))) + 1
  | .call .read k, []          => max (stamina (k .closed) []) (stamina (k .error) []) + 1
  | .call (.write _) k, down   => max (stamina (k true) down) (stamina (k false) down) + 1
  | .call .flush k, down       => max (stamina (k true) down) (stamina (k false) down) + 1
  | .call (.file _) k, down    => max (stamina (k true) down) (stamina (k false) down) + 1
  | .call .shutdown k, down    => stamina (k ()) down + 1
  | _, _                       => 0

theorem Process.stamina_answer {α : Type} {c : Process.Call} {k : c.Answer → Process.Proc α}
    {a : c.Answer} {down down' : List Message} (hc : c.Online)
    (hg : ¬Process.Garbled [⟨c, a⟩])
    (hd : Process.heard (Process.dialogue [⟨c, a⟩]) ++ down' = down) :
    Process.stamina (k a) down' < Process.stamina (.call c k) down := by
  cases c
  case read =>
    cases a
    case message msg    =>
      obtain rfl : msg :: down' = down := hd
      exact Nat.lt_succ_of_le <| le_max_left ..
    case undecodable    => exact absurd (.head _) hg
    case closed | error =>
      obtain rfl : down' = down := hd
      cases down' <;> simp only [stamina] <;> omega
  case write | flush | file =>
    cases a <;> obtain rfl : down' = down := hd
    all_goals simp only [stamina]; omega
  case shutdown             =>
    obtain rfl : down' = down := hd
    exact Nat.lt_succ_self _
  all_goals exact hc.elim

-- The server leaves its loop by shutting down, by an `Err`, or by a panic.
def Main.over : Main → Bool
  | shutdown _ | faulted (.error _) | faulted (.panic _) => true
  | _                                                     => false

namespace Link

def stamina (l : Link) : Nat :=
  Process.stamina l.process l.down

-- The process has come to its end.
def Ended (l : Link) : Prop :=
  (∃ status, l.process = .done status) ∨ l.process = .fail .error ∨
    ∃ p, l.process = .fail (.panic p)

-- There is no connection task.
structure Cut (codes : Codes) (l : Link) : Prop where
  task   : l.task = .done ()
  opened : l.opened = false
  after  : (l.caller.process codes).After l.trace l.process

variable {codes : Codes} {l l' : Link} {msgs : List (Nat × Message)}

theorem Cut.stepped (h : l.Cut codes) (hs : l.Stepped l' msgs) :
    l'.Cut codes ∧ l'.stamina < l.stamina := by
  cases hs
  case answers c k a up down hp hg hu hd =>
    have ha : (l.caller.process codes).After l.trace (.call c k) := hp ▸ h.after
    have ho := (Caller.process_online.after ha).right
    refine ⟨⟨h.task, h.opened, ha.answer a⟩, ?_⟩
    rw [stamina, stamina, hp]
    exact Process.stamina_answer ho.left hg hd
  case returns ho => cases h.opened.symm.trans ho
  all_goals cases h.task.symm.trans ‹l.task = _›

-- A process does not wait for anything but messages, and the process of a task.
theorem Cut.ended (h : l.Cut codes) (hr : l.AtRest) (hn : l.process ≠ .fail .stuck) :
    l.Ended := by
  cases hp : l.process
  case done   => exact .inl ⟨_, hp⟩
  case fail e =>
    cases e
    case waiting => exact absurd hr.fresh (by simp [Spent, hp])
    case stuck   => exact absurd hp hn
    case error   => exact .inr <| .inl hp
    case panic p => exact .inr <| .inr ⟨p, hp⟩
  case call c k =>
    have ho := (Caller.process_online.after h.after).right
    rw [hp] at ho
    cases c
    case write =>
      have hn := hr.still (.tells true) rfl
      simp [Link.step, hp] at hn
    case read =>
      have hd : l.down = [] := by
        have hn := hr.still .hears rfl
        cases hd : l.down <;> simp_all [Link.step]
      have hn := hr.still (.loses false) rfl
      simp [Link.step, hp, hd, h.opened] at hn
    case flush | shutdown | file =>
      have hn := hr.still (.does true) rfl
      simp [Link.step, hp] at hn
    all_goals exact ho.left.elim

end Link

namespace Farm

-- Nothing is left of the server.
structure Quit (S : Setup) (F : Farm) : Prop where
  main  : F.main.over
  links : ∀ i < F.size, (F.links i).Cut S.codes

def stamina (F : Farm) : Nat :=
  ∑ i ∈ Finset.range F.size, (F.links i).stamina

variable {S : Setup} {F F' : Farm} {i : Nat} {l : Label} {ls : List Label}

theorem step_of_over (hm : F.main.over) (hs : F.step S l = some F') :
    ∃ i a, l = .link i a := by
  cases l
  case link i a => exact ⟨i, a, rfl⟩
  all_goals
    simp only [Farm.step] at hs
    split at hs <;> simp_all [Main.over]

namespace Quit

theorem step (h : F.Quit S) (hs : F.step S l = some F') :
    F'.Quit S ∧ F'.stamina < F.stamina := by
  obtain ⟨i, a, rfl⟩ := step_of_over h.main hs
  simp only [Farm.step] at hs
  obtain ⟨hi, hs⟩ := Option.ite_none_right_eq_some.mp hs
  obtain ⟨⟨l, msgs⟩, hl, hs⟩ := Option.bind_eq_some_iff.mp hs
  obtain ⟨_, hs⟩ := Option.ite_none_right_eq_some.mp hs
  cases hs
  obtain ⟨hc, hd⟩ := (h.links i hi).stepped (Link.stepped_of_step hl)
  refine ⟨⟨h.main, fun j hj => ?_⟩, ?_⟩
  case refine_1 =>
    by_cases hn : j = i
    case pos => subst hn; simpa [Farm.set] using hc
    case neg => simpa [Farm.set, hn] using h.links j hj
  case refine_2 =>
    refine Finset.sum_lt_sum (fun j _ => ?_) ⟨i, Finset.mem_range.mpr hi, ?_⟩
    case refine_1 =>
      by_cases hn : j = i
      case pos => subst hn; simpa [Farm.set] using hd.le
      case neg => simp [Farm.set, hn]
    case refine_2 => simpa [Farm.set] using hd

theorem run (h : F.Quit S) (hr : F.run S ls = some F') :
    F'.Quit S ∧ F'.stamina + ls.length ≤ F.stamina := by
  induction ls generalizing F with
  | nil          => cases hr; exact ⟨h, le_rfl⟩
  | cons l ls hi =>
    have ⟨_, hs, hr⟩ := Option.bind_eq_some_iff.mp hr
    have ⟨h, hd⟩ := h.step hs
    have ⟨h, hl⟩ := hi h hr
    refine ⟨h, ?_⟩
    rw [List.length_cons]
    omega

end Quit

-- An exec is stuck because of the process of a task which it has read.
theorem Quit.stuck (h : F.Quit S) (hi : i < F.size) (hn : (F.links i).process = .fail .stuck) :
    ∃ n details turn, F.Stuck i n details turn := by
  have ha := (h.links i hi).after
  cases hc : (F.links i).caller
  case client => exact absurd hn (Client.not_stuck ha hc)
  case exec second turns =>
    rw [hc, hn] at ha
    rcases Runs.bind_iff.mp (After.runs_error_iff.mpr ha) with ⟨e, hs, he⟩ | ⟨_, _, _, _, _, hd⟩
    case inr => cases (Runs.done_iff.mp hd).right
    cases he
    have ⟨n, turn, a, u, details, ht, hh, hm, _⟩ := Exec.session_stuck hs
    exact ⟨n, details, turn, ⟨⟨hi, hc ▸ trivial, a, u, hm⟩, second, turns, hc, ht⟩, hh, hn⟩

end Farm
end SprayCC
