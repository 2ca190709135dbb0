import SprayCC.Cluster.Invariant
import SprayCC.Cluster.Work

-- How the results of the execs come to the clients, again without the program.

namespace SprayCC

-- The message at position `n` on the channel of exec `e` is the task of client `i`.
def Ledger.Job (l : Ledger) (e n i : Nat) (details : TaskDetails) : Prop :=
  (l.sent e)[n]? = some (i, .task 0 0 details)

-- The job of an exec which serves a client is the last one.
theorem Ledger.Serves.job {l : Ledger} {e i : Nat} {details : TaskDetails}
    (h : l.Serves e i details) :
    l.Job e ((l.sent e).length - 1) i details :=
  List.getLast?_eq_getElem?.symm.trans h.last

theorem Ledger.Sound.role_of_partner {l : Ledger} {e i : Nat} (h : l.Sound) (hk : l.kind e = .exec)
    (hp : l.partner e = some i) : ∃ details, l.role i = .client details := by
  have hv := h.exec_cases hk |>.resolve_left (by simp [hp]) |>.left
  have ⟨_, _, _, details, hs⟩ := h.busy hv
  cases hs.exec.symm.trans hp
  exact ⟨details, hs.role⟩

-- All that there is to tell about a job, where the connection of the exec may have `ended`.
def account (results : List Message) (ended : Bool) : List Message :=
  if ended ∧ ∀ m ∈ results, ¬m.Terminal then results ++ [droppedNotice] else results

theorem prefix_account {results : List Message} {ended : Bool} :
    results <+: account results ended := by
  unfold account
  split <;> simp

-- What the execs have produced for the messages on their channels, what of it the server has not
-- handled yet, and which of the connections have ended.
structure Traffic where
  results : Nat → Nat → List Message
  coming  : Nat → List Message
  ended   : Nat → Bool

namespace Traffic

structure Sound (t : Traffic) (l : Ledger) : Prop where
  absent  : l.size ≤ e → l.sent e = []
  owned   : l.Job e n i details → l.role i = .client details ∧ l.partner i ≠ none
  once    : l.Job e n i details → l.Job e' n' i details' → e' = e ∧ n' = n
  known   : l.role i = .client details → (e, msg) ∈ l.sent i → ∃ n, l.Job e n i details
  current : l.kind e = .exec → l.partner e = some i → l.kind i = .client →
    (l.sent i).map Prod.snd ++ t.coming e = t.results e ((l.sent e).length - 1)
  told    : l.Job e n i details → (l.sent i).map Prod.snd <+: account (t.results e n) (t.ended e)

-- An exec has produced one more result.
def produce (t : Traffic) (e job : Nat) (msg : Message) : Traffic :=
  { t with
    results :=
      Function.update t.results e (Function.update (t.results e) job (t.results e job ++ [msg]))
    coming  := Function.update t.coming e (t.coming e ++ [msg]) }

def hear (t : Traffic) (e : Nat) (rest : List Message) : Traffic :=
  { t with coming := Function.update t.coming e rest }

variable {t : Traffic} {l : Ledger} {e i j k job : Nat} {details : TaskDetails} {prior : Duration}
variable {msg : Message} {rest : List Message} {execs : List Nat}

theorem getElem?_snoc {α : Type} {xs : List α} {x y : α} {n : Nat} :
    (xs ++ [x])[n]? = some y ↔ xs[n]? = some y ∨ n = xs.length ∧ x = y := by
  grind

theorem job_put {n : Nat} :
    (l.put j k msg).Job e n i details ↔
      l.Job e n i details ∨ e = k ∧ n = (l.sent k).length ∧ j = i ∧ msg = .task 0 0 details := by
  by_cases he : e = k
  case pos => subst he; simp [Ledger.Job, Ledger.put, getElem?_snoc]
  case neg => simp [Ledger.Job, Ledger.put, he]

theorem job_assign {n e' i' : Nat} {d : TaskDetails} :
    (l.assign k execs i e details).Job e' n i' d ↔
      l.Job e' n i' d ∨ e' = e ∧ n = (l.sent e).length ∧ i = i' ∧ details = d := by
  by_cases he : e' = e
  case pos => subst he; simp [Ledger.Job, Ledger.assign, getElem?_snoc]
  case neg => simp [Ledger.Job, Ledger.assign, he]

namespace Sound

theorem of_nothing (hs : ∀ i, l.sent i = []) (hk : ∀ i, l.kind i ≠ .exec) : t.Sound l := by
  have hj {e n i details} : ¬l.Job e n i details := by simp [Ledger.Job, hs]
  exact ⟨fun _ => hs _, (absurd · hj), (absurd · hj), fun _ hm => by simp [hs] at hm,
    (absurd · (hk _)), (absurd · hj)⟩

theorem frame {l' : Ledger} (h : t.Sound l) (hz : l'.size = l.size) (hs : l'.sent = l.sent)
    (hr : l'.role = l.role)
    (hp : ∀ i details, l.role i = .client details → l.partner i ≠ none → l'.partner i ≠ none)
    (hc : ∀ e i, l'.kind e = .exec → l'.partner e = some i → l'.kind i = .client →
      l.kind e = .exec ∧ l.partner e = some i ∧ l.kind i = .client) : t.Sound l' := by
  have hj {e n i details} : l'.Job e n i details ↔ l.Job e n i details := by simp [Ledger.Job, hs]
  refine ⟨?_, ?_, ?_, ?_, ?_, ?_⟩
  · exact fun he => hs ▸ h.absent (hz ▸ he)
  · exact fun hn => have ⟨hi, hn⟩ := h.owned (hj.mp hn); ⟨hr ▸ hi, hp _ _ hi hn⟩
  · exact fun hn hn' => h.once (hj.mp hn) (hj.mp hn')
  · exact fun hi hm => have ⟨n, hn⟩ := h.known (hr ▸ hi) (hs ▸ hm); ⟨n, hj.mpr hn⟩
  · exact fun he hi hk => have ⟨he, hi, hk⟩ := hc _ _ he hi hk; hs ▸ h.current he hi hk
  · exact fun hn => hs ▸ h.told (hj.mp hn)

-- A connection may end at any time.
theorem ends {t' : Traffic} (h : t.Sound l) (hr : t'.results = t.results)
    (hc : t'.coming = t.coming)
    (he : ∀ e, l.sent e ≠ [] → t.ended e → t'.ended e) : t'.Sound l where
  absent  := h.absent
  owned   := h.owned
  once    := h.once
  known   := h.known
  current := hr ▸ hc ▸ h.current
  told {e _ _ _} hj := by
    have hs : l.sent e ≠ [] := List.ne_nil_of_mem <| List.mem_of_getElem? hj
    refine hr ▸ h.told hj |>.trans ?_
    by_cases hh : t.ended e
    case pos => simp [hh, he e hs hh]
    case neg => simpa [account, hh] using prefix_account

-- An exec only produces results for the message it was sent last.
theorem produce (h : t.Sound l) (he : ¬t.ended e) (hn : job + 1 = (l.sent e).length) :
    (t.produce e job msg).Sound l where
  __ := h
  current {e' i} hk hp hc := by
    have hj : job = (l.sent e).length - 1 := by omega
    have := h.current hk hp hc
    by_cases hee : e' = e
    case pos => subst hee; simp [Traffic.produce, ← hj, ← List.append_assoc, this]
    case neg => simpa [Traffic.produce, hee] using this
  told {e' n i _} hj := by
    refine h.told hj |>.trans ?_
    by_cases hee : e' = e
    case neg => simp [Traffic.produce, hee]
    case pos =>
      subst hee
      by_cases hn : n = job <;> simp [account, he, Traffic.produce, hn]

theorem hear (h : t.Sound l)
    (hk : ∀ i, l.kind e = .exec → l.partner e = some i → l.kind i ≠ .client) :
    (t.hear e rest).Sound l where
  __ := h
  current {e' i} he hp hc := by
    by_cases hee : e' = e
    case pos => subst hee; exact absurd hc <| hk i he hp
    case neg => simpa [Traffic.hear, hee] using h.current he hp hc

theorem hear_of_partner (h : t.Sound l) (hp : l.partner e = some i) (hk : l.kind i ≠ .client) :
    (t.hear e rest).Sound l :=
  h.hear fun _ _ hp' => by cases hp.symm.trans hp'; exact hk

theorem accept {role : Role} (h : t.Sound l) (hs : l.Sound) : t.Sound (l.accept role) := by
  have hn : (l.accept role).sent = l.sent := by
    simp [Ledger.accept, Function.update_eq_self_iff, h.absent le_rfl]
  have hj {e n i details} : (l.accept role).Job e n i details ↔ l.Job e n i details := by
    simp [Ledger.Job, hn]
  have hr {i} (hi : i ≠ l.size) : (l.accept role).role i = l.role i := by
    simp [Ledger.accept, hi]
  refine ⟨?_, ?_, ?_, ?_, ?_, ?_⟩
  · exact fun he => hn ▸ h.absent (Nat.le_of_succ_le he)
  · intro e n i details hi
    have ho := h.owned (hj.mp hi)
    have hi : i ≠ l.size := by
      rintro rfl
      exact ho.right (hs.pending <| hs.later le_rfl).right.left
    exact hr hi ▸ ho
  · exact fun hi hi' => h.once (hj.mp hi) (hj.mp hi')
  · intro i details e msg hi hm
    rw [hn] at hm
    have hne : i ≠ l.size := by
      rintro rfl
      simp [h.absent le_rfl] at hm
    exact (h.known (hr hne ▸ hi) hm).imp fun _ => hj.mpr
  · exact fun he hi hk => hn ▸ h.current he hi hk
  · exact fun hi => hn ▸ h.told (hj.mp hi)

theorem register (h : t.Sound l) (hr : (l.role i).Exec) : t.Sound (l.register i) := by
  refine h.frame rfl rfl rfl (fun j details hj hp => ?_) fun e j he hp hk => ?_
  · have hji : j ≠ i := by rintro rfl; simp [hj] at hr
    simpa [Ledger.register, hji] using hp
  · simp only [Ledger.register, Function.update_apply] at he hp hk
    grind

theorem submit (h : t.Sound l) (hs : l.Sound) (hv : l.view i = .pending) :
    t.Sound (l.submit i details prior) := by
  refine h.frame rfl rfl rfl (fun _ _ _ => id) fun e j he hp hk => ?_
  simp only [Ledger.submit, Function.update_apply] at he hp hk
  have hb : l.view e = .busy := by
    rcases hs.exec_cases (i := e) (by grind) with ⟨_, hn⟩ | ⟨hv, _⟩
    case inl => cases hp.symm.trans hn
    case inr => exact hv
  obtain ⟨_, _, _, _, hsv⟩ := hs.busy hb
  have := hsv.view
  have := hsv.exec
  grind

-- The loss of a remote.

theorem lose (h : t.Sound l) : t.Sound (l.lose i) := by
  refine h.frame rfl rfl rfl (fun _ _ _ => id) fun e j he hp hj => ⟨?_, hp, ?_⟩
  all_goals
    simp only [Ledger.lose, Function.update_apply] at he hj
    grind

theorem drop (h : t.Sound l) : t.Sound (l.drop i) :=
  h.lose (i := i).frame rfl rfl rfl (fun _ _ _ => id) fun _ _ he hp hj => ⟨he, hp, hj⟩

theorem finish (h : t.Sound l) (hr : (l.role e).Exec) : t.Sound (l.finish e) := by
  refine h.frame rfl rfl rfl (fun j details hj hp => ?_) fun e' j he hp hk => ?_
  · have hje : j ≠ e := by rintro rfl; simp [hj] at hr
    simpa [Ledger.finish, hje] using hp
  · simp only [Ledger.finish, Function.update_apply] at he hp hk
    grind

-- Client `i` is told the next message about its job.
theorem tell {n : Nat} (h : t.Sound l) (hs : l.Sound) (hj : l.Job e n i details)
    (hp : l.partner e = some i) (hm : msg.Result) (hi : l.kind i ≠ .exec)
    (hc : ∀ e', l.kind e' = .exec → l.partner e' = some i → l.kind i = .client →
      e' = e ∧ (l.sent i).map Prod.snd ++ msg :: rest = t.results e ((l.sent e).length - 1))
    (ht : (l.sent i).map Prod.snd ++ [msg] <+: account (t.results e n) (t.ended e)) :
    (t.hear e rest).Sound (l.put e i msg) := by
  have hj' {e' n i' d} : (l.put e i msg).Job e' n i' d ↔ l.Job e' n i' d :=
    job_put.trans <| or_iff_left fun h => by simp [h.right.right.right, Message.Result] at hm
  have ⟨hri, hpi⟩ := h.owned hj
  have hl : i < l.size := not_le.mp fun hl => hpi (hs.pending <| hs.later hl).right.left
  have hn {j} (hj : j ≠ i) : (l.put e i msg).sent j = l.sent j := by simp [Ledger.put, hj]
  have hn' : (l.put e i msg).sent i = l.sent i ++ [(e, msg)] := by simp [Ledger.put]
  constructor
  case absent => exact fun he => hn (ne_of_gt <| hl.trans_le he) ▸ h.absent he
  case owned  => exact fun hj => h.owned (hj'.mp hj)
  case once   => exact fun hj hk => h.once (hj'.mp hj) (hj'.mp hk)
  case known  =>
    intro i' d e' m hr hm
    by_cases hii : i' = i
    case neg => exact (h.known hr (hn hii ▸ hm)).imp fun _ => hj'.mpr
    case pos =>
      subst hii
      rcases List.mem_append.mp (hn' ▸ hm) with hm | hm
      case inl => exact (h.known hr hm).imp fun _ => hj'.mpr
      case inr =>
        cases List.mem_singleton.mp hm
        cases hri.symm.trans hr
        exact ⟨n, hj'.mpr hj⟩
  case current =>
    intro e' i' hk hp' hk'
    have hei : e' ≠ i := by rintro rfl; exact hi hk
    rw [hn hei]
    by_cases hii : i' = i
    case pos =>
      subst hii
      obtain ⟨rfl, hc⟩ := hc e' hk hp' hk'
      simpa [hn', Traffic.hear] using hc
    case neg =>
      have hee : e' ≠ e := by rintro rfl; exact hii <| Option.some.inj <| hp'.symm.trans hp
      simpa [hn hii, Traffic.hear, hee] using h.current hk hp' hk'
  case told =>
    intro e' n' i' d' hj''
    by_cases hii : i' = i
    case pos =>
      subst hii
      obtain ⟨rfl, rfl⟩ := h.once hj (hj'.mp hj'')
      simpa [hn', Traffic.hear] using ht
    case neg => exact hn hii ▸ h.told (hj'.mp hj'')

theorem put (h : t.Sound l) (hs : l.Sound) (hv : l.view e = .busy) (hsv : l.Serves e i details)
    (hc : l.kind i = .client) (hm : t.coming e = msg :: rest) (hr : msg.Result) :
    (t.hear e rest).Sound (l.put e i msg) := by
  have ⟨_, hk, _⟩ := hs.busy hv
  have hr' := hm ▸ h.current hk hsv.exec hc
  refine h.tell hs hsv.job hsv.exec hr (by simp [hc]) (fun e' hk' hp _ => ⟨?_, hr'⟩) ?_
  case refine_1 =>
    rcases hs.exec_cases hk' with ⟨_, hn⟩ | ⟨hv', _⟩
    case inl => cases hp.symm.trans hn
    case inr => exact hs.serves_unique hsv hv' hp
  case refine_2 =>
    refine .trans ?_ prefix_account
    exact ⟨rest, by simp [← hr']⟩

theorem hear_nil (hm : t.coming e = []) : t.hear e [] = t := by
  simp [Traffic.hear, ← hm]

theorem notify (h : t.Sound l) (hs : l.Sound) (hv : l.view e = .busy) (hsv : l.Serves e i details)
    (hc : l.kind i = .client) (hm : t.coming e = []) (he : t.ended e) :
    t.Sound ((l.drop e).put e i droppedNotice) := by
  have hi := hs.serves_ne hv hsv
  have ⟨_, hk, _⟩ := hs.busy hv
  have hr := hm ▸ h.current hk hsv.exec hc
  have hd := hs.drop (i := e) <| hs.lt_size (by simp [hv])
  have hj : (l.drop e).Job e ((l.sent e).length - 1) i details := hsv.job
  refine hear_nil hm ▸ h.drop.tell hd hj hsv.exec trivial ?_ (fun e' hk' hp _ => ?_) ?_
  case refine_1 => simp [Ledger.drop, hi, hc]
  case refine_2 =>
    have hee : e' ≠ e := by rintro rfl; simp [Ledger.drop] at hk'
    refine absurd ?_ hee
    rcases hs.exec_cases (i := e') (by simpa [Ledger.drop, hee] using hk') with ⟨_, hn⟩ | ⟨hv', _⟩
    case inl => cases hp.symm.trans hn
    case inr => exact hs.serves_unique hsv hv' hp
  case refine_3 =>
    have hn : ∀ m ∈ t.results e ((l.sent e).length - 1), ¬m.Terminal := by
      simpa [← hr] using fun m a hm => hsv.unsolved (a, m) hm
    rw [account, if_pos ⟨he, hn⟩, ← hr]
    simp [Ledger.drop]

theorem assign (h : t.Sound l) (hs : l.Sound) (ht : l.tasks[k]? = some ((i, details), prior))
    (he : l.execs = e :: execs) (hm : t.coming e = [])
    (hr : t.results e (l.sent e).length = []) : t.Sound (l.assign k execs i e details) := by
  have ⟨hri, hpi, hsi, hvi⟩ := hs.tasked <| List.mem_of_getElem? ht
  have ⟨hre, hpe, hve⟩ := hs.queued (i := e) (he ▸ List.mem_cons_self)
  have hie : i ≠ e := by rintro rfl; simp [hri] at hre
  have hl : e < l.size := hs.lt_size (by rcases hve with hv | hv <;> simp [hv])
  have hn {j} (hj : j ≠ e) : (l.assign k execs i e details).sent j = l.sent j := by
    simp [Ledger.assign, hj]
  have hc {j d} (hj : l.role j = .client d) : j ≠ e := by rintro rfl; simp [hj] at hre
  constructor
  case absent => exact fun hl' => hn (ne_of_gt <| hl.trans_le hl') ▸ h.absent hl'
  case owned  =>
    intro e' n i' d hj
    rcases job_assign.mp hj with hj | ⟨_, _, rfl, rfl⟩
    case inl =>
      obtain ⟨hr, hp⟩ := h.owned hj
      refine ⟨hr, ?_⟩
      simp only [Ledger.assign, Function.update_apply]
      grind
    case inr => exact ⟨hri, by simp [Ledger.assign, hie]⟩
  case once   =>
    intro e₁ n₁ i' d₁ e₂ n₂ d₂ hj₁ hj₂
    rcases job_assign.mp hj₁ with ho₁ | ⟨he₁, hn₁, hi₁, _⟩ <;>
      rcases job_assign.mp hj₂ with ho₂ | ⟨he₂, hn₂, hi₂, _⟩
    · exact h.once ho₁ ho₂
    · exact absurd (hi₂ ▸ hpi) (h.owned ho₁).right
    · exact absurd (hi₁ ▸ hpi) (h.owned ho₂).right
    · exact ⟨he₂.trans he₁.symm, hn₂.trans hn₁.symm⟩
  case known   =>
    intro i' d e' m hr hm
    exact (h.known hr (hn (hc hr) ▸ hm)).imp fun _ hj => job_assign.mpr <| .inl hj
  case current =>
    intro e' i' hk hp hk'
    by_cases hee : e' = e
    case pos =>
      subst hee
      have hi : i' = i := by simpa [Ledger.assign, eq_comm] using hp
      subst hi
      have hl : ((l.assign k execs i' e' details).sent e').length - 1 = (l.sent e').length := by
        simp [Ledger.assign]
      rw [hn hie, hsi, hm, hl, hr]
      rfl
    case neg =>
      have hei : e' ≠ i := by
        rintro rfl
        rcases hs.exec_cases (i := e') hk with ⟨hv, _⟩ | ⟨hv, _⟩ <;> simp [hv] at hvi
      have hp : l.partner e' = some i' := by simpa [Ledger.assign, hee, hei] using hp
      obtain ⟨_, hr⟩ := hs.role_of_partner hk hp
      rw [hn hee, hn (hc hr)]
      exact h.current hk hp hk'
  case told    =>
    intro e' n i' d hj
    rcases job_assign.mp hj with hj | ⟨rfl, rfl, rfl, rfl⟩
    case inl => exact hn (hc (h.owned hj).left) ▸ h.told hj
    case inr => simp [hn hie, hsi]

-- A message which is no task, for an exec which is no longer there.
theorem release (h : t.Sound l) (hs : l.Sound) (he : l.execs = e :: execs) :
    t.Sound (l.release e execs) := by
  have ⟨hre, hpe, hve⟩ := hs.queued (i := e) (he ▸ List.mem_cons_self)
  have hb {e' n i d} : (l.release e execs).Job e' n i d ↔ l.Job e' n i d :=
    show (l.put e e .pissOff).Job e' n i d ↔ _ from job_put.trans <| or_iff_left nofun
  have hl : e < l.size := hs.lt_size (by rcases hve with hv | hv <;> simp [hv])
  have hn {j} (hj : j ≠ e) : (l.release e execs).sent j = l.sent j := by simp [Ledger.release, hj]
  have hc {j d} (hj : l.role j = .client d) : j ≠ e := by rintro rfl; simp [hj] at hre
  constructor
  case absent  => exact fun hl' => hn (ne_of_gt <| hl.trans_le hl') ▸ h.absent hl'
  case owned   => exact fun hi => h.owned (hb.mp hi)
  case once    => exact fun hi hi' => h.once (hb.mp hi) (hb.mp hi')
  case known   =>
    exact fun hr hm => (h.known hr (hn (hc hr) ▸ hm)).imp fun _ => hb.mpr
  case current =>
    intro e' i hk hp hk'
    have hee : e' ≠ e := by rintro rfl; simp [Ledger.release] at hk
    have hk : l.kind e' = .exec := by simpa [Ledger.release, hee] using hk
    obtain ⟨_, hr⟩ := hs.role_of_partner hk hp
    have hk' : l.kind i = .client := by simpa [Ledger.release, hc hr] using hk'
    rw [hn hee, hn (hc hr)]
    exact h.current hk hp hk'
  case told    => exact fun hi => hn (hc (h.owned (hb.mp hi)).left) ▸ h.told (hb.mp hi)

end Sound
end Traffic

theorem Conn.Step.hungUp_of {codes : Codes} {c c' : Conn} {a : Act} {ms : List Message}
    (h : c.Step codes a ms c') (hc : c.task.HungUp) : c'.task.HungUp := by
  cases h
  case starts | leaves => exact hc
  all_goals simp_all [ConnTask.HungUp]

-- A step of a connection adds nothing to the results of an exec, unless the exec works on a task.
theorem Conn.Step.produces {codes : Codes} {c c' : Conn} {a : Act} {ms : List Message}
    (h : c.Step codes a ms c') (hr : c.role ≠ .rogue) :
    (c'.produced = c.produced ∧ ms.filter (·.Result) = []) ∨
      ∃ second job k msg, c.peer = .exec second (.busy job) k ∧ ¬c.task.HungUp ∧ ¬c'.task.HungUp ∧
        ms = [msg] ∧ msg.Result ∧ c'.produced = c.produced ++ [(job, msg)] := by
  cases h
  case speaks t _ hc hs ht =>
    have hc : ¬c.task.HungUp := by simp [hc, ConnTask.HungUp]
    have ht : ¬t.HungUp := by rcases ht with rfl | rfl <;> exact id
    cases hs
    case task            => exact .inl ⟨rfl, by rw [codes.forwards_submission]; rfl⟩
    case hello           => exact .inl ⟨rfl, by rw [codes.forwards_hello]; rfl⟩
    case output hp hm _  =>
      exact .inr ⟨_, _, _, _, hp, hc, ht, by rw [codes.forwards_result hm], hm, rfl⟩
    case result hp hm    =>
      exact .inr ⟨_, _, _, _, hp, hc, ht, by rw [codes.forwards_result hm.result], hm.result, rfl⟩
    case rogue hp        => exact absurd (congrArg Peer.role hp) hr
  all_goals exact .inl ⟨rfl, rfl⟩

def Net.traffic (w : Net) (hand : Option (Nat × Message)) : Traffic where
  results e n := (w.conns e).results n
  coming e    := (w.unheard hand e).filter (·.Result)
  ended e     := (w.conns e).task.HungUp

-- The traffic for the clients of the server, on any view of the sessions.
def Config.Delivers (c : Config) : Prop :=
  (c.net.traffic c.hand).Sound (c.server.ledger c.net fun _ => .pending)

namespace Net

variable {w : Net} {i about dest : Nat} {msg : Message} {hand : Option (Nat × Message)}

theorem coming_traffic :
    (w.traffic hand).coming i = (w.unheard hand i).filter (·.Result) :=
  rfl

theorem traffic_put : (w.put about dest msg).traffic hand = w.traffic hand := by
  simp [traffic, unheard_put, Conn.results]

theorem traffic_hear (i : Nat) (msg : Message) :
    w.traffic none = (w.traffic (some (i, msg))).hear i ((w.unheard none i).filter (·.Result)) := by
  simp only [traffic, Traffic.hear, Traffic.mk.injEq, true_and, and_true]
  funext e
  by_cases he : e = i
  case pos => simp [he]
  case neg => simp [he, unheard_ne he]

-- A message which is no result does not count.
theorem traffic_hear_other (h : ¬msg.Result) : w.traffic none = w.traffic (some (i, msg)) := by
  have hu : (w.unheard (some (i, msg)) i).filter (·.Result) =
    (w.unheard none i).filter (·.Result) := by
    simp [unheard_hand, h]
  rw [traffic_hear i msg, ← hu]
  simp [Traffic.hear, traffic]

theorem traffic_recv {rest : List (Nat × Message)} (h : w.inbound = (i, msg) :: rest) :
    traffic { w with inbound := rest } (some (i, msg)) = w.traffic none := by
  simp [traffic, unheard_recv h]

theorem coming_hand (h : msg.Result) :
    (w.traffic (some (i, msg))).coming i = msg :: (w.unheard none i).filter (·.Result) := by
  simp [traffic, unheard_hand, h]

end Net

namespace Config.Delivers

open Config.Sound

variable {S : Setup} {P : Policy} {c c' : Config} {s s' : ServerState} {w w' : Net} {i j e : Nat}
variable {hand : Option (Nat × Message)} {view view' : Nat → Phase} {msg : Message} {t : Traffic}
variable {l : Ledger}

theorem of_ledger (h : t.Sound l) (hl : s.ledger w view = l) (ht : w.traffic hand = t) :
    Delivers ⟨s, hand, w⟩ :=
  have h : (w.traffic hand).Sound (s.ledger w view) := hl ▸ ht ▸ h
  h.frame rfl rfl rfl (fun _ _ _ => id) fun _ _ he hp hk => ⟨he, hp, hk⟩

theorem sound (h : Delivers ⟨s, hand, w⟩) (view : Nat → Phase) :
    (w.traffic hand).Sound (s.ledger w view) :=
  h.frame rfl rfl rfl (fun _ _ _ => id) fun _ _ he hp hk => ⟨he, hp, hk⟩

theorem act {a : Act} (hs : Sound S ⟨s, hand, w⟩ view) (h : Delivers ⟨s, hand, w⟩)
    (ha : w.step S a = some w') : Delivers ⟨s, hand, w'⟩ := by
  have ⟨ms, c, hm⟩ := Net.step_moved ha
  have hr j :=
    hm.forall_conns (P := fun c c' => c'.role = c.role) (fun _ => rfl) Conn.Step.role_eq j
  have hn j :=
    hm.forall_conns (P := fun c c' => c'.sent = c.sent) (fun _ => rfl) Conn.Step.sent_eq j
  have hl := hs.wired.line hm.present
  have h : (w.traffic hand).Sound (s.ledger w' fun _ => .pending) :=
    h.frame hm.size (funext hn) (funext hr) (fun _ _ _ => id) fun _ _ he hp hk => ⟨he, hp, hk⟩
  rcases hm.conn.produces hl.behaved with ⟨hp, hf⟩ | ⟨_, job, _, msg, hp, hh, hh', rfl, hr', hp'⟩
  case inl =>
    refine h.ends ?_ ?_ fun e _ he => ?_
    case refine_1 =>
      funext e n
      by_cases hj : e = a.conn
      case pos => subst hj; simp [Net.traffic, hm.conns, Conn.results, hp]
      case neg => simp [Net.traffic, hm.conns, hj]
    case refine_2 =>
      funext e
      by_cases hj : e = a.conn <;> simp [Net.traffic, hm.unheard, hj, hf]
    case refine_3 =>
      simp only [Net.traffic, decide_eq_true_eq] at he ⊢
      exact hm.forall_conns (P := fun c c' => c.task.HungUp → c'.task.HungUp) (fun _ => id)
        Conn.Step.hungUp_of e he
  case inr =>
    have ho := hl.orderly hh
    simp only [hp] at ho
    have hj : job + 1 = (w'.conns a.conn).sent.length := by rw [hn]; omega
    have ht : w'.traffic hand = (w.traffic hand).produce a.conn job msg := by
      simp only [Net.traffic, Traffic.produce, Traffic.mk.injEq]
      refine ⟨?_, ?_, ?_⟩ <;> funext e
      case refine_1 =>
        funext n
        by_cases hj : e = a.conn
        case pos =>
          subst hj
          by_cases hn : job = n
          case pos => simp [hm.conns, Conn.results, hp', hn]
          case neg => simp [hm.conns, Conn.results, hp', hn, Ne.symm hn]
        case neg => simp [hm.conns, hj]
      case refine_2 => by_cases hj : e = a.conn <;> simp [hm.unheard, hj, hr']
      case refine_3 =>
        by_cases hj : e = a.conn
        case pos => subst hj; simp [hm.conns, hh, hh']
        case neg => simp [hm.conns, hj]
    exact of_ledger (h.produce (by simpa [Net.traffic] using hh) hj) rfl ht

theorem accept {peer : Peer} (hs : Sound S ⟨s, none, w⟩ view) (hw : w.Works)
    (h : Delivers ⟨s, none, w⟩) : Delivers ⟨s.addRemote, none, w.accept peer⟩ := by
  have hl := h.sound view
  have ha : (w.conns w.size).sent = [] := hl.absent le_rfl
  have hr n : (w.conns w.size).results n = [] :=
    (hw w.size).results_eq_nil <| (hw w.size).count.trans <| by simp [ha]
  refine of_ledger ((hl.accept hs.ledger).ends ?_ ?_ fun e he hh => ?_) ledger_accept rfl
  case refine_1 =>
    funext e n
    by_cases he : e = w.size
    case pos =>
      subst he
      refine .trans ?_ (hr n).symm
      simp [Net.traffic, Conn.fresh, Conn.results]
    case neg => simp [Net.traffic, he]
  case refine_2 =>
    funext e
    simp [Net.traffic, Net.unheard_accept <| hs.wired.absent le_rfl]
  case refine_3 =>
    have hn : e ≠ w.size := by rintro rfl; exact he (Function.update_self ..)
    simpa [Net.traffic, hn] using hh

-- An exec which waits for a task has told everything.
theorem coming_of_queued {rest : List Nat} (hs : Sound S ⟨s, none, w⟩ view)
    (he : s.execQueue = e :: rest) :
    (w.traffic none).coming e = [] := by
  have ⟨_, _, hv⟩ := hs.queued he
  have hi := hs.lt_size (i := e) <| by rcases hv with hv | hv <;> simp [hv]
  rcases hv with hv | hv
  case inl =>
    have hl := hs.wired.line hi
    rw [hv] at hl
    rcases hl.of_idle with ⟨hu, _⟩ | ⟨hu, _⟩ <;> simp only [Net.traffic, hu] <;> rfl
  case inr => simp [Net.traffic, hs.wired.eq_gone_iff hi |>.mp hv]

theorem output (hs : Sound S ⟨s, some (i, msg), w⟩ view) (h : Delivers ⟨s, some (i, msg), w⟩)
    (hm : msg.Result) (hf : Forwards P i msg s w s' w') : Delivers ⟨s', none, w'⟩ := by
  have ⟨_, _, hr, _⟩ := hs.wired.hear
  have hv := (hr.of_result hm).right.left
  have h := h.sound view
  have ht := Net.traffic_hear (w := w) i msg
  cases hf
  case sent j hp hk ho _ =>
    have ⟨_, hsv, _, _⟩ := hs.serves hv hp
    have h := h.put hs.ledger hv hsv hk (Net.coming_hand hm) hm
    exact of_ledger h ledger_put (Net.traffic_put.trans ht)
  case lost j hp hk _ _  =>
    refine of_ledger (h.lose.hear_of_partner (i := j) hp ?_)
      (ledger_lose <| s.lt_length hk nofun) ht
    simp [Ledger.lose]
  case skipped j hp hk   => exact of_ledger (h.hear_of_partner hp hk) rfl ht

-- While the server handles the `Dropped` of an exec, the client which is to be notified is still
-- there.
theorem kind_of_notified (hP : P.Spares droppedNotice) {ev : Event}
    (hs : Sound S ⟨s, some (i, .dropped), w⟩ view) (hv : view i = .busy) (hp : s.partner i = some j)
    (ho : (w.conns j).task.Open) (ha : P.send ev w j droppedNotice) : s.kind j = .client := by
  have ⟨_, hsv, _, hj⟩ := hs.serves hv hp
  have hji : j ≠ i := hs.ledger.serves_ne hv hsv
  rcases hsv.view with hv' | hv'
  case inl => exact (hs.ledger.submitted hv').right.resolve_right fun h => h.right ho
  case inr =>
    have ⟨hh, hu⟩ := hs.wired.eq_gone_iff hj |>.mp hv'
    refine absurd ⟨hh, ?_⟩ <| hP _ _ _ ha ho
    simpa [Net.unheard, hji.symm] using hu

theorem notify (hP : P.Spares droppedNotice) {ev : Event}
    (hs : Sound S ⟨s, some (i, .dropped), w⟩ view)
    (h : Delivers ⟨s, some (i, .dropped), w⟩) (hk : s.kind i = .exec) (hp : s.partner i = some j)
    (ho : (w.conns j).task.Open) (ha : P.send ev w j droppedNotice) :
    Delivers ⟨s.bury i, none, w.put i j droppedNotice⟩ := by
  have hv := hs.busy hk hp
  have ⟨_, hsv, _, hj⟩ := hs.serves hv hp
  have hc := kind_of_notified hP hs hv hp ho ha
  have ⟨hi, _, hm, hw⟩ := hs.wired.hear
  obtain ⟨_, rfl⟩ := hm.of_dropped
  have ⟨hh, hu⟩ := hw.eq_gone_iff hi |>.mp (by simp)
  have hn : (w.traffic (some (i, .dropped))).coming i = [] := by
    simp only [Net.traffic, Net.unheard_hand, hu]
    rfl
  have hl := h.sound view |>.notify hs.ledger hv hsv hc hn (by simpa [Net.traffic] using hh)
  exact of_ledger hl (ledger_drop_put <| s.lt_length hk nofun)
    (Net.traffic_put.trans <| Net.traffic_hear_other id)

theorem move (hP : P.Spares droppedNotice) (hs : c.Sound S view) (hw : c.net.Works) (h : c.Delivers)
    (m : Move S P c c') : c'.Delivers := by
  have hl := h.sound view
  cases m
  case act ha             => exact h.act hs ha
  case accept             => exact h.accept hs hw
  case recv hi _          => exact of_ledger hl rfl (Net.traffic_recv hi)
  case record             => exact h
  case spawn              => exact of_ledger hl ledger_spawned rfl
  case register hi        =>
    have ⟨_, _, hm, _⟩ := hs.wired.hear
    exact of_ledger (hl.register hm.of_hello.left) (ledger_register hi) (Net.traffic_hear_other id)
  case submit hi _        =>
    have ⟨_, _, hm, _⟩ := hs.wired.hear
    have hv := hm.of_task.right.left
    exact of_ledger (hl.submit hs.ledger hv) (ledger_submit hi) (Net.traffic_hear_other id)
  case output hm _ hf     => exact h.output hs hm hf
  case complete hm hf     =>
    have ⟨_, _, hr, _⟩ := hs.wired.hear
    have hr := (hr.of_result hm.result).left
    have hl := (h.output hs hm.result hf).sound view |>.finish (hf.role_eq.symm ▸ hr)
    exact of_ledger hl (ledger_finish <| hf.length_eq ▸ hf.lt_length) rfl
  case drop hi _          => exact of_ledger hl.drop (ledger_drop hi) (Net.traffic_hear_other id)
  case dropIdle hk _      =>
    exact of_ledger hl.drop (ledger_drop <| ServerState.lt_length hk nofun)
      (Net.traffic_hear_other id)
  case dropBusy hk hp ho ha => exact h.notify hP hs hk hp ho ha
  case assign hk he _ hi hj _ _ _ _ =>
    have hl :=
      hl.assign hs.ledger hk he (coming_of_queued hs he) ((hw _).results_eq_nil (hw _).count)
    exact of_ledger hl (ledger_assign hi hj <| hs.length ▸ hs.bound) Net.traffic_put
  case release he hi _ _  =>
    exact of_ledger (hl.release hs.ledger he) (ledger_release hi) Net.traffic_put

end Config.Delivers

theorem Reach.delivers (h : Reach S P c) (ht : P.Tame) (hP : P.Spares droppedNotice) :
    c.Delivers := by
  induction h with
  | start       => exact .of_nothing (fun _ => rfl) fun _ => nofun
  | move h m hi => exact have ⟨_, hs⟩ := h.sound ht; hi.move hP hs h.works m

end SprayCC
